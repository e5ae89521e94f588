import Ramen.Ser.Layout

/-!
# Decoding the spec's layout

What `unserialize` makes of a buffer holding `layout t v` at the cursor. Each piece of the
decoder is matched with the piece of the layout it reads:

* `readLE_of_embeds` — a scalar load reads back the words `wordsLE` wrote;
* `byteAt_of_embeds` — a string's bytes read back from `packBytes`;
* `bitSet_of_embeds` — `bitSet` reads back bit `i` of `nullmaskLayout`;
* `unserializeScalar_layout` — every scalar case returns the value and the cursor past it.
-/

namespace Ramen

/-! ## Loads, bytes and bits -/

/-- The `n` little-endian words of `x` read back as `x` modulo `2 ^ (32 * n)`. -/
theorem readLE_of_embeds {w : List UInt32} :
    ∀ {n p x : Nat}, Embeds w p (wordsLE n x) → readLE w p n = x % 2 ^ (32 * n)
  | 0, _, x, _ => by simp [readLE, Nat.mod_one]
  | n + 1, p, x, h => by
    obtain ⟨hp, hrest⟩ := embeds_cons.mp h
    rw [readLE, readLE_of_embeds hrest, wordAt, hp, u32_toNat_ofNat, Nat.mod_mod,
      show 32 * (n + 1) = 32 + 32 * n by omega, Nat.pow_add, Nat.mod_mul]

/-- A load of at least the value's width gives the value back. -/
theorem ofNat_toNat_mod {n m : Nat} (x : BitVec n) (h : n ≤ m) :
    BitVec.ofNat n (x.toNat % 2 ^ m) = x := by
  apply BitVec.eq_of_toNat_eq
  rw [BitVec.toNat_ofNat, Nat.mod_mod_of_dvd _ (Nat.pow_dvd_pow 2 h), Nat.mod_eq_of_lt x.isLt]

/-- The packed bytes of a string read back one by one. -/
theorem byteAt_of_embeds {w : List UInt32} {p : Nat} {bs : List (BitVec 8)}
    (h : Embeds w p (packBytes bs)) {b : Nat} (hb : b < bs.length) :
    byteAt w (4 * p + b) = bs.getD b 0 := by
  have hj : b / 4 < (packBytes bs).length := by simp; omega
  have hchunk : ∀ d ∈ ((bs.drop (4 * (b / 4))).take 4).map BitVec.toNat, d < 256 := by
    simp only [List.mem_map]
    rintro _ ⟨x, -, rfl⟩
    exact x.isLt
  have hlt := leValue_lt hchunk
  have hlen : (((bs.drop (4 * (b / 4))).take 4).map BitVec.toNat).length ≤ 4 := by
    simp only [List.length_map, List.length_take]
    omega
  have hword : wordAt w (p + b / 4) =
      leValue 256 (((bs.drop (4 * (b / 4))).take 4).map BitVec.toNat) := by
    rw [wordAt_of_embeds h hj, List.getD_eq_getElem _ _ hj]
    simp only [packBytes, List.getElem_map, List.getElem_range, u32_toNat_ofNat]
    exact Nat.mod_eq_of_lt (Nat.lt_of_lt_of_le hlt (Nat.pow_le_pow_right (by omega) hlen))
  apply BitVec.eq_of_toNat_eq
  rw [byteAt, show (4 * p + b) / 4 = p + b / 4 by omega, show (4 * p + b) % 4 = b % 4 by omega,
    hword, BitVec.toNat_ofNat, show (2 : Nat) ^ 8 = 256 from rfl,
    leValue_digit (by omega) hchunk]
  simp only [List.getD_eq_getElem?_getD, List.getElem?_map, List.getElem?_take,
    List.getElem?_drop, show b % 4 < 4 by omega, if_true,
    show 4 * (b / 4) + b % 4 = b by omega]
  cases bs[b]? <;> rfl

/-- The nullmask's bits read back one by one. -/
theorem bitSet_of_embeds {w : List UInt32} {p : Nat} {bits : List Bool}
    (h : Embeds w p (nullmaskLayout bits)) {i : Nat} (hi : i < bits.length) :
    bitSet w (4 * p) i = bits.getD i false := by
  have hb : i / 8 < (nullmaskBytes bits).length := by simp [nullmaskBytes]; omega
  have hchunk : ∀ d ∈ ((bits.drop (8 * (i / 8))).take 8).map Bool.toNat, d < 2 := by
    simp only [List.mem_map]
    rintro _ ⟨b, -, rfl⟩
    exact Bool.toNat_lt b
  rw [bitSet_eq, byteAt_of_embeds h hb, List.getD_eq_getElem _ _ hb]
  simp only [nullmaskBytes, List.getElem_map, List.getElem_range, BitVec.getLsbD_ofNat,
    Nat.testBit_to_div_mod, leValue_digit (by omega) hchunk]
  simp only [List.getD_eq_getElem?_getD, List.getElem?_map, List.getElem?_take,
    List.getElem?_drop, show i % 8 < 8 by omega, if_true, show 8 * (i / 8) + i % 8 = i by omega,
    decide_True, Bool.true_and]
  cases bits[i]? with
  | none => rfl
  | some b => cases b <;> rfl

/-! ## Scalars -/

/-- A scalar case over the words of `x`, with the words inside `max`, returns `x` and moves past
them. -/
theorem scalarCase_load {need words : Nat} {what : String} {mk : Nat → Value}
    {w : List UInt32} {p max x : Nat} (hneed : need ≤ words) (h : Embeds w p (wordsLE words x))
    (hmax : p + words ≤ max) :
    scalarCase need what (loadScalar words mk w) p max =
      (mk (x % 2 ^ (32 * words)), p + words) := by
  rw [scalarCase, if_neg (by omega), loadScalar, readLE_of_embeds h]

/-- The string case reads back a string: its length word, then its bytes. -/
theorem unserializeString_layout {w : List UInt32} {p max : Nat} {bs : List (BitVec 8)}
    (hlen : bs.length < 2 ^ 32) (h : Embeds w p (layoutScalar (.string bs)))
    (hmax : p + (layoutScalar (.string bs)).length ≤ max) :
    unserializeString w max p = (.string bs, p + (layoutScalar (.string bs)).length) := by
  simp only [layoutScalar, List.length_cons, packBytes_length] at h hmax ⊢
  obtain ⟨hp, hbytes⟩ := embeds_cons.mp h
  have hword : wordAt w p = bs.length := by
    rw [wordAt, hp, u32_toNat_ofNat, Nat.mod_eq_of_lt hlen]
  rw [unserializeString, if_neg (by omega)]
  simp only [hword, roundUpWords_eq]
  rw [if_neg (by omega), newString, roundUpWords_eq]
  congr 1
  · congr 1
    apply List.ext_getElem (by simp)
    intro i h1 _
    simp only [List.getElem_map, List.getElem_range]
    rw [byteAt_of_embeds hbytes (by simpa using h1), List.getD_eq_getElem]
  · omega

/-- Every scalar case decodes the layout of a conforming value and leaves the cursor just
past it. -/
theorem unserializeScalar_layout {w : List UInt32} {p max : Nat} {type : ValueType} {v : Value}
    (hc : scalarConforms type v) (h : Embeds w p (layoutScalar v))
    (hmax : p + (layoutScalar v).length ≤ max) :
    unserializeScalar w max type p = (v, p + (layoutScalar v).length) := by
  unfold scalarConforms at hc
  split at hc
  -- each arm of `scalarConforms` by its kind, whatever its place: a pair that does not
  -- conform, the string, a fixed-width pair
  all_goals first
    | exact absurd hc Bool.false_ne_true
    | exact unserializeString_layout (by simpa using hc) h hmax
    | simp only [layoutScalar, wordsLE_length] at h hmax ⊢
      simp only [unserializeScalar, newFloat, newBool, newU8, newU16, newU32, newU64, newU128,
        newI8, newI16, newI32, newI64, newI128, newEth, newIpv4, newIpv6]
      rw [scalarCase_load (by omega) h hmax]
      first
        | rw [ofNat_toNat_mod _ (by omega)]
        | rename_i b; cases b <;> rfl

/-! ## Composites -/

/-- A wire child together with the decoder that `unserialize` runs for it. -/
abbrev DecodedChild := WireChild × Decoder

/-- The decoder of a present child reads back its encoding, wherever it sits before `max`. -/
def DecodesChild (w : List UInt32) (max : Nat) (c : DecodedChild) : Prop :=
  c.1.present → ∀ q, Embeds w q (c.1.2.2 c.1.2.1) → q + (c.1.2.2 c.1.2.1).length ≤ max →
    c.2 q = (c.1.2.1, q + (c.1.2.2 c.1.2.1).length)

/-- The nullmask bits of the nullable children, set when present. -/
def presenceBits (cs : List WireChild) : List Bool := (cs.filter (·.1)).map (·.present)

/-- The encodings of the present children, in wire order. -/
def presentBody (cs : List WireChild) : List UInt32 :=
  (cs.map fun c => if c.present then c.2.2 c.2.1 else []).flatten

/-- The body of the children: the first child's words if it is present, then the rest. -/
theorem presentBody_cons (c : WireChild) (cs : List WireChild) :
    presentBody (c :: cs) = (if c.present then c.2.2 c.2.1 else []) ++ presentBody cs := rfl

/-- The nullmask bits: one bit for a nullable child, then the rest. -/
theorem presenceBits_cons (c : WireChild) (cs : List WireChild) :
    presenceBits (c :: cs) = if c.1 then c.present :: presenceBits cs else presenceBits cs := by
  cases h : c.1 <;> simp [presenceBits, List.filter_cons, h]

/-- A composite is its nullmask followed by its present children. -/
theorem compositeLayout_eq (cs : List WireChild) :
    compositeLayout cs = nullmaskLayout (presenceBits cs) ++ presentBody cs := rfl

/-- **The children loop reads back the present children.** With the nullmask bits of the
nullable children at `null_i, null_i + 1, …` and their encodings laid out from `p`, the loop
returns the children's values and the cursor past the last encoding. -/
theorem unserializeChildren_layout {w : List UInt32} {max : Nat} {isSet : Nat → Bool} :
    ∀ (cs : List DecodedChild) (null_i p : Nat), (∀ c ∈ cs, DecodesChild w max c) →
    (∀ j < (presenceBits (cs.map (·.1))).length,
      isSet (null_i + j) = (presenceBits (cs.map (·.1))).getD j false) →
    Embeds w p (presentBody (cs.map (·.1))) →
    p + (presentBody (cs.map (·.1))).length ≤ max →
    unserializeChildren isSet (cs.map fun c => (c.1.1, c.2)) null_i p =
      (cs.map (·.1.2.1), p + (presentBody (cs.map (·.1))).length)
  | [], _, p, _, _, _, _ => by simp [unserializeChildren, presentBody]
  | ⟨⟨nullable, v, enc⟩, dec⟩ :: cs, null_i, p, hdec, hbits, h, hmax => by
    have hcs : ∀ c ∈ cs, DecodesChild w max c := fun c hc => hdec c (List.mem_cons_of_mem _ hc)
    have hd := hdec _ (List.mem_cons_self _ _)
    dsimp only [DecodesChild] at hd
    simp only [List.map_cons, presentBody_cons, presenceBits_cons, List.length_append]
      at h hmax hbits ⊢
    rw [embeds_append] at h
    cases nullable with
    | true =>
      simp only [eq_self_iff_true, if_true, List.length_cons] at hbits
      have hbit : isSet null_i = !v.isNull := by
        simpa [WireChild.present] using hbits 0
      have hbits' : ∀ j < (presenceBits (cs.map (·.1))).length,
          isSet (null_i + 1 + j) = (presenceBits (cs.map (·.1))).getD j false := by
        intro j hj
        simpa [Nat.add_assoc, Nat.add_comm 1] using hbits (j + 1) (by omega)
      have ih := unserializeChildren_layout cs (null_i + 1) _ hcs hbits' h.2 (by omega)
      cases hv : v.isNull with
      | true =>
        obtain rfl : v = .null := Value.isNull_iff.mp hv
        have hpres : WireChild.present (true, .null, enc) = false := rfl
        simp only [hpres, hbit, hv, unserializeChildren, if_true, Bool.not_true, if_false,
          List.length_nil, Nat.add_zero, Nat.zero_add, Bool.false_eq_true] at ih ⊢
        simp only [ih]
      | false =>
        have hpres : WireChild.present (true, v, enc) = true := by
          simp [WireChild.present, hv]
        simp only [hpres, if_true] at h hmax ih ⊢
        simp only [unserializeChildren, if_true, hbit, hv, Bool.not_false, hd hpres p h.1
          (by omega), ih, Nat.add_assoc]
    | false =>
      have hpres : WireChild.present (false, v, enc) = true := rfl
      simp only [hpres, if_true, Bool.false_eq_true, if_false] at h hmax hbits ⊢
      have ih := unserializeChildren_layout cs null_i _ hcs hbits h.2 (by omega)
      simp only [unserializeChildren, Bool.false_eq_true, if_false, hd hpres p h.1 (by omega), ih,
        Nat.add_assoc]

/-- **A composite reads back its children.** When the decoder skips exactly the spec's
nullmask, the children loop starts right after it, finds each nullable child's bit where
the layout put it, and returns every child with the cursor past the composite. -/
theorem unserializeChildren_composite {w : List UInt32} {max p skip : Nat}
    {cs : List DecodedChild} (hskip : skip = ((presenceBits (cs.map (·.1))).length + 31) / 32)
    (hdec : ∀ c ∈ cs, DecodesChild w max c) (h : Embeds w p (compositeLayout (cs.map (·.1))))
    (hmax : p + (compositeLayout (cs.map (·.1))).length ≤ max) :
    p + skip ≤ max ∧
    unserializeChildren (bitSet w (4 * p)) (cs.map fun c => (c.1.1, c.2)) 0 (p + skip) =
      (cs.map (·.1.2.1), p + (compositeLayout (cs.map (·.1))).length) := by
  rw [compositeLayout_eq, embeds_append, nullmaskLayout_length, ← hskip] at h
  rw [compositeLayout_eq, List.length_append, nullmaskLayout_length, ← hskip] at hmax ⊢
  refine ⟨by omega, ?_⟩
  rw [unserializeChildren_layout cs 0 (p + skip) hdec
    (fun j hj => by rw [Nat.zero_add, bitSet_of_embeds h.1 hj]) h.2 (by omega), Nat.add_assoc]

/-! ## Schemas -/

/-- `unserialize` reads back the layout of every conforming value of `t` wherever it sits
before `max`. -/
def ReadsBack (w : List UInt32) (max : Nat) (t : RamenType) : Prop :=
  ∀ v q, Conforms t v → Embeds w q (layout t v) → q + (layout t v).length ≤ max →
    unserialize w max t false q = (v, q + (layout t v).length)

/-- The tuple and vector cases skip `roundUpWords nullmaskWidth` words, which is the spec's
`⌈k / 32⌉` exactly when there are at most four nullable children. -/
def SmallNullmask : RamenType → Prop
  | .tuple fields _ => fields.countP (·.nullable) ≤ 4
  | .vec dim subType _ => (if subType.nullable then dim else 0) ≤ 4
  | _ => True

/-- For a nullmask of at most four bits, the decoder's word count is the spec's `⌈k / 32⌉`. -/
theorem roundUpWords_small {k : Nat} (hk : k ≤ 4) : roundUpWords k = (k + 31) / 32 := by
  rw [roundUpWords_eq]
  omega

/-- Mapping the first components of a zip over the shorter first list. -/
theorem map_zip_fst {α β γ : Type} {f : α → γ} {l₁ : List α} {l₂ : List β}
    (h : l₁.length ≤ l₂.length) : (l₁.zip l₂).map (fun p => f p.1) = l₁.map f := by
  simpa only [List.map_map] using congrArg (List.map f) (List.map_fst_zip l₁ l₂ h)

/-- Mapping the second components of a zip over the shorter second list. -/
theorem map_zip_snd {α β γ : Type} {f : β → γ} {l₁ : List α} {l₂ : List β}
    (h : l₂.length ≤ l₁.length) : (l₁.zip l₂).map (fun p => f p.2) = l₂.map f := by
  simpa only [List.map_map] using congrArg (List.map f) (List.map_snd_zip l₁ l₂ h)

/-- A child conforming to its type, or `Null` where the type is nullable, is read back. -/
theorem decodesChild_of_conforms {w : List UInt32} {max : Nat} {t : RamenType} {v : Value}
    (ht : ReadsBack w max t) (hnull : v.isNull → t.nullable)
    (hconf : v.isNull = false → Conforms t v) :
    DecodesChild w max ((t.nullable, v, layout t), unserialize w max t false) := by
  intro hpres q h hq
  cases hv : v.isNull
  · exact ht v q (hconf hv) h hq
  · simp [WireChild.present, hnull hv, hv] at hpres

/-- The tuple case reads back a tuple whose fields read back. -/
theorem unserialize_layout_tuple {w : List UInt32} {max p : Nat} {fields : List RamenType}
    {nullable top : Bool} {vs : List Value} (ih : ∀ t ∈ fields, ReadsBack w max t)
    (hsmall : fields.countP (·.nullable) ≤ 4)
    (hconf : Conforms (.tuple fields nullable) (.tuple vs))
    (h : Embeds w p (layout (.tuple fields nullable) (.tuple vs)))
    (hmax : p + (layout (.tuple fields nullable) (.tuple vs)).length ≤ max) :
    unserialize w max (.tuple fields nullable) top p =
      (.tuple vs, p + (layout (.tuple fields nullable) (.tuple vs)).length) := by
  obtain _ | ⟨hlen, hnull, hsub⟩ := hconf
  let cs : List DecodedChild := (fields.zip vs).map fun tv =>
    ((tv.1.nullable, tv.2, layout tv.1), unserialize w max tv.1 false)
  have hlay : layout (.tuple fields nullable) (.tuple vs) = compositeLayout (cs.map (·.1)) := by
    rw [layout, childEncoders_eq, List.zipWith_map_left, List.map_map, List.zip_eq_zipWith,
      List.map_zipWith]
    rfl
  have hdecs : childDecoders w max fields = cs.map fun c => (c.1.1, c.2) := by
    rw [childDecoders_eq, List.map_map]
    exact (map_zip_fst (by omega)).symm
  have hvals : cs.map (·.1.2.1) = vs := by
    rw [List.map_map]
    exact (map_zip_snd (by omega)).trans (List.map_id vs)
  have hbits : (presenceBits (cs.map (·.1))).length = fields.countP (·.nullable) := by
    rw [presenceBits, List.length_map, ← List.countP_eq_length_filter, List.map_map,
      List.countP_map]
    show List.countP ((·.nullable) ∘ Prod.fst) (fields.zip vs) = _
    rw [← List.countP_map, List.map_fst_zip _ _ (by omega)]
  have hdec : ∀ c ∈ cs, DecodesChild w max c := by
    simp only [cs, List.mem_map]
    rintro _ ⟨tv, htv, rfl⟩
    exact decodesChild_of_conforms (ih tv.1 (List.of_mem_zip htv).1) (hnull tv htv) (hsub tv htv)
  have hskip : roundUpWords (fields.countP (·.nullable)) =
      ((presenceBits (cs.map (·.1))).length + 31) / 32 := by
    rw [hbits]
    exact roundUpWords_small hsmall
  rw [hlay] at h hmax ⊢
  obtain ⟨hfit, hloop⟩ := unserializeChildren_composite hskip hdec h hmax
  simp only [unserialize, RamenType.nullmaskWidth]
  rw [if_neg (by omega), hdecs, hloop, hvals]

/-- The vector case reads back a vector whose elements read back. -/
theorem unserialize_layout_vec {w : List UInt32} {max p dim : Nat} {subType : RamenType}
    {nullable top : Bool} {vs : List Value} (ih : ReadsBack w max subType)
    (hsmall : (if subType.nullable then dim else 0) ≤ 4)
    (hconf : Conforms (.vec dim subType nullable) (.vec vs))
    (h : Embeds w p (layout (.vec dim subType nullable) (.vec vs)))
    (hmax : p + (layout (.vec dim subType nullable) (.vec vs)).length ≤ max) :
    unserialize w max (.vec dim subType nullable) top p =
      (.vec vs, p + (layout (.vec dim subType nullable) (.vec vs)).length) := by
  obtain _ | _ | ⟨hlen, hnull, hsub⟩ := hconf
  let cs : List DecodedChild :=
    vs.map fun v => ((subType.nullable, v, layout subType), unserialize w max subType false)
  have hlay : layout (.vec dim subType nullable) (.vec vs) = compositeLayout (cs.map (·.1)) := by
    rw [layout, List.map_map]
    rfl
  have hdecs : List.replicate dim (subType.nullable, unserialize w max subType false) =
      cs.map fun c => (c.1.1, c.2) := by
    rw [List.map_map, ← hlen]
    exact (List.map_const' _ _).symm
  have hvals : cs.map (·.1.2.1) = vs := by
    rw [List.map_map]
    exact List.map_id vs
  have hbits : (presenceBits (cs.map (·.1))).length = if subType.nullable then dim else 0 := by
    rw [presenceBits, List.length_map, ← List.countP_eq_length_filter, List.map_map,
      List.countP_map, ← hlen]
    cases subType.nullable <;> simp
  have hdec : ∀ c ∈ cs, DecodesChild w max c := by
    simp only [cs, List.mem_map]
    rintro _ ⟨v, hv, rfl⟩
    exact decodesChild_of_conforms ih (hnull v hv) (hsub v hv)
  have hskip : roundUpWords (if subType.nullable then dim else 0) =
      ((presenceBits (cs.map (·.1))).length + 31) / 32 := by
    rw [hbits]
    exact roundUpWords_small hsmall
  rw [hlay] at h hmax ⊢
  obtain ⟨hfit, hloop⟩ := unserializeChildren_composite hskip hdec h hmax
  simp only [unserialize, RamenType.nullmaskWidth]
  rw [if_neg (by omega), hdecs, hloop, hvals]

/-! ## Records -/

/-- The pair of the `i`-th elements of two lists is in their zip. -/
theorem getD_mem_zip {α β : Type} {l₁ : List α} {l₂ : List β} {i : Nat} (d₁ : α)
    (d₂ : β) (h₁ : i < l₁.length) (h₂ : i < l₂.length) :
    (l₁.getD i d₁, l₂.getD i d₂) ∈ l₁.zip l₂ :=
  List.mem_iff_getElem?.mpr ⟨i, List.getElem?_zip_eq_some.mpr
    ⟨by simp [List.getElem?_eq_getElem h₁], by simp [List.getElem?_eq_getElem h₂]⟩⟩

/-- With `serOrder` a permutation of the indices, the record's children in wire order are
its fields in `serOrder`. -/
theorem recordWire_eq {fields : List (String × RamenType)} {fieldValues : List (String × Value)}
    {serOrder : List Nat} (hlen : fieldValues.length = fields.length)
    (hidx : ∀ i ∈ serOrder, i < fields.length) :
    recordWire (fieldEncoders fields) fieldValues serOrder = serOrder.map fun i =>
      ((fields.getD i default).2.nullable, (fieldValues.getD i ("", .null)).2,
        layout (fields.getD i default).2) := by
  refine filterMap_eq_map_of fun i hi => ?_
  rw [fieldEncoders_eq]
  have hf := hidx i hi
  have hv : i < fieldValues.length := hlen ▸ hf
  simp [List.getElem?_eq_getElem hf, List.getElem?_eq_getElem hv, List.getD_eq_getElem _ _ hf,
    List.getD_eq_getElem _ _ hv]

/-- The record case reads back a record whose fields read back, in the order `serOrder` sends
them. -/
theorem unserialize_layout_record {w : List UInt32} {max p : Nat}
    {fields : List (String × RamenType)} {serOrder : List Nat} {nullable top : Bool}
    {fieldValues : List (String × Value)} (ih : ∀ f ∈ fields, ReadsBack w max f.2)
    (hperm : serOrder.Perm (List.range fields.length))
    (hconf : Conforms (.record fields serOrder nullable) (.record fieldValues))
    (h : Embeds w p (layout (.record fields serOrder nullable) (.record fieldValues)))
    (hmax : p + (layout (.record fields serOrder nullable) (.record fieldValues)).length ≤ max) :
    unserialize w max (.record fields serOrder nullable) top p =
      (.record fieldValues,
        p + (layout (.record fields serOrder nullable) (.record fieldValues)).length) := by
  obtain _ | _ | _ | ⟨hlen, hname, hnull, hsub⟩ := hconf
  have hidx : ∀ i ∈ serOrder, i < fields.length := fun i hi =>
    List.mem_range.mp (hperm.subset hi)
  let gf i := fields.getD i default
  let gv i := fieldValues.getD i ("", .null)
  let cs : List DecodedChild := serOrder.map fun i =>
    (((gf i).2.nullable, (gv i).2, layout (gf i).2), unserialize w max (gf i).2 false)
  have hmem : ∀ i ∈ serOrder, (gf i, gv i) ∈ fields.zip fieldValues := fun i hi =>
    getD_mem_zip _ _ (hidx i hi) (hlen ▸ hidx i hi)
  have hlay : layout (.record fields serOrder nullable) (.record fieldValues) =
      compositeLayout (cs.map (·.1)) := by
    rw [layout, recordWire_eq hlen hidx, List.map_map]
    rfl
  have hdecs : (wireFields (fieldDecoders w max fields) serOrder).map
      (fun f => (f.2.2.1, f.2.2.2)) = cs.map fun c => (c.1.1, c.2) := by
    rw [wireFields_eq hidx, List.map_map, List.map_map]
    rfl
  have hnames : (wireFields (fieldDecoders w max fields) serOrder).map (fun f => (f.1, f.2.1)) =
      serOrder.map fun i => (i, (gv i).1) := by
    rw [wireFields_eq hidx, List.map_map]
    exact List.map_congr_left fun i hi => congrArg (Prod.mk i) (hname _ (hmem i hi)).symm
  have hplace : (List.range fields.length).map
      (fun j => if j ∈ serOrder then gv j
        else (List.replicate fields.length ("", Value.null)).getD j ("", .null)) =
      fieldValues := by
    rw [List.map_congr_left fun j hj => if_pos (hperm.mem_iff.mpr hj), ← hlen]
    exact map_getD_range _ _
  have hbits : (presenceBits (cs.map (·.1))).length = fields.countP (·.2.nullable) := by
    rw [presenceBits, List.length_map, ← List.countP_eq_length_filter, List.map_map,
      List.countP_map]
    exact countP_serOrder hperm (·.2.nullable)
  have hdec : ∀ c ∈ cs, DecodesChild w max c := by
    simp only [cs, List.mem_map]
    rintro _ ⟨i, hi, rfl⟩
    have hz := hmem i hi
    exact decodesChild_of_conforms (ih _ (List.of_mem_zip hz).1) (hnull _ hz) (hsub _ hz)
  have hskip : roundUpWords ((fields.countP (·.2.nullable) + 7) / 8) =
      ((presenceBits (cs.map (·.1))).length + 31) / 32 := by
    rw [hbits, roundUpWords_eq]
    omega
  rw [hlay] at h hmax ⊢
  obtain ⟨hfit, hloop⟩ := unserializeChildren_composite hskip hdec h hmax
  simp only [unserialize, RamenType.nullmaskWidth]
  have hvals : cs.map (·.1.2.1) = serOrder.map fun i => (gv i).2 := by
    rw [List.map_map]
    rfl
  rw [if_neg (by omega), hdecs, hloop, hnames, hvals, placeFields_map gv serOrder,
    List.length_replicate, hplace]

/-! ## The round trip -/

/-- Below the top level, every well-formed schema with small nullmasks reads back every value that
conforms to it. -/
theorem readsBack {w : List UInt32} {max : Nat} (t : RamenType) :
    t.WellFormed → RamenType.Every SmallNullmask t → ReadsBack w max t := by
  induction t with
  | scalar type nullable =>
    rintro - - v q ⟨hc⟩ h hq
    exact unserializeScalar_layout hc h hq
  | tuple fields nullable ih =>
    rintro (_ | ⟨-, hwf⟩) (_ | ⟨hs, hsmall⟩) v q (_ | ⟨hlen, hnull, hsub⟩) h hq
    exact unserialize_layout_tuple (fun t ht => ih t ht (hwf t ht) (hsmall t ht)) hs
      (.tuple hlen hnull hsub) h hq
  | vec dim subType nullable ih =>
    rintro (_ | _ | ⟨-, hwf⟩) (_ | _ | ⟨hs, hsmall⟩) v q (_ | _ | ⟨hlen, hnull, hsub⟩) h
      hq
    exact unserialize_layout_vec (ih hwf hsmall) hs (.vec hlen hnull hsub) h hq
  | record fields serOrder nullable ih =>
    rintro (_ | _ | _ | ⟨hperm, hwf⟩) (_ | _ | _ | ⟨-, hsmall⟩) v q
      (_ | _ | _ | ⟨hlen, hname, hnull, hsub⟩) h hq
    exact unserialize_layout_record (fun f hf => ih f hf (hwf f hf) (hsmall f hf)) hperm
      (.record hlen hname hnull hsub) h hq

/-- **Decode undoes the layout.** For a schema whose records have a permutation for
`serOrder` and whose tuples and vectors have at most four nullable children, `unserialize`
returns every conforming value from its layout, at any position of the buffer, with the
cursor right past it. -/
theorem unserialize_layout {t : RamenType} {v : Value} {w : List UInt32} {p max : Nat}
    (top : Bool) (hwf : t.WellFormed) (hsmall : RamenType.Every SmallNullmask t)
    (hc : Conforms t v) (h : Embeds w p (layout t v)) (hmax : p + (layout t v).length ≤ max) :
    unserialize w max t top p = (v, p + (layout t v).length) := by
  rw [unserialize_topLevel]
  exact readsBack t hwf hsmall v p hc h hmax

/-- A record with a nullable field `a` sent after a field `b`. -/
def recordBA : RamenType :=
  .record [("a", .scalar .u32Type true), ("b", .scalar .u64Type false)] [1, 0] false

/-- A record sent in the order `b`, `a` reads back with its fields in declaration order. -/
theorem unserialize_layout_recordBA :
    unserialize [1, 9, 0, 5] 4 recordBA true 0 =
      (.record [("a", .u32 5), ("b", .u64 9)], 4) :=
  unserialize_layout (w := [1, 9, 0, 5]) true
    (.record (show List.Perm [1, 0] (List.range 2) by decide) fun f hf => by
      simp only [List.mem_cons, List.mem_singleton, List.not_mem_nil, or_false] at hf
      rcases hf with rfl | rfl <;> exact .scalar trivial)
    (.record trivial fun f hf => by
      simp only [List.mem_cons, List.mem_singleton, List.not_mem_nil, or_false] at hf
      rcases hf with rfl | rfl <;> exact .scalar trivial)
    (.record rfl (by decide) (by decide) fun p hp _ => by
      simp only [List.zip_cons_cons, List.zip_nil_right, List.mem_cons, List.mem_singleton,
        List.not_mem_nil, or_false] at hp
      rcases hp with rfl | rfl <;> exact .scalar rfl)
    (fun k hk => by revert k; decide) (by decide)

/-- A tuple of five nullable `u32`s. -/
def fiveNullableU32 : RamenType := .tuple (List.replicate 5 (.scalar .u32Type true)) false

/-- Without the bound on nullable children the round trip fails: five present nullable `u32`s
have a one-word nullmask, but the decoder skips `roundUpWords 5 = 2` words, reads each field
one word late and runs out of buffer at the last one. -/
theorem unserialize_fiveNullableU32 :
    Conforms fiveNullableU32 (.tuple [.u32 1, .u32 2, .u32 3, .u32 4, .u32 5]) ∧
    layout fiveNullableU32 (.tuple [.u32 1, .u32 2, .u32 3, .u32 4, .u32 5]) =
      [31, 1, 2, 3, 4, 5] ∧
    unserialize [31, 1, 2, 3, 4, 5] 6 fiveNullableU32 true 0 =
      (.tuple [.u32 2, .u32 3, .u32 4, .u32 5, .error "Cannot unserialize u32"], 6) := by
  refine ⟨.tuple rfl (by decide) fun p hp _ => ?_, rfl, rfl⟩
  obtain ⟨h1, h2⟩ := List.of_mem_zip hp
  rw [List.eq_of_mem_replicate h1]
  simp only [List.mem_cons, List.mem_singleton, List.not_mem_nil, or_false] at h2
  rcases h2 with h | h | h | h | h <;> exact .scalar (by rw [h]; rfl)

end Ramen
