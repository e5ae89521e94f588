import Ramen.Ser.Unserialize
import Mathlib.Tactic.SplitIfs

/-!
# What the decoder reads

The contract of `unserialize` is to read only the words in `[start, max)`. Reads are
modelled by `wordAt`, so "reads only `[start, max)`" is a frame property: two buffers that
agree on `[start, max)` decode to the same tree and cursor.

* `readLE_congr`, `bitSet_congr` — a load and a nullmask bit depend only on the words they
  cover;
* `unserializeScalar_congr` — every scalar case that checks as many words as it loads reads
  inside the window; `ipv4` checks one word and loads two;
* `unserializeChildren_congr` — the children loop reads inside the window when each child
  does and the cursor never moves back (`Advances`);
* `unserialize_congr` — for schemas with no `ipv4` node and records whose `serOrder` is a
  permutation, the whole decode depends only on the words in `[start, max)`.
-/

namespace Ramen

/-! ## Buffers that agree on a window -/

/-- `w` and `w'` hold the same words at every index from `lo` up to `hi`. -/
def Agree (w w' : List UInt32) (lo hi : Nat) : Prop :=
  ∀ i, lo ≤ i → i < hi → wordAt w i = wordAt w' i

/-- Buffers that agree on a window agree on every window inside it. -/
theorem Agree.mono {w w' : List UInt32} {lo lo' hi hi' : Nat} (h : Agree w w' lo hi)
    (hlo : lo ≤ lo') (hhi : hi' ≤ hi) : Agree w w' lo' hi' :=
  fun i h₁ h₂ => h i (by omega) (by omega)

/-- A little-endian read of `n` words sees only those words. -/
theorem readLE_congr {w w' : List UInt32} :
    ∀ {start n : Nat}, Agree w w' start (start + n) → readLE w start n = readLE w' start n
  | _, 0, _ => rfl
  | start, n + 1, h => by
    rw [readLE, readLE, h start (Nat.le_refl _) (by omega),
      readLE_congr (h.mono (Nat.le_succ start) (by omega))]

/-- A byte is read from its word only. -/
theorem byteAt_congr {w w' : List UInt32} {b : Nat} (h : wordAt w (b / 4) = wordAt w' (b / 4)) :
    byteAt w b = byteAt w' b := by
  rw [byteAt, byteAt, h]

/-- Bit `i` of a nullmask at word `p` lies in word `p + i / 32`. -/
theorem bitSet_congr {w w' : List UInt32} {p i : Nat}
    (h : wordAt w (p + i / 32) = wordAt w' (p + i / 32)) :
    bitSet w (4 * p) i = bitSet w' (4 * p) i := by
  rw [bitSet_eq, bitSet_eq, byteAt_congr]
  rwa [show (4 * p + i / 8) / 4 = p + i / 32 by omega]

/-! ## Decoders -/

/-- A decoder never moves the cursor back. -/
def Advances (dec : Decoder) : Prop := ∀ s, s ≤ (dec s).2

/-- A decoder over `w` and one over `w'` that agree from every cursor from which the two
buffers agree up to `max`. -/
def Framed (w w' : List UInt32) (max : Nat) (dec dec' : Decoder) : Prop :=
  ∀ s, Agree w w' s max → dec s = dec' s

/-! ## Scalars -/

/-- A scalar case never moves the cursor back. -/
theorem scalarCase_advances {need words max : Nat} {what : String} {mk : Nat → Value}
    {w : List UInt32} : Advances fun s => scalarCase need what (loadScalar words mk w) s max := by
  intro s
  dsimp only [scalarCase, loadScalar]
  split <;> simp

/-- The string case never moves the cursor back. -/
theorem unserializeString_advances {w : List UInt32} {max : Nat} :
    Advances (unserializeString w max) := by
  intro s
  dsimp only [unserializeString, newString]
  split
  · exact Nat.le_refl _
  · split <;> dsimp only <;> omega

/-- No scalar case moves the cursor back. -/
theorem unserializeScalar_advances (w : List UInt32) (max : Nat) (type : ValueType) :
    Advances (unserializeScalar w max type) := by
  cases type
  all_goals first
    | exact scalarCase_advances
    | exact unserializeString_advances
    | exact fun _ => Nat.le_refl _

/-- A scalar case reads inside the window when it checks at least the words it loads. -/
theorem scalarCase_congr {need words max s : Nat} {what : String} {mk : Nat → Value}
    {w w' : List UInt32} (hwords : words ≤ need) (h : Agree w w' s max) :
    scalarCase need what (loadScalar words mk w) s max =
      scalarCase need what (loadScalar words mk w') s max := by
  unfold scalarCase loadScalar
  split
  · rfl
  · rw [readLE_congr (h.mono (Nat.le_refl _) (by omega))]

/-- The string case reads inside the window: its length word, then the bytes it checked fit. -/
theorem unserializeString_congr {w w' : List UInt32} {max s : Nat} (h : Agree w w' s max) :
    unserializeString w max s = unserializeString w' max s := by
  dsimp only [unserializeString, newString]
  split
  · rfl
  · rw [h s (Nat.le_refl _) (by omega)]
    split
    · rfl
    · rename_i hfit
      refine congrArg (·, _) (congrArg Value.string (List.map_congr_left fun i hi => ?_))
      have hi := List.mem_range.mp hi
      rw [roundUpWords_eq] at hfit
      exact byteAt_congr (h _ (by omega) (by omega))

/-- The scalar cases read inside the window, `ipv4` apart. -/
theorem unserializeScalar_congr {w w' : List UInt32} {max : Nat} {type : ValueType}
    (htype : type ≠ .ipv4Type) : Framed w w' max (unserializeScalar w max type)
      (unserializeScalar w' max type) := by
  intro s h
  cases type
  case ipv4Type => exact absurd rfl htype
  case stringType => exact unserializeString_congr h
  all_goals first
    | exact scalarCase_congr (by decide) h
    | rfl

/-! ## The children loop -/

/-- The children loop never moves the cursor back when no child decoder does. -/
theorem unserializeChildren_advances {isSet : Nat → Bool} :
    ∀ (cs : List (Bool × Decoder)) (null_i s : Nat), (∀ c ∈ cs, Advances c.2) →
      s ≤ (unserializeChildren isSet cs null_i s).2
  | [], _, _, _ => Nat.le_refl _
  | (nullable, dec) :: cs, null_i, s, h => by
    rw [unserializeChildren_cons]
    refine Nat.le_trans ?_ (unserializeChildren_advances cs _ _ fun c hc =>
      h c (List.mem_cons_of_mem _ hc))
    split
    · exact Nat.le_refl _
    · exact h _ (List.mem_cons_self _ _) s

/-- **The loop reads inside the window.** Children given by their decoders over `w` and over
`w'` decode alike when each pair is framed, each decoder advances, and the nullmask bits of
the nullable children agree. -/
theorem unserializeChildren_congr {w w' : List UInt32} {max : Nat} {isSet isSet' : Nat → Bool} :
    ∀ (ds : List (Bool × Decoder × Decoder)) (null_i s : Nat),
      (∀ d ∈ ds, Framed w w' max d.2.1 d.2.2 ∧ Advances d.2.1) →
      (∀ j < (ds.filter (·.1)).length, isSet (null_i + j) = isSet' (null_i + j)) →
      Agree w w' s max →
      unserializeChildren isSet (ds.map fun d => (d.1, d.2.1)) null_i s =
        unserializeChildren isSet' (ds.map fun d => (d.1, d.2.2)) null_i s
  | [], _, _, _, _, _ => rfl
  | (nullable, dec, dec') :: ds, null_i, s, hds, hbits, h => by
    have hf : Framed w w' max dec dec' := (hds _ (List.mem_cons_self _ _)).1
    have ha : Advances dec := (hds _ (List.mem_cons_self _ _)).2
    have htail : ∀ d ∈ ds, Framed w w' max d.2.1 d.2.2 ∧ Advances d.2.1 := fun d hd =>
      hds d (List.mem_cons_of_mem _ hd)
    have hbit : nullable → isSet null_i = isSet' null_i := fun hn => by
      simpa using hbits 0 (by simp [List.filter_cons, hn])
    have hbits' : ∀ j < (ds.filter (·.1)).length, isSet ((if nullable then null_i + 1 else
        null_i) + j) = isSet' ((if nullable then null_i + 1 else null_i) + j) := by
      intro j hj
      cases nullable
      · simpa using hbits j (by simpa [List.filter_cons] using hj)
      · simpa [Nat.add_assoc, Nat.add_comm 1] using
          hbits (j + 1) (by simpa [List.filter_cons] using hj)
    have hr : (if nullable && !isSet null_i then (Value.null, s) else dec s) =
        (if nullable && !isSet' null_i then (Value.null, s) else dec' s) := by
      cases nullable
      · simp only [Bool.false_and, Bool.false_eq_true, if_false, hf s h]
      · rw [hbit rfl, hf s h]
    have hs : s ≤ (if nullable && !isSet null_i then (Value.null, s) else dec s).2 := by
      split
      · exact Nat.le_refl _
      · exact ha s
    simp only [List.map_cons, unserializeChildren_cons]
    rw [← hr, unserializeChildren_congr ds _ _ htail hbits' (h.mono hs (Nat.le_refl _))]

/-! ## Schemas -/

/-- The composite cases either give up past the nullmask or end where their loop ends. -/
theorem composite_advances {s skip max : Nat} {v : Value} {r : Value × Nat}
    (hr : s + skip ≤ r.2) : s ≤ (if s + skip > max then (v, s + skip) else r).2 := by
  split <;> omega

/-- The decoder never moves the cursor back, for every schema. -/
theorem unserialize_advances (w : List UInt32) (max : Nat) (t : RamenType) (top : Bool) :
    Advances (unserialize w max t top) := by
  rw [unserialize_topLevel]
  induction t with
  | scalar type nullable => exact unserializeScalar_advances w max type
  | tuple fields nullable ih =>
    intro s
    rw [unserialize_tuple_eq, childDecoders_eq]
    refine composite_advances (unserializeChildren_advances _ _ _ ?_)
    simp only [List.mem_map]
    rintro _ ⟨t, ht, rfl⟩
    exact ih t ht
  | vec dim subType nullable ih =>
    intro s
    rw [unserialize_vec_eq]
    exact composite_advances (unserializeChildren_advances _ _ _ fun c hc =>
      (List.eq_of_mem_replicate hc).symm ▸ ih)
  | record fields serOrder nullable ih =>
    intro s
    rw [unserialize_record_eq]
    refine composite_advances (unserializeChildren_advances _ _ _ ?_)
    simp only [List.mem_map]
    rintro _ ⟨f, hf, rfl⟩
    obtain ⟨g, hg, hfg⟩ := List.mem_map.mp (fieldDecoders_eq w max fields ▸ mem_wireFields hf)
    rw [← hfg]
    exact ih g hg

/-- The schemas whose every scalar case checks as many words as it loads: no `ipv4` node. -/
def NotIpv4 : RamenType → Prop
  | .scalar type _ => type ≠ .ipv4Type
  | _ => True

/-- The composite cases read nothing when they give up past the nullmask. -/
theorem composite_congr {s skip max : Nat} {v : Value} {r r' : Value × Nat}
    (h : s + skip ≤ max → r = r') :
    (if s + skip > max then (v, s + skip) else r) =
      (if s + skip > max then (v, s + skip) else r') := by
  split
  · rfl
  · exact h (by omega)

/-- A nullmask bit whose word is among the `skip` words the decoder skipped lies inside the
window. -/
theorem bitSet_congr_of_agree {w w' : List UInt32} {s max skip j : Nat}
    (h : Agree w w' s max) (hfit : s + skip ≤ max) (hj : j / 32 < skip) :
    bitSet w (4 * s) (0 + j) = bitSet w' (4 * s) (0 + j) := by
  rw [Nat.zero_add]
  exact bitSet_congr (h _ (by omega) (by omega))

/-- Below the top level, for a schema with no `ipv4` node, the decoder reads inside the window. -/
theorem framed_unserialize {w w' : List UInt32} {max : Nat} (t : RamenType) :
    t.WellFormed → RamenType.Every NotIpv4 t →
      Framed w w' max (unserialize w max t false) (unserialize w' max t false) := by
  induction t with
  | scalar type nullable =>
    rintro - ⟨htype⟩
    exact unserializeScalar_congr htype
  | tuple fields nullable ih =>
    rintro (_ | ⟨-, hwf⟩) (_ | ⟨-, hno⟩) s h
    let ds := fields.map fun t =>
      (t.nullable, unserialize w max t false, unserialize w' max t false)
    rw [unserialize_tuple_eq, unserialize_tuple_eq, childDecoders_eq, childDecoders_eq]
    refine composite_congr fun hfit => ?_
    have hds : ∀ d ∈ ds, Framed w w' max d.2.1 d.2.2 ∧ Advances d.2.1 := by
      simp only [ds, List.mem_map]
      rintro _ ⟨t, ht, rfl⟩
      exact ⟨ih t ht (hwf t ht) (hno t ht), unserialize_advances w max t false⟩
    have hlen : (ds.filter (·.1)).length = fields.countP (·.nullable) := by
      rw [← List.countP_eq_length_filter, List.countP_map]
      rfl
    have hloop := unserializeChildren_congr ds 0 (s + roundUpWords (fields.countP (·.nullable)))
      hds (fun j hj => bitSet_congr_of_agree h hfit
        (by rw [hlen] at hj; rw [roundUpWords_eq]; omega))
      (h.mono (Nat.le_add_right _ _) (Nat.le_refl _))
    simp only [ds, List.map_map] at hloop
    exact congrArg (fun r => (Value.tuple r.1, r.2)) hloop
  | vec dim subType nullable ih =>
    rintro (_ | _ | ⟨-, hwf⟩) (_ | _ | ⟨-, hno⟩) s h
    let ds := List.replicate dim
      (subType.nullable, unserialize w max subType false, unserialize w' max subType false)
    rw [unserialize_vec_eq, unserialize_vec_eq]
    refine composite_congr fun hfit => ?_
    have hds : ∀ d ∈ ds, Framed w w' max d.2.1 d.2.2 ∧ Advances d.2.1 := fun d hd =>
      (List.eq_of_mem_replicate hd).symm ▸
        ⟨ih hwf hno, unserialize_advances w max subType false⟩
    have hlen : (ds.filter (·.1)).length = if subType.nullable then dim else 0 := by
      cases hn : subType.nullable <;> simp [ds, List.filter_replicate, hn]
    have hloop := unserializeChildren_congr ds 0
      (s + roundUpWords (if subType.nullable then dim else 0)) hds
      (fun j hj => bitSet_congr_of_agree h hfit (by
        rw [hlen] at hj
        rw [roundUpWords_eq]
        generalize (if subType.nullable then dim else 0) = k at hj ⊢
        omega))
      (h.mono (Nat.le_add_right _ _) (Nat.le_refl _))
    simp only [ds, List.map_replicate] at hloop
    exact congrArg (fun r => (Value.vec r.1, r.2)) hloop
  | record fields serOrder nullable ih =>
    rintro (_ | _ | _ | ⟨hperm, hwf⟩) (_ | _ | _ | ⟨-, hno⟩) s h
    have hidx : ∀ i ∈ serOrder, i < fields.length := fun i hi =>
      List.mem_range.mp (hperm.subset hi)
    let gf i := fields.getD i default
    let ds := serOrder.map fun i =>
      ((gf i).2.nullable, unserialize w max (gf i).2 false, unserialize w' max (gf i).2 false)
    rw [unserialize_record_eq, unserialize_record_eq, wireFields_eq hidx, wireFields_eq hidx]
    refine composite_congr fun hfit => ?_
    have hds : ∀ d ∈ ds, Framed w w' max d.2.1 d.2.2 ∧ Advances d.2.1 := by
      simp only [ds, List.mem_map]
      rintro _ ⟨i, hi, rfl⟩
      have hf : gf i ∈ fields := by
        simp only [gf, List.getD_eq_getElem _ _ (hidx i hi), List.getElem_mem]
      exact ⟨ih _ hf (hwf _ hf) (hno _ hf), unserialize_advances w max _ false⟩
    have hlen : (ds.filter (·.1)).length = fields.countP (·.2.nullable) := by
      rw [← List.countP_eq_length_filter, List.countP_map]
      exact countP_serOrder hperm (·.2.nullable)
    have hloop := unserializeChildren_congr ds 0
      (s + roundUpWords ((fields.countP (·.2.nullable) + 7) / 8)) hds
      (fun j hj => bitSet_congr_of_agree h hfit (by rw [hlen] at hj; rw [roundUpWords_eq]; omega))
      (h.mono (Nat.le_add_right _ _) (Nat.le_refl _))
    simp only [ds, List.map_map, Function.comp_def] at hloop ⊢
    rw [hloop]

/-- **The decoder reads only `[start, max)`.** For a schema with no `ipv4` node whose records
have a permutation for `serOrder`, two buffers that hold the same words from `start` up to
`max` decode to the same tree and the same cursor. -/
theorem unserialize_congr {w w' : List UInt32} {max start : Nat} {t : RamenType} (top : Bool)
    (hwf : t.WellFormed) (hno : RamenType.Every NotIpv4 t) (h : Agree w w' start max) :
    unserialize w max t top start = unserialize w' max t top start := by
  rw [unserialize_topLevel w, unserialize_topLevel w']
  exact framed_unserialize t hwf hno start h

/-- A nullable `u32` in a tuple decodes alike from buffers that differ only past `max`. -/
theorem unserialize_congr_nullableU32 :
    unserialize [1, 5, 0] 2 (.tuple [.scalar .u32Type true] false) true 0 =
      unserialize [1, 5, 9] 2 (.tuple [.scalar .u32Type true] false) true 0 :=
  unserialize_congr true
    (.tuple trivial fun t ht => by rw [List.mem_singleton.mp ht]; exact .scalar trivial)
    (.tuple trivial fun t ht => by
      rw [List.mem_singleton.mp ht]; exact .scalar (show ValueType.u32Type ≠ .ipv4Type by decide))
    fun i _ hi => match i, hi with
      | 0, _ => rfl
      | 1, _ => rfl

/-! ## Where the cursor ends -/

/-- From any cursor up to `max`, the decoder ends at or before `max`, or returns a tree
holding the error the composite cases give when their nullmask passes `max`. -/
def StaysBelow (max : Nat) (dec : Decoder) : Prop :=
  ∀ s ≤ max, (dec s).2 ≤ max ∨ "Invalid start/max" ∈ (dec s).1.errors

/-- A scalar case that checks the words it loads ends at or before `max`. -/
theorem scalarCase_staysBelow {need words max : Nat} {what : String} {mk : Nat → Value}
    {w : List UInt32} (hwords : words ≤ need) :
    StaysBelow max fun s => scalarCase need what (loadScalar words mk w) s max := by
  intro s hs
  left
  dsimp only [scalarCase, loadScalar]
  split <;> dsimp only <;> omega

/-- The string case ends at or before `max`. -/
theorem unserializeString_staysBelow {w : List UInt32} {max : Nat} :
    StaysBelow max (unserializeString w max) := by
  intro s hs
  left
  dsimp only [unserializeString, newString]
  split
  · exact hs
  · split <;> dsimp only <;> omega

/-- The scalar cases, `ipv4` apart, end at or before `max`. -/
theorem unserializeScalar_staysBelow {w : List UInt32} {max : Nat} {type : ValueType}
    (htype : type ≠ .ipv4Type) : StaysBelow max (unserializeScalar w max type) := by
  cases type
  case ipv4Type => exact absurd rfl htype
  all_goals first
    | exact scalarCase_staysBelow (by decide)
    | exact unserializeString_staysBelow
    | exact fun _ hs => .inl hs

/-- The children loop ends at or before `max`, or one of its children holds the composite error. -/
theorem unserializeChildren_staysBelow {max : Nat} {isSet : Nat → Bool} :
    ∀ (cs : List (Bool × Decoder)) (null_i s : Nat), (∀ c ∈ cs, StaysBelow max c.2) →
      s ≤ max →
      (unserializeChildren isSet cs null_i s).2 ≤ max ∨
        "Invalid start/max" ∈ Value.listErrors (unserializeChildren isSet cs null_i s).1
  | [], _, _, _, hs => .inl hs
  | (nullable, dec) :: cs, null_i, s, hcs, hs => by
    rw [unserializeChildren_cons]
    have hr : (if nullable && !isSet null_i then (Value.null, s) else dec s).2 ≤ max ∨
        "Invalid start/max" ∈
          (if nullable && !isSet null_i then (Value.null, s) else dec s).1.errors := by
      split
      · exact .inl hs
      · exact hcs _ (List.mem_cons_self _ _) s hs
    simp only [Value.listErrors, List.mem_append]
    rcases hr with hr | hr
    · rcases unserializeChildren_staysBelow cs _ _ (fun c hc => hcs c (List.mem_cons_of_mem _ hc))
        hr with h | h
      · exact .inl h
      · exact .inr (.inr h)
    · exact .inr (.inl hr)

/-- The composite cases either give up with `Error "Invalid start/max"` or end where their
loop ends. -/
theorem composite_staysBelow {s skip max : Nat} {r : Value × Nat}
    (hr : s + skip ≤ max → r.2 ≤ max ∨ "Invalid start/max" ∈ r.1.errors) :
    (if s + skip > max then (Value.error "Invalid start/max", s + skip) else r).2 ≤ max ∨
      "Invalid start/max" ∈
        (if s + skip > max then (Value.error "Invalid start/max", s + skip) else r).1.errors := by
  split
  · exact .inr (List.mem_singleton_self _)
  · exact hr (by omega)

/-- Below the top level, for a schema with no `ipv4` node, the decoder ends at or before `max` or
returns the composite error. -/
theorem unserialize_staysBelow {w : List UInt32} {max : Nat} (t : RamenType) :
    t.WellFormed → RamenType.Every NotIpv4 t → StaysBelow max (unserialize w max t false) := by
  induction t with
  | scalar type nullable =>
    rintro - ⟨htype⟩
    exact unserializeScalar_staysBelow htype
  | tuple fields nullable ih =>
    rintro (_ | ⟨-, hwf⟩) (_ | ⟨-, hno⟩) s -
    rw [unserialize_tuple_eq, childDecoders_eq]
    refine composite_staysBelow fun hfit => unserializeChildren_staysBelow _ 0 _ ?_ hfit
    simp only [List.mem_map]
    rintro _ ⟨t, ht, rfl⟩
    exact ih t ht (hwf t ht) (hno t ht)
  | vec dim subType nullable ih =>
    rintro (_ | _ | ⟨-, hwf⟩) (_ | _ | ⟨-, hno⟩) s -
    rw [unserialize_vec_eq]
    exact composite_staysBelow fun hfit => unserializeChildren_staysBelow _ 0 _
      (fun c hc => (List.eq_of_mem_replicate hc).symm ▸ ih hwf hno) hfit
  | record fields serOrder nullable ih =>
    rintro (_ | _ | _ | ⟨hperm, hwf⟩) (_ | _ | _ | ⟨-, hno⟩) s -
    have hidx : ∀ i ∈ serOrder, i < fields.length := fun i hi =>
      List.mem_range.mp (hperm.subset hi)
    rw [unserialize_record_eq, wireFields_eq hidx]
    refine composite_staysBelow fun hfit => ?_
    simp only [List.map_map, Function.comp_def]
    have hcs : ∀ c ∈ serOrder.map (fun i => ((fields.getD i default).2.nullable,
        unserialize w max (fields.getD i default).2 false)), StaysBelow max c.2 := by
      simp only [List.mem_map]
      rintro _ ⟨i, hi, rfl⟩
      have hf : fields.getD i default ∈ fields := by
        simp only [List.getD_eq_getElem _ _ (hidx i hi), List.getElem_mem]
      exact ih _ hf (hwf _ hf) (hno _ hf)
    rcases @unserializeChildren_staysBelow max (bitSet w (4 * s)) _ 0 _ hcs hfit with h | h
    · exact .inl h
    · right
      obtain ⟨v, hv, he⟩ := Value.mem_listErrors.mp h
      obtain ⟨name, hname⟩ := mem_placeFields (List.replicate fields.length ("", .null))
        (serOrder.map fun i => (i, (fields.getD i default).1)) _
        (by simpa [List.map_map, Function.comp_def] using hperm.nodup_iff.mpr (List.nodup_range _))
        (by simpa using hidx) (by simp [unserializeChildren_length]) v hv
      exact Value.mem_fieldErrors.mpr ⟨_, hname, he⟩

/-- **Where the cursor can pass `max`.** For a schema with no `ipv4` node whose records have
a permutation for `serOrder`, from any cursor up to `max` the decoder hands back a cursor at or
before `max`, unless the tree it returns holds `Error "Invalid start/max"`: a composite whose
nullmask passes `max` has moved the cursor before giving up. -/
theorem unserialize_cursor_le {w : List UInt32} {max start : Nat} {t : RamenType} (top : Bool)
    (hwf : t.WellFormed) (hno : RamenType.Every NotIpv4 t) (hs : start ≤ max) :
    (unserialize w max t top start).2 ≤ max ∨
      "Invalid start/max" ∈ (unserialize w max t top start).1.errors := by
  rw [unserialize_topLevel]
  exact unserialize_staysBelow t hwf hno start hs

/-- A tuple whose nullmask passes `max` ends under `Error "Invalid start/max"`. -/
theorem unserialize_cursor_le_tuple :
    (unserialize [0] 0 (.tuple [.scalar .u32Type true] false) true 0).2 ≤ 0 ∨
      "Invalid start/max" ∈
        (unserialize [0] 0 (.tuple [.scalar .u32Type true] false) true 0).1.errors :=
  unserialize_cursor_le true
    (.tuple trivial fun t ht => by rw [List.mem_singleton.mp ht]; exact .scalar trivial)
    (.tuple trivial fun t ht => by
      rw [List.mem_singleton.mp ht]; exact .scalar (show ValueType.u32Type ≠ .ipv4Type by decide))
    (Nat.le_refl 0)

/-- Both hypotheses are needed. An `ipv4` node with one word left before `max` passes its
one-word check, loads two words and hands back a cursor past `max`: buffers that agree below
`max` decode to different addresses. A tuple whose nullmask passes `max` gives up with the
cursor already moved past it. -/
theorem unserialize_ipv4_past_max :
    Agree [7, 9] [7, 0] 0 1 ∧
    unserialize [7, 9] 1 (.scalar .ipv4Type false) true 0 =
      (.ipv4 (.ofNat 64 (7 + 9 * 2 ^ 32)), 2) ∧
    unserialize [7, 0] 1 (.scalar .ipv4Type false) true 0 = (.ipv4 7, 2) ∧
    unserialize [0] 0 (.tuple [.scalar .u32Type true] false) true 0 =
      (.error "Invalid start/max", 1) := by
  refine ⟨fun i _ hi => ?_, rfl, rfl, rfl⟩
  obtain rfl : i = 0 := by omega
  rfl

end Ramen
