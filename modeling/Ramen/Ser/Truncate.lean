import Ramen.Ser.Unserialize

/-!
# Decoding with a shorter limit

`unserialize w m t` against `unserialize w M t` for `m ≤ M`. The limit is read only by the
bounds checks. A check that fails returns an `Error` and leaves the cursor where it was, so
the siblings after it decode from the wrong place and may hold any value
(`unserialize_truncated_garbage`). What holds is `Cut`:

* a decode with no `Error` at `m` passes every check at `M` too and returns the same tree
  and cursor;
* otherwise, in wire order, the children of each composite agree up to the first child that
  holds an `Error`, which is again cut, and the later siblings are arbitrary.

`CutDecoder` packages the two facts per decoder; `unserializeChildren_cut` carries them
through the children loop and `unserialize_truncate` through every schema.
-/

namespace Ramen

/-! ## Cut trees -/

mutual
/-- `Cut t d f`: the tree `d` is the tree `f` of schema `t` cut at an `Error`: the same tree,
an `Error` in its place, or a composite whose children in wire order are cut. -/
inductive Cut : RamenType → Value → Value → Prop
  | same {t v} : Cut t v v
  | error {t msg v} : Cut t (.error msg) v
  | tuple {fields nullable ds fs} : CutList fields ds fs →
      Cut (.tuple fields nullable) (.tuple ds) (.tuple fs)
  | vec {dim subType nullable ds fs} : CutList (List.replicate dim subType) ds fs →
      Cut (.vec dim subType nullable) (.vec ds) (.vec fs)
  | record {fields serOrder nullable ds fs} : ds.map Prod.fst = fs.map Prod.fst →
      CutList (serOrder.map fun i => (fields.getD i default).2)
        (serOrder.map fun i => (ds.getD i ("", .null)).2)
        (serOrder.map fun i => (fs.getD i ("", .null)).2) →
      Cut (.record fields serOrder nullable) (.record ds) (.record fs)

/-- Children in wire order: the same up to a child that holds an `Error` and is cut, and
arbitrary after it. -/
inductive CutList : List RamenType → List Value → List Value → Prop
  | nil : CutList [] [] []
  | keep {t ts v ds fs} : CutList ts ds fs → CutList (t :: ts) (v :: ds) (v :: fs)
  | cut {t ts d f ds fs} : Cut t d f → d.errors ≠ [] → ds.length = fs.length →
      CutList (t :: ts) (d :: ds) (f :: fs)
end

/-- A decoder at the shorter limit against the same decoder at the longer one: its tree is cut
from the other's, and when it holds no `Error` the two agree on tree and cursor. -/
def CutDecoder (t : RamenType) (dec dec' : Decoder) : Prop :=
  ∀ s, Cut t (dec s).1 (dec' s).1 ∧ ((dec s).1.errors = [] → dec s = dec' s)

/-- Decoders that agree at a cursor are cut there. -/
theorem cutDecoder_of_eq {t : RamenType} {dec dec' : Decoder} {s : Nat} (h : dec s = dec' s) :
    Cut t (dec s).1 (dec' s).1 ∧ ((dec s).1.errors = [] → dec s = dec' s) :=
  ⟨h ▸ .same, fun _ => h⟩

/-- A result that is an `Error` is cut from any other. -/
theorem cutDecoder_of_error {t : RamenType} {r r' : Value × Nat} {msg : String}
    (h : r.1 = .error msg) : Cut t r.1 r'.1 ∧ (r.1.errors = [] → r = r') :=
  ⟨h ▸ .error, fun he => absurd he (by simp [h, Value.errors])⟩

/-! ## Scalars -/

/-- A scalar case at the shorter limit is cut from it at the longer one. -/
theorem scalarCase_cut {need words m M : Nat} {what : String} {mk : Nat → Value}
    {w : List UInt32} {type : ValueType} {nullable : Bool} (hm : m ≤ M) :
    CutDecoder (.scalar type nullable) (fun s => scalarCase need what (loadScalar words mk w) s m)
      (fun s => scalarCase need what (loadScalar words mk w) s M) := by
  intro s
  dsimp only [scalarCase]
  by_cases h : s + need > m
  · rw [if_pos h]
    exact cutDecoder_of_error rfl
  · rw [if_neg h, if_neg (show ¬s + need > M by omega)]
    exact cutDecoder_of_eq rfl

/-- The string case at the shorter limit is cut from it at the longer one: each of its two checks
fails first at the shorter limit. -/
theorem unserializeString_cut {w : List UInt32} {m M : Nat} {type : ValueType} {nullable : Bool}
    (hm : m ≤ M) :
    CutDecoder (.scalar type nullable) (unserializeString w m) (unserializeString w M) := by
  intro s
  dsimp only [unserializeString]
  by_cases h : s + 1 > m
  · rw [if_pos h]
    exact cutDecoder_of_error rfl
  · rw [if_neg h, if_neg (show ¬s + 1 > M by omega)]
    by_cases h' : s + 1 + roundUpWords (wordAt w s) > m
    · rw [if_pos h']
      exact cutDecoder_of_error rfl
    · rw [if_neg h', if_neg (show ¬s + 1 + roundUpWords (wordAt w s) > M by omega)]
      exact cutDecoder_of_eq rfl

/-- Every scalar case at the shorter limit is cut from it at the longer one. -/
theorem unserializeScalar_cut {w : List UInt32} {m M : Nat} (type : ValueType) (nullable : Bool)
    (hm : m ≤ M) : CutDecoder (.scalar type nullable) (unserializeScalar w m type)
      (unserializeScalar w M type) := by
  cases type
  case stringType => exact unserializeString_cut hm
  all_goals first
    | exact scalarCase_cut hm
    | exact fun _ => cutDecoder_of_error rfl

/-! ## The children loop -/

/-- **The loop keeps the children cut.** With each child's decoder at the shorter limit cut
from its decoder at the longer one, the children decode to cut lists, and to the same list
and cursor when none holds an `Error`. -/
theorem unserializeChildren_cut {isSet : Nat → Bool} :
    ∀ (ds : List (RamenType × Bool × Decoder × Decoder)) (null_i s : Nat),
      (∀ d ∈ ds, CutDecoder d.1 d.2.2.1 d.2.2.2) →
      CutList (ds.map (·.1))
        (unserializeChildren isSet (ds.map fun d => (d.2.1, d.2.2.1)) null_i s).1
        (unserializeChildren isSet (ds.map fun d => (d.2.1, d.2.2.2)) null_i s).1 ∧
      (Value.listErrors
          (unserializeChildren isSet (ds.map fun d => (d.2.1, d.2.2.1)) null_i s).1 = [] →
        unserializeChildren isSet (ds.map fun d => (d.2.1, d.2.2.1)) null_i s =
          unserializeChildren isSet (ds.map fun d => (d.2.1, d.2.2.2)) null_i s)
  | [], _, _, _ => ⟨.nil, fun _ => rfl⟩
  | (t, nullable, dec, dec') :: ds, null_i, s, hds => by
    have hd : CutDecoder t dec dec' := hds _ (List.mem_cons_self _ _)
    have htail : ∀ d ∈ ds, CutDecoder d.1 d.2.2.1 d.2.2.2 := fun d h =>
      hds d (List.mem_cons_of_mem _ h)
    have hc : Cut t (if nullable && !isSet null_i then (Value.null, s) else dec s).1
        (if nullable && !isSet null_i then (Value.null, s) else dec' s).1 ∧
        ((if nullable && !isSet null_i then (Value.null, s) else dec s).1.errors = [] →
          (if nullable && !isSet null_i then (Value.null, s) else dec s) =
            (if nullable && !isSet null_i then (Value.null, s) else dec' s)) := by
      split
      · exact ⟨.same, fun _ => rfl⟩
      · exact hd s
    simp only [List.map_cons, unserializeChildren_cons, Value.listErrors, List.append_eq_nil]
    by_cases he : (if nullable && !isSet null_i then (Value.null, s) else dec s).1.errors = []
    · rw [← hc.2 he]
      obtain ⟨hcut, heq⟩ := unserializeChildren_cut ds (if nullable then null_i + 1 else null_i)
        (if nullable && !isSet null_i then (Value.null, s) else dec s).2 htail
      exact ⟨.keep hcut, fun h => by rw [heq h.2]⟩
    · refine ⟨.cut hc.1 he ?_, fun h => absurd h.1 he⟩
      simp only [unserializeChildren_length, List.length_map]

/-! ## Schemas -/

/-- The composite cases: giving up past the nullmask is an `Error` at the shorter limit; once
past the check at the shorter limit they pass it at the longer one too. -/
theorem composite_cut {t : RamenType} {s skip m M : Nat} {r r' : Value × Nat} (hm : m ≤ M)
    (h : s + skip ≤ m → Cut t r.1 r'.1 ∧ (r.1.errors = [] → r = r')) :
    Cut t (if s + skip > m then (Value.error "Invalid start/max", s + skip) else r).1
        (if s + skip > M then (Value.error "Invalid start/max", s + skip) else r').1 ∧
      ((if s + skip > m then (Value.error "Invalid start/max", s + skip) else r).1.errors = [] →
        (if s + skip > m then (Value.error "Invalid start/max", s + skip) else r) =
          (if s + skip > M then (Value.error "Invalid start/max", s + skip) else r')) := by
  by_cases hs : s + skip > m
  · rw [if_pos hs]
    exact cutDecoder_of_error rfl
  · rw [if_neg hs, if_neg (show ¬s + skip > M by omega)]
    exact h (by omega)

/-- Below the top level, every schema's decoder at the shorter limit is cut from it at the longer
one. -/
theorem truncates {w : List UInt32} {m M : Nat} (hm : m ≤ M) (t : RamenType) :
    t.WellFormed → CutDecoder t (unserialize w m t false) (unserialize w M t false) := by
  induction t with
  | scalar type nullable => exact fun _ => unserializeScalar_cut type nullable hm
  | tuple fields nullable ih =>
    rintro (_ | ⟨-, hwf⟩) s
    let ds := fields.map fun t => (t, t.nullable, unserialize w m t false, unserialize w M t false)
    have hds : ∀ d ∈ ds, CutDecoder d.1 d.2.2.1 d.2.2.2 := by
      simp only [ds, List.mem_map]
      rintro _ ⟨t, ht, rfl⟩
      exact ih t ht (hwf t ht)
    rw [unserialize_tuple_eq, unserialize_tuple_eq, childDecoders_eq, childDecoders_eq]
    refine composite_cut hm fun _ => ?_
    obtain ⟨hcut, heq⟩ := @unserializeChildren_cut (bitSet w (4 * s)) ds 0
      (s + roundUpWords (fields.countP (·.nullable))) hds
    simp only [ds, List.map_map, Function.comp_def, List.map_id'] at hcut heq
    exact ⟨.tuple hcut, fun he => by rw [heq he]⟩
  | vec dim subType nullable ih =>
    rintro (_ | _ | ⟨-, hwf⟩) s
    let ds := List.replicate dim
      (subType, subType.nullable, unserialize w m subType false, unserialize w M subType false)
    have hds : ∀ d ∈ ds, CutDecoder d.1 d.2.2.1 d.2.2.2 := fun d hd =>
      (List.eq_of_mem_replicate hd).symm ▸ ih hwf
    rw [unserialize_vec_eq, unserialize_vec_eq]
    refine composite_cut hm fun _ => ?_
    obtain ⟨hcut, heq⟩ := @unserializeChildren_cut (bitSet w (4 * s)) ds 0
      (s + roundUpWords (if subType.nullable then dim else 0)) hds
    simp only [ds, List.map_replicate] at hcut heq
    exact ⟨.vec hcut, fun he => by rw [heq he]⟩
  | record fields serOrder nullable ih =>
    rintro (_ | _ | _ | ⟨hperm, hwf⟩) s
    have hidx : ∀ i ∈ serOrder, i < fields.length := fun i hi =>
      List.mem_range.mp (hperm.subset hi)
    let gf i := fields.getD i default
    let ds := serOrder.map fun i =>
      ((gf i).2, (gf i).2.nullable, unserialize w m (gf i).2 false, unserialize w M (gf i).2 false)
    have hds : ∀ d ∈ ds, CutDecoder d.1 d.2.2.1 d.2.2.2 := by
      simp only [ds, List.mem_map]
      rintro _ ⟨i, hi, rfl⟩
      have hf : gf i ∈ fields := by
        simp only [gf, List.getD_eq_getElem _ _ (hidx i hi), List.getElem_mem]
      exact ih _ hf (hwf _ hf)
    rw [unserialize_record_eq, unserialize_record_eq, wireFields_eq hidx, wireFields_eq hidx]
    refine composite_cut hm fun _ => ?_
    obtain ⟨hcut, heq⟩ := @unserializeChildren_cut (bitSet w (4 * s)) ds 0
      (s + roundUpWords ((fields.countP (·.2.nullable) + 7) / 8)) hds
    simp only [ds, List.map_map, Function.comp_def] at hcut heq ⊢
    have hnd : ((serOrder.map fun i => (i, (gf i).1)).map Prod.fst).Nodup := by
      simpa [List.map_map, Function.comp_def] using hperm.nodup_iff.mpr (List.nodup_range _)
    have hlt : ∀ p ∈ serOrder.map (fun i => (i, (gf i).1)),
        p.1 < (List.replicate fields.length ("", Value.null)).length := by
      simpa using hidx
    have hread := fun vs hvs => placeFields_getD_snd (List.replicate fields.length ("", .null))
      (serOrder.map fun i => (i, (gf i).1)) vs hnd hlt hvs
    simp only [List.map_map, Function.comp_def] at hread
    refine ⟨.record (placeFields_map_fst _ _ _ _ _ rfl (by simp [unserializeChildren_length]))
      ?_, fun he => ?_⟩
    · rw [hread _ (by simp [unserializeChildren_length]),
        hread _ (by simp [unserializeChildren_length])]
      exact hcut
    · rw [heq]
      refine List.eq_nil_iff_forall_not_mem.mpr fun e he' => ?_
      obtain ⟨v, hv, hev⟩ := Value.mem_listErrors.mp he'
      obtain ⟨name, hname⟩ := mem_placeFields _ _ _ hnd hlt
        (by simp [unserializeChildren_length]) v hv
      exact List.not_mem_nil e (by rw [← he]; exact Value.mem_fieldErrors.mpr ⟨_, hname, hev⟩)

/-- A `u64` then a `u32`. -/
def u64ThenU32 : RamenType := .tuple [.scalar .u64Type false, .scalar .u32Type false] false

/-- Truncation can decode garbage: with the limit one word into the `u64`, the `u64` is an
`Error` that leaves the cursor in place, and the `u32` is then read from the `u64`'s first word
although the full decode, which holds no `Error`, has `3` there. -/
theorem unserialize_truncated_garbage :
    unserialize [1, 2, 3] 3 u64ThenU32 true 0 =
      (.tuple [.u64 (.ofNat 64 (1 + 2 * 2 ^ 32)), .u32 3], 3) ∧
    unserialize [1, 2, 3] 1 u64ThenU32 true 0 =
      (.tuple [.error "Cannot unserialize u64", .u32 1], 1) :=
  ⟨rfl, rfl⟩

/-- **Truncation cuts the tree at its first `Error`.** For a schema whose records have a
permutation for `serOrder`, and limits `m ≤ M`, the decode at `m` is cut from the decode at `M`:
in wire order the two agree up to the first child holding an `Error`, and the decode at `m` that
holds no `Error` is the decode at `M`, cursor included. -/
theorem unserialize_truncate {w : List UInt32} {m M start : Nat} {t : RamenType} (top : Bool)
    (hwf : t.WellFormed) (hm : m ≤ M) :
    Cut t (unserialize w m t top start).1 (unserialize w M t top start).1 ∧
      ((unserialize w m t top start).1.errors = [] →
        unserialize w m t top start = unserialize w M t top start) := by
  rw [unserialize_topLevel w m, unserialize_topLevel w M]
  exact truncates hm t hwf start

/-- The truncated `u64ThenU32` is cut at the `u64`. -/
theorem unserialize_truncate_u64ThenU32 :
    Cut u64ThenU32 (unserialize [1, 2, 3] 1 u64ThenU32 true 0).1
        (unserialize [1, 2, 3] 3 u64ThenU32 true 0).1 ∧
      ((unserialize [1, 2, 3] 1 u64ThenU32 true 0).1.errors = [] →
        unserialize [1, 2, 3] 1 u64ThenU32 true 0 = unserialize [1, 2, 3] 3 u64ThenU32 true 0) :=
  unserialize_truncate true
    (.tuple trivial fun t ht => by
      simp only [List.mem_cons, List.mem_singleton, List.not_mem_nil, or_false] at ht
      rcases ht with rfl | rfl <;> exact .scalar trivial)
    (by decide)

end Ramen
