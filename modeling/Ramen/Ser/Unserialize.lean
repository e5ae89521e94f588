import Ramen.Ser.Value
import Ramen.Word
import Mathlib.Data.List.GetD

/-!
# The tuple decoder `ser::unserialize`

A shallow embedding of `unserialize` from `serValue.cpp`. The C++ function takes the cursor
`uint32_t const *&start` by reference and a limit `max`; here a `Decoder` maps the cursor to
the decoded value and the advanced cursor, and both pointers are word indices into the
buffer `w`.

* Scalar cases check that enough words remain before `max` and then run the class
  constructor (`new U64(start)` is `newU64 w start`), which loads its words
  little-endian and advances the cursor. The checked size and the loaded size agree in
  every case but `ipv4`, which checks one word and loads two.
* Composite cases skip a nullmask, fail with `Invalid start/max` when that overruns `max`,
  and decode their children with one shared loop, `unserializeChildren`: a nullable child
  is decoded when its nullmask bit is set and is `Null` otherwise. Tuples and vectors skip
  `roundUpWords nullmaskWidth` words, records `roundUpWords ((nullmaskWidth + 7) / 8)`.
* A record decodes its fields in `serOrder` and places each at its own index
  (`placeFields`).

Recursion is structural over the schema: `childDecoders` and `fieldDecoders` build the
decoders of a composite's children in the same mutual block, and the loops run them.
-/

namespace Ramen

/-! ## Words, bytes and bits of the buffer -/

/-- `roundUpWords`: the number of words required to store that many bytes. -/
def roundUpWords (sz : Nat) : Nat := (sz + 3) >>> 2

@[simp] theorem roundUpWords_eq (sz : Nat) : roundUpWords sz = (sz + 3) / 4 :=
  Nat.shiftRight_eq_div_pow ..

/-- Word `i` of the buffer, as a number. Reading past the array is undefined behaviour in
the source; the model reads zero there. -/
def wordAt (w : List UInt32) (i : Nat) : Nat := (w.getD i 0).toNat

/-- The little-endian value of `n` consecutive words from `start`: what dereferencing a
`uint64_t` (`n = 2`) or `uint128_t` (`n = 4`) pointer at `start` loads. -/
def readLE (w : List UInt32) (start : Nat) : Nat → Nat
  | 0 => 0
  | n + 1 => wordAt w start + 2 ^ 32 * readLE w (start + 1) n

/-- Byte `b` of the buffer, words being little-endian. -/
def byteAt (w : List UInt32) (b : Nat) : BitVec 8 :=
  .ofNat 8 (wordAt w (b / 4) / 256 ^ (b % 4))

/-- `bitSet(nullmask, null_i)`: bit `null_i` of the nullmask at byte address `nullmask`,
walking one byte forward per eight bits as the source does. -/
def bitSet (w : List UInt32) (nullmask : Nat) : Nat → Bool
  | null_i + 8 => bitSet w (nullmask + 1) null_i
  | null_i => (byteAt w nullmask).getLsbD null_i

/-- `bitSet` reads bit `i % 8` of byte `i / 8` past the nullmask. -/
theorem bitSet_eq (w : List UInt32) (nullmask i : Nat) :
    bitSet w nullmask i = (byteAt w (nullmask + i / 8)).getLsbD (i % 8) := by
  induction nullmask, i using bitSet.induct w with
  | case1 nullmask i ih =>
    rw [bitSet, ih, show nullmask + (i + 8) / 8 = nullmask + 1 + i / 8 by omega]
    congr 1
    omega
  | case2 nullmask i hi =>
    have hi8 : i < 8 := Nat.lt_of_not_le fun h => hi (i - 8) (by omega)
    unfold bitSet
    split
    · exact absurd rfl (hi _)
    · rw [Nat.div_eq_of_lt hi8, Nat.add_zero, Nat.mod_eq_of_lt hi8]

/-! ## Scalar constructors -/

/-- A decoder: from the cursor, the value read there and the advanced cursor. -/
abbrev Decoder := Nat → Value × Nat

/-- A scalar constructor `T::T(uint32_t const *&start)`: loads `words` words at `start`,
keeps what `mk` makes of them and advances `start` past them. -/
def loadScalar (words : Nat) (mk : Nat → Value) (w : List UInt32) : Decoder :=
  fun start => (mk (readLE w start words), start + words)

/-- `Float::Float`: `memcpy` of a `double` from two words. -/
def newFloat := loadScalar 2 fun n => .float (.ofNat 64 n)
/-- `Bool::Bool`: `!! *start`. -/
def newBool := loadScalar 1 fun n => .bool (n != 0)
/-- `U8::U8`. -/
def newU8 := loadScalar 1 fun n => .u8 (.ofNat 8 n)
/-- `U16::U16`. -/
def newU16 := loadScalar 1 fun n => .u16 (.ofNat 16 n)
/-- `U32::U32`. -/
def newU32 := loadScalar 1 fun n => .u32 (.ofNat 32 n)
/-- `U64::U64`. -/
def newU64 := loadScalar 2 fun n => .u64 (.ofNat 64 n)
/-- `U128::U128`. -/
def newU128 := loadScalar 4 fun n => .u128 (.ofNat 128 n)
/-- `I8::I8`. -/
def newI8 := loadScalar 1 fun n => .i8 (.ofNat 8 n)
/-- `I16::I16`. -/
def newI16 := loadScalar 1 fun n => .i16 (.ofNat 16 n)
/-- `I32::I32`. -/
def newI32 := loadScalar 1 fun n => .i32 (.ofNat 32 n)
/-- `I64::I64`. -/
def newI64 := loadScalar 2 fun n => .i64 (.ofNat 64 n)
/-- `I128::I128`. -/
def newI128 := loadScalar 4 fun n => .i128 (.ofNat 128 n)
/-- `Eth::Eth`: a `uint64_t` load. -/
def newEth := loadScalar 2 fun n => .eth (.ofNat 64 n)
/-- `Ipv4::Ipv4`: a `uint64_t` load, two words. -/
def newIpv4 := loadScalar 2 fun n => .ipv4 (.ofNat 64 n)
/-- `Ipv6::Ipv6`: a `uint128_t` load. -/
def newIpv6 := loadScalar 4 fun n => .ipv6 (.ofNat 128 n)

/-- `String::String(start, len)`: the `len` bytes from `start`, cursor advanced by
`roundUpWords len`. -/
def newString (w : List UInt32) (start len : Nat) : Value × Nat :=
  (.string ((List.range len).map fun i => byteAt w (4 * start + i)), start + roundUpWords len)

/-! ## The switch -/

/-- A scalar case of the switch: `if (start + need > max) return new Error("Cannot
unserialize <what>"); return new T(start);`. -/
def scalarCase (need : Nat) (what : String) (ctor : Decoder) (start max : Nat) : Value × Nat :=
  if start + need > max then (.error ("Cannot unserialize " ++ what), start) else ctor start

/-- The `StringType` case: a length word, then the bytes rounded up to whole words. -/
def unserializeString (w : List UInt32) (max start : Nat) : Value × Nat :=
  if start + 1 > max then (.error "Cannot unserialize string", start) else
  let len := wordAt w start
  let start := start + 1
  if start + roundUpWords len > max then
    (.error ("Cannot unserialize of length " ++ toString len), start)
  else newString w start len

/-- The cases of the switch for a node of a scalar class, by its tag. -/
def unserializeScalar (w : List UInt32) (max : Nat) : ValueType → Nat → Value × Nat
  | .floatType, start => scalarCase 2 "float" (newFloat w) start max
  | .stringType, start => unserializeString w max start
  | .boolType, start => scalarCase 1 "bool" (newBool w) start max
  | .u8Type, start => scalarCase 1 "u8" (newU8 w) start max
  | .u16Type, start => scalarCase 1 "u16" (newU16 w) start max
  | .u32Type, start => scalarCase 1 "u32" (newU32 w) start max
  | .i8Type, start => scalarCase 1 "i8" (newI8 w) start max
  | .i16Type, start => scalarCase 1 "i16" (newI16 w) start max
  | .i32Type, start => scalarCase 1 "i32" (newI32 w) start max
  | .ipv4Type, start => scalarCase 1 "ipv4" (newIpv4 w) start max
  | .u64Type, start => scalarCase 2 "u64" (newU64 w) start max
  | .i64Type, start => scalarCase 2 "i64" (newI64 w) start max
  | .ethType, start => scalarCase 2 "eth" (newEth w) start max
  | .u128Type, start => scalarCase 4 "u128" (newU128 w) start max
  | .i128Type, start => scalarCase 4 "i128" (newI128 w) start max
  | .ipv6Type, start => scalarCase 4 "ipv6" (newIpv6 w) start max
  | .ipType, start | .cidrv4Type, start | .cidrv6Type, start | .cidrType, start =>
    (.error "TODO: unserialize", start)
  | .tupleType, start => (.error "Cannot unserialize: Invalid tag for tuple", start)
  | .vecType, start => (.error "Cannot unserialize: Invalid tag for vector", start)
  | .listType, start => (.error "TODO: unserialize lists", start)
  | .recordType, start => (.error "Cannot unserialize: Invalid tag for record", start)
  | .anyType, start | .emptyType, start => (.error "Cannot unserialize: unknown tag", start)

/-- The loop the three composite cases share, over `(nullable, decoder)` pairs in wire
order: `null_i` counts the nullable children seen so far and selects their nullmask bit. -/
def unserializeChildren (isSet : Nat → Bool) :
    List (Bool × Decoder) → Nat → Nat → List Value × Nat
  | [], _, start => ([], start)
  | (nullable, dec) :: cs, null_i, start =>
    if nullable then
      let (v, start) := if isSet null_i then dec start else (.null, start)
      let (vs, start) := unserializeChildren isSet cs (null_i + 1) start
      (v :: vs, start)
    else
      let (v, start) := dec start
      let (vs, start) := unserializeChildren isSet cs null_i start
      (v :: vs, start)

/-- One turn of the loop: a nullable child whose bit is clear is `Null` and reads nothing;
every other child runs its decoder. -/
theorem unserializeChildren_cons (isSet : Nat → Bool) (nullable : Bool) (dec : Decoder)
    (cs : List (Bool × Decoder)) (null_i start : Nat) :
    unserializeChildren isSet ((nullable, dec) :: cs) null_i start =
      let r := if nullable && !isSet null_i then (Value.null, start) else dec start
      let rest := unserializeChildren isSet cs (if nullable then null_i + 1 else null_i) r.2
      (r.1 :: rest.1, rest.2) := by
  cases nullable <;> cases h : isSet null_i <;> simp only [unserializeChildren, h] <;> rfl

/-- The loop returns one value per child. -/
theorem unserializeChildren_length (isSet : Nat → Bool) :
    ∀ (cs : List (Bool × Decoder)) (null_i start : Nat),
      (unserializeChildren isSet cs null_i start).1.length = cs.length
  | [], _, _ => rfl
  | (_, _) :: cs, _, _ => by
    rw [unserializeChildren_cons]
    exact congrArg (· + 1) (unserializeChildren_length isSet cs _ _)

/-- A record's fields in wire order: for each entry `fieldIdx` of `serOrder`, the index and
the field's decoder. An index past the fields is undefined behaviour in the source; the
model skips it. -/
def wireFields (decoders : List (String × Bool × Decoder)) (serOrder : List Nat) :
    List (Nat × String × Bool × Decoder) :=
  serOrder.filterMap fun fieldIdx => (decoders[fieldIdx]?).map ((fieldIdx, ·))

/-- `fieldValues[fieldIdx] = (fieldName, value)` for each decoded field, in wire order. -/
def placeFields : List (String × Value) → List (Nat × String) → List Value → List (String × Value)
  | acc, (fieldIdx, name) :: rest, v :: vs => placeFields (acc.set fieldIdx (name, v)) rest vs
  | acc, _, _ => acc

@[simp] theorem placeFields_length :
    ∀ (acc : List (String × Value)) (l : List (Nat × String)) (vs : List Value),
      (placeFields acc l vs).length = acc.length
  | acc, (i, name) :: rest, v :: vs => by
    rw [placeFields, placeFields_length, List.length_set]
  | _, [], _ | _, _ :: _, [] => rfl

/-- Placing leaves alone every index the placed fields do not name. -/
theorem placeFields_getElem?_of_not_mem {j : Nat} :
    ∀ (acc : List (String × Value)) (l : List (Nat × String)) (vs : List Value),
      j ∉ l.map Prod.fst → (placeFields acc l vs)[j]? = acc[j]?
  | acc, (i, name) :: rest, v :: vs, hj => by
    simp only [List.map_cons, List.mem_cons, not_or] at hj
    rw [placeFields, placeFields_getElem?_of_not_mem _ rest vs hj.2,
      List.getElem?_set_ne (Ne.symm hj.1)]
  | _, [], _, _ | _, _ :: _, [], _ => rfl

/-- With distinct indices inside the placeholders, every decoded value is placed. -/
theorem mem_placeFields :
    ∀ (acc : List (String × Value)) (l : List (Nat × String)) (vs : List Value),
      (l.map Prod.fst).Nodup → (∀ p ∈ l, p.1 < acc.length) → l.length = vs.length →
      ∀ v ∈ vs, ∃ name, (name, v) ∈ placeFields acc l vs
  | _, [], [], _, _, _, _, hv => absurd hv (List.not_mem_nil _)
  | acc, (i, name) :: rest, u :: vs, hnd, hlt, hlen, v, hv => by
    simp only [List.map_cons, List.nodup_cons] at hnd
    have hi : i < acc.length := hlt _ (List.mem_cons_self _ _)
    rw [placeFields]
    rcases List.mem_cons.mp hv with rfl | hv
    · refine ⟨name, List.getElem?_mem (n := i) ?_⟩
      rw [placeFields_getElem?_of_not_mem _ _ _ hnd.1, List.getElem?_set_self hi]
    · exact mem_placeFields _ rest vs hnd.2 (fun p hp => (List.length_set _ _ _).symm ▸
        hlt p (List.mem_cons_of_mem _ hp)) (by simpa using hlen) v hv

/-- Placing changes no name when the values change. -/
theorem placeFields_map_fst :
    ∀ (acc acc' : List (String × Value)) (l : List (Nat × String)) (vs vs' : List Value),
      acc.map Prod.fst = acc'.map Prod.fst → vs.length = vs'.length →
      (placeFields acc l vs).map Prod.fst = (placeFields acc' l vs').map Prod.fst
  | acc, acc', (i, name) :: rest, u :: vs, u' :: vs', h, hlen => by
    rw [placeFields, placeFields]
    exact placeFields_map_fst _ _ rest vs vs' (by rw [List.map_set, List.map_set, h])
      (by simpa using hlen)
  | _, _, [], _, _, h, _ | _, _, _ :: _, [], [], h, _ => h
  | _, _, _ :: _, [], _ :: _, _, hlen | _, _, _ :: _, _ :: _, [], _, hlen =>
    absurd hlen (by simp)

/-- With distinct indices inside the placeholders, reading the placed fields back in the
order `l` gives the decoded values. -/
theorem placeFields_getD_snd :
    ∀ (acc : List (String × Value)) (l : List (Nat × String)) (vs : List Value),
      (l.map Prod.fst).Nodup → (∀ p ∈ l, p.1 < acc.length) → l.length = vs.length →
      l.map (fun p => ((placeFields acc l vs).getD p.1 ("", .null)).2) = vs
  | _, [], [], _, _, _ => rfl
  | acc, (i, name) :: rest, u :: vs, hnd, hlt, hlen => by
    simp only [List.map_cons, List.nodup_cons] at hnd
    have hi : i < acc.length := hlt _ (List.mem_cons_self _ _)
    rw [List.map_cons, placeFields, List.getD_eq_getElem?_getD,
      placeFields_getElem?_of_not_mem _ _ _ hnd.1, List.getElem?_set_self hi,
      placeFields_getD_snd _ rest vs hnd.2 (fun p hp => (List.length_set _ _ _).symm ▸
        hlt p (List.mem_cons_of_mem _ hp)) (by simpa using hlen)]
    rfl

/-- Placing the fields decoded in the order `l` writes field `j` at index `j` for every `j`
that `l` names, and leaves the other placeholders. -/
theorem placeFields_map (g : Nat → String × Value) :
    ∀ (l : List Nat) (acc : List (String × Value)),
      placeFields acc (l.map fun i => (i, (g i).1)) (l.map fun i => (g i).2) =
        (List.range acc.length).map fun j => if j ∈ l then g j else acc.getD j ("", .null)
  | [], acc => by
    apply List.ext_getElem (by simp [placeFields])
    intro j hj _
    simp [placeFields, List.getElem?_eq_getElem (by simpa [placeFields] using hj)]
  | i :: l, acc => by
    rw [List.map_cons, List.map_cons, placeFields, placeFields_map g l, List.length_set]
    apply List.map_congr_left
    intro j hj
    have hj : j < acc.length := List.mem_range.mp hj
    by_cases hjl : j ∈ l
    · simp [hjl]
    · by_cases hij : i = j
      · subst hij
        simp [hjl, List.getElem?_set, hj]
      · simp [hjl, List.getElem?_set, hij, Ne.symm hij]

mutual
/-- `unserialize(type, start, max, topLevel)`. The recursive calls use the default
`topLevel = false`; the assertion that a top-level type is not nullable is the caller's
precondition and is not modelled. -/
def unserialize (w : List UInt32) (max : Nat) : RamenType → Bool → Decoder
  | .scalar type _, _, start => unserializeScalar w max type start
  | .tuple fields nullable, topLevel, start =>
    let nullmask := start
    let start := start + roundUpWords ((RamenType.tuple fields nullable).nullmaskWidth topLevel)
    if start > max then (.error "Invalid start/max", start) else
    let (fieldValues, start) :=
      unserializeChildren (bitSet w (4 * nullmask)) (childDecoders w max fields) 0 start
    (.tuple fieldValues, start)
  | .vec dim subType nullable, topLevel, start =>
    let nullmask := start
    let start :=
      start + roundUpWords ((RamenType.vec dim subType nullable).nullmaskWidth topLevel)
    if start > max then (.error "Invalid start/max", start) else
    let (values, start) := unserializeChildren (bitSet w (4 * nullmask))
      (List.replicate dim (subType.nullable, unserialize w max subType false)) 0 start
    (.vec values, start)
  | .record fields serOrder nullable, topLevel, start =>
    let nullmask := start
    let width := (RamenType.record fields serOrder nullable).nullmaskWidth topLevel
    let start := start + roundUpWords ((width + 7) / 8)
    if start > max then (.error "Invalid start/max", start) else
    let wire := wireFields (fieldDecoders w max fields) serOrder
    let (values, start) := unserializeChildren (bitSet w (4 * nullmask))
      (wire.map fun f => (f.2.2.1, f.2.2.2)) 0 start
    (.record (placeFields (List.replicate fields.length ("", .null))
      (wire.map fun f => (f.1, f.2.1)) values), start)

/-- The decoders of a tuple's fields, with their nullability. -/
def childDecoders (w : List UInt32) (max : Nat) : List RamenType → List (Bool × Decoder)
  | [] => []
  | t :: ts => (t.nullable, unserialize w max t false) :: childDecoders w max ts

/-- The decoders of a record's fields, with their names and nullability, in user order. -/
def fieldDecoders (w : List UInt32) (max : Nat) :
    List (String × RamenType) → List (String × Bool × Decoder)
  | [] => []
  | (name, t) :: fs => (name, t.nullable, unserialize w max t false) :: fieldDecoders w max fs
end

theorem childDecoders_eq (w : List UInt32) (max : Nat) (fields : List RamenType) :
    childDecoders w max fields = fields.map fun t => (t.nullable, unserialize w max t false) := by
  induction fields with
  | nil => rfl
  | cons t ts ih => simp only [childDecoders, ih, List.map_cons]

theorem fieldDecoders_eq (w : List UInt32) (max : Nat) (fields : List (String × RamenType)) :
    fieldDecoders w max fields =
      fields.map fun f => (f.1, f.2.nullable, unserialize w max f.2 false) := by
  induction fields with
  | nil => rfl
  | cons f fs ih => simp only [fieldDecoders, ih, List.map_cons]

theorem map_getD_range {α : Type} (l : List α) (d : α) :
    (List.range l.length).map (fun i => l.getD i d) = l :=
  List.ext_getElem (by simp) fun i _ h => by simp [List.getElem?_eq_getElem h]

theorem filterMap_eq_map_of {α β : Type} {f : α → Option β} {g : α → β} :
    ∀ {l : List α}, (∀ a ∈ l, f a = some (g a)) → l.filterMap f = l.map g
  | [], _ => rfl
  | a :: l, h => by
    rw [List.filterMap_cons_some (h a (List.mem_cons_self _ _)), List.map_cons,
      filterMap_eq_map_of fun b hb => h b (List.mem_cons_of_mem _ hb)]

/-- With every index of `serOrder` naming a field, the wire order is `serOrder` itself. -/
theorem wireFields_eq {w : List UInt32} {max : Nat} {fields : List (String × RamenType)}
    {serOrder : List Nat} (hidx : ∀ i ∈ serOrder, i < fields.length) :
    wireFields (fieldDecoders w max fields) serOrder = serOrder.map fun i =>
      (i, (fields.getD i default).1, (fields.getD i default).2.nullable,
        unserialize w max (fields.getD i default).2 false) := by
  refine filterMap_eq_map_of fun i hi => ?_
  rw [fieldDecoders_eq]
  have hf := hidx i hi
  simp [List.getElem?_eq_getElem hf, List.getD_eq_getElem _ _ hf]

/-- Every field in wire order is one of the record's fields. -/
theorem mem_wireFields {decoders : List (String × Bool × Decoder)} {serOrder : List Nat}
    {f : Nat × String × Bool × Decoder} (h : f ∈ wireFields decoders serOrder) :
    f.2 ∈ decoders := by
  obtain ⟨i, -, hf⟩ := List.mem_filterMap.mp h
  obtain ⟨d, hd, rfl⟩ := Option.map_eq_some'.mp hf
  exact List.getElem?_mem hd

/-- Counting fields along a permutation `serOrder` counts every field once. -/
theorem countP_serOrder {fields : List (String × RamenType)} {serOrder : List Nat}
    (hperm : serOrder.Perm (List.range fields.length)) (p : String × RamenType → Bool) :
    serOrder.countP (fun i => p (fields.getD i default)) = fields.countP p :=
  calc serOrder.countP (fun i => p (fields.getD i default))
      = ((List.range fields.length).map fun i => fields.getD i default).countP p := by
        rw [hperm.countP_eq, List.countP_map]
        rfl
    _ = fields.countP p := by rw [map_getD_range]

/-- `topLevel` only selects the nullmask width, which does not depend on it. -/
theorem unserialize_topLevel (w : List UInt32) (max : Nat) (t : RamenType) (top : Bool) :
    unserialize w max t top = unserialize w max t false := by
  cases t <;> rfl

/-! ## The composite cases -/

/-- The tuple case: skip the nullmask, give up if that passes `max`, else run the loop. -/
theorem unserialize_tuple_eq (w : List UInt32) (max : Nat) (fields : List RamenType)
    (nullable top : Bool) (start : Nat) :
    unserialize w max (.tuple fields nullable) top start =
      let start' := start + roundUpWords (fields.countP (·.nullable))
      if start' > max then (.error "Invalid start/max", start') else
      let r := unserializeChildren (bitSet w (4 * start)) (childDecoders w max fields) 0 start'
      (.tuple r.1, r.2) := rfl

/-- The vector case: `dim` copies of the sub-type's decoder. -/
theorem unserialize_vec_eq (w : List UInt32) (max dim : Nat) (subType : RamenType)
    (nullable top : Bool) (start : Nat) :
    unserialize w max (.vec dim subType nullable) top start =
      let start' := start + roundUpWords (if subType.nullable then dim else 0)
      if start' > max then (.error "Invalid start/max", start') else
      let r := unserializeChildren (bitSet w (4 * start))
        (List.replicate dim (subType.nullable, unserialize w max subType false)) 0 start'
      (.vec r.1, r.2) := rfl

/-- The record case: the loop runs over the fields in wire order and `placeFields` puts each
value back at its field's index. -/
theorem unserialize_record_eq (w : List UInt32) (max : Nat) (fields : List (String × RamenType))
    (serOrder : List Nat) (nullable top : Bool) (start : Nat) :
    unserialize w max (.record fields serOrder nullable) top start =
      let start' := start + roundUpWords ((fields.countP (·.2.nullable) + 7) / 8)
      if start' > max then (.error "Invalid start/max", start') else
      let wire := wireFields (fieldDecoders w max fields) serOrder
      let r := unserializeChildren (bitSet w (4 * start))
        (wire.map fun f => (f.2.2.1, f.2.2.2)) 0 start'
      (.record (placeFields (List.replicate fields.length ("", .null))
        (wire.map fun f => (f.1, f.2.1)) r.1), r.2) := rfl

example : unserialize [1, 7, 2, 9] 4
    (.tuple [.scalar .u32Type false, .scalar .u32Type true, .scalar .u64Type true] false) true 0 =
    (.tuple [.u32 7, .u32 2, .null], 3) := rfl

end Ramen
