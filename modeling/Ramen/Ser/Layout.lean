import Ramen.Ser.Unserialize

/-!
# The wire layout of the spec

The decoder is checked against the layout that the spec prescribes for the producing side,
written here as a second, separate definition, `layout`, which follows the spec's words and
not the decoder:

* a composite starts with a nullmask of one bit per nullable immediate child, in child
  order (`serOrder` order for records), bit `i` being bit `i % 8` of byte `i / 8`, padded to
  `⌈k / 32⌉` words for `k` nullable children (`nullmaskLayout`);
* it continues with the encodings of its present children, in the same order;
* `bool`, `u8`..`u32` and `i8`..`i32` take one word, `float`, `u64`, `i64`, `eth` and
  `ipv4` two, `u128`, `i128` and `ipv6` four, little-endian (`wordsLE`);
* a string is one length word followed by `⌈len / 4⌉` words of bytes (`packBytes`).

`Conforms t v` says which value trees `layout` is meant for, and `Embeds w p ws` says that
the words `ws` sit in the buffer `w` from word `p` on.
-/

namespace Ramen

/-! ## Little-endian digits -/

/-- The number whose little-endian digits in `base` are `ds`. -/
def leValue (base : Nat) : List Nat → Nat
  | [] => 0
  | d :: ds => d + base * leValue base ds

theorem leValue_lt {base : Nat} :
    ∀ {ds : List Nat}, (∀ d ∈ ds, d < base) → leValue base ds < base ^ ds.length
  | [], _ => by simp [leValue]
  | d :: ds, h => by
    have hd := h d (List.mem_cons_self d ds)
    have ih := leValue_lt fun e he => h e (List.mem_cons_of_mem d he)
    calc d + base * leValue base ds < base + base * leValue base ds := by omega
      _ = base * (leValue base ds + 1) := by rw [Nat.mul_add, Nat.mul_one, Nat.add_comm]
      _ ≤ base * base ^ ds.length := Nat.mul_le_mul_left _ ih
      _ = base ^ (d :: ds).length := by rw [List.length_cons, Nat.pow_succ, Nat.mul_comm]

/-- Digit `k` of a little-endian number is the `k`-th digit of its list. -/
theorem leValue_digit {base : Nat} (hb : 0 < base) :
    ∀ {ds : List Nat}, (∀ d ∈ ds, d < base) →
      ∀ k, leValue base ds / base ^ k % base = ds.getD k 0
  | [], _, k => by simp [leValue]
  | d :: ds, h, 0 => by
    simp only [leValue, Nat.pow_zero, Nat.div_one, List.getD_cons_zero]
    rw [Nat.add_mul_mod_self_left, Nat.mod_eq_of_lt (h d (List.mem_cons_self d ds))]
  | d :: ds, h, k + 1 => by
    have hd := h d (List.mem_cons_self d ds)
    rw [leValue, Nat.pow_succ, Nat.mul_comm _ base, ← Nat.div_div_eq_div_mul,
      Nat.add_mul_div_left _ _ hb, Nat.div_eq_of_lt hd, Nat.zero_add, List.getD_cons_succ]
    exact leValue_digit hb (fun e he => h e (List.mem_cons_of_mem d he)) k

/-! ## Scalars -/

/-- The `n` little-endian words of `x`. -/
def wordsLE : Nat → Nat → List UInt32
  | 0, _ => []
  | n + 1, x => .ofNat (x % 2 ^ 32) :: wordsLE n (x / 2 ^ 32)

@[simp] theorem wordsLE_length (n x : Nat) : (wordsLE n x).length = n := by
  induction n generalizing x <;> simp [wordsLE, *]

/-- Bytes packed four to a word, little-endian, the last word padded with zero bytes. -/
def packBytes (bs : List (BitVec 8)) : List UInt32 :=
  (List.range ((bs.length + 3) / 4)).map fun j =>
    .ofNat (leValue 256 (((bs.drop (4 * j)).take 4).map BitVec.toNat))

@[simp] theorem packBytes_length (bs : List (BitVec 8)) :
    (packBytes bs).length = (bs.length + 3) / 4 := by
  simp [packBytes]

/-- The layout of a scalar value: its words, or for a string its length word and its
bytes. -/
def layoutScalar : Value → List UInt32
  | .bool b => wordsLE 1 b.toNat
  | .u8 v | .i8 v => wordsLE 1 v.toNat
  | .u16 v | .i16 v => wordsLE 1 v.toNat
  | .u32 v | .i32 v => wordsLE 1 v.toNat
  | .float v | .u64 v | .i64 v | .eth v | .ipv4 v => wordsLE 2 v.toNat
  | .u128 v | .i128 v | .ipv6 v => wordsLE 4 v.toNat
  | .string bs => .ofNat bs.length :: packBytes bs
  | _ => []

/-- The scalar values a node of a scalar class may hold: the value of its own class, and for
a string one whose length fits the 32-bit length word. -/
def scalarConforms : ValueType → Value → Bool
  | .floatType, .float _ | .boolType, .bool _ => true
  | .u8Type, .u8 _ | .u16Type, .u16 _ | .u32Type, .u32 _ | .u64Type, .u64 _ => true
  | .u128Type, .u128 _ | .i8Type, .i8 _ | .i16Type, .i16 _ | .i32Type, .i32 _ => true
  | .i64Type, .i64 _ | .i128Type, .i128 _ | .ethType, .eth _ | .ipv4Type, .ipv4 _ => true
  | .ipv6Type, .ipv6 _ => true
  | .stringType, .string bs => bs.length < 2 ^ 32
  | _, _ => false

/-! ## Composites -/

/-- The nullmask bytes of the spec: bit `i` is bit `i % 8` of byte `i / 8`. -/
def nullmaskBytes (bits : List Bool) : List (BitVec 8) :=
  (List.range ((bits.length + 7) / 8)).map fun b =>
    .ofNat 8 (leValue 2 (((bits.drop (8 * b)).take 8).map Bool.toNat))

/-- The nullmask padded to whole words: `⌈k / 32⌉` words for `k` bits. -/
def nullmaskLayout (bits : List Bool) : List UInt32 := packBytes (nullmaskBytes bits)

@[simp] theorem nullmaskLayout_length (bits : List Bool) :
    (nullmaskLayout bits).length = (bits.length + 31) / 32 := by
  simp only [nullmaskLayout, packBytes_length, nullmaskBytes, List.length_map, List.length_range]
  omega

/-- A composite's children in wire order: nullability, value and encoder. -/
abbrev WireChild := Bool × Value × (Value → List UInt32)

/-- Whether a child is written: all but the `Null`s of nullable children. -/
def WireChild.present (c : WireChild) : Bool := !(c.1 && c.2.1.isNull)

/-- The layout of a composite from its children in wire order: the nullmask of the nullable
children, set when present, then the encodings of the present children. -/
def compositeLayout (cs : List WireChild) : List UInt32 :=
  nullmaskLayout ((cs.filter (·.1)).map (·.present)) ++
    (cs.map fun c => if c.present then c.2.2 c.2.1 else []).flatten

/-- A record's children in wire order: the field each `serOrder` entry names. -/
def recordWire (encoders : List (Bool × (Value → List UInt32)))
    (fieldValues : List (String × Value)) (serOrder : List Nat) : List WireChild :=
  serOrder.filterMap fun i =>
    match encoders[i]?, fieldValues[i]? with
    | some (nullable, enc), some (_, v) => some (nullable, v, enc)
    | _, _ => none

mutual
/-- The layout the spec prescribes for a value of a schema. -/
def layout : RamenType → Value → List UInt32
  | .scalar _ _, v => layoutScalar v
  | .tuple fields _, .tuple vs =>
    compositeLayout (List.zipWith (fun e v => (e.1, v, e.2)) (childEncoders fields) vs)
  | .vec _ subType _, .vec vs => compositeLayout (vs.map fun v => (subType.nullable, v, layout subType))
  | .record fields serOrder _, .record fieldValues =>
    compositeLayout (recordWire (fieldEncoders fields) fieldValues serOrder)
  | _, _ => []

/-- The encoders of a tuple's fields, with their nullability. -/
def childEncoders : List RamenType → List (Bool × (Value → List UInt32))
  | [] => []
  | t :: ts => (t.nullable, layout t) :: childEncoders ts

/-- The encoders of a record's fields, with their nullability, in user order. -/
def fieldEncoders : List (String × RamenType) → List (Bool × (Value → List UInt32))
  | [] => []
  | (_, t) :: fs => (t.nullable, layout t) :: fieldEncoders fs
end

theorem childEncoders_eq (fields : List RamenType) :
    childEncoders fields = fields.map fun t => (t.nullable, layout t) := by
  induction fields with
  | nil => rfl
  | cons t ts ih => simp only [childEncoders, ih, List.map_cons]

theorem fieldEncoders_eq (fields : List (String × RamenType)) :
    fieldEncoders fields = fields.map fun f => (f.2.nullable, layout f.2) := by
  induction fields with
  | nil => rfl
  | cons f fs ih => simp only [fieldEncoders, ih, List.map_cons]

/-- The value trees a schema describes: scalars of the node's own class, composites of the
right shape and arity whose children conform, `Null` only at nullable children. -/
inductive Conforms : RamenType → Value → Prop
  | scalar {type nullable v} : scalarConforms type v → Conforms (.scalar type nullable) v
  | tuple {fields nullable vs} : vs.length = fields.length →
      (∀ p ∈ fields.zip vs, p.2.isNull → p.1.nullable) →
      (∀ p ∈ fields.zip vs, p.2.isNull = false → Conforms p.1 p.2) →
      Conforms (.tuple fields nullable) (.tuple vs)
  | vec {dim subType nullable vs} : vs.length = dim →
      (∀ v ∈ vs, v.isNull → subType.nullable) →
      (∀ v ∈ vs, v.isNull = false → Conforms subType v) →
      Conforms (.vec dim subType nullable) (.vec vs)
  | record {fields serOrder nullable fieldValues} : fieldValues.length = fields.length →
      (∀ p ∈ fields.zip fieldValues, p.2.1 = p.1.1) →
      (∀ p ∈ fields.zip fieldValues, p.2.2.isNull → p.1.2.nullable) →
      (∀ p ∈ fields.zip fieldValues, p.2.2.isNull = false → Conforms p.1.2 p.2.2) →
      Conforms (.record fields serOrder nullable) (.record fieldValues)

/-! ## Words in the buffer -/

/-- The words `ws` sit in the buffer `w` from word `p` on. -/
def Embeds (w : List UInt32) (p : Nat) (ws : List UInt32) : Prop :=
  ∀ k < ws.length, w.getD (p + k) 0 = ws.getD k 0

theorem embeds_append {w : List UInt32} {p : Nat} {a b : List UInt32} :
    Embeds w p (a ++ b) ↔ Embeds w p a ∧ Embeds w (p + a.length) b := by
  constructor
  · intro h
    refine ⟨fun k hk => ?_, fun k hk => ?_⟩
    · rw [h k (by simp; omega), List.getD_append _ _ _ _ hk]
    · rw [Nat.add_assoc, h _ (by simp; omega), List.getD_append_right _ _ _ _ (by omega),
        Nat.add_sub_cancel_left]
  · rintro ⟨ha, hb⟩ k hk
    by_cases hka : k < a.length
    · rw [ha k hka, List.getD_append _ _ _ _ hka]
    · have := hb (k - a.length) (by simp at hk; omega)
      rw [List.getD_append_right _ _ _ _ (by omega), ← this]
      congr 1
      omega

theorem embeds_cons {w : List UInt32} {p : Nat} {x : UInt32} {xs : List UInt32} :
    Embeds w p (x :: xs) ↔ w.getD p 0 = x ∧ Embeds w (p + 1) xs := by
  rw [← List.singleton_append, embeds_append]
  exact and_congr ⟨fun h => h 0 (by simp), fun h k hk => by
    obtain rfl : k = 0 := by simpa using hk
    simpa using h⟩ Iff.rfl

theorem wordAt_of_embeds {w : List UInt32} {p : Nat} {ws : List UInt32} (h : Embeds w p ws)
    {k : Nat} (hk : k < ws.length) : wordAt w (p + k) = (ws.getD k 0).toNat := by
  rw [wordAt, h k hk]

end Ramen
