import Mathlib.Algebra.Group.Nat.Basic

/-!
# Schemas and decoded values

The two trees the tuple decoder of `serValue.cpp` relates:

* `RamenType` — the schema node `conf::RamenType` that `unserialize` is handed: a scalar
  class tagged with its `ValueType`, or one of the composite classes `RamenTypeTuple`,
  `RamenTypeVec` and `RamenTypeRecord`, each markable nullable. A record lists its fields
  in user order together with `serOrder`, the order they travel on the wire.
* `Value` — the decoded tree `ser::Value`: `Null`, `Error` with its diagnostic text, one
  constructor per scalar class holding the bits its constructor loads, and the composites
  `Tuple`, `Vec` and `Record`.

`confValue.h` and `serValue.h`, which declare these classes, are not among the sources; the
fields kept here are those `serValue.cpp` reads. `RamenType.nullmaskWidth` is declared there
too and is modelled from the spec.
-/

namespace Ramen

/-- The tags of `ValueType` that `unserialize` switches on. -/
inductive ValueType where
  | anyType | emptyType | floatType | stringType | boolType
  | u8Type | u16Type | u32Type | u64Type | u128Type
  | i8Type | i16Type | i32Type | i64Type | i128Type
  | ethType | ipv4Type | ipv6Type | ipType | cidrv4Type | cidrv6Type | cidrType
  | tupleType | vecType | listType | recordType
  deriving DecidableEq, Repr

/-- A schema node, `conf::RamenType`. -/
inductive RamenType where
  /-- A node of a scalar class, with its type tag. -/
  | scalar (type : ValueType) (nullable : Bool)
  /-- `RamenTypeTuple`: positional fields. -/
  | tuple (fields : List RamenType) (nullable : Bool)
  /-- `RamenTypeVec`: `dim` items of one sub-type. -/
  | vec (dim : Nat) (subType : RamenType) (nullable : Bool)
  /-- `RamenTypeRecord`: named fields in user order, serialised in `serOrder`. -/
  | record (fields : List (String × RamenType)) (serOrder : List Nat) (nullable : Bool)
  deriving Repr

instance : Inhabited RamenType := ⟨.scalar .anyType false⟩

namespace RamenType

/-- `type->nullable`. -/
def nullable : RamenType → Bool
  | .scalar _ n | .tuple _ n | .vec _ _ n | .record _ _ n => n

/-- `type->type`: the tag `unserialize` switches on. -/
def type : RamenType → ValueType
  | .scalar t _ => t
  | .tuple .. => .tupleType
  | .vec .. => .vecType
  | .record .. => .recordType

/-- Modelled from the spec: `RamenType::nullmaskWidth(topLevel)`, declared in `confValue.h`,
which is not among the sources. The spec sizes a composite's nullmask "to the number of
*nullable* immediate children", whatever `topLevel` is. -/
def nullmaskWidth : RamenType → Bool → Nat
  | .scalar .., _ => 0
  | .tuple fields _, _ => fields.countP (·.nullable)
  | .vec dim subType _, _ => if subType.nullable then dim else 0
  | .record fields _ _, _ => fields.countP (·.2.nullable)

mutual
/-- Induction over schemas, with the children of a composite given as a list. -/
theorem induction {motive : RamenType → Prop}
    (scalar : ∀ type nullable, motive (.scalar type nullable))
    (tuple : ∀ fields nullable, (∀ t ∈ fields, motive t) → motive (.tuple fields nullable))
    (vec : ∀ dim subType nullable, motive subType → motive (.vec dim subType nullable))
    (record : ∀ fields serOrder nullable, (∀ f ∈ fields, motive f.2) →
      motive (.record fields serOrder nullable)) :
    ∀ t, motive t
  | .scalar type nullable => scalar type nullable
  | .tuple fields nullable => tuple fields nullable (induction_list scalar tuple vec record fields)
  | .vec dim subType nullable => vec dim subType nullable (induction scalar tuple vec record subType)
  | .record fields serOrder nullable =>
    record fields serOrder nullable (induction_fields scalar tuple vec record fields)

theorem induction_list {motive : RamenType → Prop}
    (scalar : ∀ type nullable, motive (.scalar type nullable))
    (tuple : ∀ fields nullable, (∀ t ∈ fields, motive t) → motive (.tuple fields nullable))
    (vec : ∀ dim subType nullable, motive subType → motive (.vec dim subType nullable))
    (record : ∀ fields serOrder nullable, (∀ f ∈ fields, motive f.2) →
      motive (.record fields serOrder nullable)) :
    ∀ ts : List RamenType, ∀ t ∈ ts, motive t
  | [] => fun _ h => absurd h (List.not_mem_nil _)
  | t :: ts => fun u hu => by
    rcases List.mem_cons.mp hu with rfl | hu
    · exact induction scalar tuple vec record u
    · exact induction_list scalar tuple vec record ts u hu

theorem induction_fields {motive : RamenType → Prop}
    (scalar : ∀ type nullable, motive (.scalar type nullable))
    (tuple : ∀ fields nullable, (∀ t ∈ fields, motive t) → motive (.tuple fields nullable))
    (vec : ∀ dim subType nullable, motive subType → motive (.vec dim subType nullable))
    (record : ∀ fields serOrder nullable, (∀ f ∈ fields, motive f.2) →
      motive (.record fields serOrder nullable)) :
    ∀ fs : List (String × RamenType), ∀ f ∈ fs, motive f.2
  | [] => fun _ h => absurd h (List.not_mem_nil _)
  | (_, t) :: fs => fun u hu => by
    rcases List.mem_cons.mp hu with rfl | hu
    · exact induction scalar tuple vec record t
    · exact induction_fields scalar tuple vec record fs u hu
end

attribute [induction_eliminator] induction

/-- `p` holds at every node of the schema. -/
inductive Every (p : RamenType → Prop) : RamenType → Prop
  | scalar {type nullable} : p (.scalar type nullable) → Every p (.scalar type nullable)
  | tuple {fields nullable} : p (.tuple fields nullable) → (∀ t ∈ fields, Every p t) →
      Every p (.tuple fields nullable)
  | vec {dim subType nullable} : p (.vec dim subType nullable) → Every p subType →
      Every p (.vec dim subType nullable)
  | record {fields serOrder nullable} : p (.record fields serOrder nullable) →
      (∀ f ∈ fields, Every p f.2) → Every p (.record fields serOrder nullable)

/-- What the type-description system promises of one node: a record's `serOrder` is a
permutation of its field indices. -/
def SerOrderPerm : RamenType → Prop
  | .record fields serOrder _ => serOrder.Perm (List.range fields.length)
  | _ => True

/-- A schema whose every record has a permutation for `serOrder`. -/
def WellFormed : RamenType → Prop := Every SerOrderPerm

end RamenType

/-- A decoded value, `ser::Value`. Scalars keep the bits their constructor loads: a float
its IEEE-754 pattern, a signed integer its two's-complement pattern, a string its bytes. -/
inductive Value where
  | null
  | error (errMsg : String)
  | float (v : BitVec 64)
  | bool (v : Bool)
  | string (v : List (BitVec 8))
  | u8 (v : BitVec 8)
  | u16 (v : BitVec 16)
  | u32 (v : BitVec 32)
  | u64 (v : BitVec 64)
  | u128 (v : BitVec 128)
  | i8 (v : BitVec 8)
  | i16 (v : BitVec 16)
  | i32 (v : BitVec 32)
  | i64 (v : BitVec 64)
  | i128 (v : BitVec 128)
  | eth (v : BitVec 64)
  | ipv4 (v : BitVec 64)
  | ipv6 (v : BitVec 128)
  | tuple (fieldValues : List Value)
  | vec (values : List Value)
  | record (fieldValues : List (String × Value))
  deriving Repr

instance : Inhabited Value := ⟨.null⟩

namespace Value

/-- Whether the value is `Null`. -/
def isNull : Value → Bool
  | .null => true
  | _ => false

@[simp] theorem isNull_iff {v : Value} : v.isNull = true ↔ v = .null := by
  cases v <;> simp [isNull]

mutual
/-- The messages of the `Error` nodes of the tree, in order. -/
def errors : Value → List String
  | .error errMsg => [errMsg]
  | .tuple vs | .vec vs => listErrors vs
  | .record fs => fieldErrors fs
  | _ => []

/-- The messages of the `Error` nodes of the values, in order. -/
def listErrors : List Value → List String
  | [] => []
  | v :: vs => v.errors ++ listErrors vs

/-- The messages of the `Error` nodes of the field values, in order. -/
def fieldErrors : List (String × Value) → List String
  | [] => []
  | (_, v) :: fs => v.errors ++ fieldErrors fs
end

theorem mem_listErrors {e : String} :
    ∀ {vs : List Value}, e ∈ listErrors vs ↔ ∃ v ∈ vs, e ∈ v.errors
  | [] => by simp [listErrors]
  | v :: vs => by simp [listErrors, mem_listErrors]

theorem mem_fieldErrors {e : String} :
    ∀ {fs : List (String × Value)}, e ∈ fieldErrors fs ↔ ∃ f ∈ fs, e ∈ f.2.errors
  | [] => by simp [fieldErrors]
  | (_, v) :: fs => by simp [fieldErrors, mem_fieldErrors]

end Value

end Ramen
