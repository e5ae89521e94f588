import Mathlib.Algebra.Group.Nat.Basic

/-!
# `uint32_t` as numbers

The ring buffer's cursors and the decoder's words are `uint32_t`, modelled by `UInt32`.
Proofs work with their `Nat` views: the lemmas below turn `uint32_t` addition, subtraction,
comparison and conversion into arithmetic modulo `2 ^ 32`, which `omega` then decides.
-/

namespace Ramen

/-- `uint32_t` addition wraps modulo `2 ^ 32`. -/
theorem u32_toNat_add (a b : UInt32) : (a + b).toNat = (a.toNat + b.toNat) % 2 ^ 32 :=
  BitVec.toNat_add ..

/-- `uint32_t` subtraction wraps: `a - b` is `a` plus the complement of `b`, modulo `2 ^ 32`. -/
theorem u32_toNat_sub (a b : UInt32) :
    (a - b).toNat = (a.toNat + (2 ^ 32 - b.toNat)) % 2 ^ 32 :=
  BitVec.toNat_sub' ..

/-- `uint32_t` comparison is the comparison of the numbers. -/
theorem u32_le_iff (a b : UInt32) : a ≤ b ↔ a.toNat ≤ b.toNat := BitVec.le_def

/-- Strict `uint32_t` comparison is the comparison of the numbers. -/
theorem u32_lt_iff (a b : UInt32) : a < b ↔ a.toNat < b.toNat := BitVec.lt_def

/-- Every `uint32_t` is below `2 ^ 32`. -/
theorem u32_toNat_lt (a : UInt32) : a.toNat < 2 ^ 32 := a.toBitVec.isLt

/-- Two `uint32_t` are equal when their numbers are. -/
theorem u32_eq_iff (a b : UInt32) : a = b ↔ a.toNat = b.toNat :=
  ⟨congrArg _, UInt32.toNat.inj⟩

/-- The `uint32_t` one is the number one. -/
@[simp] theorem u32_toNat_one : (1 : UInt32).toNat = 1 := rfl

/-- Converting a number to `uint32_t` keeps it modulo `2 ^ 32`. -/
theorem u32_toNat_ofNat (n : Nat) : (UInt32.ofNat n).toNat = n % 2 ^ 32 := BitVec.toNat_ofNat ..

/-- A number below `2 ^ 32` converts to `uint32_t` and back unchanged. -/
theorem u32_toNat_ofNat_of_lt {n : Nat} (h : n < 2 ^ 32) : (UInt32.ofNat n).toNat = n := by
  rw [u32_toNat_ofNat, Nat.mod_eq_of_lt h]

end Ramen
