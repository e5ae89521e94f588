import Ramen.Word
import Mathlib.Tactic.SplitIfs

/-!
# Ring-buffer header and cursor arithmetic

The shared header of a ring-buffer file (`struct ringbuf_file` in `ringbuf.h`) and the two
pure functions that compute used and free space from its cursors:

* `ringbufFileNumEntries` — `ringbuf_file_num_entries`, words readable between the
  producer tail and the consumer head;
* `ringbufFileNumFree` — `ringbuf_file_num_free`, words allocatable between the producer
  head and the consumer tail, one word being kept back to tell a full ring from an empty
  one.

Both are evaluated in `uint32_t`, so `prod_tail + num_words` and `cons_tail + num_words`
may wrap around `2 ^ 32` once the capacity exceeds `2 ^ 31`. The headline result,
`cursor_arithmetic_exact`, says the wrap never shows: for cursors below the capacity both
functions return exactly the cyclic distances they are meant to, and the four spans of a
ring add up to its capacity with the reserved word.

Cursors are `UInt32`, as in the source; proofs go through their `Nat` views (`toNat`) and
close with `omega` after one case split per `if`.
-/

namespace Ramen

/-! ## The header -/

/-- `struct ringbuf_file`, with the fields the modelled operations read or write. The
version tag, `first_seq`, the lock, the `wrap` flag, the `tmin`/`tmax` time range and the
retry `timeout` are left out: no modelled function reads them. -/
structure RingbufFile where
  /-- Fixed length of the ring buffer, in words. -/
  numWords : UInt32
  /-- Next word to be allocated by a producer. -/
  prodHead : UInt32
  /-- End of what producers have committed: readers may read up to here. -/
  prodTail : UInt32
  /-- Next word to be read by a consumer. -/
  consHead : UInt32
  /-- End of what consumers have released back to producers. -/
  consTail : UInt32
  /-- Number of allocations so far. -/
  numAllocs : UInt32
  /-- The words of the ring; only indices below `numWords` are meaningful. -/
  data : Nat → UInt32

/-- The capacity of the ring as a natural number. -/
def RingbufFile.capacity (rbf : RingbufFile) : Nat := rbf.numWords.toNat

/-! ## Used and free space -/

/-- `ringbuf_file_num_entries`: the number of words currently stored in the ring-buffer. -/
def ringbufFileNumEntries (rbf : RingbufFile) (prodTail consHead : UInt32) : UInt32 :=
  if prodTail ≥ consHead then prodTail - consHead
  else (prodTail + rbf.numWords) - consHead

/-- `ringbuf_file_num_free`: the number of words free, one word being reserved. -/
def ringbufFileNumFree (rbf : RingbufFile) (consTail prodHead : UInt32) : UInt32 :=
  if consTail > prodHead then consTail - prodHead - 1
  else (consTail + rbf.numWords) - prodHead - 1

/-- The cyclic distance from `a` to `b` on a ring of `n` words, `(b - a) mod n` for
`a < n`. -/
def cyclicDist (n a b : Nat) : Nat := (b + n - a) % n

theorem cyclicDist_eq {n a b : Nat} (ha : a < n) (hb : b < n) :
    cyclicDist n a b = if a ≤ b then b - a else b + n - a := by
  unfold cyclicDist
  split_ifs with h
  · rw [show b + n - a = b - a + n by omega, Nat.add_mod_right, Nat.mod_eq_of_lt (by omega)]
  · exact Nat.mod_eq_of_lt (by omega)

section Spans

variable {rbf : RingbufFile} {ct ch pt ph : UInt32}

/-- `ringbuf_file_num_entries` as a natural number: both branches, overflow included. -/
theorem numEntries_toNat_eq (hpt : pt.toNat < rbf.capacity) (hch : ch.toNat < rbf.capacity) :
    (ringbufFileNumEntries rbf pt ch).toNat =
      if ch.toNat ≤ pt.toNat then pt.toNat - ch.toNat
      else pt.toNat + rbf.capacity - ch.toNat := by
  unfold ringbufFileNumEntries RingbufFile.capacity at *
  have := u32_toNat_lt rbf.numWords
  simp only [GE.ge, u32_le_iff]
  split_ifs <;> simp only [u32_toNat_sub, u32_toNat_add] <;> omega

/-- `ringbuf_file_num_free` as a natural number: both branches, overflow included. -/
theorem numFree_toNat_eq (hct : ct.toNat < rbf.capacity) (hph : ph.toNat < rbf.capacity) :
    (ringbufFileNumFree rbf ct ph).toNat =
      if ph.toNat < ct.toNat then ct.toNat - ph.toNat - 1
      else ct.toNat + rbf.capacity - ph.toNat - 1 := by
  unfold ringbufFileNumFree RingbufFile.capacity at *
  have := u32_toNat_lt rbf.numWords
  simp only [GT.gt, u32_lt_iff]
  split_ifs <;> simp only [u32_toNat_sub, u32_toNat_add, u32_toNat_one] <;> omega

theorem numEntries_toNat (hpt : pt.toNat < rbf.capacity) (hch : ch.toNat < rbf.capacity) :
    (ringbufFileNumEntries rbf pt ch).toNat = cyclicDist rbf.capacity ch.toNat pt.toNat := by
  rw [numEntries_toNat_eq hpt hch, cyclicDist_eq hch hpt]

theorem numFree_toNat (hct : ct.toNat < rbf.capacity) (hph : ph.toNat < rbf.capacity) :
    (ringbufFileNumFree rbf ct ph).toNat =
      (ct.toNat + rbf.capacity - ph.toNat - 1) % rbf.capacity := by
  rw [numFree_toNat_eq hct hph]
  split_ifs
  · rw [show ct.toNat + rbf.capacity - ph.toNat - 1 = ct.toNat - ph.toNat - 1 + rbf.capacity
      by omega, Nat.add_mod_right, Nat.mod_eq_of_lt (by omega)]
  · exact (Nat.mod_eq_of_lt (by omega)).symm

/-- **Cursor arithmetic is exact.** For every capacity and all cursors below it, evaluating
`ringbuf_file_num_entries` and `ringbuf_file_num_free` in wrapping 32-bit arithmetic gives
the cyclic distance from the consumer head to the producer tail and `(ct - ph - 1) mod N`.
When the cursors lie in the cyclic order `ct, ch, pt, ph`, free space, the producers'
in-flight span, the readable span, the consumers' in-flight span and the reserved word add
up to the capacity. The ring is empty exactly when `pt = ch`, and full exactly when
`ph = (ct - 1) mod N`, the case `ct = 0` included. -/
theorem cursor_arithmetic_exact (rbf : RingbufFile) (ct ch pt ph : UInt32)
    (hct : ct.toNat < rbf.capacity) (hch : ch.toNat < rbf.capacity)
    (hpt : pt.toNat < rbf.capacity) (hph : ph.toNat < rbf.capacity) :
    (ringbufFileNumEntries rbf pt ch).toNat = cyclicDist rbf.capacity ch.toNat pt.toNat ∧
    (ringbufFileNumFree rbf ct ph).toNat =
      (ct.toNat + rbf.capacity - ph.toNat - 1) % rbf.capacity ∧
    (cyclicDist rbf.capacity ct.toNat ch.toNat + cyclicDist rbf.capacity ch.toNat pt.toNat +
        cyclicDist rbf.capacity pt.toNat ph.toNat ≤ rbf.capacity - 1 →
      (ringbufFileNumFree rbf ct ph).toNat + cyclicDist rbf.capacity pt.toNat ph.toNat +
        (ringbufFileNumEntries rbf pt ch).toNat + cyclicDist rbf.capacity ct.toNat ch.toNat + 1 =
        rbf.capacity) ∧
    ((ringbufFileNumEntries rbf pt ch).toNat = 0 ↔ pt = ch) ∧
    ((ringbufFileNumFree rbf ct ph).toNat = 0 ↔
      ph.toNat = (ct.toNat + rbf.capacity - 1) % rbf.capacity) := by
  refine ⟨numEntries_toNat hpt hch, numFree_toNat hct hph, ?_, ?_, ?_⟩
  · rw [numFree_toNat_eq hct hph, numEntries_toNat_eq hpt hch, cyclicDist_eq hct hch,
      cyclicDist_eq hch hpt, cyclicDist_eq hpt hph]
    split_ifs <;> omega
  · rw [numEntries_toNat_eq hpt hch, u32_eq_iff]
    split_ifs <;> omega
  · rw [numFree_toNat_eq hct hph]
    by_cases h0 : ct.toNat = 0
    · rw [h0, Nat.mod_eq_of_lt (by omega)]
      split_ifs <;> omega
    · rw [show ct.toNat + rbf.capacity - 1 = ct.toNat - 1 + rbf.capacity by omega,
        Nat.add_mod_right, Nat.mod_eq_of_lt (by omega)]
      split_ifs <;> omega

/-- A ring of sixteen words whose cursors lie in the order `ct, ch, pt, ph`. -/
def ring16 : RingbufFile := ⟨16, 12, 9, 5, 3, 0, fun _ => 0⟩

theorem cursor_arithmetic_exact_ring16 :
    (ringbufFileNumFree ring16 3 12).toNat + cyclicDist 16 9 12 +
      (ringbufFileNumEntries ring16 9 5).toNat + cyclicDist 16 3 5 + 1 = ring16.capacity :=
  (cursor_arithmetic_exact ring16 3 5 9 12 (by decide) (by decide) (by decide) (by decide)).2.2.1
    (by decide)

/-- The header's comment calls the ring full when `prod_head == cons_tail - 1`. Read
literally in `uint32_t`, that test is the full condition only away from `cons_tail = 0`:
there `cons_tail - 1` is `UINT32_MAX`, which no cursor below a capacity under `2 ^ 32`
reaches, while `ringbuf_file_num_free` is zero for `prod_head = num_words - 1`. -/
theorem header_full_test_iff (hct : ct.toNat < rbf.capacity) (hph : ph.toNat < rbf.capacity) :
    ph = ct - 1 ↔ (ringbufFileNumFree rbf ct ph).toNat = 0 ∧ 0 < ct.toNat := by
  have := u32_toNat_lt rbf.numWords
  unfold RingbufFile.capacity at *
  rw [u32_eq_iff, u32_toNat_sub, u32_toNat_one, numFree_toNat_eq hct hph]
  unfold RingbufFile.capacity
  split_ifs <;> omega

theorem header_full_test_ring16 : ¬ ((15 : UInt32) = 0 - 1) ∧ (ringbufFileNumFree ring16 0 15).toNat = 0 :=
  ⟨fun h => absurd ((@header_full_test_iff ring16 0 15 (by decide) (by decide)).1 h).2
    (by decide), by decide⟩

end Spans

end Ramen
