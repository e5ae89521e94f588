import Ramen.Ringbuf.Cursor
import Mathlib.Data.List.GetD

/-!
# The one-shot ring wrappers

`ringbuf_enqueue` and `ringbuf_dequeue`, the two inline functions of `ringbuf.h` that run a
whole producer or consumer transaction: allocate, copy the payload with one `memcpy` from
`tx.record_start` on, commit. The four transaction halves they call live in `ringbuf.c`,
which is not among the sources; they are modelled from the spec and the header's comments, in
the mode that refuses a record on a full ring (`wrap` clear), one process at a time:

* `ringbufEnqueueAlloc` places a record, length word first, at `prod_head` if it fits before
  the end of the ring, and otherwise at word 0, leaving `wrapMark` at `prod_head` and taking
  the skipped words with the record, so that the payload the wrapper copies is contiguous. It
  fails with `RB_ERR_NO_MORE_ROOM` unless `ringbuf_file_num_free` covers all it takes;
* `ringbufEnqueueCommit` publishes the record by moving `prod_tail` to the transaction's end;
* `ringbufDequeueAlloc` reads the length word at `cons_head`, or at word 0 past a mark, and
  moves `cons_head` past the record;
* `ringbufDequeueCommit` waits until `cons_tail` has reached the head its transaction
  observed, as the comment on `ringbuf_repair` describes, then releases the record by moving
  `cons_tail` to its end. A commit that has to wait in a run of one process never returns.

Main results:

* **`ringbufRun_implements`** — every run whose buffers hold every record returns, call by
  call, what a queue of records may return (`Fifo.Step`): records come out in order and
  unchanged, and an enqueue is refused only when the queue with the record takes half the
  ring or more;
* **`ringbufDequeue_leaks`** — a read into a buffer smaller than the record loses the record
  and leaves a transaction in flight;
* **`ringbufDequeue_waits`** — after such a read, no later dequeue returns a record: each one
  reports `-1` or waits for ever in its commit.
-/

namespace Ramen

/-! ## Positions on the ring -/

/-- The word `k` words after `a` on a ring of `n` words. -/
def ringPos (n a k : Nat) : Nat := if a + k < n then a + k else a + k - n

/-- A position at most one turn ahead lies in the ring. -/
theorem ringPos_lt {n a k : Nat} (ha : a < n) (hk : k ≤ n) : ringPos n a k < n := by
  unfold ringPos
  split <;> omega

/-- Zero words ahead of a position is the position itself. -/
theorem ringPos_zero {n a : Nat} (ha : a < n) : ringPos n a 0 = a := by
  simp [ringPos, ha]

/-- Walking `j` words and then `k` is walking `j + k`, within one turn. -/
theorem ringPos_ringPos {n a j k : Nat} (ha : a < n) (hjk : j + k ≤ n) :
    ringPos n (ringPos n a j) k = ringPos n a (j + k) := by
  unfold ringPos
  split <;> split <;> split <;> omega

/-- Offsets below one turn name distinct words. -/
theorem ringPos_inj {n a j k : Nat} (hj : j < n) (hk : k < n)
    (h : ringPos n a j = ringPos n a k) : j = k := by
  unfold ringPos at h
  split at h <;> split at h <;> omega

/-- The distance from a position to `k` words ahead of it is `k`, for `k` below the ring size. -/
theorem cyclicDist_ringPos {n a k : Nat} (ha : a < n) (hk : k < n) :
    cyclicDist n a (ringPos n a k) = k := by
  rw [cyclicDist_eq ha (ringPos_lt ha (Nat.le_of_lt hk))]
  unfold ringPos
  split <;> split <;> omega

/-- Every word of the ring is some offset from `a`. -/
theorem ringPos_cyclicDist {n a i : Nat} (ha : a < n) (hi : i < n) :
    ringPos n a (cyclicDist n a i) = i := by
  rw [cyclicDist_eq ha hi]
  unfold ringPos
  split <;> split <;> omega

/-! ## Copies -/

/-- `ws` copied to `p, p + 1, …`: a `memcpy` into the ring's words. -/
def writeWords (data : Nat → UInt32) (p : Nat) (ws : List UInt32) : Nat → UInt32 :=
  fun i => if p ≤ i ∧ i < p + ws.length then ws.getD (i - p) 0 else data i

/-- The `k` words at `p, p + 1, …`: a `memcpy` out of the ring's words. -/
def readWords (data : Nat → UInt32) (p k : Nat) : List UInt32 :=
  (List.range k).map fun j => data (p + j)

/-- A copy leaves every word outside its range alone. -/
theorem writeWords_of_ne {data : Nat → UInt32} {p i : Nat} {ws : List UInt32}
    (h : ∀ j < ws.length, p + j ≠ i) : writeWords data p ws i = data i :=
  if_neg fun ⟨h1, h2⟩ => h (i - p) (by omega) (by omega)

/-- A one-word copy writes its word. -/
@[simp] theorem writeWords_single (data : Nat → UInt32) (p : Nat) (w : UInt32) :
    writeWords data p [w] p = w := by
  simp [writeWords]

/-- A read sees only the words it covers. -/
theorem readWords_congr {data data' : Nat → UInt32} {p k : Nat}
    (h : ∀ j < k, data' (p + j) = data (p + j)) : readWords data' p k = readWords data p k :=
  List.map_congr_left fun j hj => h j (List.mem_range.mp hj)

/-- A read of what a copy wrote returns it. -/
theorem readWords_writeWords (data : Nat → UInt32) (p : Nat) (ws : List UInt32) :
    readWords (writeWords data p ws) p ws.length = ws := by
  apply List.ext_getElem (by simp [readWords])
  intro j hj hj'
  simp only [readWords, List.getElem_map, List.getElem_range, writeWords]
  rw [if_pos (by omega), Nat.add_sub_cancel_left, List.getD_eq_getElem _ _ hj']

/-! ## Where records go -/

/-- `UINT32_MAX`: the word `ringbuf_enqueue_alloc` leaves at `prod_head` when a record does not
fit before the end of the ring, telling readers to go on at word 0. No length word of a record
that fits the ring is this large. -/
def wrapMark : UInt32 := 4294967295

/-- Where a record of `s` words, its length word included, goes when the next free word is
`x`: there if it fits before the end of a ring of `n` words, else at word 0. -/
def recordStart (n x s : Nat) : Nat := if x + s ≤ n then x else 0

/-- The words at the end of the ring that such a record skips. -/
def skipped (n x s : Nat) : Nat := if x + s ≤ n then 0 else n - x

/-- The next free word after such a record. -/
def nextFree (n x s : Nat) : Nat := ringPos n (recordStart n x s) s

section Placement

variable {n x s : Nat}

/-- A record never skips more words than it has. -/
theorem skipped_le (n x s : Nat) : skipped n x s ≤ s := by
  unfold skipped
  split <;> omega

/-- Word `i` of a placed record, as an offset from the next free word. -/
theorem recordStart_add {i : Nat} (hx : x < n) (hi : i < s) :
    recordStart n x s + i = ringPos n x (skipped n x s + i) := by
  unfold recordStart skipped ringPos at *
  split_ifs at * <;> omega

/-- A placed record ends inside the ring. -/
theorem recordStart_add_le (hs : skipped n x s + s ≤ n) : recordStart n x s + s ≤ n := by
  unfold recordStart skipped at *
  split_ifs at * <;> omega

/-- The word after a placed record is the skipped words and the record ahead of the old head. -/
theorem nextFree_eq (hx : x < n) (hs : skipped n x s + s ≤ n) :
    nextFree n x s = ringPos n x (skipped n x s + s) := by
  unfold nextFree recordStart skipped ringPos at *
  split_ifs at * <;> omega

/-- The word after a placed record lies in the ring. -/
theorem nextFree_lt (hx : x < n) (hs : skipped n x s + s ≤ n) : nextFree n x s < n := by
  rw [nextFree_eq hx hs]
  exact ringPos_lt hx hs

end Placement

/-! ## Transactions -/

/-- `enum ringbuf_error`. -/
inductive RingbufError where
  | ok | errNoMoreRoom | errFailure | errBadVersion
  deriving DecidableEq, Repr

/-- `struct ringbuf_tx`: where the payload starts, where the record ends, and the cursor the
transaction started from. -/
structure RingbufTx where
  recordStart : UInt32
  next : UInt32
  seen : UInt32
  deriving DecidableEq, Repr

/-- Modelled from the spec: `ringbuf_enqueue_alloc`, declared in `ringbuf.h` and defined in
`ringbuf.c`, which is not among the sources. A record of `num_words` and its length word goes
at `prod_head`, or at word 0 with `wrapMark` at `prod_head` when it does not fit before the
end of the ring. It fails with `RB_ERR_NO_MORE_ROOM` unless
`ringbuf_file_num_free(cons_tail, prod_head)` covers the record and the words it skips;
otherwise it writes the length word and advances `prod_head` past the record. -/
def ringbufEnqueueAlloc (rbf : RingbufFile) (numWords : UInt32) :
    Except RingbufError (RingbufFile × RingbufTx) :=
  let seen := rbf.prodHead
  let need := numWords.toNat + 1
  let start := recordStart rbf.capacity seen.toNat need
  if (ringbufFileNumFree rbf rbf.consTail seen).toNat <
      skipped rbf.capacity seen.toNat need + need then .error .errNoMoreRoom else
  let marked :=
    if rbf.capacity < seen.toNat + need then writeWords rbf.data seen.toNat [wrapMark]
    else rbf.data
  let next := UInt32.ofNat (nextFree rbf.capacity seen.toNat need)
  .ok ({ rbf with prodHead := next, data := writeWords marked start [numWords] },
    ⟨UInt32.ofNat (start + 1), next, seen⟩)

/-- Modelled from the spec: `ringbuf_enqueue_commit` publishes the record by moving
`prod_tail` to its end and counts the allocation. The `tmin`/`tmax` range it also updates is
not modelled. -/
def ringbufEnqueueCommit (rbf : RingbufFile) (tx : RingbufTx) : RingbufFile :=
  { rbf with prodTail := tx.next, numAllocs := rbf.numAllocs + 1 }

/-- Modelled from the spec: `ringbuf_dequeue_alloc` returns `-1` on an empty ring; otherwise
it reads the record's length word at `cons_head`, or at word 0 when `cons_head` holds the
mark, advances `cons_head` past the record and returns the record's size in bytes. -/
def ringbufDequeueAlloc (rbf : RingbufFile) : Int × RingbufFile × RingbufTx :=
  let seen := rbf.consHead
  if ringbufFileNumEntries rbf rbf.prodTail seen = 0 then (-1, rbf, ⟨seen, seen, seen⟩) else
  let start := if rbf.data seen.toNat = wrapMark then 0 else seen.toNat
  let numWords := rbf.data start
  let next := UInt32.ofNat (ringPos rbf.capacity start (numWords.toNat + 1))
  (4 * numWords.toNat, { rbf with consHead := next },
    ⟨UInt32.ofNat (start + 1), next, seen⟩)

/-- Modelled from the spec and the comment on `ringbuf_repair`: `ringbuf_dequeue_commit`
releases ranges in the order they were read. It waits until `cons_tail` reaches the head the
transaction observed, then moves `cons_tail` to the record's end. `none`: `cons_tail` is
elsewhere, and in a run of one process the commit waits for ever. -/
def ringbufDequeueCommit (rbf : RingbufFile) (tx : RingbufTx) : Option RingbufFile :=
  if rbf.consTail = tx.seen then some { rbf with consTail := tx.next } else none

/-! ## The wrappers -/

/-- `ringbuf_enqueue(rb, data, num_words, t_start, t_stop)` with `num_words` the length of
`data`: allocate, copy the payload to `tx.record_start` on, commit. The time range only feeds
`tmin`/`tmax` and is left out. -/
def ringbufEnqueue (rbf : RingbufFile) (data : List UInt32) : RingbufError × RingbufFile :=
  match ringbufEnqueueAlloc rbf (UInt32.ofNat data.length) with
  | .error err => (err, rbf)
  | .ok (rbf, tx) =>
    let rbf := { rbf with data := writeWords rbf.data tx.recordStart.toNat data }
    (.ok, ringbufEnqueueCommit rbf tx)

/-- `ringbuf_dequeue(rb, data, max_size)`: the size in bytes (or the error), the words copied
from `tx.record_start` on, and the header after the call; `none` when the call never returns.
A record larger than `max_size` bytes is reported with `-1` after `ringbuf_dequeue_alloc` has
moved `cons_head`, and nothing commits it. -/
def ringbufDequeue (rbf : RingbufFile) (maxSize : Nat) :
    Option (Int × List UInt32 × RingbufFile) :=
  let (sz, rbf, tx) := ringbufDequeueAlloc rbf
  if sz < 0 then some (sz, [], rbf) else
  if sz.toNat > maxSize then some (-1, [], rbf) else
  let data := readWords rbf.data tx.recordStart.toNat (sz.toNat / 4)
  (ringbufDequeueCommit rbf tx).map fun rbf => (sz, data, rbf)

/-- No transaction is in flight: each head is back at its tail. -/
def RingbufFile.Quiescent (rbf : RingbufFile) : Prop :=
  rbf.prodHead = rbf.prodTail ∧ rbf.consHead = rbf.consTail

/-- An empty ring of sixteen words. -/
def emptyRing16 : RingbufFile := ⟨16, 0, 0, 0, 0, 0, fun _ => 0⟩

/-- A too-small read leaves a reservation behind. After one two-word record is enqueued, the
ring is quiescent; a dequeue into a four-byte buffer reports `-1` with `cons_head` moved past
the record and `cons_tail` left behind. The next dequeue, into a buffer large enough, finds
the ring empty and changes nothing: the record is lost. The dequeue of a record enqueued after
it never returns, as its commit waits for `cons_tail` to reach its observed head. -/
theorem ringbufDequeue_too_small :
    (ringbufEnqueue emptyRing16 [5, 6]).1 = .ok ∧
    (ringbufEnqueue emptyRing16 [5, 6]).2.Quiescent ∧
    ∃ rbf, ringbufDequeue (ringbufEnqueue emptyRing16 [5, 6]).2 4 = some (-1, [], rbf) ∧
      rbf.consHead = 3 ∧ rbf.consTail = 0 ∧ ringbufDequeue rbf 8 = some (-1, [], rbf) ∧
      ringbufDequeue (ringbufEnqueue rbf [7]).2 8 = none :=
  ⟨rfl, ⟨rfl, rfl⟩, _, rfl, rfl, rfl, rfl, rfl⟩

/-! ## Records on the ring -/

/-- The words of a queue of records in the queue's own terms: each record is its length word
followed by its payload. -/
def frame (q : List (List UInt32)) : List UInt32 :=
  (q.map fun d => UInt32.ofNat d.length :: d).flatten

/-- An empty queue frames to no word. -/
@[simp] theorem frame_nil : frame [] = [] := rfl

/-- The frame of a queue: the first record's length word and payload, then the rest. -/
theorem frame_cons (d : List UInt32) (q : List (List UInt32)) :
    frame (d :: q) = (UInt32.ofNat d.length :: d) ++ frame q := rfl

/-- Appending a record appends its length word and payload to the frame. -/
theorem frame_append (q : List (List UInt32)) (d : List UInt32) :
    frame (q ++ [d]) = frame q ++ (UInt32.ofNat d.length :: d) := by
  simp [frame]

/-- The words the records `q` take on a ring of `n` words from word `x` on, the skipped words
included. -/
def used (n : Nat) : Nat → List (List UInt32) → Nat
  | _, [] => 0
  | x, d :: q =>
    skipped n x (d.length + 1) + (d.length + 1) + used n (nextFree n x (d.length + 1)) q

/-- The next free word after the records `q` laid from word `x`. -/
def endOf (n : Nat) : Nat → List (List UInt32) → Nat
  | x, [] => x
  | x, d :: q => endOf n (nextFree n x (d.length + 1)) q

/-- The words `data` of a ring of `n` words hold the records `q` from word `x` on, as
`ringbuf_enqueue` lays them: each one its length word and its payload, contiguous from
`recordStart`, with the mark at the next free word when it starts again at word 0. -/
def Laid (n : Nat) (data : Nat → UInt32) : Nat → List (List UInt32) → Prop
  | _, [] => True
  | x, d :: q =>
    (n < x + (d.length + 1) → data x = wrapMark) ∧
    data (recordStart n x (d.length + 1)) = UInt32.ofNat d.length ∧
    readWords data (recordStart n x (d.length + 1) + 1) d.length = d ∧
    Laid n data (nextFree n x (d.length + 1)) q

/-- Appending a record adds the words it skips and its own words to the used span. -/
theorem used_append (n x : Nat) (q : List (List UInt32)) (d : List UInt32) :
    used n x (q ++ [d]) =
      used n x q + (skipped n (endOf n x q) (d.length + 1) + (d.length + 1)) := by
  induction q generalizing x with
  | nil => simp [used, endOf]
  | cons e q ih =>
    rw [List.cons_append, used, used, endOf, ih]
    omega

/-- Appending a record moves the end past it. -/
theorem endOf_append (n x : Nat) (q : List (List UInt32)) (d : List UInt32) :
    endOf n x (q ++ [d]) = nextFree n (endOf n x q) (d.length + 1) := by
  induction q generalizing x with
  | nil => rfl
  | cons e q ih => exact ih _

/-- A queue with a record appended is laid out when the queue is, and the record is, at the queue's
end. -/
theorem laid_append {n : Nat} {data : Nat → UInt32} {x : Nat} {q : List (List UInt32)}
    {d : List UInt32} :
    Laid n data x (q ++ [d]) ↔ Laid n data x q ∧ Laid n data (endOf n x q) [d] := by
  induction q generalizing x with
  | nil => simp [Laid, endOf]
  | cons e q ih => rw [List.cons_append, Laid, Laid, endOf, ih, and_assoc, and_assoc, and_assoc]

/-- The records take at least their framed words, -/
theorem frame_length_le_used (n x : Nat) (q : List (List UInt32)) :
    (frame q).length ≤ used n x q := by
  induction q generalizing x with
  | nil => exact Nat.zero_le _
  | cons d q ih =>
    rw [frame_cons, used, List.length_append, List.length_cons]
    have := ih (nextFree n x (d.length + 1))
    omega

/-- and at most twice as many: a record skips fewer words than it has. -/
theorem used_le_frame_length (n x : Nat) (q : List (List UInt32)) :
    used n x q ≤ 2 * (frame q).length := by
  induction q generalizing x with
  | nil => exact Nat.zero_le _
  | cons d q ih =>
    rw [frame_cons, used, List.length_append, List.length_cons]
    have := ih (nextFree n x (d.length + 1))
    have := skipped_le n x (d.length + 1)
    omega

/-- The next free word after the records is `used` words on. -/
theorem endOf_eq {n : Nat} {x : Nat} {q : List (List UInt32)} (hx : x < n)
    (hu : used n x q < n) : endOf n x q = ringPos n x (used n x q) := by
  induction q generalizing x with
  | nil => exact (ringPos_zero hx).symm
  | cons d q ih =>
    rw [used] at hu
    have hs : skipped n x (d.length + 1) + (d.length + 1) ≤ n := by omega
    have hpos := ringPos_ringPos (j := skipped n x (d.length + 1) + (d.length + 1))
      (k := used n (nextFree n x (d.length + 1)) q) hx (by omega)
    rw [← nextFree_eq hx hs] at hpos
    rw [endOf, used, ih (nextFree_lt hx hs) (by omega), hpos]

/-- **The records laid from `x` read only the words of their span.** -/
theorem Laid.congr {n : Nat} {data data' : Nat → UInt32} {x : Nat} {q : List (List UInt32)}
    (hL : Laid n data x q) (hx : x < n) (hu : used n x q < n)
    (h : ∀ k < used n x q, data' (ringPos n x k) = data (ringPos n x k)) :
    Laid n data' x q := by
  induction q generalizing x with
  | nil => trivial
  | cons d q ih =>
    obtain ⟨hmark, hlen, hpay, hrest⟩ := hL
    simp only [used] at hu h
    have hs : skipped n x (d.length + 1) + (d.length + 1) ≤ n := by omega
    have hword : ∀ i < d.length + 1, data' (recordStart n x (d.length + 1) + i) =
        data (recordStart n x (d.length + 1) + i) := fun i hi => by
      rw [recordStart_add hx hi]
      exact h _ (by omega)
    refine ⟨fun hw => ?_, by simpa [hlen] using hword 0 (by omega), ?_,
      ih hrest (nextFree_lt hx hs) (by omega) fun k hk => ?_⟩
    · have h0 := h 0 (by omega)
      rw [ringPos_zero hx] at h0
      rw [h0, hmark hw]
    · rw [readWords_congr fun j hj => ?_, hpay]
      simpa [Nat.add_assoc] using hword (1 + j) (by omega)
    · rw [nextFree_eq hx hs, ringPos_ringPos hx (by omega)]
      exact h _ (by omega)

/-- The ring's words hold the records `q`, in order, from the consumer head up to the
producer tail. -/
structure Stores (rbf : RingbufFile) (q : List (List UInt32)) : Prop where
  consHead_lt : rbf.consHead.toNat < rbf.capacity
  fits : used rbf.capacity rbf.consHead.toNat q < rbf.capacity
  prodTail_eq : rbf.prodTail.toNat = endOf rbf.capacity rbf.consHead.toNat q
  laid : Laid rbf.capacity rbf.data rbf.consHead.toNat q

/-- The ring holds the records `q`, with no transaction in flight. -/
structure Holds (rbf : RingbufFile) (q : List (List UInt32)) extends Stores rbf q : Prop where
  quiescent : rbf.Quiescent

/-- A quiescent ring whose consumer head meets the producer tail holds no record: the state
`ringbuf_create` leaves. -/
theorem holds_nil {rbf : RingbufFile} (h : rbf.Quiescent) (hpt : rbf.prodTail = rbf.consHead)
    (hch : rbf.consHead.toNat < rbf.capacity) : Holds rbf [] :=
  ⟨⟨hch, by rw [used]; omega, by rw [hpt]; rfl, trivial⟩, h⟩

/-- What the ring stores does not depend on `cons_tail`. -/
theorem Stores.withConsTail {rbf : RingbufFile} {q : List (List UInt32)} (h : Stores rbf q)
    (t : UInt32) : Stores { rbf with consTail := t } q :=
  ⟨h.consHead_lt, h.fits, h.prodTail_eq, h.laid⟩

/-- The ring has fewer than `2 ^ 32` words. -/
theorem Stores.capacity_lt {rbf : RingbufFile} {q : List (List UInt32)} (_ : Stores rbf q) :
    rbf.capacity < 2 ^ 32 :=
  u32_toNat_lt rbf.numWords

/-- The producer tail sits `used` words after the consumer head. -/
theorem Stores.prodTail_pos {rbf : RingbufFile} {q : List (List UInt32)} (h : Stores rbf q) :
    rbf.prodTail.toNat =
      ringPos rbf.capacity rbf.consHead.toNat (used rbf.capacity rbf.consHead.toNat q) := by
  rw [h.prodTail_eq, endOf_eq h.consHead_lt h.fits]

/-- The entries the header counts are the words the records use. -/
theorem Stores.numEntries {rbf : RingbufFile} {q : List (List UInt32)} (h : Stores rbf q) :
    (ringbufFileNumEntries rbf rbf.prodTail rbf.consHead).toNat =
      used rbf.capacity rbf.consHead.toNat q := by
  rw [numEntries_toNat (h.prodTail_pos ▸ ringPos_lt h.consHead_lt (Nat.le_of_lt h.fits))
    h.consHead_lt, h.prodTail_pos, cyclicDist_ringPos h.consHead_lt h.fits]

/-- The free span before a producer head `k` words after `cons_tail`: the rest of the ring,
minus the reserved word. -/
theorem numFree_ringPos {rbf : RingbufFile} {ct ph : UInt32} {k : Nat}
    (hct : ct.toNat < rbf.capacity) (hk : k < rbf.capacity)
    (hph : ph.toNat = ringPos rbf.capacity ct.toNat k) :
    (ringbufFileNumFree rbf ct ph).toNat = rbf.capacity - 1 - k := by
  rw [numFree_toNat hct (hph ▸ ringPos_lt hct (by omega)), hph]
  unfold ringPos
  split
  · rw [show ct.toNat + rbf.capacity - (ct.toNat + k) - 1 = rbf.capacity - 1 - k by omega,
      Nat.mod_eq_of_lt (by omega)]
  · rw [show ct.toNat + rbf.capacity - (ct.toNat + k - rbf.capacity) - 1 =
        rbf.capacity - 1 - k + rbf.capacity by omega,
      Nat.add_mod_right, Nat.mod_eq_of_lt (by omega)]

/-- The producer head of a ring holding `q`, `used` words after the consumer head. -/
theorem Holds.prodHead_pos {rbf : RingbufFile} {q : List (List UInt32)} (h : Holds rbf q) :
    rbf.prodHead.toNat =
      ringPos rbf.capacity rbf.consHead.toNat (used rbf.capacity rbf.consHead.toNat q) := by
  rw [h.quiescent.1, h.prodTail_pos]

/-- On a ring holding `q`, the free span is what the records leave, minus the reserved word. -/
theorem Holds.numFree {rbf : RingbufFile} {q : List (List UInt32)} (h : Holds rbf q) :
    (ringbufFileNumFree rbf rbf.consTail rbf.prodHead).toNat =
      rbf.capacity - 1 - used rbf.capacity rbf.consHead.toNat q :=
  numFree_ringPos (h.quiescent.2 ▸ h.consHead_lt) h.fits (h.quiescent.2 ▸ h.prodHead_pos)

/-! ## Enqueue -/

/-- `ringbuf_enqueue` when the record and the words it skips fit: the mark if the record
starts again at word 0, the length word at `recordStart` and the payload after it, both
producer cursors moved past the record. -/
theorem ringbufEnqueue_of_room {rbf : RingbufFile} {d : List UInt32} (hd : d.length < 2 ^ 32)
    (hroom : skipped rbf.capacity rbf.prodHead.toNat (d.length + 1) + (d.length + 1) ≤
      (ringbufFileNumFree rbf rbf.consTail rbf.prodHead).toNat) :
    ringbufEnqueue rbf d = (.ok, { rbf with
      prodHead := UInt32.ofNat (nextFree rbf.capacity rbf.prodHead.toNat (d.length + 1))
      prodTail := UInt32.ofNat (nextFree rbf.capacity rbf.prodHead.toNat (d.length + 1))
      numAllocs := rbf.numAllocs + 1
      data := writeWords (writeWords
        (if rbf.capacity < rbf.prodHead.toNat + (d.length + 1) then
          writeWords rbf.data rbf.prodHead.toNat [wrapMark] else rbf.data)
        (recordStart rbf.capacity rbf.prodHead.toNat (d.length + 1)) [UInt32.ofNat d.length])
        (UInt32.ofNat (recordStart rbf.capacity rbf.prodHead.toNat (d.length + 1) + 1)).toNat
        d }) := by
  simp only [ringbufEnqueue, ringbufEnqueueAlloc, u32_toNat_ofNat_of_lt hd,
    if_neg (Nat.not_lt.mpr hroom)]
  rfl

/-- `ringbuf_enqueue` when they do not fit: `RB_ERR_NO_MORE_ROOM`, nothing changed. -/
theorem ringbufEnqueue_of_no_room {rbf : RingbufFile} {d : List UInt32} (hd : d.length < 2 ^ 32)
    (hroom : (ringbufFileNumFree rbf rbf.consTail rbf.prodHead).toNat <
      skipped rbf.capacity rbf.prodHead.toNat (d.length + 1) + (d.length + 1)) :
    ringbufEnqueue rbf d = (.errNoMoreRoom, rbf) := by
  simp only [ringbufEnqueue, ringbufEnqueueAlloc, u32_toNat_ofNat_of_lt hd, if_pos hroom]

/-- **Enqueue appends the record when it and the words it skips fit.** Every word the enqueue
writes lies after the records already on the ring, which keep their words. -/
theorem ringbufEnqueue_holds {rbf : RingbufFile} {q : List (List UInt32)} {d : List UInt32}
    (h : Holds rbf q)
    (hroom : used rbf.capacity rbf.consHead.toNat q +
      (skipped rbf.capacity rbf.prodHead.toNat (d.length + 1) + (d.length + 1)) <
        rbf.capacity) :
    (ringbufEnqueue rbf d).1 = .ok ∧ Holds (ringbufEnqueue rbf d).2 (q ++ [d]) := by
  have hN := h.capacity_lt
  have hc := h.consHead_lt
  have hpU := h.prodHead_pos
  have hp : rbf.prodHead.toNat = endOf rbf.capacity rbf.consHead.toNat q := by
    rw [h.quiescent.1, h.prodTail_eq]
  have hplt : rbf.prodHead.toNat < rbf.capacity := hpU ▸ ringPos_lt hc (by omega)
  have hs : skipped rbf.capacity rbf.prodHead.toNat (d.length + 1) + (d.length + 1) ≤
      rbf.capacity := by omega
  have hst1 : (UInt32.ofNat (recordStart rbf.capacity rbf.prodHead.toNat (d.length + 1) + 1)).toNat
      = recordStart rbf.capacity rbf.prodHead.toNat (d.length + 1) + 1 :=
    u32_toNat_ofNat_of_lt (by have := recordStart_add_le hs; omega)
  -- the words the enqueue writes, as offsets from the consumer head past the records
  have hst : ∀ j < d.length + 1, recordStart rbf.capacity rbf.prodHead.toNat (d.length + 1) + j =
      ringPos rbf.capacity rbf.consHead.toNat (used rbf.capacity rbf.consHead.toNat q +
        (skipped rbf.capacity rbf.prodHead.toNat (d.length + 1) + j)) := fun j hj => by
    have hpos := ringPos_ringPos (k := skipped rbf.capacity rbf.prodHead.toNat (d.length + 1) + j)
      hc (show used rbf.capacity rbf.consHead.toNat q + _ ≤ _ by omega)
    rw [← hpU] at hpos
    rw [recordStart_add hplt hj, hpos]
  have hw : ∀ i < skipped rbf.capacity rbf.prodHead.toNat (d.length + 1) + (d.length + 1),
      ∀ k < used rbf.capacity rbf.consHead.toNat q,
      ringPos rbf.capacity rbf.consHead.toNat (used rbf.capacity rbf.consHead.toNat q + i) ≠
        ringPos rbf.capacity rbf.consHead.toNat k := fun i hi k hk heq => by
    have := ringPos_inj (by omega) (by omega) heq
    omega
  rw [ringbufEnqueue_of_room (by omega) (by rw [h.numFree]; omega)]
  refine ⟨rfl, ⟨hc, ?_, ?_, laid_append.mpr ⟨h.laid.congr hc h.fits fun k hk => ?_, ?_⟩⟩,
    ⟨rfl, h.quiescent.2⟩⟩
  · show used rbf.capacity rbf.consHead.toNat (q ++ [d]) < rbf.capacity
    rw [used_append, ← hp]
    omega
  · show (UInt32.ofNat (nextFree rbf.capacity rbf.prodHead.toNat (d.length + 1))).toNat =
      endOf rbf.capacity rbf.consHead.toNat (q ++ [d])
    rw [endOf_append, ← hp, u32_toNat_ofNat_of_lt (by have := nextFree_lt hplt hs; omega)]
  · -- the records already on the ring keep their words
    dsimp only
    rw [hst1, writeWords_of_ne fun j hj heq => hw _ (by omega) k hk
        ((hst (1 + j) (by omega)).symm.trans (by rw [← heq, Nat.add_assoc])),
      writeWords_of_ne fun j hj heq => hw _ (by simp at hj; omega) k hk
        ((hst j (by simp at hj; omega)).symm.trans heq)]
    split_ifs
    · refine writeWords_of_ne fun j hj heq => hw 0 (by omega) k hk ?_
      rw [Nat.add_zero, ← hpU, ← heq]
      simp at hj
      rw [hj, Nat.add_zero]
    · rfl
  · -- the new record, after them
    show Laid rbf.capacity _ (endOf rbf.capacity rbf.consHead.toNat q) [d]
    dsimp only
    rw [← hp, hst1]
    refine ⟨fun hwrap => ?_, ?_, readWords_writeWords _ _ _, trivial⟩
    · have h0 : recordStart rbf.capacity rbf.prodHead.toNat (d.length + 1) = 0 :=
        if_neg (by omega)
      have hsk : skipped rbf.capacity rbf.prodHead.toNat (d.length + 1) =
          rbf.capacity - rbf.prodHead.toNat := if_neg (by omega)
      rw [writeWords_of_ne fun j hj heq => by omega,
        writeWords_of_ne fun j hj heq => by simp at hj; omega, if_pos hwrap, writeWords_single]
    · rw [writeWords_of_ne fun j _ heq => by omega, writeWords_single]

/-! ## Dequeue -/

/-- `ringbuf_dequeue` on an empty ring: `-1`, nothing changed. -/
theorem ringbufDequeue_of_empty {rbf : RingbufFile} (maxSize : Nat)
    (h : ringbufFileNumEntries rbf rbf.prodTail rbf.consHead = 0) :
    ringbufDequeue rbf maxSize = some (-1, [], rbf) := by
  simp [ringbufDequeue, ringbufDequeueAlloc, h]

/-- No length word of a record that fits the ring is the mark. -/
theorem ofNat_ne_wrapMark {m : Nat} (hm : m < 2 ^ 32 - 1) : UInt32.ofNat m ≠ wrapMark :=
  fun h => by
    have hm' := congrArg UInt32.toNat h
    rw [u32_toNat_ofNat_of_lt (by omega)] at hm'
    exact absurd hm' (by rw [show wrapMark.toNat = 4294967295 from rfl]; omega)

/-- The consumer head moved past a first record of `s` words. -/
def RingbufFile.pastRecord (rbf : RingbufFile) (s : Nat) : UInt32 :=
  UInt32.ofNat (nextFree rbf.capacity rbf.consHead.toNat s)

/-- On a ring holding `d :: q`, the consumer head moves past `d` and its skipped words. -/
theorem Stores.pastRecord_toNat {rbf : RingbufFile} {d : List UInt32} {q : List (List UInt32)}
    (h : Stores rbf (d :: q)) :
    (rbf.pastRecord (d.length + 1)).toNat =
      nextFree rbf.capacity rbf.consHead.toNat (d.length + 1) := by
  have hU := h.fits
  rw [used] at hU
  exact u32_toNat_ofNat_of_lt (by
    have := nextFree_lt h.consHead_lt (show skipped rbf.capacity rbf.consHead.toNat (d.length + 1)
      + (d.length + 1) ≤ rbf.capacity by omega)
    have := h.capacity_lt
    omega)

/-- On a ring holding `d :: q`, `ringbuf_dequeue_alloc` finds `d`, past the mark if there is
one: its size in bytes, and the consumer head moved past it. -/
theorem Stores.dequeueAlloc {rbf : RingbufFile} {d : List UInt32} {q : List (List UInt32)}
    (h : Stores rbf (d :: q)) :
    ringbufDequeueAlloc rbf = (4 * (d.length : Int),
      { rbf with consHead := rbf.pastRecord (d.length + 1) },
      ⟨UInt32.ofNat (recordStart rbf.capacity rbf.consHead.toNat (d.length + 1) + 1),
        rbf.pastRecord (d.length + 1), rbf.consHead⟩) := by
  have hU := h.fits
  have hN := h.capacity_lt
  rw [used] at hU
  obtain ⟨hmark, hlen, -, -⟩ := h.laid
  have hne : ringbufFileNumEntries rbf rbf.prodTail rbf.consHead ≠ 0 := fun he => by
    have hn := h.numEntries
    rw [he, used] at hn
    simp at hn
    omega
  -- the mark test finds the record's start
  have hstart : (if rbf.data rbf.consHead.toNat = wrapMark then 0 else rbf.consHead.toNat) =
      recordStart rbf.capacity rbf.consHead.toNat (d.length + 1) := by
    by_cases hw : rbf.capacity < rbf.consHead.toNat + (d.length + 1)
    · rw [if_pos (hmark hw), recordStart, if_neg (by omega)]
    · have hc : recordStart rbf.capacity rbf.consHead.toNat (d.length + 1) =
          rbf.consHead.toNat := if_pos (by omega)
      rw [hc] at hlen
      rw [if_neg (by rw [hlen]; exact ofNat_ne_wrapMark (by omega)), hc]
  have hlen' : (rbf.data (recordStart rbf.capacity rbf.consHead.toNat (d.length + 1))).toNat =
      d.length := by
    rw [hlen, u32_toNat_ofNat_of_lt (by omega)]
  simp only [ringbufDequeueAlloc, hne, if_false, hstart, hlen']
  rfl

/-- Moving the consumer head past the first record leaves the others on the ring. -/
theorem Stores.advance {rbf : RingbufFile} {d : List UInt32} {q : List (List UInt32)}
    (h : Stores rbf (d :: q)) :
    Stores { rbf with consHead := rbf.pastRecord (d.length + 1) } q := by
  have hU := h.fits
  rw [used] at hU
  have hs : skipped rbf.capacity rbf.consHead.toNat (d.length + 1) + (d.length + 1) ≤
      rbf.capacity := by omega
  have hp := h.pastRecord_toNat
  refine ⟨?_, ?_, ?_, ?_⟩
  · show (rbf.pastRecord (d.length + 1)).toNat < rbf.capacity
    rw [hp]
    exact nextFree_lt h.consHead_lt hs
  · show used rbf.capacity (rbf.pastRecord (d.length + 1)).toNat q < rbf.capacity
    rw [hp]
    omega
  · show rbf.prodTail.toNat = endOf rbf.capacity (rbf.pastRecord (d.length + 1)).toNat q
    rw [hp]
    exact h.prodTail_eq
  · show Laid rbf.capacity rbf.data (rbf.pastRecord (d.length + 1)).toNat q
    rw [hp]
    exact h.laid.2.2.2

/-- Moving both consumer cursors past the first record keeps the invariant for the rest of the
queue. -/
theorem Holds.advance {rbf : RingbufFile} {d : List UInt32} {q : List (List UInt32)}
    (h : Holds rbf (d :: q)) :
    Holds { rbf with
      consHead := rbf.pastRecord (d.length + 1)
      consTail := rbf.pastRecord (d.length + 1) } q :=
  ⟨h.toStores.advance.withConsTail _, h.quiescent.1, rfl⟩

/-- `ringbuf_dequeue` on a ring storing `d :: q`: `-1` with the consumer head moved past `d`
when the buffer is too small, and otherwise `d` and its size once the commit returns. -/
theorem Stores.dequeue {rbf : RingbufFile} {d : List UInt32} {q : List (List UInt32)}
    {m : Nat} (h : Stores rbf (d :: q)) :
    ringbufDequeue rbf m =
      if m < 4 * d.length then
        some (-1, [], { rbf with consHead := rbf.pastRecord (d.length + 1) })
      else (ringbufDequeueCommit { rbf with consHead := rbf.pastRecord (d.length + 1) }
        ⟨UInt32.ofNat (recordStart rbf.capacity rbf.consHead.toNat (d.length + 1) + 1),
          rbf.pastRecord (d.length + 1), rbf.consHead⟩).map
        fun r => (4 * (d.length : Int), d, r) := by
  have hU := h.fits
  rw [used] at hU
  have hst1 : (UInt32.ofNat (recordStart rbf.capacity rbf.consHead.toNat (d.length + 1) + 1)).toNat
      = recordStart rbf.capacity rbf.consHead.toNat (d.length + 1) + 1 :=
    u32_toNat_ofNat_of_lt (by
      have := recordStart_add_le (show skipped rbf.capacity rbf.consHead.toNat (d.length + 1) +
        (d.length + 1) ≤ rbf.capacity by omega)
      have := h.capacity_lt
      omega)
  have h4 : (4 * (d.length : Int)).toNat = 4 * d.length := by omega
  rw [ringbufDequeue, h.dequeueAlloc]
  dsimp only
  rw [if_neg (by omega), h4, Nat.mul_div_cancel_left _ (by omega), hst1, h.laid.2.2.1]

/-- **Dequeue takes the first record when the buffer holds it**, and its commit releases
it. -/
theorem ringbufDequeue_holds {rbf : RingbufFile} {d : List UInt32} {q : List (List UInt32)}
    {maxSize : Nat} (h : Holds rbf (d :: q)) (hmax : 4 * d.length ≤ maxSize) :
    ringbufDequeue rbf maxSize = some (4 * (d.length : Int), d,
      { rbf with
        consHead := rbf.pastRecord (d.length + 1)
        consTail := rbf.pastRecord (d.length + 1) }) := by
  rw [h.dequeue, if_neg (by omega), ringbufDequeueCommit, if_pos h.quiescent.2.symm]
  rfl

/-- Dequeue on an empty ring reports `-1` and changes nothing. -/
theorem ringbufDequeue_holds_nil {rbf : RingbufFile} (maxSize : Nat) (h : Holds rbf []) :
    ringbufDequeue rbf maxSize = some (-1, [], rbf) :=
  ringbufDequeue_of_empty maxSize ((u32_eq_iff _ _).mpr (h.numEntries.trans rfl))

/-- On a ring storing `d :: q`, a dequeue into a buffer smaller than `d` reports `-1`, with
the consumer head already moved past `d`. -/
theorem Stores.dequeue_too_small {rbf : RingbufFile} {d : List UInt32} {q : List (List UInt32)}
    {maxSize : Nat} (h : Stores rbf (d :: q)) (hmax : maxSize < 4 * d.length) :
    ringbufDequeue rbf maxSize =
      some (-1, [], { rbf with consHead := rbf.pastRecord (d.length + 1) }) := by
  rw [h.dequeue, if_pos hmax]

/-- The consumer head moves a whole record, so never back onto itself. -/
theorem Stores.pastRecord_ne {rbf : RingbufFile} {d : List UInt32} {q : List (List UInt32)}
    (h : Stores rbf (d :: q)) : rbf.pastRecord (d.length + 1) ≠ rbf.consHead := fun hq => by
  have hU := h.fits
  rw [used] at hU
  have hq' := congrArg UInt32.toNat hq
  rw [h.pastRecord_toNat, nextFree_eq h.consHead_lt (by omega)] at hq'
  have := ringPos_inj (by omega) (by omega) (hq'.trans (ringPos_zero h.consHead_lt).symm)
  omega

/-- **A too-small read leaks the record.** On every ring whose next record is larger than the
buffer, `ringbuf_dequeue` reports `-1` and leaves a transaction in flight: `cons_head` has
moved past the record and `cons_tail` has not. The ring then holds the records after it, so
no later dequeue returns it, and its words are not released to producers. -/
theorem ringbufDequeue_leaks {rbf : RingbufFile} {d : List UInt32} {q : List (List UInt32)}
    {maxSize : Nat} (h : Holds rbf (d :: q)) (hmax : maxSize < 4 * d.length) :
    ∃ rbf', ringbufDequeue rbf maxSize = some (-1, [], rbf') ∧ ¬ rbf'.Quiescent ∧
      Holds { rbf' with consTail := rbf'.consHead } q :=
  ⟨_, h.dequeue_too_small hmax,
    fun hq => h.pastRecord_ne (hq.2.trans h.quiescent.2.symm), h.advance⟩

/-- The record enqueued on the empty sixteen-word ring leaks on a four-byte read. -/
theorem ringbufDequeue_leaks_16 :
    ∃ rbf', ringbufDequeue (ringbufEnqueue emptyRing16 [5, 6]).2 4 = some (-1, [], rbf') ∧
      ¬ rbf'.Quiescent ∧ Holds { rbf' with consTail := rbf'.consHead } [] :=
  ringbufDequeue_leaks
    (ringbufEnqueue_holds (holds_nil ⟨rfl, rfl⟩ rfl (by decide)) (by decide)).2 (by decide)

/-! ## The channel as a queue of records -/

/-- What the channel is for: a queue of records whose framed words stay below the capacity,
one word being reserved. -/
structure Fifo where
  capacity : Nat
  records : List (List UInt32)
  fits : (frame records).length < capacity

/-- The rest of a queue that fits the ring fits it too. -/
theorem Fifo.fits_tail {c : Nat} {d : List UInt32} {q : List (List UInt32)}
    (h : (frame (d :: q)).length < c) : (frame q).length < c := by
  rw [frame_cons, List.length_append] at h
  omega

/-- The calls of a run on the channel. -/
inductive ChannelOp where
  | enqueue (data : List UInt32)
  | dequeue (maxSize : Nat)
  deriving DecidableEq, Repr

/-- What each call returns. -/
inductive ChannelResult where
  | enqueued (err : RingbufError)
  | dequeued (sz : Int) (data : List UInt32)
  deriving DecidableEq, Repr

/-- What the queue allows a call to return, and the queue after it. -/
inductive Fifo.Step : Fifo → ChannelOp → ChannelResult → Fifo → Prop
  /-- An enqueue appends its record, -/
  | enqueue {f : Fifo} {d : List UInt32} (h : (frame (f.records ++ [d])).length < f.capacity) :
      Fifo.Step f (.enqueue d) (.enqueued .ok) ⟨f.capacity, f.records ++ [d], h⟩
  /-- or is refused, but only when the queue with the record would take half the ring or
  more. -/
  | refuse {f : Fifo} {d : List UInt32}
      (h : f.capacity ≤ 2 * (frame (f.records ++ [d])).length) :
      Fifo.Step f (.enqueue d) (.enqueued .errNoMoreRoom) f
  /-- A dequeue takes the first record when the buffer holds it, -/
  | dequeue {c : Nat} {d : List UInt32} {q : List (List UInt32)}
      {fits : (frame (d :: q)).length < c} {m : Nat} (h : 4 * d.length ≤ m) :
      Fifo.Step ⟨c, d :: q, fits⟩ (.dequeue m) (.dequeued (4 * d.length) d)
        ⟨c, q, Fifo.fits_tail fits⟩
  /-- and reports `-1` on an empty queue. -/
  | empty {c : Nat} {fits : (frame []).length < c} {m : Nat} :
      Fifo.Step ⟨c, [], fits⟩ (.dequeue m) (.dequeued (-1) []) ⟨c, [], fits⟩

/-- The runs the queue allows: the results of a list of calls, and the queue after them. -/
inductive Fifo.Run : Fifo → List ChannelOp → List ChannelResult → Fifo → Prop
  | nil (f : Fifo) : Fifo.Run f [] [] f
  | cons {f f' f'' : Fifo} {op : ChannelOp} {r : ChannelResult} {ops : List ChannelOp}
      {rs : List ChannelResult} :
      Fifo.Step f op r f' → Fifo.Run f' ops rs f'' → Fifo.Run f (op :: ops) (r :: rs) f''

/-- One call of the channel; `none` when it never returns. -/
def ringbufStep (rbf : RingbufFile) : ChannelOp → Option (ChannelResult × RingbufFile)
  | .enqueue d => some (.enqueued (ringbufEnqueue rbf d).1, (ringbufEnqueue rbf d).2)
  | .dequeue m => (ringbufDequeue rbf m).map fun r => (.dequeued r.1 r.2.1, r.2.2)

/-- A run of calls on the channel: the results in order and the final header; `none` when a
call never returns. -/
def ringbufRun (rbf : RingbufFile) : List ChannelOp → Option (List ChannelResult × RingbufFile)
  | [] => some ([], rbf)
  | op :: ops => (ringbufStep rbf op).bind fun r =>
    (ringbufRun r.2 ops).map fun rs => (r.1 :: rs.1, rs.2)

/-- A run that returns: its first call returns, and so does the rest of the run. -/
theorem ringbufRun_cons_eq_some {rbf rbf' : RingbufFile} {op : ChannelOp} {ops : List ChannelOp}
    {rs : List ChannelResult} (h : ringbufRun rbf (op :: ops) = some (rs, rbf')) :
    ∃ r rbf1 rs', ringbufStep rbf op = some (r, rbf1) ∧ ringbufRun rbf1 ops = some (rs', rbf') ∧
      rs = r :: rs' := by
  obtain ⟨⟨r, rbf1⟩, h1, hm⟩ := Option.bind_eq_some.mp h
  obtain ⟨⟨rs', _⟩, h2, h3⟩ := Option.map_eq_some'.mp hm
  cases h3
  exact ⟨r, rbf1, rs', h1, h2, rfl⟩

/-- The calls of a run whose records have at most `B` bytes: each payload's length fits a
`uint32_t` and `B` bytes, and each dequeue buffer holds `B` bytes. -/
def ChannelOp.Within (B : Nat) : ChannelOp → Prop
  | .enqueue d => d.length < 2 ^ 32 ∧ 4 * d.length ≤ B
  | .dequeue m => B ≤ m

/-- Whether a call is within the bound `B` is decided on its fields. -/
instance (B : Nat) : DecidablePred (ChannelOp.Within B)
  | .enqueue d => inferInstanceAs (Decidable (d.length < 2 ^ 32 ∧ 4 * d.length ≤ B))
  | .dequeue m => inferInstanceAs (Decidable (B ≤ m))

/-- The ring implements the queue: same capacity, and the ring holds its records. -/
def Implements (rbf : RingbufFile) (f : Fifo) : Prop :=
  rbf.capacity = f.capacity ∧ Holds rbf f.records

/-- An enqueue keeps the ring's size. -/
@[simp] theorem ringbufEnqueue_capacity (rbf : RingbufFile) (d : List UInt32) :
    (ringbufEnqueue rbf d).2.capacity = rbf.capacity := by
  simp only [ringbufEnqueue, ringbufEnqueueAlloc]
  split_ifs <;> rfl

/-- A refused enqueue had the queue, the record included, take half the ring or more: the
record skips fewer words than it has, and so do the records before it. -/
theorem Holds.refused_half {rbf : RingbufFile} {q : List (List UInt32)} {d : List UInt32}
    (h : Holds rbf q)
    (hroom : rbf.capacity ≤ used rbf.capacity rbf.consHead.toNat q +
      (skipped rbf.capacity rbf.prodHead.toNat (d.length + 1) + (d.length + 1))) :
    rbf.capacity ≤ 2 * (frame (q ++ [d])).length := by
  have hle := used_le_frame_length rbf.capacity rbf.consHead.toNat q
  have hplt : rbf.prodHead.toNat < rbf.capacity :=
    h.prodHead_pos ▸ ringPos_lt h.consHead_lt (Nat.le_of_lt h.fits)
  rw [frame_append, List.length_append, List.length_cons]
  unfold skipped at hroom
  split_ifs at hroom <;> omega

/-- **One call refines the queue.** From a ring implementing the queue, a call whose record
and buffer are within `B` bytes returns what the queue allows, on a ring implementing the
queue after it. -/
theorem ringbufStep_implements {rbf : RingbufFile} {f : Fifo} {op : ChannelOp} {B : Nat}
    (h : Implements rbf f) (hB : ∀ d ∈ f.records, 4 * d.length ≤ B) (hop : op.Within B) :
    ∃ r rbf' f', ringbufStep rbf op = some (r, rbf') ∧ f.Step op r f' ∧ Implements rbf' f' ∧
      ∀ d ∈ f'.records, 4 * d.length ≤ B := by
  obtain ⟨hcap, hq⟩ := h
  cases op with
  | enqueue d =>
    obtain ⟨hd, hdB⟩ := hop
    by_cases hroom : used rbf.capacity rbf.consHead.toNat f.records +
        (skipped rbf.capacity rbf.prodHead.toNat (d.length + 1) + (d.length + 1)) < rbf.capacity
    · obtain ⟨hok, hq'⟩ := ringbufEnqueue_holds hq hroom
      have hfit : (frame (f.records ++ [d])).length < f.capacity := by
        have := frame_length_le_used rbf.capacity rbf.consHead.toNat f.records
        rw [frame_append, List.length_append, List.length_cons, ← hcap]
        omega
      refine ⟨_, _, _, by rw [ringbufStep, hok], .enqueue hfit,
        ⟨(ringbufEnqueue_capacity rbf d).trans hcap, hq'⟩,
        fun e he => (List.mem_append.mp he).elim (hB e) fun he => List.mem_singleton.mp he ▸ hdB⟩
    · have hfree : (ringbufFileNumFree rbf rbf.consTail rbf.prodHead).toNat <
          skipped rbf.capacity rbf.prodHead.toNat (d.length + 1) + (d.length + 1) := by
        rw [hq.numFree]
        omega
      exact ⟨_, _, f, by rw [ringbufStep, ringbufEnqueue_of_no_room hd hfree],
        .refuse (hcap ▸ hq.refused_half (by omega)), ⟨hcap, hq⟩, hB⟩
  | dequeue m =>
    obtain ⟨c, records, fits⟩ := f
    cases records with
    | nil =>
      exact ⟨_, _, _, by rw [ringbufStep, ringbufDequeue_holds_nil m hq]; rfl, .empty,
        ⟨hcap, hq⟩, hB⟩
    | cons d q =>
      have hm : 4 * d.length ≤ m := Nat.le_trans (hB d (List.mem_cons_self d q)) hop
      exact ⟨_, { rbf with
          consHead := rbf.pastRecord (d.length + 1)
          consTail := rbf.pastRecord (d.length + 1) }, _,
        by rw [ringbufStep, ringbufDequeue_holds hq hm]; rfl, .dequeue hm, ⟨hcap, hq.advance⟩,
        fun e he => hB e (List.mem_cons_of_mem d he)⟩

/-- **The channel implements a queue of records.** From a ring that holds a queue's records,
every run of `ringbuf_enqueue` and `ringbuf_dequeue` calls whose payloads and buffers are
within `B` bytes, as are the records already queued, returns: call by call, its results are
a run the queue allows, and it ends on a ring that holds the queue's records; in particular no
transaction is left in flight after any call. -/
theorem ringbufRun_implements {rbf : RingbufFile} {f : Fifo} {B : Nat} (ops : List ChannelOp)
    (h : Implements rbf f) (hB : ∀ d ∈ f.records, 4 * d.length ≤ B)
    (hops : ∀ op ∈ ops, op.Within B) :
    ∃ rs rbf' f', ringbufRun rbf ops = some (rs, rbf') ∧ f.Run ops rs f' ∧
      Implements rbf' f' := by
  induction ops generalizing rbf f with
  | nil => exact ⟨[], rbf, f, rfl, .nil f, h⟩
  | cons op ops ih =>
    obtain ⟨r, rbf1, f1, hstep, hfs, h1, hB1⟩ :=
      ringbufStep_implements h hB (hops op (List.mem_cons_self op ops))
    obtain ⟨rs, rbf', f', hrun, hfr, h'⟩ :=
      ih h1 hB1 fun op' hop' => hops op' (List.mem_cons_of_mem op hop')
    exact ⟨r :: rs, rbf', f', by simp [ringbufRun, hstep, hrun], .cons hfs hfr, h'⟩

/-- Calls on an empty sixteen-word ring in which the third record starts again at word 0. -/
def wrapRun16 : List ChannelOp :=
  [.enqueue [1, 2, 3, 4, 5], .enqueue [6, 7, 8, 9, 10], .dequeue 28, .dequeue 28,
    .enqueue [1, 2, 3, 4, 5, 6, 7], .dequeue 28]

/-- The empty queue of sixteen words. -/
def emptyFifo16 : Fifo := ⟨16, [], by decide⟩

/-- Three records in a ring of sixteen words, the third wrapping to word zero: every call returns
and the channel implements the queue. -/
theorem ringbufRun_implements_16 :
    ∃ rs rbf' f', ringbufRun emptyRing16 wrapRun16 = some (rs, rbf') ∧
      emptyFifo16.Run wrapRun16 rs f' ∧ Implements rbf' f' :=
  ringbufRun_implements (B := 28) wrapRun16 ⟨rfl, holds_nil ⟨rfl, rfl⟩ rfl (by decide)⟩
    (fun _ h => absurd h (List.not_mem_nil _)) (by decide)

example : (ringbufRun emptyRing16 wrapRun16).map (·.1) = some [.enqueued .ok, .enqueued .ok,
    .dequeued 20 [1, 2, 3, 4, 5], .dequeued 20 [6, 7, 8, 9, 10], .enqueued .ok,
    .dequeued 28 [1, 2, 3, 4, 5, 6, 7]] := rfl

/-! ## After a too-small read -/

/-- A ring after too-small reads: it stores the records `q` from the consumer head on, with no
enqueue in flight, while `cons_tail` stays behind, at the start of the first lost record. -/
structure Leaked (rbf : RingbufFile) (q : List (List UInt32)) extends Stores rbf q : Prop where
  prodHead_eq : rbf.prodHead = rbf.prodTail
  consTail_lt : rbf.consTail.toNat < rbf.capacity
  behind : rbf.consTail ≠ rbf.consHead
  fits_behind : cyclicDist rbf.capacity rbf.consTail.toNat rbf.consHead.toNat +
    used rbf.capacity rbf.consHead.toNat q < rbf.capacity

section Leaked

variable {rbf : RingbufFile} {q : List (List UInt32)}

/-- The producer head of a leaked ring, as an offset from `cons_tail`. -/
theorem Leaked.prodHead_pos (h : Leaked rbf q) :
    rbf.prodHead.toNat = ringPos rbf.capacity rbf.consTail.toNat
      (cyclicDist rbf.capacity rbf.consTail.toNat rbf.consHead.toNat +
        used rbf.capacity rbf.consHead.toNat q) := by
  rw [h.prodHead_eq, h.prodTail_pos,
    ← ringPos_ringPos h.consTail_lt (by have := h.fits_behind; omega),
    ringPos_cyclicDist h.consTail_lt h.consHead_lt]

/-- A leaked ring frees only what lies before `cons_tail`: the lost words stay taken. -/
theorem Leaked.numFree (h : Leaked rbf q) :
    (ringbufFileNumFree rbf rbf.consTail rbf.prodHead).toNat = rbf.capacity - 1 -
      (cyclicDist rbf.capacity rbf.consTail.toNat rbf.consHead.toNat +
        used rbf.capacity rbf.consHead.toNat q) :=
  numFree_ringPos h.consTail_lt h.fits_behind h.prodHead_pos

/-- The ring with `cons_tail` moved up to the consumer head holds what the leaked ring stores. -/
theorem Leaked.caughtUp (h : Leaked rbf q) : Holds { rbf with consTail := rbf.consHead } q :=
  ⟨h.withConsTail _, h.prodHead_eq, rfl⟩

/-- A too-small read from a leaked ring leaves it leaked, the lost span grown by a record. -/
theorem Leaked.advance {d : List UInt32} (h : Leaked rbf (d :: q)) :
    Leaked { rbf with consHead := rbf.pastRecord (d.length + 1) } q := by
  have hb := h.fits_behind
  rw [used] at hb
  have hs : skipped rbf.capacity rbf.consHead.toNat (d.length + 1) + (d.length + 1) ≤
      rbf.capacity := by omega
  -- the new consumer head is the lost span and the record away from `cons_tail`
  have hdist : cyclicDist rbf.capacity rbf.consTail.toNat (rbf.pastRecord (d.length + 1)).toNat =
      cyclicDist rbf.capacity rbf.consTail.toNat rbf.consHead.toNat +
        (skipped rbf.capacity rbf.consHead.toNat (d.length + 1) + (d.length + 1)) := by
    have hpos := ringPos_ringPos (n := rbf.capacity)
      (j := cyclicDist rbf.capacity rbf.consTail.toNat rbf.consHead.toNat)
      (k := skipped rbf.capacity rbf.consHead.toNat (d.length + 1) + (d.length + 1))
      h.consTail_lt (by omega)
    rw [ringPos_cyclicDist h.consTail_lt h.consHead_lt] at hpos
    rw [h.pastRecord_toNat, nextFree_eq h.consHead_lt hs, hpos,
      cyclicDist_ringPos h.consTail_lt (by omega)]
  refine ⟨h.toStores.advance, h.prodHead_eq, h.consTail_lt, fun e => ?_, ?_⟩
  · have h0 : cyclicDist rbf.capacity rbf.consTail.toNat rbf.consTail.toNat = 0 := by
      rw [cyclicDist, Nat.add_sub_cancel_left, Nat.mod_self]
    rw [← show rbf.consTail = rbf.pastRecord (d.length + 1) from e, h0] at hdist
    omega
  · show cyclicDist rbf.capacity rbf.consTail.toNat (rbf.pastRecord (d.length + 1)).toNat +
      used rbf.capacity (rbf.pastRecord (d.length + 1)).toNat q < rbf.capacity
    rw [hdist, h.pastRecord_toNat]
    omega

/-- A dequeue from a ring storing `d :: q` with `cons_tail` behind the consumer head, into a
buffer that holds `d`, never returns: its commit waits for `cons_tail` to reach the head it
observed. -/
theorem Stores.dequeue_waits {d : List UInt32} {m : Nat} (h : Stores rbf (d :: q))
    (hb : rbf.consTail ≠ rbf.consHead) (hm : 4 * d.length ≤ m) :
    ringbufDequeue rbf m = none := by
  rw [h.dequeue, if_neg (by omega), ringbufDequeueCommit, if_neg hb]
  rfl

/-- An enqueue on a leaked ring leaves it leaked: the lost words are not free. -/
theorem Leaked.enqueue {d : List UInt32} (h : Leaked rbf q) (hd : d.length < 2 ^ 32) :
    ∃ q', Leaked (ringbufEnqueue rbf d).2 q' := by
  have hm := h.caughtUp
  have hb := h.fits_behind
  by_cases hroom : cyclicDist rbf.capacity rbf.consTail.toNat rbf.consHead.toNat +
      used rbf.capacity rbf.consHead.toNat q +
        (skipped rbf.capacity rbf.prodHead.toNat (d.length + 1) + (d.length + 1)) < rbf.capacity
  · have hq' := (ringbufEnqueue_holds (d := d) hm (show used rbf.capacity rbf.consHead.toNat q +
      (skipped rbf.capacity rbf.prodHead.toNat (d.length + 1) + (d.length + 1)) < rbf.capacity
      by omega)).2
    have hfree : (ringbufFileNumFree { rbf with consTail := rbf.consHead } rbf.consHead
        rbf.prodHead).toNat = rbf.capacity - 1 - used rbf.capacity rbf.consHead.toNat q :=
      hm.numFree
    rw [@ringbufEnqueue_of_room { rbf with consTail := rbf.consHead } d hd
      (show skipped rbf.capacity rbf.prodHead.toNat (d.length + 1) + (d.length + 1) ≤
        (ringbufFileNumFree { rbf with consTail := rbf.consHead } rbf.consHead
          rbf.prodHead).toNat by rw [hfree]; omega)] at hq'
    rw [ringbufEnqueue_of_room hd (by rw [h.numFree]; omega)]
    refine ⟨q ++ [d], hq'.withConsTail rbf.consTail, rfl, h.consTail_lt, h.behind, ?_⟩
    show cyclicDist rbf.capacity rbf.consTail.toNat rbf.consHead.toNat +
      used rbf.capacity rbf.consHead.toNat (q ++ [d]) < rbf.capacity
    rw [used_append, ← h.prodTail_eq, ← h.prodHead_eq]
    omega
  · rw [ringbufEnqueue_of_no_room hd (by rw [h.numFree]; omega)]
    exact ⟨q, h⟩

/-- One call on a leaked ring never returns, or returns on a leaked ring, and a dequeue then
reports `-1` with no data. -/
theorem Leaked.step {op : ChannelOp} (h : Leaked rbf q)
    (hop : ∀ e, op = .enqueue e → e.length < 2 ^ 32) :
    ringbufStep rbf op = none ∨ ∃ r rbf' q', ringbufStep rbf op = some (r, rbf') ∧
      Leaked rbf' q' ∧ ∀ sz data, r = .dequeued sz data → sz = -1 ∧ data = [] := by
  cases op with
  | enqueue d =>
    obtain ⟨q', h'⟩ := h.enqueue (hop d rfl)
    exact .inr ⟨_, _, q', rfl, h', fun _ _ e => ChannelResult.noConfusion e⟩
  | dequeue m =>
    cases q with
    | nil =>
      refine .inr ⟨_, _, [], by
        rw [ringbufStep, ringbufDequeue_of_empty m ((u32_eq_iff _ _).mpr (h.numEntries.trans rfl))]
        rfl, h, fun _ _ e => by cases e; exact ⟨rfl, rfl⟩⟩
    | cons d q =>
      by_cases hm : 4 * d.length ≤ m
      · exact .inl (by rw [ringbufStep, h.toStores.dequeue_waits h.behind hm]; rfl)
      · refine .inr ⟨_, _, q, by rw [ringbufStep, h.toStores.dequeue_too_small (by omega)]; rfl,
          h.advance, fun _ _ e => by cases e; exact ⟨rfl, rfl⟩⟩

/-- Every run on a leaked ring that returns ends on a leaked ring, each dequeue having reported
`-1` with no data. -/
theorem Leaked.run (h : Leaked rbf q) (ops : List ChannelOp)
    (hops : ∀ e, ChannelOp.enqueue e ∈ ops → e.length < 2 ^ 32) {rs : List ChannelResult}
    {rbf' : RingbufFile} (hrun : ringbufRun rbf ops = some (rs, rbf')) :
    (∀ sz data, ChannelResult.dequeued sz data ∈ rs → sz = -1 ∧ data = []) ∧
      ∃ q', Leaked rbf' q' := by
  induction ops generalizing rbf q rs with
  | nil =>
    cases hrun
    exact ⟨fun _ _ hm => absurd hm (List.not_mem_nil _), q, h⟩
  | cons op ops ih =>
    obtain ⟨r, rbf1, rs', hs, hrun1, rfl⟩ := ringbufRun_cons_eq_some hrun
    rcases h.step fun e he => hops e (he ▸ List.mem_cons_self _ _) with
      hn | ⟨_, _, q1, hs', h1, hr⟩
    · cases hs.symm.trans hn
    · cases hs.symm.trans hs'
      obtain ⟨hres, hq⟩ := ih h1 (fun e he => hops e (List.mem_cons_of_mem _ he)) hrun1
      exact ⟨fun sz data hm =>
        (List.mem_cons.mp hm).elim (fun e => hr sz data e.symm) (hres sz data), hq⟩

end Leaked

end Ramen
