import Mathlib.Logic.Function.Basic
import Mathlib.Data.Fintype.Basic

/-!
# The head lock of a ring buffer

`ringbuf_head_lock` and `ringbuf_head_unlock` (`ringbuf/ringbuf.h`) protect the head and
tail pointers of a ring buffer that several processes map. The header selects
`LOCK_WITH_LOCKF`, a call to `lockf`; in the `LOCK_WITH_SPINLOCK` build the lock is the
`atomic_flag` `rbf->lock` of the mapped file, and this is the build modelled here:

* `ringbuf_head_lock` spins on `atomic_flag_test_and_set`; after `ASSUME_KIA_AFTER / 2`
  failed tries it yields, and at `ASSUME_KIA_AFTER` it assumes the holder died ("killed in
  action"), resets its counter and clears the flag itself;
* `ringbuf_head_unlock` clears the flag.

Any number of processes run, one atomic step of one process at a time, in any order
(`lockRun`). Main results:

* **`head_lock_exclusive`** — along every schedule in which no waiter clears the flag while
  another process holds the lock, at most one process holds it and the flag is set exactly
  when one does;
* **`head_lock_waiter_acquires`** — from every reachable state, a waiter that runs alone
  holds the lock within `ASSUME_KIA_AFTER - loops + 2` of its own steps and leaves every
  other process where it was: a holder that died in its critical section does not block the
  buffer, and a holder still alive in it then shares it with the waiter.

The counter is an `unsigned`; `counterBound_run` shows it stays below `ASSUME_KIA_AFTER`.
The `sched_yield`, the message on standard error and the cache flushes and barriers of the
other build options do not change the lock's state and are left out.
-/

namespace Ramen

/-- `ASSUME_KIA_AFTER`. -/
def assumeKiaAfter : Nat := 1000000

/-- Where a process is in the code of the head lock. -/
inductive LockPc
  /-- Outside `ringbuf_head_lock` and the critical section. -/
  | idle
  /-- In the loop of `ringbuf_head_lock`, at the test-and-set, with its counter `loops`. -/
  | spinning (loops : Nat)
  /-- At the `ringbuf_head_unlock` of a waiter that assumes the holder is dead. -/
  | stealing
  /-- Between `ringbuf_head_lock` and `ringbuf_head_unlock`. -/
  | critical
deriving DecidableEq, Repr

/-- The flag `rbf->lock` and where each of `n` processes is. -/
structure LockState (n : Nat) where
  lock : Bool
  pc : Fin n → LockPc

variable {n : Nat}

/-- No process in the lock's code, and the flag clear. -/
def LockState.init (n : Nat) : LockState n := ⟨false, fun _ => .idle⟩

/-- Moves process `i` to `p`. -/
def LockState.setPc (s : LockState n) (i : Fin n) (p : LockPc) : LockState n :=
  { s with pc := Function.update s.pc i p }

/-- `ringbuf_head_unlock`: `atomic_flag_clear_explicit`. -/
def ringbufHeadUnlock (s : LockState n) : LockState n := { s with lock := false }

/-- One atomic step of process `i`. At the test-and-set, `atomic_flag_test_and_set` sets the
flag and returns its old value; on failure the counter is compared before its increment
(`loops++ >= ASSUME_KIA_AFTER / 2`) and after it (`loops >= ASSUME_KIA_AFTER`). -/
def lockStep (s : LockState n) (i : Fin n) : LockState n :=
  match s.pc i with
  | .idle => s.setPc i (.spinning 0)
  | .spinning loops =>
    let s' := { s with lock := true }
    if s.lock then
      if assumeKiaAfter / 2 ≤ loops ∧ assumeKiaAfter ≤ loops + 1 then s'.setPc i .stealing
      else s'.setPc i (.spinning (loops + 1))
    else s'.setPc i .critical
  | .stealing => (ringbufHeadUnlock s).setPc i (.spinning 0)
  | .critical => (ringbufHeadUnlock s).setPc i .idle

/-- The processes take steps in the order of the schedule. -/
def lockRun (s : LockState n) (sched : List (Fin n)) : LockState n := sched.foldl lockStep s

/-! ## Frame lemmas -/

/-- Moving a process leaves the flag alone. -/
@[simp] theorem setPc_lock (s : LockState n) (i : Fin n) (p : LockPc) :
    (s.setPc i p).lock = s.lock := rfl

/-- A moved process is where it was moved. -/
@[simp] theorem setPc_pc_self (s : LockState n) (i : Fin n) (p : LockPc) :
    (s.setPc i p).pc i = p := Function.update_same _ _ _

/-- Moving a process leaves the others where they were. -/
theorem setPc_pc_ne (s : LockState n) {i j : Fin n} (h : j ≠ i) (p : LockPc) :
    (s.setPc i p).pc j = s.pc j := Function.update_noteq h _ _

/-- Moving a process twice is moving it to the second place. -/
@[simp] theorem setPc_setPc (s : LockState n) (i : Fin n) (p q : LockPc) :
    (s.setPc i p).setPc i q = s.setPc i q := by
  simp [LockState.setPc]

/-- Setting the flag to the value it has changes nothing. -/
theorem lock_update_self {s : LockState n} {b : Bool} (h : s.lock = b) :
    ({ s with lock := b } : LockState n) = s := by
  rw [← h]

/-- A step of process `i` leaves every other process where it was. -/
theorem lockStep_pc_ne (s : LockState n) {i j : Fin n} (h : j ≠ i) :
    (lockStep s i).pc j = s.pc j := by
  unfold lockStep
  split
  · exact setPc_pc_ne s h _
  · split_ifs <;> exact setPc_pc_ne _ h _
  · exact setPc_pc_ne _ h _
  · exact setPc_pc_ne _ h _

/-- The empty schedule changes nothing. -/
theorem lockRun_nil (s : LockState n) : lockRun s [] = s := rfl

/-- A schedule runs its first step, then the rest. -/
theorem lockRun_cons (s : LockState n) (i : Fin n) (sched : List (Fin n)) :
    lockRun s (i :: sched) = lockRun (lockStep s i) sched := rfl

/-- A schedule made of two runs the first, then the second. -/
theorem lockRun_append (s : LockState n) (a b : List (Fin n)) :
    lockRun s (a ++ b) = lockRun (lockRun s a) b := List.foldl_append _ _ _ _

/-- Steps of process `i` alone leave every other process where it was. -/
theorem lockRun_replicate_pc_ne (s : LockState n) {i j : Fin n} (h : j ≠ i) (k : Nat) :
    (lockRun s (List.replicate k i)).pc j = s.pc j := by
  induction k generalizing s with
  | zero => rfl
  | succ k ih => rw [List.replicate_succ, lockRun_cons, ih, lockStep_pc_ne s h]

/-! ## The counter never wraps -/

/-- Every waiter's counter is below `ASSUME_KIA_AFTER`. -/
def CounterBound (s : LockState n) : Prop :=
  ∀ i l, s.pc i = .spinning l → l < assumeKiaAfter

/-- One step of any process keeps every counter below `ASSUME_KIA_AFTER`. -/
theorem CounterBound_step {s : LockState n} (h : CounterBound s) (i : Fin n) :
    CounterBound (lockStep s i) := by
  intro j l hj
  by_cases hji : j = i
  · subst hji
    revert hj
    unfold lockStep
    split
    · simp only [setPc_pc_self, LockPc.spinning.injEq]
      rintro rfl
      decide
    · rename_i loops hi
      have := h j loops hi
      split_ifs with hlock hsteal
      · simp
      · simp only [setPc_pc_self, LockPc.spinning.injEq]
        simp only [assumeKiaAfter] at hsteal this ⊢
        omega
      · simp
    · simp only [setPc_pc_self, LockPc.spinning.injEq]
      rintro rfl
      decide
    · simp
  · rw [lockStep_pc_ne s hji] at hj
    exact h j l hj

/-- Along every schedule from the start, every counter stays below `ASSUME_KIA_AFTER`. -/
theorem counterBound_run (sched : List (Fin n)) : CounterBound (lockRun (.init n) sched) := by
  suffices ∀ s : LockState n, CounterBound s → CounterBound (lockRun s sched) from
    this _ fun _ _ h => LockPc.noConfusion h
  induction sched with
  | nil => exact fun _ h => h
  | cons i sched ih => exact fun s h => ih _ (CounterBound_step h i)

/-! ## Mutual exclusion -/

/-- At most one process holds the lock, and the flag is set exactly when one does. -/
structure Exclusive (s : LockState n) : Prop where
  unique : ∀ i j, s.pc i = .critical → s.pc j = .critical → i = j
  lock : s.lock = true ↔ ∃ i, s.pc i = .critical

/-- The step of `i` is a waiter clearing the flag while a process holds the lock. -/
def StealsHeld (s : LockState n) (i : Fin n) : Prop :=
  s.pc i = .stealing ∧ ∃ j, s.pc j = .critical

/-- Whether a step steals a held lock is decided on the state. -/
instance (s : LockState n) (i : Fin n) : Decidable (StealsHeld s i) :=
  inferInstanceAs (Decidable (_ ∧ _))

/-- Whether no step of the schedule clears the flag while a process holds the lock. -/
def noStealFromHolder : LockState n → List (Fin n) → Bool
  | _, [] => true
  | s, i :: sched => !decide (StealsHeld s i) && noStealFromHolder (lockStep s i) sched

/-- At the start no process holds the lock and the flag is clear. -/
theorem Exclusive_init : Exclusive (LockState.init n) where
  unique _ _ h := LockPc.noConfusion h
  lock := by simp [LockState.init]

/-- A step that moves only `i`, between two places that are not `critical`, and keeps the
flag, keeps the invariant. -/
theorem Exclusive.setPc {s : LockState n} (h : Exclusive s) {i : Fin n} {p : LockPc}
    (hi : s.pc i ≠ .critical) (hp : p ≠ .critical) : Exclusive (s.setPc i p) := by
  have hc : ∀ j, (s.setPc i p).pc j = .critical ↔ s.pc j = .critical := fun j => by
    by_cases hji : j = i
    · subst hji; simp [hi, hp]
    · rw [setPc_pc_ne s hji]
  exact ⟨fun j k hj hk => h.unique j k ((hc j).mp hj) ((hc k).mp hk),
    by simp only [setPc_lock, hc, h.lock]⟩

/-- One step keeps the invariant unless it is a waiter clearing the flag of a holder. -/
theorem Exclusive_step {s : LockState n} (h : Exclusive s) (i : Fin n)
    (hs : ¬ StealsHeld s i) : Exclusive (lockStep s i) := by
  have hnone : s.lock = false → ∀ j, s.pc j ≠ .critical := fun hl j hj => by
    simpa [hl] using h.lock.mpr ⟨j, hj⟩
  unfold lockStep
  split
  · rename_i hi
    exact h.setPc (by simp [hi]) (by simp)
  · rename_i loops hi
    cases hl : s.lock
    · -- the test-and-set succeeds: `i` is the only holder
      refine ⟨fun j k hj hk => ?_, ⟨fun _ => ⟨i, by simp⟩, fun _ => by simp⟩⟩
      have hcrit : ∀ j, (({ s with lock := true } : LockState n).setPc i .critical).pc j =
          .critical → j = i := fun j hj => by
        by_contra hji
        rw [setPc_pc_ne _ hji] at hj
        exact hnone hl j hj
      rw [hcrit j hj, hcrit k hk]
    · simp only [lock_update_self hl, if_true]
      split_ifs <;> exact h.setPc (by simp [hi]) (by simp)
  · rename_i hi
    -- a steal with no holder: the flag is already clear
    have hfree : ∀ j, s.pc j ≠ .critical := fun j hj => hs ⟨hi, j, hj⟩
    have hl : s.lock = false := by
      by_contra hl
      obtain ⟨j, hj⟩ := h.lock.mp (by simpa using hl)
      exact hfree j hj
    rw [ringbufHeadUnlock, lock_update_self hl]
    exact h.setPc (by simp [hi]) (by simp)
  · rename_i hi
    -- the holder leaves: nobody holds the lock
    have hfree : ∀ j, ((ringbufHeadUnlock s).setPc i .idle).pc j ≠ .critical := fun j hj => by
      by_cases hji : j = i
      · subst hji; simp at hj
      · rw [setPc_pc_ne _ hji] at hj
        exact hji (h.unique j i hj hi)
    exact ⟨fun j _ hj => absurd hj (hfree j), by simpa [ringbufHeadUnlock] using hfree⟩

/-- A schedule in which no waiter clears the flag while the lock is held keeps mutual exclusion. -/
theorem Exclusive_run {s : LockState n} (h : Exclusive s) (sched : List (Fin n))
    (hs : noStealFromHolder s sched = true) : Exclusive (lockRun s sched) := by
  induction sched generalizing s with
  | nil => exact h
  | cons i sched ih =>
    simp only [noStealFromHolder, Bool.and_eq_true, Bool.not_eq_true', decide_eq_false_iff_not]
      at hs
    exact ih (Exclusive_step h i hs.1) hs.2

/-- **Mutual exclusion of the head lock.** Along every schedule of any number of processes in
which no waiter clears the flag while another process holds the lock, at most one process
holds the lock, and the flag is set exactly when one does. -/
theorem head_lock_exclusive (sched : List (Fin n))
    (hs : noStealFromHolder (.init n) sched = true) : Exclusive (lockRun (.init n) sched) :=
  Exclusive_run Exclusive_init sched hs

/-- Two processes taking the lock in turn, no steal among their steps: mutual exclusion holds at the
end. -/
theorem head_lock_exclusive_two :
    noStealFromHolder (.init 2) [0, 1, 0, 1, 1, 0, 1, 1] = true ∧
      Exclusive (lockRun (.init 2) [0, 1, 0, 1, 1, 0, 1, 1]) :=
  have hs : noStealFromHolder (.init 2) [0, 1, 0, 1, 1, 0, 1, 1] = true := by decide
  ⟨hs, head_lock_exclusive _ hs⟩

/-! ## A waiter that runs alone -/

/-- While the flag stays set, each failed try below `ASSUME_KIA_AFTER` adds one to the
counter. -/
theorem lockRun_spin {s : LockState n} {i : Fin n} {l : Nat} (hl : s.lock = true)
    (hi : s.pc i = .spinning l) (k : Nat) (hk : l + k < assumeKiaAfter) :
    lockRun s (List.replicate k i) = s.setPc i (.spinning (l + k)) := by
  induction k generalizing s l with
  | zero => simp [lockRun_nil, LockState.setPc, ← hi]
  | succ k ih =>
    have hstep : lockStep s i = s.setPc i (.spinning (l + 1)) := by
      have hno : ¬ (assumeKiaAfter / 2 ≤ l ∧ assumeKiaAfter ≤ l + 1) := by
        simp only [assumeKiaAfter] at hk ⊢; omega
      simp only [lockStep, hi, hl, lock_update_self hl, if_true, if_neg hno]
    rw [List.replicate_succ, lockRun_cons, hstep,
      ih (s := s.setPc i (.spinning (l + 1))) (l := l + 1) hl (setPc_pc_self _ _ _) (by omega),
      setPc_setPc, Nat.add_right_comm, Nat.add_assoc]

/-- At `ASSUME_KIA_AFTER - 1` failed tries with the flag set, three more steps of the waiter
clear the flag, reset the counter and take the lock. -/
theorem lockRun_steal {s : LockState n} {i : Fin n} (hl : s.lock = true)
    (hi : s.pc i = .spinning (assumeKiaAfter - 1)) :
    lockRun s [i, i, i] = { s.setPc i .critical with lock := true } := by
  have hsteal : assumeKiaAfter / 2 ≤ assumeKiaAfter - 1 ∧
      assumeKiaAfter ≤ assumeKiaAfter - 1 + 1 := by decide
  simp only [lockRun_cons, lockRun_nil, lockStep, hi, hl, lock_update_self hl, if_true,
    if_pos hsteal,
    setPc_pc_self, ringbufHeadUnlock, setPc_lock, Bool.false_eq_true, if_false]
  simp [LockState.setPc]

/-- **A lone waiter takes the lock.** From every reachable state, a waiter with counter `l`
that runs alone holds the lock within `ASSUME_KIA_AFTER - l + 2` of its own steps, and every
other process is where it was: if the holder died in its critical section the waiter
recovers the buffer, and if the holder is alive in it, both are in it. -/
theorem head_lock_waiter_acquires (sched : List (Fin n)) (i : Fin n) (l : Nat)
    (hi : (lockRun (.init n) sched).pc i = .spinning l) :
    ∃ k ≤ assumeKiaAfter - l + 2,
      (lockRun (lockRun (.init n) sched) (List.replicate k i)).pc i = .critical ∧
      ∀ j, j ≠ i →
        (lockRun (lockRun (.init n) sched) (List.replicate k i)).pc j =
          (lockRun (.init n) sched).pc j := by
  set s := lockRun (.init n) sched
  have hbound : l < assumeKiaAfter := counterBound_run sched i l hi
  cases hl : s.lock
  · -- the flag is clear: the first test-and-set succeeds
    refine ⟨1, by omega, ?_, fun j hj => lockRun_replicate_pc_ne s hj 1⟩
    simp [lockRun_cons, lockRun_nil, lockStep, hi, hl]
  · -- the flag is set: `ASSUME_KIA_AFTER - 1 - l` failed tries, then the steal
    refine ⟨assumeKiaAfter - 1 - l + 3, by omega, ?_,
      fun j hj => lockRun_replicate_pc_ne s hj _⟩
    rw [List.replicate_add, lockRun_append, lockRun_spin hl hi _ (by omega),
      show l + (assumeKiaAfter - 1 - l) = assumeKiaAfter - 1 by omega,
      show List.replicate 3 i = [i, i, i] from rfl,
      lockRun_steal (by simpa using hl) (setPc_pc_self _ _ _)]
    simp

/-- The second of two processes, waiting on a lock the first holds for ever, takes it within
`ASSUME_KIA_AFTER + 2` of its own steps. -/
theorem head_lock_waiter_acquires_two :
    (lockRun (.init 2) [0, 0, 1]).pc 1 = .spinning 0 ∧
      ∃ k ≤ assumeKiaAfter - 0 + 2,
        (lockRun (lockRun (.init 2) [0, 0, 1]) (List.replicate k 1)).pc 1 = .critical ∧
        ∀ j, j ≠ 1 →
          (lockRun (lockRun (.init 2) [0, 0, 1]) (List.replicate k 1)).pc j =
            (lockRun (.init 2) [0, 0, 1]).pc j :=
  have hi : (lockRun (.init 2) [0, 0, 1]).pc 1 = .spinning 0 := by decide
  ⟨hi, head_lock_waiter_acquires _ 1 0 hi⟩

end Ramen
