import Isl.Lib.Run
import Mathlib.Algebra.BigOperators.Group.List.Basic
import Mathlib.Data.BitVec
import Mathlib.Data.Int.Notation
import Mathlib.Logic.Function.Basic

/-!
The counter of `kernel/eventfd.c`. A call gives up the lock of its file only in
`wait_for`, so that a run is made of the parts of calls that hold the lock.
-/

namespace Isl.Kernel.Eventfd

open Isl.Lib.Run

abbrev Qword := BitVec 64
abbrev ThreadId := ℕ

def uint64Max : Qword := .allOnes 64

def eAgain : ℤ := -11
def eInval : ℤ := -22

/-- `nonblock` is `O_NONBLOCK_` in the flags of the file. -/
structure Fd where
  eventfdVal : Qword
  nonblock : Bool

inductive Call
  | read (bufsize : ℕ)
  | write (bufsize : ℕ) (increment : Qword)

/-- A call that is over, with its result and the value that a read has left in its
buffer. -/
structure Return where
  call : Call
  result : ℤ
  buf : Qword

/-- The arguments that a call refuses before it takes the lock. -/
def Call.refused : Call → Bool
  | .read bufsize => bufsize < 8
  | .write bufsize increment => bufsize < 8 || increment = uint64Max

/-- `eventfd_read` from where it gets the lock, up to its end or to `wait_for`. -/
def Fd.read (fd : Fd) : Fd × Option (ℤ × Qword) :=
  if fd.eventfdVal = 0 then
    if fd.nonblock then (fd, some (eAgain, 0)) else (fd, none)
  else ({ fd with eventfdVal := 0 }, some (8, fd.eventfdVal))

/-- `eventfd_write`, in the same way. -/
def Fd.write (fd : Fd) (increment : Qword) : Fd × Option (ℤ × Qword) :=
  if uint64Max - increment ≤ fd.eventfdVal then
    if fd.nonblock then (fd, some (eAgain, 0)) else (fd, none)
  else ({ fd with eventfdVal := fd.eventfdVal + increment }, some (8, 0))

def Fd.locked (fd : Fd) : Call → Fd × Option (ℤ × Qword)
  | .read _ => fd.read
  | .write _ increment => fd.write increment

/-- The types that `eventfd_poll` reports, for reading and for writing. -/
def Fd.poll (fd : Fd) : Bool × Bool := (0 < fd.eventfdVal, fd.eventfdVal < uint64Max - 1)

/-- The call that each thread is in, and the calls that are over. -/
structure State where
  fd : Fd
  calls : ThreadId → Option Call
  log : List Return

/-- `sys_eventfd2` -/
def init (initval : BitVec 32) (nonblock : Bool) : State :=
  ⟨⟨initval.setWidth 64, nonblock⟩, fun _ ↦ none, []⟩

/-- A thread that waits may get the lock back at any time, with or without a wake-up. -/
inductive Action
  | call (t : ThreadId) (c : Call)
  | locked (t : ThreadId)
  | setFlags (nonblock : Bool)

namespace State

/-- A thread that runs its call from where it gets the lock. -/
def runLocked (s : State) (t : ThreadId) (c : Call) : State :=
  match s.fd.locked c with
  | (fd, none) => { s with fd := fd }
  | (fd, some (result, buf)) =>
    ⟨fd, Function.update s.calls t none, s.log ++ [⟨c, result, buf⟩]⟩

def step (s : State) : Action → Option State
  | .call t c =>
    match s.calls t with
    | some _ => none
    | none =>
      if c.refused then some { s with log := s.log ++ [⟨c, eInval, 0⟩] }
      else some { s with calls := Function.update s.calls t (some c) }
  | .locked t => (s.calls t).map (s.runLocked t)
  | .setFlags nonblock => some { s with fd := { s.fd with nonblock := nonblock } }

end State

/-- The increment of a write that returned 8. -/
def Return.written (r : Return) : ℕ :=
  match r.call with
  | .write _ increment => if r.result = 8 then increment.toNat else 0
  | .read _ => 0

/-- The value that a read returned. -/
def Return.read (r : Return) : ℕ :=
  match r.call with
  | .write _ _ => 0
  | .read _ => if r.result = 8 then r.buf.toNat else 0

/-- The counter is in its range and accounts for the calls that are over. -/
structure Balanced (v : ℕ) (s : State) : Prop where
  bound : s.fd.eventfdVal.toNat ≤ 2 ^ 64 - 2
  sum : v + (s.log.map Return.written).sum =
    (s.log.map Return.read).sum + s.fd.eventfdVal.toNat

/-- Only a call that then returns 8 changes the counter, by what it says. -/
structure Quiet (s : State) : Prop where
  unchanged : ∀ a t, s.step a = some t → t.fd.eventfdVal = s.fd.eventfdVal ∨
    ∃ r : Return, t.log = s.log ++ [r] ∧ r.result = 8
  error : ∀ a t r, s.step a = some t → t.log = s.log ++ [r] → r.result < 0 →
    t.fd.eventfdVal = s.fd.eventfdVal

section

variable {s t : State} {c : Call} {a : Action} {v : ℕ} {buf : Qword} {result : ℤ}

theorem read_cases (fd : Fd) : fd.read = (fd, none) ∨ fd.read = (fd, some (eAgain, 0)) ∨
    fd.read = ({ fd with eventfdVal := 0 }, some (8, fd.eventfdVal)) := by
  unfold Fd.read
  split
  · split
    · exact .inr (.inl rfl)
    · exact .inl rfl
  · exact .inr (.inr rfl)

theorem write_cases (fd : Fd) (increment : Qword) :
    fd.write increment = (fd, none) ∨ fd.write increment = (fd, some (eAgain, 0)) ∨
      (fd.eventfdVal < uint64Max - increment ∧
        fd.write increment =
          ({ fd with eventfdVal := fd.eventfdVal + increment }, some (8, 0))) := by
  unfold Fd.write
  split
  · split
    · exact .inr (.inl rfl)
    · exact .inl rfl
  · rename_i hroom
    exact .inr (.inr ⟨BitVec.not_le.mp hroom, rfl⟩)

/-- The test of `eventfd_write` leaves room for the increment. -/
theorem toNat_add_of_lt {x increment : Qword} (h : x < uint64Max - increment) :
    (x + increment).toNat = x.toNat + increment.toNat ∧
      x.toNat + increment.toNat ≤ 2 ^ 64 - 2 := by
  have hlt : x.toNat < (uint64Max - increment).toNat := BitVec.lt_def.mp h
  have hle : increment ≤ uint64Max := by
    rw [BitVec.le_def, uint64Max, BitVec.toNat_allOnes]
    exact Nat.le_sub_one_of_lt increment.isLt
  rw [BitVec.toNat_sub_of_le hle, uint64Max, BitVec.toNat_allOnes] at hlt
  have hsum : x.toNat + increment.toNat ≤ 2 ^ 64 - 2 := by omega
  exact ⟨BitVec.toNat_add_of_lt (by omega), hsum⟩

/-- What a step can do to the counter and to the calls that are over. -/
theorem step_cases (h : s.step a = some t) :
    (t.fd.eventfdVal = s.fd.eventfdVal ∧
      (t.log = s.log ∨ ∃ c result, result < 0 ∧ t.log = s.log ++ [⟨c, result, 0⟩])) ∨
    (∃ size, t.log = s.log ++ [⟨.read size, 8, s.fd.eventfdVal⟩] ∧ t.fd.eventfdVal = 0) ∨
    (∃ size increment buf, t.log = s.log ++ [⟨.write size increment, 8, buf⟩] ∧
      s.fd.eventfdVal < uint64Max - increment ∧
      t.fd.eventfdVal = s.fd.eventfdVal + increment) := by
  cases a with
  | setFlags nonblock =>
    cases h
    exact .inl ⟨rfl, .inl rfl⟩
  | call u c =>
    simp only [State.step] at h
    split at h
    · cases h
    · split at h
      · cases h
        exact .inl ⟨rfl, .inr ⟨c, eInval, by decide, rfl⟩⟩
      · cases h
        exact .inl ⟨rfl, .inl rfl⟩
  | locked u =>
    obtain ⟨c, -, rfl⟩ := Option.map_eq_some_iff.mp h
    unfold State.runLocked
    cases c with
    | read size =>
      rw [Fd.locked]
      rcases read_cases s.fd with hr | hr | hr
      · rw [hr]
        exact .inl ⟨rfl, .inl rfl⟩
      · rw [hr]
        exact .inl ⟨rfl, .inr ⟨_, _, by decide, rfl⟩⟩
      · rw [hr]
        exact .inr (.inl ⟨size, rfl, rfl⟩)
    | write size increment =>
      rw [Fd.locked]
      rcases write_cases s.fd increment with hw | hw | ⟨hlt, hw⟩
      · rw [hw]
        exact .inl ⟨rfl, .inl rfl⟩
      · rw [hw]
        exact .inl ⟨rfl, .inr ⟨_, _, by decide, rfl⟩⟩
      · rw [hw]
        exact .inr (.inr ⟨size, increment, 0, rfl, hlt, rfl⟩)

theorem sums_concat (log : List Return) (r : Return) :
    ((log ++ [r]).map Return.written).sum = (log.map Return.written).sum + r.written ∧
      ((log ++ [r]).map Return.read).sum = (log.map Return.read).sum + r.read := by
  simp only [List.map_append, List.sum_append, List.map_cons, List.map_nil, List.sum_singleton,
    and_self]

theorem moves_nothing (h : result < 0) :
    (Return.mk c result buf).written = 0 ∧ (Return.mk c result buf).read = 0 := by
  have hne : result ≠ 8 := by omega
  cases c with
  | read _ => exact ⟨rfl, if_neg hne⟩
  | write _ _ => exact ⟨if_neg hne, rfl⟩

theorem Balanced.step (h : Balanced v s) (hs : s.step a = some t) : Balanced v t := by
  have hsum := h.sum
  obtain ⟨hval, hlog | ⟨c, result, hr, hlog⟩⟩ | ⟨size, hlog, hval⟩ |
    ⟨size, increment, buf, hlog, hlt, hval⟩ := step_cases hs
  · exact ⟨hval ▸ h.bound, by rw [hlog, hval, hsum]⟩
  · obtain ⟨hw, hread⟩ := @moves_nothing c 0 _ hr
    have hcat := sums_concat s.log ⟨c, result, 0⟩
    refine ⟨hval ▸ h.bound, ?_⟩
    rw [hlog, hcat.1, hcat.2, hw, hread, hval, Nat.add_zero, Nat.add_zero, hsum]
  · have hcat := sums_concat s.log ⟨.read size, 8, s.fd.eventfdVal⟩
    refine ⟨?_, ?_⟩
    · rw [hval]
      exact Nat.zero_le _
    · rw [hlog, hcat.1, hcat.2, hval]
      exact hsum
  · obtain ⟨hadd, hle⟩ := toNat_add_of_lt hlt
    have hcat := sums_concat s.log ⟨.write size increment, 8, buf⟩
    have hw : (Return.mk (.write size increment) 8 buf).written = increment.toNat := rfl
    have hread : (Return.mk (.write size increment) 8 buf).read = 0 := rfl
    refine ⟨?_, ?_⟩
    · rw [hval, hadd]
      exact hle
    · rw [hlog, hcat.1, hcat.2, hval, hadd, hw, hread]
      omega

theorem balanced_init (initval : BitVec 32) (nonblock : Bool) :
    Balanced initval.toNat (init initval nonblock) := by
  have hval : (init initval nonblock).fd.eventfdVal.toNat = initval.toNat :=
    BitVec.toNat_setWidth_of_le (by decide)
  refine ⟨?_, ?_⟩
  · rw [hval]
    omega
  · rw [hval]
    exact Nat.add_comm _ _

theorem Balanced.along (h : Balanced v s) (actions : List Action) :
    AllAlong State.step (Balanced v) s actions := by
  induction actions generalizing s with
  | nil => exact .nil h
  | cons a actions ih => exact .cons h fun t ht ↦ ih (h.step ht)

theorem quiet (s : State) : Quiet s := by
  refine ⟨fun a t hs ↦ ?_, fun a t r hs hlog hr ↦ ?_⟩
  · obtain ⟨hval, -⟩ | ⟨size, hlog, -⟩ | ⟨size, increment, buf, hlog, -⟩ := step_cases hs
    · exact .inl hval
    · exact .inr ⟨_, hlog, rfl⟩
    · exact .inr ⟨_, hlog, rfl⟩
  · have h8 : ¬(8 : ℤ) < 0 := by decide
    obtain ⟨hval, -⟩ | ⟨size, hlog', -⟩ | ⟨size, increment, buf, hlog', -⟩ := step_cases hs
    · exact hval
    · cases List.append_cancel_left (hlog.symm.trans hlog')
      exact absurd hr h8
    · cases List.append_cancel_left (hlog.symm.trans hlog')
      exact absurd hr h8

/-- In every run of calls by any threads the counter stays below `UINT64_MAX` and is what
the writes have added less what the reads have taken. A call that fails leaves it alone. -/
theorem conserves (initval : BitVec 32) (nonblock : Bool) (actions : List Action) :
    AllAlong State.step (fun s ↦ Balanced initval.toNat s ∧ Quiet s) (init initval nonblock)
      actions :=
  fun pre u hpre hu ↦ ⟨(balanced_init initval nonblock).along actions pre u hpre hu, quiet u⟩

end

end Isl.Kernel.Eventfd
