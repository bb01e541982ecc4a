import Isl.Kernel.Readiness
import Isl.Lib.Loop

/-!
The loops of `eventfd_read`, `eventfd_write` and `timerfd_read` for a task that has a
signal pending: `wait_for` of `util/sync.c` then comes back at once and keeps the lock of
the file.
-/

namespace Isl.Kernel.SignalWait

open Isl.Kernel.Eventfd (Qword eAgain eInval)
open Isl.Kernel.Readiness (Timerfd eventfdCall)
open Isl.Lib.Loop

def eIntr : ℤ := -4

/-- `wait_for` up to its end, or up to the wait that gives up the lock. -/
def waitFor (pending : Qword) : Option ℤ := if pending ≠ 0 then some eIntr else none

/-- A call, with the file it is on. -/
inductive Call
  | eventfd (fd : Eventfd.Fd) (c : Eventfd.Call)
  | timerfd (fd : Timerfd) (bufsize : ℕ)

namespace Call

/-- The arguments that are refused before the lock is taken. -/
def refused : Call → Bool
  | eventfd _ c => c.refused
  | timerfd _ bufsize => bufsize < 8

/-- The call finds what it waits for. -/
def ready : Call → Bool
  | eventfd fd (.read _) => fd.eventfdVal ≠ 0
  | eventfd fd (.write _ increment) => fd.eventfdVal < Eventfd.uint64Max - increment
  | timerfd fd _ => fd.expirations ≠ 0

def nonblock : Call → Bool
  | eventfd fd _ => fd.nonblock
  | timerfd fd _ => fd.nonblock

/-- `F_SETFL_` of `sys_fcntl`, which does not take the lock. -/
def setFlags (nonblock : Bool) : Call → Call
  | eventfd fd c => eventfd { fd with nonblock := nonblock } c
  | timerfd fd bufsize => timerfd { fd with nonblock := nonblock } bufsize

/-- The call from its beginning, or from the end of `wait_for`, to its end or to
`wait_for`. -/
def attempt : Call → Call × Option (ℤ × Qword)
  | eventfd fd c => ((eventfdCall fd c).map (eventfd · c) id)
  | timerfd fd bufsize => ((fd.read bufsize).map (timerfd · bufsize) id)

end Call

/-- What the other tasks do to the task and to its file while it has the lock, turn by turn
of its loop. -/
structure Others where
  nonblock : ℕ → Bool
  pending : ℕ → Qword

structure Frame where
  call : Call
  locked : Bool
  turn : ℕ

structure Return where
  result : ℤ
  buf : Qword
  locked : Bool

/-- One turn of the loop. It ends in `none` where the task goes to sleep. The error of
`wait_for` is not looked at. -/
def step (others : Others) (s : Frame) : Frame ⊕ Option Return :=
  match (s.call.setFlags (others.nonblock s.turn)).attempt with
  | (_, some (result, buf)) => .inr (some ⟨result, buf, false⟩)
  | (call, none) =>
    match waitFor (others.pending s.turn) with
    | some _ => .inl ⟨call, s.locked, s.turn + 1⟩
    | none => .inr none

/-- The call returns, with an error if its object is not ready, and has released the
lock. -/
def EndsOnSignal (c : Call) (others : Others) : Prop :=
  ∃ r, Returns (step others) ⟨c, true, 0⟩ (some r) ∧ r.locked = false ∧
    (c.ready = false → r.result < 0)

section

variable {c : Call} {others : Others} {nonblock : Bool}

@[simp] theorem refused_setFlags : (c.setFlags nonblock).refused = c.refused := by
  cases c <;> rfl

@[simp] theorem ready_setFlags : (c.setFlags nonblock).ready = c.ready := by
  cases c with
  | eventfd fd c => cases c <;> rfl
  | timerfd _ _ => rfl

@[simp] theorem nonblock_setFlags : (c.setFlags nonblock).nonblock = nonblock := by
  cases c <;> rfl

theorem attempt_refused (h : c.refused = true) : c.attempt = (c, some (eInval, 0)) := by
  cases c with
  | eventfd fd c =>
    have hcall : eventfdCall fd c = (fd, some (eInval, 0)) := if_pos h
    rw [Call.attempt, hcall]
    rfl
  | timerfd fd bufsize =>
    have hread : fd.read bufsize = (fd, some (eInval, 0)) := if_pos (of_decide_eq_true h)
    rw [Call.attempt, hread]
    rfl

theorem attempt_ready (h : c.refused = false) (hready : c.ready = true) :
    ∃ c' buf, c.attempt = (c', some (8, buf)) := by
  cases c with
  | eventfd fd c =>
    have hcall : eventfdCall fd c = fd.locked c := if_neg (Bool.eq_false_iff.mp h)
    rw [Call.attempt, hcall]
    cases c with
    | read _ =>
      rw [Eventfd.Fd.locked, Eventfd.Fd.read, if_neg (of_decide_eq_true hready)]
      exact ⟨_, _, rfl⟩
    | write _ increment =>
      have hroom : fd.eventfdVal < Eventfd.uint64Max - increment := by
        simpa only [Call.ready, decide_eq_true_iff] using hready
      rw [Eventfd.Fd.locked, Eventfd.Fd.write, if_neg (BitVec.not_le.mpr hroom)]
      exact ⟨_, _, rfl⟩
  | timerfd fd bufsize =>
    have hsize : ¬ bufsize < 8 := of_decide_eq_false h
    have hcounted : fd.expirations ≠ 0 := of_decide_eq_true hready
    rw [Call.attempt, Timerfd.read, if_neg hsize, if_neg hcounted]
    exact ⟨_, _, rfl⟩

theorem attempt_unready (h : c.refused = false) (hready : c.ready = false) :
    c.attempt = (c, if c.nonblock then some (eAgain, 0) else none) := by
  cases c with
  | eventfd fd c =>
    have hcall : eventfdCall fd c = fd.locked c := if_neg (Bool.eq_false_iff.mp h)
    rw [Call.attempt, hcall, Call.nonblock]
    cases c with
    | read _ =>
      rw [Eventfd.Fd.locked, Eventfd.Fd.read, if_pos (not_not.mp (of_decide_eq_false hready))]
      cases fd.nonblock <;> rfl
    | write _ increment =>
      have hroom : ¬ fd.eventfdVal < Eventfd.uint64Max - increment := by
        simpa only [Call.ready, decide_eq_false_iff_not] using hready
      rw [Eventfd.Fd.locked, Eventfd.Fd.write, if_pos (BitVec.not_lt.mp hroom)]
      cases fd.nonblock <;> rfl
  | timerfd fd bufsize =>
    have hsize : ¬ bufsize < 8 := of_decide_eq_false h
    have hempty : fd.expirations = 0 := not_not.mp (of_decide_eq_false hready)
    rw [Call.attempt, Timerfd.read, if_neg hsize, if_pos hempty, Call.nonblock]
    cases fd.nonblock <;> rfl

theorem step_unready {s : Frame} (h : s.call.refused = false) (hready : s.call.ready = false)
    (hpending : others.pending s.turn ≠ 0) :
    step others s = if others.nonblock s.turn then .inr (some ⟨eAgain, 0, false⟩)
      else .inl ⟨s.call.setFlags false, s.locked, s.turn + 1⟩ := by
  have hattempt := @attempt_unready (s.call.setFlags (others.nonblock s.turn))
    (by rw [refused_setFlags, h]) (by rw [ready_setFlags, hready])
  rw [step, hattempt, nonblock_setFlags]
  cases hflag : others.nonblock s.turn
  · simp only [Bool.false_eq_true, if_false, waitFor, if_pos hpending]
  · rfl

theorem returns_of_nonblock (hpending : ∀ i, others.pending i ≠ 0) {k : ℕ} {s : Frame}
    (h : s.call.refused = false) (hready : s.call.ready = false)
    (hflag : others.nonblock (s.turn + k) = true) :
    Returns (step others) s (some ⟨eAgain, 0, false⟩) := by
  induction k generalizing s with
  | zero =>
    rw [Nat.add_zero] at hflag
    refine .done ?_
    rw [step_unready h hready (hpending _), if_pos hflag]
  | succ k ih =>
    have hstep := step_unready h hready (hpending s.turn)
    by_cases hnow : others.nonblock s.turn = true
    · rw [if_pos hnow] at hstep
      exact .done hstep
    · rw [if_neg hnow] at hstep
      refine .next hstep (ih (by rw [refused_setFlags, h]) (by rw [ready_setFlags, hready]) ?_)
      rwa [Nat.add_right_comm, Nat.add_assoc]

/-- Without the flag the task stays in its loop, and keeps the lock. -/
theorem not_returns (hpending : ∀ i, others.pending i ≠ 0)
    (hflags : ∀ i, others.nonblock i = false) {s : Frame} (h : s.call.refused = false)
    (hready : s.call.ready = false) (r : Option Return) : ¬ Returns (step others) s r := by
  refine not_returns_of_stays (P := fun s ↦ s.call.refused = false ∧ s.call.ready = false)
    ?_ ⟨h, hready⟩
  rintro t ⟨h, hready⟩
  refine ⟨⟨t.call.setFlags false, t.locked, t.turn + 1⟩, ?_, by rw [refused_setFlags, h],
    by rw [ready_setFlags, hready]⟩
  rw [step_unready h hready (hpending _), if_neg (Bool.eq_false_iff.mp (hflags _))]

/-- The call ends if and only if it has nothing to wait for, or finds the flag set. -/
theorem endsOnSignal_iff (c : Call) {others : Others} (hpending : ∀ i, others.pending i ≠ 0) :
    EndsOnSignal c others ↔
      c.refused = true ∨ c.ready = true ∨ ∃ i, others.nonblock i = true := by
  cases h : c.refused with
  | true =>
    refine iff_of_true ⟨⟨eInval, 0, false⟩, .done ?_, rfl, fun _ ↦ by decide⟩ (.inl rfl)
    rw [step, attempt_refused (by rw [refused_setFlags, h])]
  | false =>
    cases hready : c.ready with
    | true =>
      obtain ⟨c', buf, hattempt⟩ := @attempt_ready (c.setFlags (others.nonblock 0))
        (by rw [refused_setFlags, h]) (by rw [ready_setFlags, hready])
      refine iff_of_true ⟨⟨8, buf, false⟩, .done ?_, rfl, fun hne ↦ ?_⟩ (.inr (.inl rfl))
      · rw [step, hattempt]
      · exact Bool.noConfusion (hready.symm.trans hne)
    | false =>
      simp only [Bool.false_eq_true, false_or]
      constructor
      · rintro ⟨r, hreturns, -⟩
        by_contra hflags
        have hflags' : ∀ i, others.nonblock i = false := by simpa using hflags
        exact not_returns hpending hflags' h hready _ hreturns
      · rintro ⟨i, hi⟩
        refine ⟨_, returns_of_nonblock (k := i) hpending h hready ?_, rfl, fun _ ↦ by decide⟩
        rwa [Nat.zero_add]

theorem endsOnSignal_iff_counted : (∀ _ : ℕ, (1 : Qword) ≠ 0) ∧
    (EndsOnSignal (.eventfd ⟨1, false⟩ (.read 8)) ⟨fun _ ↦ false, fun _ ↦ 1⟩ ↔
      Call.refused (.eventfd ⟨1, false⟩ (.read 8)) = true ∨
        Call.ready (.eventfd ⟨1, false⟩ (.read 8)) = true ∨ ∃ _ : ℕ, false = true) :=
  have hone : (1 : Qword) ≠ 0 := by decide
  ⟨fun _ ↦ hone, endsOnSignal_iff (.eventfd ⟨1, false⟩ (.read 8)) fun _ ↦ hone⟩

/-- A read of a counter that is zero, with a signal pending. -/
theorem not_endsOnSignal_empty : ¬ ∀ (c : Call) (others : Others),
    (∀ i, others.pending i ≠ 0) → EndsOnSignal c others := by
  intro h
  have hone : (1 : Qword) ≠ 0 := by decide
  obtain ⟨r, hreturns, -⟩ := h (.eventfd ⟨0, false⟩ (.read 8)) ⟨fun _ ↦ false, fun _ ↦ 1⟩
    fun _ ↦ hone
  exact not_returns (fun _ ↦ hone) (fun _ ↦ rfl) rfl rfl _ hreturns

end

end Isl.Kernel.SignalWait
