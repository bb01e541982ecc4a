import Isl.Fs.PollWake
import Isl.Kernel.Eventfd

/-! Threads that wait for eventfds in `poll_wait`, and threads that read and write them. -/

namespace Isl.Kernel.Eventfd

open Isl.Lib.Run
open Fs (PollScan.pollRead PollScan.pollWrite PollScan.Types PollScan.FdId PollScan.PollFd)
open Fs.PollWake (PollOps ready afterByte)

def types (fd : Fd) : PollScan.Types :=
  (if fd.poll.1 then PollScan.pollRead else 0) ||| (if fd.poll.2 then PollScan.pollWrite else 0)

/-- The call that returns 8 is the one that goes on to `poll_wake`. -/
def waker (s : State) : Action → Option ThreadId
  | .locked t =>
    match (s.calls t).bind fun c ↦ (s.fd.locked c).2 with
    | some (result, _) => if result = 8 then some t else none
    | none => none
  | _ => none

variable {s s' : State} {a : Action}

theorem val_of_waker_none (hs : s.step a = some s') (hw : waker s a = none) :
    s'.fd.eventfdVal = s.fd.eventfdVal := by
  cases a with
  | setFlags nonblock =>
    cases hs
    rfl
  | call t c =>
    rw [State.step] at hs
    split at hs
    · cases hs
    · split at hs
      · cases hs
        rfl
      · cases hs
        rfl
  | locked t =>
    obtain ⟨c, hc, rfl⟩ := Option.map_eq_some_iff.mp hs
    simp only [waker, hc, Option.bind_some] at hw
    rw [State.runLocked]
    cases c with
    | read size =>
      rw [Fd.locked] at hw ⊢
      rcases read_cases s.fd with hr | hr | hr
      · rw [hr]
      · rw [hr]
      · rw [hr] at hw
        cases hw
    | write size increment =>
      rw [Fd.locked] at hw ⊢
      rcases write_cases s.fd increment with hr | hr | ⟨-, hr⟩
      · rw [hr]
      · rw [hr]
      · rw [hr] at hw
        cases hw

/-- Every change of the counter is announced, so that no change to what `eventfd_poll` reports
is lost. -/
def pollOps : PollOps State Action where
  step := State.step
  poll s := types s.fd
  waker := waker
  waker_isSome {s s' a b} hs hb := by
    cases hw : waker s a with
    | some u => exact .inr rfl
    | none =>
      refine .inl ?_
      rwa [types, Fd.poll, val_of_waker_none hs hw] at hb

/-- No wake-up is lost: a thread that sleeps in `poll_wait` while one of its eventfds is ready
will return, after at most one byte that another thread is about to write. -/
theorem eventfds_wake (pollFds : List PollScan.PollFd) (t : ThreadId) (files : PollScan.FdId → State)
    {actions : List (Fs.PollWake.Action Action)} {s : Fs.PollWake.State State} {b : Bool}
    (hs : exec (Fs.PollWake.State.step pollOps pollFds t) (Fs.PollWake.init files) actions = some s)
    (hb : s.poll.place t = .asleep b) (hpos : 0 < pollFds.countP (ready pollOps s.files)) :
    ∃ wakes s', (wakes = [] ∨ ∃ u, wakes = [.wake u true]) ∧
      exec (Fs.PollWake.State.step pollOps pollFds t) s (wakes ++ afterByte Action pollFds) =
        some s' ∧
      s'.poll.place t = .out ∧
      s'.poll.returns = s.poll.returns ++ [⟨pollFds.countP (ready pollOps s.files), false⟩] :=
  ((Fs.PollWake.attentive_init files).run hs).recovers hb hpos

/-- A write behind the back of the loop, which has already looked at the file. -/
theorem eventfds_wake_late : ∃ wakes s', (wakes = [] ∨ ∃ u, wakes = [.wake u true]) ∧
    exec (Fs.PollWake.State.step pollOps [⟨0, 1, 0⟩] 5) (Fs.PollWake.init fun _ ↦ init 0 false)
      ([.lock, .look, .file 0 (.call 1 (.write 8 3)), .file 0 (.locked 1), .unlock] ++
        (wakes ++ afterByte Action [⟨0, 1, 0⟩])) = some s' ∧
    s'.poll.returns = [⟨1, false⟩] := by
  obtain ⟨wakes, s', hwakes, hs', -, hreturns⟩ := @eventfds_wake [⟨0, 1, 0⟩] 5
    (fun _ ↦ init 0 false)
    [.lock, .look, .file 0 (.call 1 (.write 8 3)), .file 0 (.locked 1), .unlock] _ true rfl rfl
    (by decide)
  refine ⟨wakes, s', hwakes, ?_, hreturns⟩
  rw [exec_append]
  exact hs'

end Isl.Kernel.Eventfd
