import Isl.Fs.Tty
import Isl.Kernel.Eventfd

/-!
What the files of `kernel/eventfd.c`, `kernel/time.c` and `fs/tty.c` report to a poll,
beside what their reads and writes wait for.
-/

namespace Isl.Kernel.Readiness

open Isl.Fs.Terminal (Tty)
open Isl.Kernel.Eventfd (Qword eAgain eInval)

/-- A timerfd -/
structure Timerfd where
  expirations : Qword
  nonblock : Bool

namespace Timerfd

/-- `sys_timerfd_create` -/
def create (nonblock : Bool) : Timerfd := ⟨0, nonblock⟩

def callback (fd : Timerfd) : Timerfd := { fd with expirations := fd.expirations + 1 }

/-- `timerfd_read`, up to its end or to `wait_for`. -/
def read (fd : Timerfd) (bufsize : ℕ) : Timerfd × Option (ℤ × Qword) :=
  if bufsize < 8 then (fd, some (eInval, 0))
  else if fd.expirations = 0 then
    if fd.nonblock then (fd, some (eAgain, 0)) else (fd, none)
  else ({ fd with expirations := 0 }, some (8, fd.expirations))

/-- `timerfd_poll` -/
def poll (fd : Timerfd) : Bool := fd.expirations = 0

end Timerfd

/-- A call on an eventfd, up to its end or to `wait_for`. -/
def eventfdCall (fd : Eventfd.Fd) (c : Eventfd.Call) : Eventfd.Fd × Option (ℤ × Qword) :=
  if c.refused then (fd, some (eInval, 0)) else fd.locked c

/-- `tty_poll`, for reading. -/
def ttyPoll (s : Tty) : Bool :=
  if Fs.Terminal.has s.termios.lflags Fs.Terminal.icanon then s.ttyCanonSize.isSome
  else 0 < s.bufsize

/-- The call neither waits nor ends in `_EAGAIN`. -/
def AtOnce (r : Option (ℤ × Qword)) : Prop := ∃ result buf, r = some (result, buf) ∧ result ≠ eAgain

/-- A `tty_read` of some bytes that does not wait. -/
def TtyAtOnce (s : Tty) (size : ℕ) : Prop :=
  ∃ r, s.newReader size = some r ∧ (s.tryRead r).isSome = true

inductive Object
  | eventfd (fd : Eventfd.Fd)
  | timerfd (fd : Timerfd)
  | tty (s : Tty)

namespace Object

/-- What the file reports is what its calls do. -/
def Agrees : Object → Prop
  | eventfd fd =>
    (∀ size, 8 ≤ size → (fd.poll.1 = true ↔ AtOnce (eventfdCall fd (.read size)).2)) ∧
      ∀ size, 8 ≤ size → (fd.poll.2 = true ↔ AtOnce (eventfdCall fd (.write size 1)).2)
  | timerfd fd => ∀ size, 8 ≤ size → (fd.poll = true ↔ AtOnce (fd.read size).2)
  | tty s => ∀ size, 1 ≤ size → (ttyPoll s = true ↔ TtyAtOnce s size)

/-- A terminal in raw mode has no `VTIME`. -/
def NoVtime : Object → Prop
  | tty s => Fs.Terminal.has s.termios.lflags Fs.Terminal.icanon = false →
      s.termios.cc Fs.Terminal.vTime = 0
  | _ => True

/-- An eventfd, a terminal in canonical mode, or one in raw mode with enough bytes for
`VMIN`, and at least one, or with none while `VMIN` asks for some. -/
def Plain : Object → Prop
  | eventfd _ => True
  | timerfd _ => False
  | tty s => Fs.Terminal.has s.termios.lflags Fs.Terminal.icanon = true ∨
      (0 < s.bufsize ↔ (s.termios.cc Fs.Terminal.vMin).toNat ≤ s.bufsize)

end Object

section

variable {s : Tty} {size : ℕ} {result : ℤ} {buf : Qword}

theorem atOnce_some : AtOnce (some (result, buf)) ↔ result ≠ eAgain := by
  constructor
  · rintro ⟨result', buf', h, hne⟩
    cases h
    exact hne
  · intro h
    exact ⟨result, buf, rfl, h⟩

theorem not_atOnce_none : ¬AtOnce none := by
  rintro ⟨result, buf, h, -⟩
  cases h

theorem not_atOnce_wait {σ : Type} {b : Bool} {x : σ} :
    ¬AtOnce (if b then (x, some (eAgain, 0)) else (x, none)).2 := by
  cases b with
  | true => exact fun h ↦ atOnce_some.mp h rfl
  | false => exact not_atOnce_none

theorem eight_ne_eAgain : (8 : ℤ) ≠ eAgain := by decide

theorem eventfd_read_iff (fd : Eventfd.Fd) (h : 8 ≤ size) :
    AtOnce (eventfdCall fd (.read size)).2 ↔ 0 < fd.eventfdVal := by
  have hsize : Eventfd.Call.refused (.read size) = false :=
    decide_eq_false (Nat.not_lt.mpr h)
  rw [eventfdCall, hsize, if_neg Bool.false_ne_true, Eventfd.Fd.locked, Eventfd.Fd.read]
  by_cases hz : fd.eventfdVal = 0
  · rw [if_pos hz, hz]
    exact iff_of_false not_atOnce_wait (by decide)
  · rw [if_neg hz]
    refine iff_of_true (atOnce_some.mpr eight_ne_eAgain) ?_
    have hpos : 0 < fd.eventfdVal.toNat := Nat.pos_of_ne_zero fun h0 ↦ hz (BitVec.eq_of_toNat_eq h0)
    exact BitVec.lt_def.mpr hpos

theorem eventfd_write_iff (fd : Eventfd.Fd) (h : 8 ≤ size) :
    AtOnce (eventfdCall fd (.write size 1)).2 ↔ fd.eventfdVal < Eventfd.uint64Max - 1 := by
  have hsize : Eventfd.Call.refused (.write size 1) = false := by
    rw [Eventfd.Call.refused, decide_eq_false (Nat.not_lt.mpr h)]
    decide
  rw [eventfdCall, hsize, if_neg Bool.false_ne_true, Eventfd.Fd.locked, Eventfd.Fd.write]
  by_cases hfull : Eventfd.uint64Max - 1 ≤ fd.eventfdVal
  · rw [if_pos hfull]
    exact iff_of_false not_atOnce_wait (BitVec.not_lt.mpr hfull)
  · rw [if_neg hfull]
    exact iff_of_true (atOnce_some.mpr eight_ne_eAgain) (BitVec.not_le.mp hfull)

theorem timerfd_read_iff (fd : Timerfd) (h : 8 ≤ size) :
    AtOnce (fd.read size).2 ↔ fd.expirations ≠ 0 := by
  rw [Timerfd.read, if_neg (Nat.not_lt.mpr h)]
  by_cases hz : fd.expirations = 0
  · rw [if_pos hz]
    exact iff_of_false not_atOnce_wait (fun hne ↦ hne hz)
  · rw [if_neg hz]
    exact iff_of_true (atOnce_some.mpr eight_ne_eAgain) hz

theorem ttyAtOnce_canon (h : Fs.Terminal.has s.termios.lflags Fs.Terminal.icanon = true) :
    TtyAtOnce s size ↔ s.ttyCanonSize.isSome = true := by
  have hreader : s.newReader size = some ⟨size, true, 0⟩ := if_pos h
  have htry : (s.tryRead ⟨size, true, 0⟩).isSome = s.ttyCanonSize.isSome := by
    rw [Tty.tryRead, if_pos rfl]
    cases s.ttyCanonSize <;> rfl
  rw [← htry]
  constructor
  · rintro ⟨r, hr, hsome⟩
    cases hreader.symm.trans hr
    exact hsome
  · intro hsome
    exact ⟨_, hreader, hsome⟩

theorem ttyAtOnce_raw (h : Fs.Terminal.has s.termios.lflags Fs.Terminal.icanon = false)
    (htime : s.termios.cc Fs.Terminal.vTime = 0) :
    TtyAtOnce s size ↔ (s.termios.cc Fs.Terminal.vMin).toNat ≤ s.bufsize := by
  have hreader : s.newReader size =
      some ⟨size, false, (s.termios.cc Fs.Terminal.vMin).toNat⟩ := by
    rw [Tty.newReader, if_neg (Bool.eq_false_iff.mp h), if_pos htime]
  constructor
  · rintro ⟨r, hr, hsome⟩
    cases hreader.symm.trans hr
    rw [Tty.tryRead, if_neg Bool.false_ne_true] at hsome
    by_contra hlt
    rw [if_pos (Nat.not_le.mp hlt)] at hsome
    cases hsome
  · intro hle
    refine ⟨_, hreader, ?_⟩
    rw [Tty.tryRead, if_neg Bool.false_ne_true, if_neg (Nat.not_lt.mpr hle)]
    rfl

theorem forall_ge_const {n : ℕ} {p : Prop} : (∀ size, n ≤ size → p) ↔ p :=
  ⟨fun h ↦ h n le_rfl, fun h _ _ ↦ h⟩

/-- A poll agrees with the calls on all eventfds, on no timerfd, on terminals in
canonical mode, and in raw mode where `VMIN` makes no difference to one byte. -/
theorem agrees_iff (o : Object) (h : o.NoVtime) : o.Agrees ↔ o.Plain := by
  cases o with
  | eventfd fd =>
    refine iff_of_true ⟨fun size hsize ↦ ?_, fun size hsize ↦ ?_⟩ trivial
    · rw [eventfd_read_iff fd hsize]
      exact decide_eq_true_iff
    · rw [eventfd_write_iff fd hsize]
      exact decide_eq_true_iff
  | timerfd fd =>
    refine iff_of_false (fun hagrees ↦ ?_) id
    have height := hagrees 8 le_rfl
    rw [timerfd_read_iff fd le_rfl, Timerfd.poll, decide_eq_true_iff] at height
    exact iff_not_self height
  | tty s =>
    have hpoll (p : Prop) (hp : ∀ size, TtyAtOnce s size ↔ p) :
        Object.Agrees (.tty s) ↔ (ttyPoll s = true ↔ p) := by
      refine Iff.trans ?_ (forall_ge_const (n := 1))
      exact forall_congr' fun size ↦ forall_congr' fun _ ↦ iff_congr Iff.rfl (hp size)
    rw [Object.Plain]
    cases hc : Fs.Terminal.has s.termios.lflags Fs.Terminal.icanon with
    | true =>
      rw [hpoll _ fun _ ↦ ttyAtOnce_canon hc, ttyPoll, if_pos hc]
      exact iff_of_true Iff.rfl (.inl rfl)
    | false =>
      rw [hpoll _ fun _ ↦ ttyAtOnce_raw hc (h hc), ttyPoll, if_neg (Bool.eq_false_iff.mp hc),
        decide_eq_true_iff]
      exact (or_iff_right Bool.false_ne_true).symm

/-- Two bytes in raw mode, where `VMIN` is one. -/
def twoBytes : Tty :=
  { Fs.Terminal.Tty.fresh (fun _ ↦ 0)
      ⟨0, 0, 0, 0, 0, Function.update (fun _ ↦ 0) Fs.Terminal.vMin 1⟩ with bufsize := 2 }

theorem agrees_twoBytes : Object.Agrees (.tty twoBytes) :=
  (agrees_iff (.tty twoBytes) fun _ ↦ rfl).mpr (.inr (by decide))

/-- A new timerfd is reported as ready, but a read of it waits. -/
theorem not_agrees : ¬∀ o : Object, o.NoVtime → o.Agrees := by
  intro h
  have hpoll := h (.timerfd (.create false)) trivial 8 le_rfl
  obtain ⟨result, buf, hnone, -⟩ := hpoll.mp rfl
  cases hnone

end

end Isl.Kernel.Readiness
