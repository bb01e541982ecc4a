import Isl.Lib.Run
import Mathlib.Data.Finset.Card
import Mathlib.Data.Int.Notation

/-!
Threads in `poll_wait` of `fs/poll.c` on one poll. A call holds the lock of the poll from its
start to the `poll` of the host, and again from there on.
-/

namespace Isl.Fs.PollWait

open Isl.Lib.Run

abbrev ThreadId := ℕ

/-- What `errno_map` makes of an error of the host. -/
abbrev Err := { e : ℤ // e < 0 }

def eBadf : ℤ := -9
def eAgain : ℤ := -11

/-- The result of the `poll` of the host. `pollin` says that `pollfds[0]` is readable. -/
inductive Polled
  | error (e : Err)
  | timeout
  | ready (pollin : Bool)
deriving DecidableEq

/-- Where a thread is: out of `poll_wait`, in the `poll` of the host, with the read end of an
open pipe in `pollfds[0]` or not, or behind it and about to take the lock. -/
inductive Place
  | out
  | asleep (pipe : Bool)
  | back (p : Polled)
deriving DecidableEq

/-- A call that is over, and whether a `pipe` or `poll` that it made has failed. -/
structure Return where
  result : ℤ
  hostFailed : Bool

/-- `notifyPipe` is the number of bytes in the pipe, if it is open. `died` is an assertion
that failed. -/
structure State where
  waiters : ℤ
  notifyPipe : Option ℕ
  place : ThreadId → Place
  returns : List Return
  died : Bool

/-- `poll_create` -/
def fresh : State := ⟨0, none, fun _ ↦ .out, [], false⟩

/-- `pipe` is the error of the `pipe` of the host, if the call makes one, and `ready` the
number of files that the loop over them has counted, if the call gets there. A byte that
`poll_wake` writes is `stored`, unless the pipe is full. -/
inductive Action
  | enter (t : ThreadId) (pipe : Option Err) (ready : ℕ)
  | hostPoll (t : ThreadId) (p : Polled)
  | resume (t : ThreadId) (ready : ℕ)
  | wake (stored : Bool)

namespace State

def moveTo (s : State) (t : ThreadId) (p : Place) : State :=
  { s with place := Function.update s.place t p }

/-- The end of `poll_wait`, behind the loop. -/
def leave (s : State) (t : ThreadId) (r : Return) : State :=
  let waiters := s.waiters - 1
  { s with waiters := waiters
           notifyPipe := if waiters = 0 then none else s.notifyPipe
           place := Function.update s.place t .out
           returns := s.returns ++ [r] }

/-- A turn of the loop up to the `poll` of the host. -/
def scan (s : State) (t : ThreadId) (ready : ℕ) : State :=
  if 0 < ready then s.leave t ⟨ready, false⟩ else s.moveTo t (.asleep s.notifyPipe.isSome)

def enter (s : State) (t : ThreadId) (pipe : Option Err) (ready : ℕ) : State :=
  if s.waiters = 0 then
    if s.notifyPipe.isSome then { s with died := true }
    else
      match pipe with
      | some e => { s with waiters := s.waiters + 1, returns := s.returns ++ [⟨e.val, true⟩] }
      | none => { s with waiters := s.waiters + 1, notifyPipe := some 0 }.scan t ready
  else { s with waiters := s.waiters + 1 }.scan t ready

/-- What `poll_wait` does with the lock back. -/
def resume (s : State) (t : ThreadId) (p : Polled) (ready : ℕ) : State :=
  match p with
  | .error e => s.leave t ⟨e.val, true⟩
  | .timeout => s.leave t ⟨0, false⟩
  | .ready false => s.scan t ready
  | .ready true =>
    match s.notifyPipe with
    | some (n + 1) => { s with notifyPipe := some n }.scan t ready
    | some 0 => s.leave t ⟨eAgain, false⟩
    | none => s.leave t ⟨eBadf, false⟩

def step (s : State) (a : Action) : Option State :=
  if s.died then none
  else
    match a with
    | .enter t pipe ready => if s.place t = .out then some (s.enter t pipe ready) else none
    | .hostPoll t p =>
      match s.place t with
      | .asleep pipe =>
        if p = .ready true ∧ ¬(pipe = true ∧ ∃ n ∈ s.notifyPipe, 0 < n) then none
        else some (s.moveTo t (.back p))
      | _ => none
    | .resume t ready =>
      match s.place t with
      | .back p => some (s.resume t p ready)
      | _ => none
    | .wake stored =>
      some { s with notifyPipe := s.notifyPipe.map fun n ↦ if stored then n + 1 else n }

end State

/-- The counter and the pipe belong to the threads that are inside, and no call has failed
for another reason than a call of the host. -/
structure Sound (s : State) : Prop where
  counted : ∃ inside : Finset ThreadId,
    (∀ t, t ∈ inside ↔ s.place t ≠ .out) ∧ s.waiters = inside.card
  pipe : s.notifyPipe.isSome = true ↔ 0 < s.waiters
  alive : s.died = false
  errors : ∀ r ∈ s.returns, r.result < 0 → r.hostFailed = true

/-- The pipe that the first thread needs can be made, and a byte that a thread was told of
is still there. -/
def Safe (s : State) : Action → Prop
  | .enter _ pipe _ => s.waiters = 0 → pipe = none
  | .resume t _ => s.place t = .back (.ready true) → ∃ n ∈ s.notifyPipe, 0 < n
  | _ => True

section

variable {s s' : State} {t : ThreadId} {a : Action} {r : Return} {ready : ℕ}

theorem place_moveTo (p : Place) : (s.moveTo t p).place = Function.update s.place t p := rfl

theorem place_leave : (s.leave t r).place = Function.update s.place t .out := rfl

theorem sound_fresh : Sound fresh := by
  refine ⟨⟨∅, fun t ↦ ?_, rfl⟩, ?_, rfl, ?_⟩
  · exact iff_of_false (Finset.notMem_empty t) fun h ↦ h rfl
  · exact iff_of_false Bool.false_ne_true (lt_irrefl 0)
  · intro r hr
    cases hr

/-- A state of `poll_wait` while a thread runs with the lock: it is counted, wherever it
was before. -/
structure Inside (s : State) (t : ThreadId) : Prop where
  counted : ∃ others : Finset ThreadId, t ∉ others ∧
    (∀ u, u ≠ t → (u ∈ others ↔ s.place u ≠ .out)) ∧ s.waiters = others.card + 1
  pipe : s.notifyPipe.isSome = true
  alive : s.died = false
  errors : ∀ r ∈ s.returns, r.result < 0 → r.hostFailed = true

theorem Sound.inside (h : Sound s) (ht : s.place t ≠ .out) : Inside s t := by
  obtain ⟨inside, hmem, hcard⟩ := h.counted
  have hin : t ∈ inside := (hmem t).mpr ht
  have hpos : 0 < inside.card := Finset.card_pos.mpr ⟨t, hin⟩
  refine ⟨⟨inside.erase t, Finset.notMem_erase t inside, fun u hu ↦ ?_, ?_⟩, ?_, h.alive, h.errors⟩
  · rw [Finset.mem_erase, and_iff_right hu, hmem]
  · rw [Finset.card_erase_of_mem hin]
    omega
  · rw [h.pipe, hcard]
    exact_mod_cast hpos

/-- The error of the thread that leaves decides. -/
theorem Inside.leave_iff (h : Inside s t) :
    Sound (s.leave t r) ↔ (r.result < 0 → r.hostFailed = true) := by
  obtain ⟨others, hnot, hmem, hcard⟩ := h.counted
  constructor
  · intro hs
    exact hs.errors r (List.mem_append_right _ List.mem_cons_self)
  · intro hr
    have hwaiters : s.waiters - 1 = others.card := by omega
    refine ⟨⟨others, fun u ↦ ?_, hwaiters⟩, ?_, h.alive, ?_⟩
    · by_cases hu : u = t
      · rw [hu]
        exact iff_of_false hnot fun hne ↦ hne (Function.update_self t _ _)
      · rw [hmem u hu, place_leave, Function.update_of_ne hu]
    · unfold State.leave
      dsimp only
      split
      · exact iff_of_false Bool.false_ne_true (by omega)
      · exact iff_of_true h.pipe (by omega)
    · intro r' hr'
      rcases List.mem_append.mp hr' with hold | hnew
      · exact h.errors r' hold
      · rw [List.mem_singleton.mp hnew]
        exact hr

theorem Inside.moveTo (h : Inside s t) {p : Place} (hp : p ≠ .out) : Sound (s.moveTo t p) := by
  obtain ⟨others, hnot, hmem, hcard⟩ := h.counted
  refine ⟨⟨insert t others, fun u ↦ ?_, ?_⟩, ?_, h.alive, h.errors⟩
  · rw [Finset.mem_insert]
    by_cases hu : u = t
    · rw [hu]
      refine iff_of_true (.inl rfl) ?_
      rw [place_moveTo, Function.update_self]
      exact hp
    · rw [or_iff_right hu, hmem u hu, place_moveTo, Function.update_of_ne hu]
  · rw [Finset.card_insert_of_notMem hnot]
    exact hcard
  · refine iff_of_true h.pipe ?_
    have hw : (s.moveTo t p).waiters = others.card + 1 := hcard
    omega

theorem Inside.scan (h : Inside s t) (ready : ℕ) : Sound (s.scan t ready) := by
  unfold State.scan
  split
  · refine h.leave_iff.mpr fun hneg ↦ ?_
    exact absurd hneg (by simp)
  · exact h.moveTo Place.noConfusion

theorem enter_sound_iff (h : Sound s) (ht : s.place t = .out) (pipe : Option Err) (ready : ℕ) :
    Sound (s.enter t pipe ready) ↔ (s.waiters = 0 → pipe = none) := by
  obtain ⟨inside, hmem, hcard⟩ := h.counted
  have hnot : t ∉ inside := fun hin ↦ (hmem t).mp hin ht
  have hothers : ∀ u, u ≠ t → (u ∈ inside ↔ s.place u ≠ .out) := fun u _ ↦ hmem u
  unfold State.enter
  by_cases hw : s.waiters = 0
  · have hclosed : ¬s.notifyPipe.isSome = true := fun hopen ↦ by
      have := h.pipe.mp hopen
      omega
    rw [if_pos hw, if_neg hclosed]
    cases pipe with
    | some e =>
      refine iff_of_false (fun hs ↦ hclosed (hs.pipe.mpr ?_)) fun hnone ↦ nomatch hnone hw
      dsimp only
      omega
    | none =>
      have hin : Inside { s with waiters := s.waiters + 1, notifyPipe := some 0 } t :=
        ⟨⟨inside, hnot, hothers, congrArg (· + 1) hcard⟩, rfl, h.alive, h.errors⟩
      exact iff_of_true (hin.scan ready) fun _ ↦ rfl
  · rw [if_neg hw]
    have hopen : s.notifyPipe.isSome = true := h.pipe.mpr (by omega)
    have hin : Inside { s with waiters := s.waiters + 1 } t :=
      ⟨⟨inside, hnot, hothers, congrArg (· + 1) hcard⟩, hopen, h.alive, h.errors⟩
    exact iff_of_true (hin.scan ready) fun hzero ↦ absurd hzero hw

theorem resume_sound_iff (h : Inside s t) (p : Polled) (ready : ℕ) :
    Sound (s.resume t p ready) ↔ (p = .ready true → ∃ n ∈ s.notifyPipe, 0 < n) := by
  cases p with
  | error e => exact iff_of_true (h.leave_iff.mpr fun _ ↦ rfl) fun hp ↦ nomatch hp
  | timeout =>
    exact iff_of_true (h.leave_iff.mpr fun hneg ↦ absurd hneg (lt_irrefl 0)) fun hp ↦ nomatch hp
  | ready pollin =>
    cases pollin with
    | false => exact iff_of_true (h.scan ready) fun hp ↦ nomatch hp
    | true =>
      obtain ⟨n, hn⟩ := Option.isSome_iff_exists.mp h.pipe
      unfold State.resume
      cases n with
      | zero =>
        rw [hn]
        refine iff_of_false (fun hs ↦ ?_) fun hbyte ↦ ?_
        · exact Bool.false_ne_true (h.leave_iff.mp hs (by decide))
        · obtain ⟨n, hmem, hpos⟩ := hbyte rfl
          cases hmem
          exact lt_irrefl 0 hpos
      | succ n =>
        rw [hn]
        have hin : Inside { s with notifyPipe := some n } t :=
          ⟨h.counted, rfl, h.alive, h.errors⟩
        exact iff_of_true (hin.scan ready) fun _ ↦ ⟨n + 1, rfl, Nat.succ_pos n⟩

/-- A step from a sound state leads to one if and only if it is safe. -/
theorem step_sound_iff (h : Sound s) (hs : s.step a = some s') : Sound s' ↔ Safe s a := by
  unfold State.step at hs
  rw [if_neg (Bool.eq_false_iff.mp h.alive)] at hs
  cases a with
  | enter t pipe ready =>
    dsimp only at hs
    split at hs
    · cases hs
      exact enter_sound_iff h ‹_› pipe ready
    · cases hs
  | hostPoll t p =>
    dsimp only at hs
    split at hs
    · rename_i pipe hplace
      split at hs
      · cases hs
      · cases hs
        have hin : s.place t ≠ .out := by
          rw [hplace]
          exact Place.noConfusion
        exact iff_of_true ((h.inside hin).moveTo Place.noConfusion) trivial
    · cases hs
  | resume t ready =>
    dsimp only at hs
    split at hs
    · rename_i p hplace
      cases hs
      have hin : s.place t ≠ .out := by
        rw [hplace]
        exact Place.noConfusion
      rw [resume_sound_iff (h.inside hin), Safe, hplace, Place.back.injEq]
    · cases hs
  | wake stored =>
    cases hs
    refine iff_of_true ⟨h.counted, ?_, h.alive, h.errors⟩ trivial
    rw [Option.isSome_map]
    exact h.pipe

/-- In a run of any threads on a poll the counter and the pipe are in order, and no call
fails because of another, if and only if each step is safe. -/
theorem sound_iff_guarded {actions : List Action} (he : exec State.step fresh actions = some s) :
    AllAlong State.step Sound fresh actions ↔ Guarded State.step Safe fresh actions := by
  have hstep (s : State) (a : Action) (s' : State) (h : Sound s) (_ : True)
      (hs : s.step a = some s') : (Sound s' ↔ Safe s a) ∧ (Sound s' → True) :=
    ⟨step_sound_iff h hs, fun _ ↦ trivial⟩
  exact forall_prefix_iff_guarded hstep sound_fresh trivial he

/-- Two threads, one of which is woken and leaves. -/
theorem sound_two : ∃ s, exec State.step fresh
    [.enter 0 none 0, .enter 1 none 0, .wake true, .hostPoll 1 (.ready true), .resume 1 1] =
      some s ∧ AllAlong State.step Sound fresh
    [.enter 0 none 0, .enter 1 none 0, .wake true, .hostPoll 1 (.ready true), .resume 1 1] := by
  refine ⟨_, rfl, (sound_iff_guarded rfl).mpr ⟨fun _ ↦ rfl, fun s hs ↦ ?_⟩⟩
  cases hs
  refine ⟨fun _ ↦ rfl, fun s hs ↦ ?_⟩
  cases hs
  refine ⟨trivial, fun s hs ↦ ?_⟩
  cases hs
  refine ⟨trivial, fun s hs ↦ ?_⟩
  cases hs
  exact ⟨fun _ ↦ ⟨1, rfl, Nat.one_pos⟩, fun _ _ ↦ trivial⟩

/-- A thread whose pipe cannot be made stays counted, and the second of two threads that
are told of one byte fails for want of it. -/
theorem not_sound :
    (∃ s, exec State.step fresh [.enter 0 (some ⟨-24, by decide⟩) 0] = some s ∧
      s.place 0 = .out ∧ s.waiters = 1 ∧ ¬Sound s) ∧
    ∃ s, exec State.step fresh [.enter 0 none 0, .enter 1 none 0, .wake true,
      .hostPoll 0 (.ready true), .hostPoll 1 (.ready true), .resume 0 0, .resume 1 0] = some s ∧
      ¬Sound s := by
  constructor
  · refine ⟨_, rfl, rfl, rfl, fun hs ↦ ?_⟩
    exact Bool.false_ne_true (hs.pipe.mpr (by decide))
  · refine ⟨_, rfl, fun hs ↦ ?_⟩
    exact Bool.false_ne_true (hs.errors ⟨eAgain, false⟩ List.mem_cons_self (by decide))

end

end Isl.Fs.PollWait
