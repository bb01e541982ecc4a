import Isl.Kernel.Futex

/-!
The table of the futexes, their counts and their lock, in every run of calls. A wait may
also end with an error: a signal that is pending keeps the thread from sleeping, and one
that comes, or the time limit, wakes it.
-/

namespace Isl.Kernel.Futexes

open Isl.Lib Isl.Lib.Run

def eIntr : ℤ := -4
def eTimedout : ℤ := -110

/-- What `wait_for` may return. -/
inductive WaitError
  | intr
  | timedout

def WaitError.code : WaitError → ℤ
  | intr => eIntr
  | timedout => eTimedout

namespace State

/-- The events of the calls, and those of a wait that fails, before or after the thread has
been asleep. -/
inductive AnyEvent
  | plain (e : Event)
  | interrupted (t : ThreadId)
  | relock (t : ThreadId) (err : WaitError)

def failWait (s : State) : AnyEvent → Option State
  | .plain _ => none
  | .interrupted t =>
    match s.place t with
    | .loaded f val (some tmp) => if tmp = val then some (s.moveTo t (.done f eIntr)) else none
    | _ => none
  | .relock t err =>
    match s.lock, s.place t with
    | none, .awake f _ => some ({ s with lock := some t }.moveTo t (.done f err.code))
    | _, _ => none

def anyStep (s : State) : AnyEvent → Option State
  | .plain e => s.step e
  | e => if s.died then none else s.failWait e

/-- The calls between `futex_get` and `futex_put` on a futex. -/
def holders (s : State) (f : ℕ) : Set ThreadId := {t | s.held t = some f}

/-- The futexes in use are those that calls have, each in the bucket of its hash, once, and
one of a kind, with the number of its calls as its count. A thread has the lock if and only
if it is in a call, and not in a wait. -/
structure Sound (s : State) : Prop where
  listed : ∀ i f, f ∈ s.table.futexHash i ↔
    s.table.futexes.live f ∧ i = hash (s.table.futexes.val f)
  once : ∀ i, (s.table.futexHash i).Nodup
  unique : ∀ f g, s.table.futexes.live f → s.table.futexes.live g →
    s.table.futexes.val f = s.table.futexes.val g → f = g
  count : ∀ f, (s.holders f).Finite ∧ s.table.futexes.refcount f = (s.holders f).ncard
  inUse : ∀ f, s.table.futexes.live f ↔ (s.holders f).Nonempty
  lock : ∀ t, s.lock = some t ↔ (s.place t).inside = true

def Frees (s s' : State) (f : ℕ) : Prop := s.table.futexes.live f ∧ ¬ s'.table.futexes.live f

/-- The thread that has the lock is in a call, and not in a wait. -/
def HeldInside (s : State) : Prop := ∀ t, s.lock = some t → (s.place t).inside = true

section

variable {s s' : State} {t u : ThreadId} {f : ℕ} {p : Place} {addr : Addr} {val : Dword}

theorem HeldInside.moveTo (h : s.HeldInside) (hp : s.lock = some t → p.inside = true) :
    (s.moveTo t p).HeldInside := by
  intro u hu
  have hlock : s.lock = some u := hu
  by_cases hut : u = t
  · subst hut
    rw [place_moveTo_self]
    exact hp hlock
  · rw [place_moveTo_of_ne _ _ hut]
    exact h u hlock

theorem heldInside_free (hlock : s.lock = none) : s.HeldInside := by
  intro t ht
  rw [hlock] at ht
  cases ht

/-- A thread that takes the lock. -/
theorem heldInside_taken (hlock : s.lock = some t) (hp : (s.place t).inside = true) :
    s.HeldInside := by
  intro u hu
  rw [hlock, Option.some.injEq] at hu
  exact hu ▸ hp

theorem Inv.heldInside_enter {next : ℕ → Place} (h : s.Inv) (hf : ∀ f, (next f).futex = some f)
    (hin : ∀ f, (next f).inside = true) (hs : s.enter t addr next = some s') : s'.HeldInside := by
  obtain ⟨-, -, hlock, -, -, ⟨f, hplace, -⟩, -⟩ := h.enter hf hs
  refine heldInside_taken hlock ?_
  rw [hplace, Function.update_self]
  exact hin f

/-- `notify_once` wakes a thread that does not have the lock. -/
theorem HeldInside.wakeOne {chosen : Option ThreadId} (h : s.HeldInside)
    (hs : s.wakeOne f chosen = some s') : s'.HeldInside := by
  unfold State.wakeOne at hs
  split at hs
  · cases hs
    exact h
  · rename_i u
    split at hs
    · rename_i g val hu
      split at hs
      · cases hs
        refine h.moveTo fun hlock ↦ ?_
        have hin := h u hlock
        rw [hu] at hin
        cases hin
      · cases hs
    · cases hs

theorem Inv.heldInside_step {e : Event} (h : s.Inv) (hl : s.HeldInside)
    (hs : s.step e = some s') : s'.HeldInside := by
  unfold step at hs
  split at hs
  · cases hs
  cases e with
  | store mem word =>
    cases hs
    exact hl
  | wait t addr val =>
    have henter : s.enter t addr (.load · val) = some s' := hs
    exact h.heldInside_enter (fun _ ↦ rfl) (fun _ ↦ rfl) henter
  | wake t addr val =>
    have henter : s.enter t addr (.wake · val) = some s' := hs
    exact h.heldInside_enter (fun _ ↦ rfl) (fun _ ↦ rfl) henter
  | load t =>
    simp only [stepAlive] at hs
    split at hs
    · obtain ⟨_, -, rfl⟩ := Option.map_eq_some_iff.mp hs
      exact hl.moveTo fun _ ↦ rfl
    · cases hs
  | check t =>
    simp only [stepAlive] at hs
    split at hs
    · cases hs
      exact hl.moveTo fun _ ↦ rfl
    · split at hs
      · cases hs
        exact hl.moveTo fun _ ↦ rfl
      · cases hs
        exact heldInside_free rfl
    · cases hs
  | spurious t =>
    simp only [stepAlive] at hs
    split at hs
    · rename_i f val hp
      cases hs
      refine hl.moveTo fun hlock ↦ ?_
      have hin := hl t hlock
      rw [hp] at hin
      cases hin
    · cases hs
  | relock t =>
    simp only [stepAlive] at hs
    split at hs
    · cases hs
      exact heldInside_taken rfl (congrArg Place.inside (place_moveTo_self _ _ _))
    · cases hs
  | notify t chosen =>
    simp only [stepAlive] at hs
    split at hs
    · split at hs
      · obtain ⟨s₁, h₁, rfl⟩ := Option.map_eq_some_iff.mp hs
        exact (hl.wakeOne h₁).moveTo fun _ ↦ rfl
      split at hs
      · cases hs
        refine HeldInside.moveTo (fun u hu ↦ ?_) fun _ ↦ rfl
        exact (Place.inside_notified _ _).trans (hl u hu)
      · cases hs
        exact hl
    · cases hs
  | put t =>
    simp only [stepAlive] at hs
    split at hs
    · obtain ⟨_, -, rfl⟩ := Option.map_eq_some_iff.mp hs
      exact heldInside_free rfl
    · cases hs

/-- A wait that fails leads to the end of the call, as one that does not. -/
theorem Inv.follows_failWait {e : AnyEvent} (h : s.Inv) (hl : s.HeldInside)
    (hs : s.failWait e = some s') : s'.Inv ∧ s'.HeldInside := by
  cases e with
  | plain e => cases hs
  | interrupted t =>
    simp only [failWait] at hs
    split at hs
    · rename_i f val tmp hp
      split at hs
      · cases hs
        exact ⟨h.moveTo (by rw [hp]; rfl) fun _ ↦ h.lock t (by rw [hp]; rfl), hl.moveTo fun _ ↦ rfl⟩
      · cases hs
    · cases hs
  | relock t err =>
    simp only [failWait] at hs
    split at hs
    · rename_i f val hlock hp
      cases hs
      have htaken : { s with lock := some t }.Inv := h.setLock fun u hu ↦ by
        rw [h.lock u hu] at hlock
        cases hlock
      exact ⟨htaken.moveTo (by rw [hp]; rfl) fun _ ↦ rfl,
        heldInside_taken rfl (congrArg Place.inside (place_moveTo_self _ _ _))⟩
    · cases hs

theorem Inv.anyStep {e : AnyEvent} (h : s.Inv) (hl : s.HeldInside) (hs : s.anyStep e = some s') :
    s'.Inv ∧ s'.HeldInside := by
  cases e with
  | plain e => exact ⟨(h.follows hs).inv, h.heldInside_step hl hs⟩
  | interrupted t | relock t err =>
    simp only [State.anyStep] at hs
    split at hs
    · cases hs
    · exact h.follows_failWait hl hs

theorem Inv.sound (h : s.Inv) (hl : s.HeldInside) : s.Sound where
  listed := h.table.listed
  once := h.table.nodup
  unique := h.table.unique
  count f := ⟨h.owned.finite_of f, h.owned.counts f⟩
  inUse f := by
    have hcount : s.table.futexes.refcount f = (s.holders f).ncard := h.owned.counts f
    have hpos : 0 < (s.holders f).ncard ↔ (s.holders f).Nonempty :=
      Set.ncard_pos (h.owned.finite_of f)
    rw [Pool.live, hcount, ← Nat.pos_iff_ne_zero, hpos]
  lock t := ⟨hl t, h.lock t⟩

end

theorem inv_of_reaches_any {mem : ThreadId → MemPtr} {word : MemPtr → Addr → Option Dword}
    {s : State} (h : Reaches anyStep (fun _ _ ↦ True) (init mem word) s) :
    s.Inv ∧ s.HeldInside :=
  h.invariant (P := fun s ↦ s.Inv ∧ s.HeldInside) ⟨init_inv mem word, heldInside_free rfl⟩
    fun _ _ _ hs _ hstep ↦ hs.1.anyStep hs.2 hstep

/-- In every state that is reached the table, the counts and the lock are as they should be.
A step frees a futex if and only if it leaves it without a call. -/
theorem sound_of_reaches {mem : ThreadId → MemPtr} {word : MemPtr → Addr → Option Dword}
    {s : State} (h : Reaches anyStep (fun _ _ ↦ True) (init mem word) s) :
    s.Sound ∧ ∀ e s' f, s.anyStep e = some s' →
      (s.Frees s' f ↔ (s.holders f).Nonempty ∧ s'.holders f = ∅) := by
  obtain ⟨hi, hl⟩ := inv_of_reaches_any h
  refine ⟨hi.sound hl, fun e s' f hs ↦ ?_⟩
  obtain ⟨hi', hl'⟩ := hi.anyStep hl hs
  rw [Frees, (hi.sound hl).inUse f, (hi'.sound hl').inUse f, Set.not_nonempty_iff_eq_empty]

/-- Thread 1 goes to sleep. -/
theorem sound_of_reaches_asleep : ∃ s,
    Reaches anyStep (fun _ _ ↦ True) (init (fun _ ↦ 0) fun _ _ ↦ some 0) s ∧
      s.place 1 = .blocked 0 0 ∧ s.Sound := by
  obtain ⟨s, hs⟩ := Option.isSome_iff_exists.mp (show (exec anyStep
    (init (fun _ ↦ 0) fun _ _ ↦ some 0)
    [.plain (.wait 1 0x1000#32 0), .plain (.load 1), .plain (.check 1)]).isSome from rfl)
  have hr : Reaches anyStep (fun _ _ ↦ True) (init (fun _ ↦ 0) fun _ _ ↦ some 0) s :=
    .of_exec (by simp [Guarded]) hs
  refine ⟨s, hr, ?_, (sound_of_reaches hr).1⟩
  cases hs
  rfl

end State

end Isl.Kernel.Futexes
