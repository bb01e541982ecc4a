import Isl.Kernel.FutexRefs

/-! How many threads a call of `futex_wake` wakes, and what it returns. -/

namespace Isl.Kernel.Futexes

open Isl.Lib Isl.Lib.Run

namespace State

/-- The threads that are asleep in `futex_wait` on a word of an address space. -/
def blockedOn (s : State) (key : Futex) : Set ThreadId :=
  {u | ∃ f old, s.place u = .blocked f old ∧ s.table.futexes.val f = key}

/-- `pthread_cond_signal` wakes one of the threads that wait, if there are any. -/
def Chooses (s : State) (key : Futex) : Option ThreadId → Prop
  | none => s.blockedOn key = ∅
  | some u => u ∈ s.blockedOn key

/-- `futex_wake` from where it gets the lock to its end. -/
def wakeCall (t : ThreadId) (addr : Addr) (val : Dword) (chosen : Option ThreadId) : List Event :=
  [.wake t addr val, .notify t chosen, .put t]

def wokenOn (s s' : State) (key : Futex) : Set ThreadId :=
  {u | u ∈ s.blockedOn key ∧ ∃ f old, s'.place u = .awake f old}

/-- What the call must leave: of the threads that are asleep on the word as many as asked
for are awake, no other thread is, and their number is returned. -/
structure Woke (s s' : State) (t : ThreadId) (key : Futex) (val : Dword) : Prop where
  alive : s'.died = false
  woken : (s.wokenOn s' key).ncard = min val.toNat (s.blockedOn key).ncard
  others : ∀ u, u ≠ t → u ∉ s.blockedOn key → s'.place u = s.place u
  result : s'.place t = .out (s.wokenOn s' key).ncard

/-- The call comes to its end and leaves what it must, whomever the condition wakes. -/
def WakesRight (s : State) (t : ThreadId) (addr : Addr) (val : Dword) : Prop :=
  ∀ chosen, s.Chooses ⟨s.mem t, addr⟩ chosen →
    ∃ s', exec step s (wakeCall t addr val chosen) = some s' ∧ Woke s s' t ⟨s.mem t, addr⟩ val

section

variable {s s' : State} {t u : ThreadId} {f : ℕ} {key : Futex} {addr : Addr} {val old : Dword}
  {chosen : Option ThreadId} {r : ℤ}

theorem step_alive (hdied : s.died = false) (e : Event) : s.step e = s.stepAlive e :=
  if_neg (Bool.eq_false_iff.mp hdied)

theorem exists_chooses (s : State) (key : Futex) : ∃ chosen, s.Chooses key chosen := by
  rcases (s.blockedOn key).eq_empty_or_nonempty with h | ⟨u, hu⟩
  · exact ⟨none, h⟩
  · exact ⟨some u, hu⟩

theorem ne_of_blocked (hout : s.place t = .out r) (hu : s.place u = .blocked f old) : u ≠ t := by
  rintro rfl
  rw [hout] at hu
  cases hu

theorem Inv.finite_blockedOn (h : s.Inv) (key : Futex) : (s.blockedOn key).Finite := by
  refine h.owned.finite.subset ?_
  rintro u ⟨f, old, hu, -⟩
  change (s.held u).isSome = true
  rw [held, hu]
  rfl

/-- The beginning of the call. Its futex is that of the threads that sleep on the word. -/
theorem Inv.wake_begins (h : s.Inv) (hdied : s.died = false) (hlock : s.lock = none)
    (hout : s.place t = .out r) (addr : Addr) (val : Dword) :
    ∃ f s₁, s.step (.wake t addr val) = some s₁ ∧ s₁.Inv ∧ s₁.died = false ∧
      s₁.place = Function.update s.place t (.wake f val) ∧
      ∀ u g old, s.place u = .blocked g old →
        (g = f ↔ s.table.futexes.val g = ⟨s.mem t, addr⟩) := by
  obtain ⟨f, T, hT, hgot⟩ := h.table.futexGet ⟨s.mem t, addr⟩
  have henter : s.enter t addr (.wake · val)
      = some ({ s with table := T, lock := some t }.moveTo t (.wake f val)) := by
    rw [State.enter, hlock, hout]
    simp only [hT, Option.bind_eq_bind, Option.bind_some]
  have hstep : s.step (.wake t addr val)
      = some ({ s with table := T, lock := some t }.moveTo t (.wake f val)) :=
    (step_alive hdied _).trans henter
  have hi := (h.enter (fun _ ↦ rfl) henter).1
  refine ⟨f, _, hstep, hi, hdied, rfl, fun u g old hu ↦ ?_⟩
  have hne : u ≠ t := ne_of_blocked hout hu
  have hheld : s.held u = some g := by rw [held, hu]; rfl
  have hlive : T.futexes.live g := hi.live (t := u) (by
    rw [held, place_moveTo_of_ne _ _ hne]
    exact hheld)
  have hlive' : T.futexes.live f := hi.live (t := t) (by rw [held, place_moveTo_self]; rfl)
  rw [← hgot.kept g (h.live hheld)]
  constructor
  · rintro rfl
    exact hgot.val
  · intro hkey
    exact hgot.wf.unique g f hlive hlive' (hkey.trans hgot.val.symm)

theorem Inv.put_ends (h : s.Inv) (hdied : s.died = false) (hp : s.place t = .done f r) :
    ∃ s', s.step (.put t) = some s' ∧ s'.died = false ∧
      s'.place = Function.update s.place t (.out r) := by
  obtain ⟨T, hT, -⟩ := h.table.futexPut (h.live (t := t) (by rw [held, hp]; rfl))
  refine ⟨{ s with table := T, lock := none }.moveTo t (.out r), ?_, hdied, rfl⟩
  rw [step_alive hdied]
  simp only [stepAlive, hp, hT, Option.map_some]

/-- The call has moved some of the threads that were asleep, and is over. -/
structure Moves (s s' : State) (t : ThreadId) (W : Set ThreadId) (result : ℤ) : Prop where
  alive : s'.died = false
  caller : s'.place t = .out result
  woken : ∀ u ∈ W, ∃ f old, s'.place u = .awake f old
  others : ∀ u, u ≠ t → u ∉ W → s'.place u = s.place u

theorem Moves.wokenOn_eq {W : Set ThreadId} (h : Moves s s' t W r) (hW : W ⊆ s.blockedOn key) :
    s.wokenOn s' key = W := by
  ext u
  constructor
  · rintro ⟨⟨f, old, hu, -⟩, g, old', hu'⟩
    by_contra hne
    have hcaller : u ≠ t := by
      rintro rfl
      rw [h.caller] at hu'
      cases hu'
    rw [h.others u hcaller hne, hu] at hu'
    cases hu'
  · intro hu
    exact ⟨hW hu, h.woken u hu⟩

theorem Moves.woke_iff {W : Set ThreadId} (h : Moves s s' t W r) (hW : W ⊆ s.blockedOn key) :
    Woke s s' t key val ↔ W.ncard = min val.toNat (s.blockedOn key).ncard ∧ r = W.ncard := by
  have hwoken := h.wokenOn_eq hW
  constructor
  · rintro ⟨-, hcount, -, hresult⟩
    rw [hwoken] at hcount hresult
    rw [h.caller] at hresult
    exact ⟨hcount, Place.out.inj hresult⟩
  · rintro ⟨hcount, hr⟩
    refine ⟨h.alive, ?_, fun u hne hu ↦ h.others u hne fun hmem ↦ hu (hW hmem), ?_⟩
    · rw [hwoken, hcount]
    · rw [hwoken, h.caller, hr]

/-- A call that comes to its end is right by the threads it moves and their number. -/
theorem wakesRight_iff_of_moves {W : Option ThreadId → Set ThreadId}
    (h : ∀ chosen, s.Chooses ⟨s.mem t, addr⟩ chosen →
      W chosen ⊆ s.blockedOn ⟨s.mem t, addr⟩ ∧
        ∃ s', exec step s (wakeCall t addr val chosen) = some s' ∧ Moves s s' t (W chosen) r) :
    WakesRight s t addr val ↔ ∀ chosen, s.Chooses ⟨s.mem t, addr⟩ chosen →
      (W chosen).ncard = min val.toNat (s.blockedOn ⟨s.mem t, addr⟩).ncard ∧
        r = (W chosen).ncard := by
  refine forall₂_congr fun chosen hchosen ↦ ?_
  obtain ⟨hW, s', hs', hmoves⟩ := h chosen hchosen
  rw [← hmoves.woke_iff hW]
  constructor
  · rintro ⟨s'', hs'', hwoke⟩
    obtain rfl : s' = s'' := Option.some.inj (hs'.symm.trans hs'')
    exact hwoke
  · exact fun hwoke ↦ ⟨s', hs', hwoke⟩

/-- What the condition does, and what is left to do, is all the call does. -/
theorem Inv.moves {s₁ s₂ : State} {W : Set ThreadId} (h₁ : s₁.Inv)
    (hwake : s.step (.wake t addr val) = some s₁) (hplace : s₁.place = Function.update s.place t
      (.wake f val)) (hnotify : s₁.step (.notify t chosen) = some s₂) (hdied₂ : s₂.died = false)
    (hcaller : s₂.place t = .done f val.toInt) (hwoken : ∀ u ∈ W, ∃ f old, s₂.place u = .awake f old)
    (hothers : ∀ u, u ≠ t → u ∉ W → s₂.place u = s₁.place u) :
    ∃ s', exec step s (wakeCall t addr val chosen) = some s' ∧ Moves s s' t W val.toInt := by
  obtain ⟨s', hput, hdied', hplace'⟩ := (h₁.follows hnotify).inv.put_ends hdied₂ hcaller
  refine ⟨s', ?_, hdied', ?_, fun u hu ↦ ?_, fun u hne hu ↦ ?_⟩
  · rw [wakeCall, exec, hwake, Option.bind_some, exec, hnotify, Option.bind_some, exec, hput]
    rfl
  · rw [hplace', Function.update_self]
  · obtain ⟨g, old, hg⟩ := hwoken u hu
    have hne : u ≠ t := by
      rintro rfl
      rw [hcaller] at hg
      cases hg
    exact ⟨g, old, by rw [hplace', Function.update_of_ne hne, hg]⟩
  · rw [hplace', Function.update_of_ne hne, hothers u hne hu, hplace, Function.update_of_ne hne]

/-- A call for one thread moves the one that the condition wakes. -/
theorem exec_wakeCall_one (h : s.Inv) (hdied : s.died = false) (hlock : s.lock = none)
    (hout : s.place t = .out r) (hchosen : s.Chooses ⟨s.mem t, addr⟩ chosen) :
    ∃ s', exec step s (wakeCall t addr 1 chosen) = some s' ∧
      Moves s s' t {u | chosen = some u} 1 := by
  obtain ⟨f, s₁, hstep, hi, hdied₁, hplace, hsame⟩ := h.wake_begins hdied hlock hout addr 1
  have hp : s₁.place t = .wake f 1 := by rw [hplace, Function.update_self]
  cases chosen with
  | none =>
    have hnotify : s₁.step (.notify t none) = some (s₁.moveTo t (.done f (1 : Dword).toInt)) := by
      rw [step_alive hdied₁]
      simp only [stepAlive, hp, if_true, wakeOne, Option.map_some]
    exact hi.moves hstep hplace hnotify hdied₁ (place_moveTo_self _ _ _)
      (fun u hu ↦ by cases hu) fun u hne _ ↦ place_moveTo_of_ne _ _ hne
  | some u =>
    obtain ⟨g, old, hu, hkey⟩ := hchosen
    obtain rfl := (hsame u g old hu).mpr hkey
    have hne : u ≠ t := ne_of_blocked hout hu
    have hu₁ : s₁.place u = .blocked g old := by rw [hplace, Function.update_of_ne hne, hu]
    have hnotify : s₁.step (.notify t (some u))
        = some ((s₁.moveTo u (.awake g old)).moveTo t (.done g (1 : Dword).toInt)) := by
      rw [step_alive hdied₁]
      simp only [stepAlive, hp, if_true, wakeOne, hu₁, Option.map_some]
    refine hi.moves hstep hplace hnotify hdied₁ (place_moveTo_self _ _ _) ?_ ?_
    · rintro v hv
      obtain rfl : u = v := Option.some.inj hv
      exact ⟨g, old, by rw [place_moveTo_of_ne _ _ hne, place_moveTo_self]⟩
    · intro v hvt hv
      have hvu : v ≠ u := fun heq ↦ hv (congrArg some heq.symm)
      rw [place_moveTo_of_ne _ _ hvt, place_moveTo_of_ne _ _ hvu]

variable (addr) in
/-- A call for all threads moves those that sleep on the word. -/
theorem exec_wakeCall_all (h : s.Inv) (hdied : s.died = false) (hlock : s.lock = none)
    (hout : s.place t = .out r) (chosen : Option ThreadId) :
    ∃ s', exec step s (wakeCall t addr intMax chosen) = some s' ∧
      Moves s s' t (s.blockedOn ⟨s.mem t, addr⟩) intMax.toInt := by
  obtain ⟨f, s₁, hstep, hi, hdied₁, hplace, hsame⟩ := h.wake_begins hdied hlock hout addr intMax
  have hp : s₁.place t = .wake f intMax := by rw [hplace, Function.update_self]
  have hone : ¬ intMax = 1 := by decide
  have hnotify : s₁.step (.notify t chosen) = some
      ({ s₁ with place := fun u ↦ (s₁.place u).notified f }.moveTo t (.done f intMax.toInt)) := by
    rw [step_alive hdied₁]
    simp only [stepAlive, hp, if_neg hone, if_true]
  refine hi.moves hstep hplace hnotify hdied₁ (place_moveTo_self _ _ _) ?_ ?_
  · rintro u ⟨g, old, hu, hkey⟩
    obtain rfl := (hsame u g old hu).mpr hkey
    have hne : u ≠ t := ne_of_blocked hout hu
    refine ⟨g, old, ?_⟩
    rw [place_moveTo_of_ne _ _ hne]
    simp only [hplace, Function.update_of_ne hne, hu, Place.notified, if_true]
  · intro u hne hu
    rw [place_moveTo_of_ne _ _ hne]
    simp only [hplace, Function.update_of_ne hne]
    cases hu' : s.place u with
    | blocked g old =>
      have hgf : g ≠ f := fun heq ↦ hu ⟨g, old, hu', (hsame u g old hu').mp heq⟩
      rw [Place.notified, if_neg hgf]
    | _ => rfl

/-- A number that is neither 1 nor `INT_MAX` ends the emulator. -/
theorem exec_wakeCall_other (h : s.Inv) (hdied : s.died = false) (hlock : s.lock = none)
    (hout : s.place t = .out r) (hone : val ≠ 1) (hmax : val ≠ intMax) :
    exec step s (wakeCall t addr val chosen) = none := by
  obtain ⟨f, s₁, hstep, -, hdied₁, hplace, -⟩ := h.wake_begins hdied hlock hout addr val
  have hp : s₁.place t = .wake f val := by rw [hplace, Function.update_self]
  have hnotify : s₁.step (.notify t chosen) = some { s₁ with died := true } := by
    rw [step_alive hdied₁]
    simp only [stepAlive, hp, hone, hmax, if_false]
  rw [wakeCall, exec, hstep, Option.bind_some, exec, hnotify, Option.bind_some, exec]
  rfl

end

/-- The call does what it should if and only if it is one for one thread, and there is one, or
one for all threads, and there are `INT_MAX` of them. -/
theorem wakesRight_iff {mem : ThreadId → MemPtr} {word : MemPtr → Addr → Option Dword}
    {s : State} {t : ThreadId} {r : ℤ} (h : Reaches anyStep (fun _ _ ↦ True) (init mem word) s)
    (hdied : s.died = false) (hlock : s.lock = none) (hout : s.place t = .out r) (addr : Addr)
    (val : Dword) :
    WakesRight s t addr val ↔
      (val = 1 ∧ (s.blockedOn ⟨s.mem t, addr⟩).Nonempty) ∨
      (val = intMax ∧ (s.blockedOn ⟨s.mem t, addr⟩).ncard = 2 ^ 31 - 1) := by
  have hi := (inv_of_reaches_any h).1
  have hfinite := hi.finite_blockedOn ⟨s.mem t, addr⟩
  by_cases hone : val = 1
  · subst hone
    have hmax : ¬ (1 : Dword) = intMax := by decide
    simp only [true_and, hmax, false_and, or_false]
    have hsub (chosen : Option ThreadId) (hchosen : s.Chooses ⟨s.mem t, addr⟩ chosen) :
        {u | chosen = some u} ⊆ s.blockedOn ⟨s.mem t, addr⟩ := by
      rintro u hu
      obtain rfl : chosen = some u := hu
      exact hchosen
    rw [wakesRight_iff_of_moves fun chosen hchosen ↦
      ⟨hsub chosen hchosen, exec_wakeCall_one hi hdied hlock hout hchosen⟩]
    constructor
    · intro hright
      obtain ⟨chosen, hchosen⟩ := s.exists_chooses ⟨s.mem t, addr⟩
      have hcount := (hright chosen hchosen).2
      have hne : ({u | chosen = some u} : Set ThreadId).ncard ≠ 0 := by omega
      exact (Set.nonempty_of_ncard_ne_zero hne).mono (hsub chosen hchosen)
    · intro hblocked chosen hchosen
      cases chosen with
      | none => exact absurd hblocked (Set.not_nonempty_iff_eq_empty.mpr hchosen)
      | some u =>
        have hsingle : {v | some u = some v} = {u} := by
          ext v
          simp [eq_comm]
        have hpos : 0 < (s.blockedOn ⟨s.mem t, addr⟩).ncard := (Set.ncard_pos hfinite).mpr hblocked
        have hval : (1 : Dword).toNat = 1 := rfl
        rw [hsingle, Set.ncard_singleton, hval]
        omega
  by_cases hmax : val = intMax
  · subst hmax
    simp only [hone, false_and, true_and, false_or]
    have hval : intMax.toNat = 2 ^ 31 - 1 := by decide
    have hval' : intMax.toInt = 2 ^ 31 - 1 := by decide
    rw [wakesRight_iff_of_moves fun chosen _ ↦
      ⟨subset_rfl, exec_wakeCall_all addr hi hdied hlock hout chosen⟩]
    constructor
    · intro hright
      obtain ⟨chosen, hchosen⟩ := s.exists_chooses ⟨s.mem t, addr⟩
      have hcount := (hright chosen hchosen).2
      omega
    · intro hcount chosen _
      omega
  · simp only [hone, hmax, false_and, or_self, iff_false]
    intro hright
    obtain ⟨chosen, hchosen⟩ := s.exists_chooses ⟨s.mem t, addr⟩
    obtain ⟨s', hs', -⟩ := hright chosen hchosen
    rw [exec_wakeCall_other hi hdied hlock hout hone hmax] at hs'
    cases hs'

/-- Thread 1 is asleep, and thread 0 wakes one thread. -/
theorem wakesRight_iff_asleep : ∃ s,
    Reaches anyStep (fun _ _ ↦ True) (init (fun _ ↦ 0) fun _ _ ↦ some 0) s ∧ s.died = false ∧
      s.lock = none ∧ s.place 0 = .out 0 ∧
      (WakesRight s 0 0x1000#32 1 ↔
        ((1 : Dword) = 1 ∧ (s.blockedOn ⟨s.mem 0, 0x1000#32⟩).Nonempty) ∨
        ((1 : Dword) = intMax ∧ (s.blockedOn ⟨s.mem 0, 0x1000#32⟩).ncard = 2 ^ 31 - 1)) := by
  obtain ⟨s, hs⟩ := Option.isSome_iff_exists.mp (show (exec anyStep
    (init (fun _ ↦ 0) fun _ _ ↦ some 0)
    [.plain (.wait 1 0x1000#32 0), .plain (.load 1), .plain (.check 1)]).isSome from rfl)
  have hr : Reaches anyStep (fun _ _ ↦ True) (init (fun _ ↦ 0) fun _ _ ↦ some 0) s :=
    .of_exec (by simp [Guarded]) hs
  cases hs
  exact ⟨_, hr, rfl, rfl, rfl, wakesRight_iff hr rfl rfl rfl 0x1000#32 1⟩

/-- A call for two threads ends the emulator. -/
theorem not_wakesRight_two : ¬ ∀ (mem : ThreadId → MemPtr) (word : MemPtr → Addr → Option Dword)
    (s : State) (t : ThreadId) (r : ℤ) (addr : Addr) (val : Dword),
    Reaches anyStep (fun _ _ ↦ True) (init mem word) s → s.died = false → s.lock = none →
      s.place t = .out r → WakesRight s t addr val := by
  intro h
  let s := init (fun _ ↦ 0) fun _ _ ↦ some 0
  have hright := h _ _ s 0 0 0x1000#32 2 .start rfl rfl rfl
  obtain ⟨chosen, hchosen⟩ := s.exists_chooses ⟨s.mem 0, 0x1000#32⟩
  obtain ⟨s', hs', -⟩ := hright chosen hchosen
  have hnone : exec step s (wakeCall 0 0x1000#32 2 chosen) = none :=
    exec_wakeCall_other (init_inv _ _) rfl rfl rfl (by decide) (by decide)
  rw [hnone] at hs'
  cases hs'

end State

end Isl.Kernel.Futexes
