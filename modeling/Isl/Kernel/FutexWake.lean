import Isl.Kernel.Futex

/-! Waking every thread that sleeps on a word. -/

namespace Isl.Kernel.Futexes

open Isl.Lib Isl.Lib.Run

namespace State

variable {s s' : State} {t u : ThreadId} {f g : ℕ} {key : Futex} {addr : Addr} {old : Dword}

/-- The thread is asleep in `futex_wait` on the word of the key. -/
def Sleeps (s : State) (u : ThreadId) (key : Futex) (old : Dword) : Prop :=
  ∃ f, s.table.futexes.val f = key ∧ s.place u = .blocked f old

/-- No thread sleeps on the word, and none has seen the old value in it. -/
def Quiet (s : State) (key : Futex) (old : Dword) : Prop :=
  ∀ u f, s.table.futexes.val f = key →
    s.place u ≠ .blocked f old ∧ s.place u ≠ .loaded f old (some old)

theorem Quiet.follows (h : Quiet s key old) (hi : s.Inv) (hf : Follows s s')
    (hw : s.word key.mem key.addr ≠ some old) : Quiet s' key old := by
  have hkey {u : ThreadId} {f : ℕ} (hu : s.held u = some f)
      (hval : s'.table.futexes.val f = key) : s.table.futexes.val f = key :=
    (hf.val u f hu).symm.trans hval
  intro u f hval
  constructor
  · intro hp
    rcases hf.place u with hsame | hc
    · rw [hp] at hsame
      exact (h u f (hkey (by rw [held, ← hsame]; rfl) hval)).1 hsame.symm
    · rw [hp] at hc
      have hc : s.place u = .loaded f old (some old) := hc
      exact (h u f (hkey (by rw [held, hc]; rfl) hval)).2 hc
  · intro hp
    rcases hf.place u with hsame | hc
    · rw [hp] at hsame
      exact (h u f (hkey (by rw [held, ← hsame]; rfl) hval)).2 hsame.symm
    · rw [hp] at hc
      obtain ⟨hc, hword⟩ : s.place u = .load f old ∧
        some old = s.word (s.mem u) (s.table.futexes.val f).addr := hc
      have hu : s.held u = some f := by rw [held, hc]; rfl
      rw [← hi.own u f hu, hkey hu hval] at hword
      exact hw hword.symm

/-- The event of a thread, if it is one. -/
def Event.actor : Event → Option ThreadId
  | .store _ _ => none
  | .wait t _ _ | .load t | .check t | .spurious t | .relock t | .wake t _ _ | .notify t _
  | .put t => some t

/-- Only a thread that is asleep is moved by others. -/
theorem place_of_actor_ne {e : Event} (hs : s.step e = some s') (ht : e.actor ≠ some t)
    (hp : ∀ f val, s.place t ≠ .blocked f val) : s'.place t = s.place t := by
  unfold step at hs
  split at hs
  · cases hs
  have hne {u : ThreadId} (hu : e.actor = some u) : t ≠ u := by
    rintro rfl
    exact ht hu
  cases e with
  | store mem word =>
    cases hs
    rfl
  | wait u addr val =>
    have henter : s.enter u addr (.load · val) = some s' := hs
    exact place_enter_of_ne henter (hne rfl)
  | wake u addr val =>
    have henter : s.enter u addr (.wake · val) = some s' := hs
    exact place_enter_of_ne henter (hne rfl)
  | load u =>
    simp only [stepAlive] at hs
    split at hs
    · obtain ⟨_, -, rfl⟩ := Option.map_eq_some_iff.mp hs
      exact place_moveTo_of_ne _ _ (hne rfl)
    · cases hs
  | check u =>
    simp only [stepAlive] at hs
    split at hs
    · cases hs
      exact place_moveTo_of_ne _ _ (hne rfl)
    · split at hs
      · cases hs
        exact place_moveTo_of_ne _ _ (hne rfl)
      · cases hs
        exact place_moveTo_of_ne _ _ (hne rfl)
    · cases hs
  | spurious u =>
    simp only [stepAlive] at hs
    split at hs
    · cases hs
      exact place_moveTo_of_ne _ _ (hne rfl)
    · cases hs
  | relock u =>
    simp only [stepAlive] at hs
    split at hs
    · cases hs
      exact place_moveTo_of_ne _ _ (hne rfl)
    · cases hs
  | put u =>
    simp only [stepAlive] at hs
    split at hs
    · obtain ⟨_, -, rfl⟩ := Option.map_eq_some_iff.mp hs
      exact place_moveTo_of_ne _ _ (hne rfl)
    · cases hs
  | notify u chosen =>
    simp only [stepAlive] at hs
    split at hs
    · split at hs
      · obtain ⟨s₁, h₁, rfl⟩ := Option.map_eq_some_iff.mp hs
        rw [place_moveTo_of_ne _ _ (hne rfl)]
        exact place_wakeOne h₁ hp
      split at hs
      · cases hs
        rw [place_moveTo_of_ne _ _ (hne rfl)]
        exact Place.notified_of_ne _ hp
      · cases hs
        rfl
    · cases hs

/-- A call that is about to wake everybody does so before it does anything else. -/
theorem Inv.calling {e : Event} (h : s.Inv) (hp : s.place t = .wake f intMax)
    (hkey : s.table.futexes.val f = key) (hs : s.step e = some s') (old : Dword) :
    (s'.place t = .wake f intMax ∧ s'.table.futexes.val f = key) ∨ Quiet s' key old := by
  have hheld : s.held t = some f := by rw [held, hp]; rfl
  have hval := ((h.follows hs).val t f hheld).trans hkey
  by_cases ht : e.actor = some t
  · right
    unfold step at hs
    split at hs
    · cases hs
    cases e with
    | notify t' chosen =>
      obtain rfl : t' = t := Option.some.inj ht
      have hne : ¬intMax = 1 := by decide
      simp only [stepAlive, hp, if_neg hne, if_true, Option.some.injEq] at hs
      subst hs
      intro u g hg
      by_cases hu : u = t'
      · subst hu
        rw [place_moveTo_self]
        exact ⟨Place.noConfusion, Place.noConfusion⟩
      · rw [place_moveTo_of_ne _ _ hu]
        dsimp only
        constructor
        · intro hb
          cases hpu : s.place u with
          | blocked f' old' =>
            rw [hpu, Place.notified] at hb
            split at hb
            · cases hb
            · rename_i hne
              cases hb
              exact hne (h.table.unique g f (h.live (by rw [held, hpu]; rfl)) (h.live hheld)
                (hg.trans hkey.symm))
          | _ =>
            rw [hpu] at hb
            cases hb
        · intro hb
          have hin : (s.place u).inside := by
            rw [← Place.inside_notified f, hb]
            rfl
          have hlock := h.lock t' (by rw [hp]; rfl)
          rw [h.lock u hin, Option.some.injEq] at hlock
          exact hu hlock
    | store mem word => cases ht
    | wait t' addr val =>
      obtain rfl : t' = t := Option.some.inj ht
      have henter : s.enter t' addr (.load · val) = some s' := hs
      obtain ⟨r, hr⟩ := place_of_enter henter
      rw [hp] at hr
      cases hr
    | wake t' addr val =>
      obtain rfl : t' = t := Option.some.inj ht
      have henter : s.enter t' addr (.wake · val) = some s' := hs
      obtain ⟨r, hr⟩ := place_of_enter henter
      rw [hp] at hr
      cases hr
    | load t' | check t' | spurious t' | relock t' | put t' =>
      obtain rfl : t' = t := Option.some.inj ht
      simp [stepAlive, hp] at hs
  · left
    refine ⟨?_, hval⟩
    rw [place_of_actor_ne hs ht (by simp [hp]), hp]

/-- The call got the futex and is about to wake everybody. -/
def Calling (s : State) (t : ThreadId) (key : Futex) : Prop :=
  ∃ f, s.place t = .wake f intMax ∧ s.table.futexes.val f = key

theorem Inv.called (h : s.Inv) (hs : s.step (.wake t addr intMax) = some s') :
    s'.Calling t ⟨s.mem t, addr⟩ := by
  unfold step at hs
  split at hs
  · cases hs
  have henter : s.enter t addr (.wake · intMax) = some s' := hs
  obtain ⟨-, -, -, -, -, ⟨f, hplace, hval⟩, -⟩ := h.enter (fun _ ↦ rfl) henter
  refine ⟨f, ?_, hval⟩
  rw [hplace, Function.update_self]

theorem not_calling_of_put (hs : s.step (.put t) = some s') : ¬s.Calling t key := by
  rintro ⟨f, hp, -⟩
  unfold step at hs
  split at hs
  · cases hs
  simp [stepAlive, hp] at hs

/-- No wake-up is lost: when the word has kept another value than `old` since it was
stored, and a call of `futex_wake` for all threads has come to its end, no thread
sleeps for `old` on it. -/
theorem not_sleeps_after_wake {mem : ThreadId → MemPtr} {word : MemPtr → Addr → Option Dword}
    {before during after : List Event}
    (h : Reaches step (fun _ _ ↦ True) (init mem word) s)
    (hword : AllAlong step (fun v ↦ v.word (mem t) addr ≠ some old) s
      (before ++ .wake t addr intMax :: (during ++ .put t :: after)))
    (hrun : exec step s (before ++ .wake t addr intMax :: (during ++ .put t :: after)) = some s') :
    ¬s'.Sleeps u ⟨mem t, addr⟩ old := by
  let key : Futex := ⟨mem t, addr⟩
  have hmem : s.mem = mem := by
    refine (h.invariant (P := fun v ↦ v.Inv ∧ v.mem = mem) ⟨init_inv mem word, rfl⟩ ?_).2
    intro v w e hv _ hs
    exact ⟨(hv.1.follows hs).inv, (hv.1.follows hs).mem.trans hv.2⟩
  -- up to the call
  rw [exec_append] at hrun
  obtain ⟨s₁, h₁, hrun⟩ := Option.bind_eq_some_iff.mp hrun
  obtain ⟨hi₁, hm₁⟩ := hword.left.keeps (P := fun v ↦ v.Inv ∧ v.mem = mem)
    (fun v e w hv _ hs ↦ ⟨(hv.1.follows hs).inv, (hv.1.follows hs).mem.trans hv.2⟩)
    ⟨inv_of_reaches h, hmem⟩ h₁
  have hword := hword.right h₁
  obtain ⟨s₂, h₂, hrun⟩ := Option.bind_eq_some_iff.mp hrun
  have hcall := hi₁.called h₂
  rw [hm₁] at hcall
  have hword := hword.tail h₂
  -- the call
  rw [exec_append] at hrun
  obtain ⟨s₃, h₃, hrun⟩ := Option.bind_eq_some_iff.mp hrun
  obtain ⟨hi₃, hphase⟩ := hword.left.keeps
    (P := fun v ↦ v.Inv ∧ (v.Calling t key ∨ v.Quiet key old))
    (fun v e w hv hne hs ↦ by
      have hf := hv.1.follows hs
      refine ⟨hf.inv, ?_⟩
      obtain ⟨f, hp, hkey⟩ | hq := hv.2
      · exact (hv.1.calling hp hkey hs old).imp (fun hc ↦ ⟨f, hc⟩) id
      · exact .inr (hq.follows hv.1 hf hne))
    ⟨(hi₁.follows h₂).inv, .inl hcall⟩ h₃
  have hword := hword.right h₃
  obtain ⟨s₄, h₄, hrun⟩ := Option.bind_eq_some_iff.mp hrun
  have hq₃ := hphase.resolve_left (not_calling_of_put h₄)
  have hf₄ := hi₃.follows h₄
  -- after the call
  obtain ⟨-, hq⟩ := (hword.tail h₄).keeps (P := fun v ↦ v.Inv ∧ v.Quiet key old)
    (fun v e w hv hne hs ↦ ⟨(hv.1.follows hs).inv, hv.2.follows hv.1 (hv.1.follows hs) hne⟩)
    ⟨hf₄.inv, hq₃.follows hi₃ hf₄ hword.head⟩ hrun
  rintro ⟨f, hval, hp⟩
  exact (hq u f hval).1 hp

/-- Thread 1 falls asleep while the word is zero; then the word becomes one. -/
def fallAsleep : List Event :=
  [.wait 1 0x1000#32 0, .load 1, .check 1, .store 0 fun _ ↦ some 1]

/-- Thread 0 wakes it. -/
theorem not_sleeps_after_wake_one : ∃ s s',
    Reaches step (fun _ _ ↦ True) (init (fun _ ↦ 0) fun _ _ ↦ some 0) s ∧
    s.Sleeps 1 ⟨0, 0x1000#32⟩ 0 ∧
    exec step s [.wake 0 0x1000#32 intMax, .notify 0 none, .put 0] = some s' ∧
    ¬s'.Sleeps 1 ⟨0, 0x1000#32⟩ 0 := by
  obtain ⟨s', hs'⟩ := Option.isSome_iff_exists.mp (show (exec step
    (init (fun _ ↦ 0) fun _ _ ↦ some 0)
    (fallAsleep ++ [.wake 0 0x1000#32 intMax, .notify 0 none, .put 0])).isSome from rfl)
  rw [exec_append] at hs'
  obtain ⟨s, hs, hs'⟩ := Option.bind_eq_some_iff.mp hs'
  have hr : Reaches step (fun _ _ ↦ True) (init (fun _ ↦ 0) fun _ _ ↦ some 0) s :=
    .of_exec (by simp [Guarded, fallAsleep]) hs
  have hrun : exec step s
    ([] ++ .wake 0 0x1000#32 intMax :: ([.notify 0 none] ++ .put 0 :: [])) = some s' := hs'
  refine ⟨s, s', hr, ?_, hs', not_sleeps_after_wake hr ?_ hrun⟩
  · cases hs
    exact ⟨0, rfl, rfl⟩
  · cases hs
    refine .cons (by decide) fun v hv ↦ ?_
    cases hv
    refine .cons (by decide) fun v hv ↦ ?_
    cases hv
    refine .cons (by decide) fun v hv ↦ ?_
    cases hv
    exact .nil (by decide)

end State

end Isl.Kernel.Futexes
