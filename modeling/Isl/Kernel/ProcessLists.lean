import Isl.Kernel.ProcessInv

/-!
What the lists hold after any sequence of calls, clones that fail included:
allocated tasks and groups, and every group that has threads.
-/

namespace Isl.Kernel.Process

open Isl.Lib Isl.Lib.Run

namespace System

variable {s s' : System} {t c : TaskId} {g x : GroupId} {p q : Pid} {r : Task}

/-- A group with threads is allocated and on both of its lists. -/
structure Anchored (s : System) : Prop where
  child : ∀ {q t}, t ∈ s.children q → t < s.nextTask
  pgroup : ∀ {p g}, g ∈ s.pgroup p → g < s.nextGroup
  session : ∀ {p g}, g ∈ s.session p → g < s.nextGroup
  group : ∀ {g}, s.threads g ≠ [] → (s.group g).isSome
  listedPgroup : ∀ {g}, s.threads g ≠ [] → listed s.pgroup g
  listedSession : ∀ {g}, s.threads g ≠ [] → listed s.session g

theorem listed_iff {lists : Pid → List GroupId} : listed lists g ↔ ∃ p ≤ maxPid, g ∈ lists p := by
  simp [listed, Nat.lt_succ_iff]

theorem listed_remove {lists : Pid → List GroupId} (hne : x ≠ g) (h : listed lists x) :
    listed (Links.remove lists g) x := by
  obtain ⟨p, hp, hm⟩ := listed_iff.mp h
  exact listed_iff.mpr ⟨p, hp, Links.mem_remove.mpr ⟨hm, hne⟩⟩

/-- A group that moves is listed where it goes, and the others stay. -/
theorem listed_move {lists : Pid → List GroupId} (hp : p ≤ maxPid) (h : listed lists x) :
    listed (Links.add (Links.remove lists g) p g) x := by
  by_cases hx : x = g
  · exact listed_iff.mpr ⟨p, hp, Links.mem_add.mpr (.inl ⟨hx, rfl⟩)⟩
  · obtain ⟨q, hq, hm⟩ := listed_iff.mp (listed_remove hx h)
    exact listed_iff.mpr ⟨q, hq, Links.mem_add.mpr (.inr hm)⟩

theorem listed_addAfter {lists : Pid → List GroupId} (h : listed lists g)
    (hx : x = s.nextGroup ∨ listed lists x) :
    listed (Links.addAfter lists g s.nextGroup) x := by
  obtain rfl | hx := hx
  · obtain ⟨p, hp, hm⟩ := listed_iff.mp h
    exact listed_iff.mpr ⟨p, hp, Links.mem_addAfter.mpr (.inr ⟨rfl, hm⟩)⟩
  · obtain ⟨p, hp, hm⟩ := listed_iff.mp hx
    exact listed_iff.mpr ⟨p, hp, Links.mem_addAfter.mpr (.inl hm)⟩

theorem init_anchored : init.Anchored := by
  have hthreads (g : GroupId) (h : init.threads g ≠ []) : g = 0 := by
    by_contra hg
    exact h (by simp [System.init, firstProcess, hg])
  refine ⟨fun h ↦ ?_, fun {p g} h ↦ ?_, fun {p g} h ↦ ?_, fun {g} h ↦ ?_, fun {g} h ↦ ?_,
    fun {g} h ↦ ?_⟩
  · cases h
  · by_cases hp : p = 1 <;> simp_all [System.init, firstProcess]
  · by_cases hp : p = 1 <;> simp_all [System.init, firstProcess]
  all_goals obtain rfl := hthreads g h
  · rfl
  · exact listed_iff.mpr ⟨1, by decide, by decide⟩
  · exact listed_iff.mpr ⟨1, by decide, by decide⟩

namespace Anchored

theorem taskCreate (h : s.Anchored) (hs : s.taskCreate c r = some s') : s'.Anchored := by
  obtain ⟨pid, -, rfl⟩ := Option.map_eq_some_iff.mp hs
  refine ⟨fun {q t} hm ↦ ?_, h.pgroup, h.session, h.group, h.listedPgroup, h.listedSession⟩
  obtain ⟨rfl, -⟩ | hm := Links.mem_add.mp hm
  · exact Nat.lt_succ_self _
  · by_cases hq : q = s.nextTask
    · subst hq
      simp at hm
    · rw [Function.update_of_ne hq] at hm
      exact Nat.lt_succ_of_lt (h.child hm)

theorem taskDestroy (h : s.Anchored) (hs : s.taskDestroy t = some s') : s'.Anchored := by
  obtain ⟨r, -, rfl⟩ := Option.map_eq_some_iff.mp hs
  exact ⟨fun hm ↦ h.child (Links.mem_remove.mp hm).1, h.pgroup, h.session, h.group, h.listedPgroup,
    h.listedSession⟩

theorem mapTasks (h : s.Anchored) (task : TaskId → Option Task) :
    ({ s with task := task } : System).Anchored :=
  ⟨h.child, h.pgroup, h.session, h.group, h.listedPgroup, h.listedSession⟩

theorem joinGroup {flags : Dword} (h : s.Anchored) (hr : s.task t = some r)
    (hg : s.threads r.group ≠ []) (hs : s.joinGroup t flags = some s') : s'.Anchored := by
  obtain ⟨-, rfl⟩ | ⟨G, -, -, rfl⟩ := joinGroup_cases hr hs
  · have hlive {x : GroupId} (hx : Links.add s.threads r.group t x ≠ []) : s.threads x ≠ [] := by
      by_cases heq : x = r.group
      · exact heq ▸ hg
      · simpa [Links.add, heq] using hx
    exact ⟨h.child, h.pgroup, h.session, fun hx ↦ h.group (hlive hx),
      fun hx ↦ h.listedPgroup (hlive hx), fun hx ↦ h.listedSession (hlive hx)⟩
  · have hlive {x : GroupId}
        (hx : Links.add (Function.update s.threads s.nextGroup []) s.nextGroup t x ≠ []) :
        x = s.nextGroup ∨ s.threads x ≠ [] := by
      by_cases heq : x = s.nextGroup
      · exact .inl heq
      · exact .inr (by simpa [Links.add, heq] using hx)
    refine ⟨h.child, fun hm ↦ ?_, fun hm ↦ ?_, fun {x} hx ↦ ?_, fun {x} hx ↦ ?_, fun {x} hx ↦ ?_⟩
    · obtain hm | ⟨rfl, -⟩ := Links.mem_addAfter.mp hm
      · exact Nat.lt_succ_of_lt (h.pgroup hm)
      · exact Nat.lt_succ_self _
    · obtain hm | ⟨rfl, -⟩ := Links.mem_addAfter.mp hm
      · exact Nat.lt_succ_of_lt (h.session hm)
      · exact Nat.lt_succ_self _
    · dsimp only
      by_cases heq : x = s.nextGroup
      · rw [heq, Function.update_self]
        rfl
      · rw [Function.update_of_ne heq]
        exact h.group ((hlive hx).resolve_left heq)
    · exact listed_addAfter (h.listedPgroup hg) ((hlive hx).imp_right h.listedPgroup)
    · exact listed_addAfter (h.listedSession hg) ((hlive hx).imp_right h.listedSession)

theorem sysClone {flags : Dword} {result : CopyResult} {e : ℤ} (h : s.Anchored) (hw : s.Wf)
    (hrun : s.runs c) (hs : s.sysClone c flags result = some (s', e)) : s'.Anchored := by
  obtain rfl | ⟨r, s₁, hr, hs₁, hs⟩ := sysClone_cases hs
  · exact h
  have hrun : r.running := by simpa [runs, hr] using hrun
  obtain ⟨r', hl, hgroup, -, hthreads, -⟩ := hw.loose_taskCreate hr hrun hs₁
  have h₁ := h.taskCreate hs₁
  have hlive : s₁.threads r'.group ≠ [] := by
    rw [hthreads, hgroup]
    exact List.ne_nil_of_mem (hw.runsThread hr hrun)
  obtain hs | ⟨s₂, hs₂, hs⟩ := hs
  · exact h₁.taskDestroy hs
  · have h₂ := h₁.joinGroup hl.task hlive hs₂
    obtain ⟨-, hs⟩ | rfl := hs
    · exact h₂.taskDestroy hs
    · exact h₂.mapTasks _

theorem exitTgroup {dead : Bool} (h : s.Anchored) (hs : s.exitTgroup t g = some (s', dead)) :
    s'.Anchored := by
  have hlive {x : GroupId} (hx : Links.remove s.threads t x ≠ []) : s.threads x ≠ [] := by
    intro hnil
    exact hx (by simp [Links.remove, hnil])
  obtain ⟨-, -, rfl⟩ | ⟨hd, -, rfl⟩ := exitTgroup_cases hs
  · exact ⟨h.child, h.pgroup, h.session, fun hx ↦ h.group (hlive hx),
      fun hx ↦ h.listedPgroup (hlive hx), fun hx ↦ h.listedSession (hlive hx)⟩
  · have hne {x : GroupId} (hx : Links.remove s.threads t x ≠ []) : x ≠ g := fun heq ↦
      hx (heq ▸ hd)
    exact ⟨h.child, fun hm ↦ h.pgroup (Links.mem_remove.mp hm).1,
      fun hm ↦ h.session (Links.mem_remove.mp hm).1, fun hx ↦ h.group (hlive hx),
      fun hx ↦ listed_remove (hne hx) (h.listedPgroup (hlive hx)),
      fun hx ↦ listed_remove (hne hx) (h.listedSession (hlive hx))⟩

theorem groupExit {dead : Bool} (h : s.Anchored) (hs : s.groupExit c t dead = some s') :
    s'.Anchored := by
  unfold System.groupExit at hs
  split at hs
  · obtain ⟨r₁, -, ⟨-, rfl⟩ | ⟨-, rfl⟩⟩ := notifyParent_cases hs
    · exact h.mapTasks _
    · exact (h.mapTasks _).mapTasks _
  · cases hs
    exact h

theorem doExit (h : s.Anchored) (hs : s.doExit c = some s') : s'.Anchored := by
  obtain ⟨r, G, s₁, dead, s₂, -, -, hs₁, hs₂, hs⟩ := doExit_cases hs
  have h₀ : (s.setRunning c false).Anchored := h.mapTasks _
  have h₂ := (h₀.exitTgroup hs₁).groupExit hs₂
  split at hs
  · cases hs
    exact h₂
  · exact h₂.taskDestroy hs

/-- A group that changes its record, or is freed without threads. -/
theorem setGroup {G : Option Group} (h : s.Anchored) (hG : s.threads g ≠ [] → G.isSome) :
    (s.setGroup g G).Anchored := by
  refine ⟨h.child, h.pgroup, h.session, fun {x} hx ↦ ?_, h.listedPgroup, h.listedSession⟩
  dsimp only [System.setGroup]
  by_cases heq : x = g
  · subst heq
    rw [Function.update_self]
    exact hG hx
  · rw [Function.update_of_ne heq]
    exact h.group hx

theorem reap (h : s.Anchored) (hw : s.Wf) (hz : s.isZombie t) (hs : s.reap t = some s') :
    s'.Anchored := by
  obtain ⟨r, hr, hs⟩ := Option.bind_eq_some_iff.mp hs
  refine (h.setGroup fun hlive ↦ ?_).taskDestroy hs
  have hzombie : r.zombie := by simpa [isZombie, hr] using hz
  exact absurd (hw.zombie hr hzombie).1 hlive

theorem movePgroup (h : s.Anchored) (hg : g < s.nextGroup) (hp : p ≤ maxPid) :
    ({ s with pgroup := Links.add (Links.remove s.pgroup g) p g } : System).Anchored := by
  refine ⟨h.child, fun {q x} hm ↦ ?_, h.session, h.group, fun hx ↦ listed_move hp (h.listedPgroup hx),
    h.listedSession⟩
  obtain ⟨rfl, -⟩ | hm := Links.mem_add.mp hm
  · exact hg
  · exact h.pgroup (Links.mem_remove.mp hm).1

theorem moveSession (h : s.Anchored) (hg : g < s.nextGroup) (hp : p ≤ maxPid) :
    ({ s with session := Links.add (Links.remove s.session g) p g } : System).Anchored := by
  refine ⟨h.child, h.pgroup, fun {q x} hm ↦ ?_, h.group, h.listedPgroup,
    fun hx ↦ listed_move hp (h.listedSession hx)⟩
  obtain ⟨rfl, -⟩ | hm := Links.mem_add.mp hm
  · exact hg
  · exact h.session (Links.mem_remove.mp hm).1

theorem step {a : Action} (h : s.Anchored) (hw : s.Wf) (hs : s.step a = some s') : s'.Anchored := by
  obtain ⟨hrun, hs⟩ := Option.ite_none_right_eq_some.mp hs
  cases a with
  | clone c flags result =>
    obtain ⟨⟨s₁, e⟩, hc, rfl⟩ := Option.map_eq_some_iff.mp hs
    exact h.sysClone hw hrun hc
  | exit c => exact h.doExit hs
  | wait c id fault =>
    obtain rfl | ⟨t, -, ht, hs⟩ := sysWait4_cases hs
    · exact h
    · exact h.reap hw (waitTarget_zombie ht) hs
  | setpgid c id pgid =>
    obtain ⟨⟨s₁, e⟩, hc, rfl⟩ := Option.map_eq_some_iff.mp hs
    obtain rfl | ⟨me, t, r, G, -, ⟨ht, -, hG, -⟩, -, rfl⟩ := sysSetpgid_cases hc
    · exact h
    obtain ⟨r', hr', hpid⟩ := hw.tableTask ht
    exact (h.setGroup (G := some _) fun _ ↦ rfl).movePgroup (hw.groupLt hG) (hpid ▸ hw.pidLe hr')
  | setsid c =>
    obtain ⟨⟨s₁, e⟩, hc, rfl⟩ := Option.map_eq_some_iff.mp hs
    obtain rfl | ⟨me, G, leader, hme, hG, -, -, -, rfl⟩ := sysSetsid_cases hc
    · exact h
    have hset : (s.setGroup me.group (some { G with sid := leader.pid, pgid := leader.pid })).Anchored :=
      h.setGroup fun _ ↦ rfl
    exact (hset.moveSession (hw.groupLt hG) (hw.pidLe hme)).movePgroup (hw.groupLt hG) (hw.pidLe hme)

end Anchored

theorem anchored_of_reaches {ok : System → Action → Prop}
    (h : Reaches System.step ok System.init s) : s.Anchored := by
  induction h with
  | start => exact init_anchored
  | next hrun _ hs ih => exact ih.step (wf_of_reaches hrun) hs

end System

end Isl.Kernel.Process
