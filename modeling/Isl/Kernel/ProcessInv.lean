import Isl.Kernel.Process
import Isl.Lib.Run

/-!
What holds of tasks and groups after any sequence of calls: the process table
names the allocated tasks, running tasks are on their group's list, and a
zombie is the leader of a group without threads.
-/

namespace Isl.Kernel.Process

open Isl.Lib Isl.Lib.Run

namespace System

def initTask : TaskId := 0

variable {s s' : System} {t c q : TaskId} {g : GroupId} {p : Pid} {r : Task}

structure Wf (s : System) : Prop where
  taskLt : ∀ {t r}, s.task t = some r → t < s.nextTask
  groupLt : ∀ {g G}, s.group g = some G → g < s.nextGroup
  taskGroupLt : ∀ {t r}, s.task t = some r → r.group < s.nextGroup
  leaderLt : ∀ {g G}, s.group g = some G → G.leader < s.nextTask
  threadLt : ∀ {g t}, t ∈ s.threads g → t < s.nextTask ∧ g < s.nextGroup
  table : ∀ {t r}, s.task t = some r → s.pidTask r.pid = some t
  tableTask : ∀ {p t}, s.pidTask p = some t → ∃ r, s.task t = some r ∧ r.pid = p
  pidLe : ∀ {t r}, s.task t = some r → r.pid ≤ maxPid
  threadGroup : ∀ {g t r}, t ∈ s.threads g → s.task t = some r → r.group = g
  runsThread : ∀ {t r}, s.task t = some r → r.running → t ∈ s.threads r.group
  leaderGroup : ∀ {g G r}, s.group g = some G → s.task G.leader = some r → r.group = g
  zombie : ∀ {t r}, s.task t = some r → r.zombie →
    s.threads r.group = [] ∧ ∃ G, s.group r.group = some G ∧ G.leader = t
  init : ∃ r, s.task initTask = some r ∧ r.pid = 1 ∧ r.parent = none ∧ r.zombie = false ∧
    ∃ G, s.group r.group = some G ∧ G.leader = initTask
  initLoose : ∀ q, initTask ∉ s.children q

theorem init_task : init.task t = some r ↔ t = initTask ∧ r = ⟨0, 1, none, false, true⟩ := by
  simp [System.init, firstProcess, Function.update_apply, initTask, eq_comm]

theorem init_group {G : Group} : init.group g = some G ↔ g = 0 ∧ G = ⟨initTask, 1, 1⟩ := by
  by_cases hg : g = 0 <;>
    simp [System.init, firstProcess, initTask, hg, eq_comm]

theorem init_pidTask : init.pidTask p = some t ↔ p = 1 ∧ t = initTask := by
  simp [System.init, firstProcess, Function.update_apply, initTask, eq_comm]

theorem mem_init_threads : t ∈ init.threads g ↔ t = initTask ∧ g = 0 := by
  by_cases hg : g = 0 <;>
    simp [System.init, firstProcess, initTask, hg]

theorem init_wf : init.Wf := by
  have hpid : 1 ≤ maxPid := by decide
  constructor
  case zombie =>
    intro t r ht hz
    obtain ⟨-, rfl⟩ := init_task.mp ht
    cases hz
  case init =>
    exact ⟨_, init_task.mpr ⟨rfl, rfl⟩, rfl, rfl, rfl, _, init_group.mpr ⟨rfl, rfl⟩, rfl⟩
  case initLoose =>
    intro q hq
    cases hq
  all_goals
    simp only [init_task, init_group, init_pidTask, mem_init_threads]
    grind [System.init, firstProcess, initTask]

theorem nextPid_some (h : s.nextPid = some p) : s.pidEmpty p ∧ p ≤ maxPid := by
  refine ⟨List.find?_some h, ?_⟩
  have hm := List.mem_of_find?_eq_some h
  obtain ⟨i, -, rfl⟩ := List.mem_map.mp hm
  exact Nat.lt_succ_iff.mp (Nat.mod_lt _ (Nat.succ_pos _))

theorem pidEmpty_iff : s.pidEmpty p ↔ s.pidTask p = none ∧ s.session p = [] ∧ s.pgroup p = [] := by
  simp [pidEmpty, and_assoc]

theorem Wf.not_zombie (h : s.Wf) (hr : s.task t = some r) (hrun : r.running) : r.zombie = false := by
  by_contra hz
  have hd := (h.zombie hr (by simpa using hz)).1
  have hm := h.runsThread hr hrun
  rw [hd] at hm
  exact List.not_mem_nil hm

theorem Wf.taskCreate (h : s.Wf) (hr : s.task c = some r) (hz : r.running)
    (hs : s.taskCreate c r = some s') : s'.Wf := by
  obtain ⟨pid, hpid, rfl⟩ := Option.map_eq_some_iff.mp hs
  obtain ⟨hempty, hle⟩ := nextPid_some hpid
  obtain ⟨hnone, -, -⟩ := pidEmpty_iff.mp hempty
  have hnotZombie := h.not_zombie hr hz
  have hnew {t : TaskId} {r : Task} (ht : s.task t = some r) : t ≠ s.nextTask := (h.taskLt ht).ne
  have hkeep {u : TaskId} {x y : Task} (hu : s.task u = some x) :
      Function.update s.task s.nextTask (some y) u = some x :=
    update_some_eq_some.mpr (.inr ⟨hnew hu, hu⟩)
  constructor
  case taskLt =>
    intro u x hu
    obtain ⟨rfl, -⟩ | ⟨-, hu⟩ := update_some_eq_some.mp hu
    · exact Nat.lt_succ_self _
    · exact (h.taskLt hu).trans (Nat.lt_succ_self _)
  case groupLt => exact h.groupLt
  case taskGroupLt =>
    intro u x hu
    obtain ⟨-, rfl⟩ | ⟨-, hu⟩ := update_some_eq_some.mp hu
    · have hlt := h.taskGroupLt hr
      exact hlt
    · exact h.taskGroupLt hu
  case leaderLt => exact fun hG ↦ (h.leaderLt hG).trans (Nat.lt_succ_self _)
  case threadLt => exact fun hm ↦ ⟨(h.threadLt hm).1.trans (Nat.lt_succ_self _), (h.threadLt hm).2⟩
  case table =>
    intro u x hu
    refine update_some_eq_some.mpr ?_
    obtain ⟨rfl, rfl⟩ | ⟨-, hu⟩ := update_some_eq_some.mp hu
    · exact .inl ⟨rfl, rfl⟩
    · refine .inr ⟨fun heq ↦ ?_, h.table hu⟩
      cases hnone.symm.trans (heq ▸ h.table hu)
  case tableTask =>
    intro p u hp
    obtain ⟨rfl, rfl⟩ | ⟨-, hp⟩ := update_some_eq_some.mp hp
    · exact ⟨_, Function.update_self _ _ _, rfl⟩
    · obtain ⟨x, hx, hpid⟩ := h.tableTask hp
      exact ⟨x, hkeep hx, hpid⟩
  case pidLe =>
    intro u x hu
    obtain ⟨-, rfl⟩ | ⟨-, hu⟩ := update_some_eq_some.mp hu
    · exact hle
    · exact h.pidLe hu
  case threadGroup =>
    intro g u x hm hu
    obtain ⟨rfl, -⟩ | ⟨-, hu⟩ := update_some_eq_some.mp hu
    · exact absurd (h.threadLt hm).1 (lt_irrefl _)
    · exact h.threadGroup hm hu
  case runsThread =>
    intro u x hu hrun
    obtain ⟨-, rfl⟩ | ⟨-, hu⟩ := update_some_eq_some.mp hu
    · cases hrun
    · exact h.runsThread hu hrun
  case leaderGroup =>
    intro g G x hG hu
    obtain ⟨heq, -⟩ | ⟨-, hu⟩ := update_some_eq_some.mp hu
    · exact absurd heq (h.leaderLt hG).ne
    · exact h.leaderGroup hG hu
  case zombie =>
    intro u x hu hzombie
    obtain ⟨-, rfl⟩ | ⟨-, hu⟩ := update_some_eq_some.mp hu
    · cases hnotZombie.symm.trans hzombie
    · exact h.zombie hu hzombie
  case init =>
    obtain ⟨x, hx, hinit⟩ := h.init
    exact ⟨x, hkeep hx, hinit⟩
  case initLoose =>
    intro q hm
    obtain ⟨heq, -⟩ | hm := Links.mem_add.mp hm
    · obtain ⟨x, hx, -⟩ := h.init
      exact hnew hx heq
    · exact h.initLoose q (Links.mem_clear.mp hm).2

/-- A task goes, and no group goes that another task leads. -/
theorem Wf.removeTask {group : GroupId → Option Group} (h : s.Wf) (hr : s.task t = some r)
    (ht : t ≠ initTask) (hless : ∀ {g G}, group g = some G → s.group g = some G)
    (hkeep : ∀ {g G}, s.group g = some G → G.leader ≠ t → group g = some G) :
    ({ s with
      task := Function.update s.task t none
      group := group
      children := Links.remove s.children t
      pidTask := Function.update s.pidTask r.pid none } : System).Wf where
  taskLt hu := h.taskLt (update_none_eq_some.mp hu).2
  groupLt hG := h.groupLt (hless hG)
  taskGroupLt hu := h.taskGroupLt (update_none_eq_some.mp hu).2
  leaderLt hG := h.leaderLt (hless hG)
  threadLt := h.threadLt
  table hu := by
    obtain ⟨hne, hu⟩ := update_none_eq_some.mp hu
    refine update_none_eq_some.mpr ⟨fun heq ↦ hne ?_, h.table hu⟩
    exact Option.some.inj ((h.table hu).symm.trans (heq ▸ h.table hr))
  tableTask hp := by
    obtain ⟨hne, hp⟩ := update_none_eq_some.mp hp
    obtain ⟨x, hx, hpid⟩ := h.tableTask hp
    refine ⟨x, update_none_eq_some.mpr ⟨fun heq ↦ hne ?_, hx⟩, hpid⟩
    rw [heq, hr] at hx
    cases hx
    exact hpid.symm
  pidLe hu := h.pidLe (update_none_eq_some.mp hu).2
  threadGroup hm hu := h.threadGroup hm (update_none_eq_some.mp hu).2
  runsThread hu := h.runsThread (update_none_eq_some.mp hu).2
  leaderGroup hG hu := h.leaderGroup (hless hG) (update_none_eq_some.mp hu).2
  zombie hu hz := by
    obtain ⟨hne, hu⟩ := update_none_eq_some.mp hu
    obtain ⟨hdead, G, hG, hlead⟩ := h.zombie hu hz
    exact ⟨hdead, G, hkeep hG (hlead ▸ hne), hlead⟩
  init := by
    obtain ⟨x, hx, hpid, hparent, hz, G, hG, hlead⟩ := h.init
    exact ⟨x, update_none_eq_some.mpr ⟨ht.symm, hx⟩, hpid, hparent, hz, G,
      hkeep hG (hlead ▸ ht.symm), hlead⟩
  initLoose q hm := h.initLoose q (Links.mem_remove.mp hm).1

theorem Wf.taskDestroy (h : s.Wf) (ht : t ≠ initTask) (hs : s.taskDestroy t = some s') :
    s'.Wf := by
  obtain ⟨r, hr, rfl⟩ := Option.map_eq_some_iff.mp hs
  exact h.removeTask hr ht id fun hG _ ↦ hG

theorem Wf.joinThread (h : s.Wf) (hr : s.task t = some r) (hg : s.threads r.group ≠ []) :
    { s with threads := Links.add s.threads r.group t }.Wf where
  taskLt := h.taskLt
  groupLt := h.groupLt
  taskGroupLt := h.taskGroupLt
  leaderLt := h.leaderLt
  threadLt hm := by
    obtain ⟨rfl, rfl⟩ | hm := Links.mem_add.mp hm
    · exact ⟨h.taskLt hr, h.taskGroupLt hr⟩
    · exact h.threadLt hm
  table := h.table
  tableTask := h.tableTask
  pidLe := h.pidLe
  threadGroup hm hu := by
    obtain ⟨rfl, rfl⟩ | hm := Links.mem_add.mp hm
    · cases hr.symm.trans hu
      rfl
    · exact h.threadGroup hm hu
  runsThread hu hrun := Links.mem_add.mpr (.inr (h.runsThread hu hrun))
  leaderGroup := h.leaderGroup
  zombie hu hz := by
    obtain ⟨hdead, hlead⟩ := h.zombie hu hz
    have hne : _ ≠ r.group := fun heq ↦ hg (heq ▸ hdead)
    exact ⟨(Function.update_of_ne hne _ _).trans hdead, hlead⟩
  init := h.init
  initLoose := h.initLoose

theorem Wf.joinProcess {G : Group} {pgroup session : Pid → List GroupId} (h : s.Wf)
    (hr : s.task t = some r)
    (ht : ∀ g, t ∉ s.threads g) (hz : r.zombie = false) (hi : t ≠ initTask) (hrun : r.running = false)
    (hlead : ∀ g G, s.group g = some G → G.leader ≠ t) :
    ({ s with
      task := Function.update s.task t (some { r with group := s.nextGroup })
      group := Function.update s.group s.nextGroup (some { G with leader := t })
      nextGroup := s.nextGroup + 1
      threads := Links.add (Function.update s.threads s.nextGroup []) s.nextGroup t
      pgroup := pgroup
      session := session } : System).Wf := by
  have hnew {g : GroupId} {G : Group} (hG : s.group g = some G) : g ≠ s.nextGroup :=
    (h.groupLt hG).ne
  have hkeep {g : GroupId} {G G' : Group} (hG : s.group g = some G) :
      Function.update s.group s.nextGroup (some G') g = some G :=
    update_some_eq_some.mpr (.inr ⟨hnew hG, hG⟩)
  have hthread {g : GroupId} {u : TaskId} (hm : u ∈ Links.add (Function.update s.threads
      s.nextGroup []) s.nextGroup t g) : u = t ∧ g = s.nextGroup ∨ u ∈ s.threads g :=
    (Links.mem_add.mp hm).imp_right fun hm ↦ (Links.mem_clear.mp hm).2
  constructor
  case taskLt =>
    intro u x hu
    obtain ⟨rfl, -⟩ | ⟨-, hu⟩ := update_some_eq_some.mp hu
    · exact h.taskLt hr
    · exact h.taskLt hu
  case groupLt =>
    intro g K hK
    obtain ⟨rfl, -⟩ | ⟨-, hK⟩ := update_some_eq_some.mp hK
    · exact Nat.lt_succ_self _
    · exact (h.groupLt hK).trans (Nat.lt_succ_self _)
  case taskGroupLt =>
    intro u x hu
    obtain ⟨-, rfl⟩ | ⟨-, hu⟩ := update_some_eq_some.mp hu
    · exact Nat.lt_succ_self _
    · exact (h.taskGroupLt hu).trans (Nat.lt_succ_self _)
  case leaderLt =>
    intro g K hK
    obtain ⟨-, rfl⟩ | ⟨-, hK⟩ := update_some_eq_some.mp hK
    · exact h.taskLt hr
    · exact h.leaderLt hK
  case threadLt =>
    intro g u hm
    obtain ⟨rfl, rfl⟩ | hm := hthread hm
    · exact ⟨h.taskLt hr, Nat.lt_succ_self _⟩
    · exact ⟨(h.threadLt hm).1, (h.threadLt hm).2.trans (Nat.lt_succ_self _)⟩
  case table =>
    intro u x hu
    obtain ⟨rfl, rfl⟩ | ⟨-, hu⟩ := update_some_eq_some.mp hu
    · have htable := h.table hr
      exact htable
    · exact h.table hu
  case tableTask =>
    intro p u hp
    obtain ⟨x, hx, hpid⟩ := h.tableTask hp
    by_cases hu : u = t
    · subst hu
      cases hr.symm.trans hx
      exact ⟨_, Function.update_self _ _ _, hpid⟩
    · exact ⟨x, update_some_eq_some.mpr (.inr ⟨hu, hx⟩), hpid⟩
  case pidLe =>
    intro u x hu
    obtain ⟨-, rfl⟩ | ⟨-, hu⟩ := update_some_eq_some.mp hu
    · have hpid := h.pidLe hr
      exact hpid
    · exact h.pidLe hu
  case threadGroup =>
    intro g u x hm hu
    obtain ⟨rfl, rfl⟩ | ⟨hne, hu⟩ := update_some_eq_some.mp hu
    · obtain ⟨-, rfl⟩ | hm := hthread hm
      · rfl
      · exact absurd hm (ht g)
    · obtain ⟨rfl, -⟩ | hm := hthread hm
      · exact absurd rfl hne
      · exact h.threadGroup hm hu
  case runsThread =>
    intro u x hu hruns
    obtain ⟨-, rfl⟩ | ⟨-, hu⟩ := update_some_eq_some.mp hu
    · cases hrun.symm.trans hruns
    · refine Links.mem_add.mpr (.inr (Links.mem_clear.mpr ⟨?_, h.runsThread hu hruns⟩))
      exact (h.taskGroupLt hu).ne
  case leaderGroup =>
    intro g K x hK hu
    obtain ⟨rfl, rfl⟩ | ⟨-, hK⟩ := update_some_eq_some.mp hK
    · obtain ⟨-, rfl⟩ | ⟨hne, -⟩ := update_some_eq_some.mp hu
      · rfl
      · exact absurd rfl hne
    · obtain ⟨heq, -⟩ | ⟨-, hu⟩ := update_some_eq_some.mp hu
      · exact absurd heq (hlead g K hK)
      · exact h.leaderGroup hK hu
  case zombie =>
    intro u x hu hzombie
    obtain ⟨-, rfl⟩ | ⟨-, hu⟩ := update_some_eq_some.mp hu
    · cases hz.symm.trans hzombie
    · obtain ⟨hdead, K, hK, hleader⟩ := h.zombie hu hzombie
      have hne := hnew hK
      refine ⟨?_, K, hkeep hK, hleader⟩
      exact (Function.update_of_ne hne _ _).trans ((Function.update_of_ne hne _ _).trans hdead)
  case init =>
    obtain ⟨x, hx, hpid, hparent, hzombie, K, hK, hleader⟩ := h.init
    exact ⟨x, update_some_eq_some.mpr (.inr ⟨hi.symm, hx⟩), hpid, hparent, hzombie, K, hkeep hK,
      hleader⟩
  case initLoose => exact h.initLoose

/-- A change of the tasks' records that keeps what the table and the groups
know of them. -/
theorem Wf.mapTasks (h : s.Wf) (f : TaskId → Task → Task) (hpid : ∀ t r, (f t r).pid = r.pid)
    (hgroup : ∀ t r, (f t r).group = r.group)
    (hrun : ∀ t r, s.task t = some r → (f t r).running → t ∈ s.threads r.group)
    (hzombie : ∀ t r, s.task t = some r → (f t r).zombie →
      s.threads r.group = [] ∧ ∃ G, s.group r.group = some G ∧ G.leader = t)
    (hinit : ∀ r, s.task initTask = some r → (f initTask r).parent = r.parent ∧
      (f initTask r).zombie = r.zombie) :
    { s with task := fun t ↦ (s.task t).map (f t) : System }.Wf where
  taskLt ht := by
    obtain ⟨r, hr, -⟩ := Option.map_eq_some_iff.mp ht
    exact h.taskLt hr
  groupLt := h.groupLt
  taskGroupLt ht := by
    obtain ⟨r, hr, rfl⟩ := Option.map_eq_some_iff.mp ht
    rw [hgroup]
    exact h.taskGroupLt hr
  leaderLt := h.leaderLt
  threadLt := h.threadLt
  table ht := by
    obtain ⟨r, hr, rfl⟩ := Option.map_eq_some_iff.mp ht
    rw [hpid]
    exact h.table hr
  tableTask hp := by
    obtain ⟨r, hr, rfl⟩ := h.tableTask hp
    exact ⟨_, Option.map_eq_some_iff.mpr ⟨r, hr, rfl⟩, hpid _ r⟩
  pidLe ht := by
    obtain ⟨r, hr, rfl⟩ := Option.map_eq_some_iff.mp ht
    rw [hpid]
    exact h.pidLe hr
  threadGroup hm ht := by
    obtain ⟨r, hr, rfl⟩ := Option.map_eq_some_iff.mp ht
    rw [hgroup]
    exact h.threadGroup hm hr
  runsThread ht hr := by
    obtain ⟨r, hr', rfl⟩ := Option.map_eq_some_iff.mp ht
    rw [hgroup]
    exact hrun _ r hr' hr
  leaderGroup hG ht := by
    obtain ⟨r, hr, rfl⟩ := Option.map_eq_some_iff.mp ht
    rw [hgroup]
    exact h.leaderGroup hG hr
  zombie ht hz := by
    obtain ⟨r, hr, rfl⟩ := Option.map_eq_some_iff.mp ht
    rw [hgroup]
    exact hzombie _ r hr hz
  init := by
    obtain ⟨r, hr, hp, hpar, hz, G, hG, hlead⟩ := h.init
    obtain ⟨hparent, hzombie'⟩ := hinit r hr
    refine ⟨_, Option.map_eq_some_iff.mpr ⟨r, hr, rfl⟩, ?_, ?_, ?_, G, ?_, hlead⟩
    · rw [hpid, hp]
    · rw [hparent, hpar]
    · rw [hzombie', hz]
    · rw [hgroup]
      exact hG
  initLoose := h.initLoose

/-- Writing one record is such a change. -/
theorem setTask_eq_map (hr : s.task t = some r) (f : Task → Task) :
    s.setTask t (some (f r)) =
      { s with task := fun x ↦ (s.task x).map fun r ↦ if x = t then f r else r } := by
  unfold setTask
  congr 1
  funext x
  by_cases hx : x = t
  · subst hx
    simp [hr]
  · simp [hx]

theorem setRunning_eq (hr : s.task t = some r) (b : Bool) :
    s.setRunning t b = s.setTask t (some { r with running := b }) := by
  simp [setRunning, hr]

theorem Wf.setRunning {b : Bool} (h : s.Wf) (hr : s.task t = some r)
    (hb : b = true → t ∈ s.threads r.group) : (s.setRunning t b).Wf := by
  rw [setRunning_eq hr, setTask_eq_map hr fun r ↦ { r with running := b }]
  apply h.mapTasks
  · intro x r'
    split <;> rfl
  · intro x r'
    split <;> rfl
  · intro x r' hx hrun
    split at hrun
    · rename_i heq
      subst heq
      obtain rfl := Option.some.inj (hr.symm.trans hx)
      exact hb hrun
    · exact h.runsThread hx hrun
  · intro x r' hx hz
    refine h.zombie hx ?_
    split at hz <;> exact hz
  · intro r' _
    split <;> exact ⟨rfl, rfl⟩

theorem Wf.removeThread (h : s.Wf) (pgroup session : Pid → List GroupId)
    (ht : ∀ r, s.task t = some r → r.running = false) :
    ({ s with
      threads := Links.remove s.threads t
      pgroup := pgroup
      session := session } : System).Wf where
  taskLt := h.taskLt
  groupLt := h.groupLt
  taskGroupLt := h.taskGroupLt
  leaderLt := h.leaderLt
  threadLt hm := h.threadLt (Links.mem_remove.mp hm).1
  table := h.table
  tableTask := h.tableTask
  pidLe := h.pidLe
  threadGroup hm := h.threadGroup (Links.mem_remove.mp hm).1
  runsThread hu hrun := by
    refine Links.mem_remove.mpr ⟨h.runsThread hu hrun, fun heq ↦ ?_⟩
    cases (ht _ (heq ▸ hu)).symm.trans hrun
  leaderGroup := h.leaderGroup
  zombie {u x} hu hz := by
    obtain ⟨hdead, hlead⟩ := h.zombie hu hz
    refine ⟨?_, hlead⟩
    change Links.remove s.threads t x.group = []
    rw [Links.remove, hdead]
    rfl
  init := h.init
  initLoose := h.initLoose

theorem reparent_eq_map (s : System) (t : TaskId) (parent : Option TaskId) :
    s.reparent t parent = { s with
      task := fun x ↦ (s.task x).map fun r ↦
        if x ∈ s.children t then { r with parent := parent } else r } := by
  unfold reparent
  congr 1
  funext x
  split
  · rfl
  · simp

theorem Wf.reparent (h : s.Wf) (parent : Option TaskId) : (s.reparent t parent).Wf := by
  rw [reparent_eq_map]
  apply h.mapTasks
  · intro x r'
    split <;> rfl
  · intro x r'
    split <;> rfl
  · intro x r' hx hrun
    refine h.runsThread hx ?_
    split at hrun <;> exact hrun
  · intro x r' hx hz
    refine h.zombie hx ?_
    split at hz <;> exact hz
  · intro r' _
    rw [if_neg (h.initLoose t)]
    exact ⟨rfl, rfl⟩

theorem Wf.setZombie {G : Group} (h : s.Wf) (hG : s.group g = some G)
    (hr : s.task G.leader = some r) (hd : s.threads g = []) (hp : r.parent ≠ none) :
    (s.setTask G.leader (some { r with zombie := true })).Wf := by
  have hgroup : r.group = g := h.leaderGroup hG hr
  rw [setTask_eq_map hr fun r ↦ { r with zombie := true }]
  apply h.mapTasks
  · intro x r'
    split <;> rfl
  · intro x r'
    split <;> rfl
  · intro x r' hx hrun
    refine h.runsThread hx ?_
    split at hrun <;> exact hrun
  · intro x r' hx hz
    split at hz
    · rename_i heq
      subst heq
      obtain rfl := Option.some.inj (hr.symm.trans hx)
      rw [hgroup]
      exact ⟨hd, G, hG, rfl⟩
    · exact h.zombie hx hz
  · intro r' hx
    obtain ⟨r₀, hr₀, -, hpar, -⟩ := h.init
    have hne : initTask ≠ G.leader := by
      intro heq
      rw [← heq, hr₀] at hr
      obtain rfl := Option.some.inj hr
      exact hp hpar
    rw [if_neg hne]
    exact ⟨rfl, rfl⟩

theorem Wf.reap (h : s.Wf) (hz : s.isZombie t) (hs : s.reap t = some s') : s'.Wf := by
  obtain ⟨r, hr, hs⟩ := Option.bind_eq_some_iff.mp hs
  obtain ⟨r', hr', rfl⟩ := Option.map_eq_some_iff.mp hs
  obtain rfl : r = r' := Option.some.inj (hr.symm.trans hr')
  have hz : r.zombie := by simpa [isZombie, hr] using hz
  obtain ⟨-, G, hG, hlead⟩ := h.zombie hr hz
  refine h.removeTask hr (fun heq ↦ ?_) (fun hK ↦ (update_none_eq_some.mp hK).2)
    fun hK hne ↦ update_none_eq_some.mpr ⟨fun heq ↦ hne ?_, hK⟩
  · obtain ⟨r₀, hr₀, -, -, hz₀, -⟩ := h.init
    rw [heq, hr₀] at hr
    cases hr
    cases hz₀.symm.trans hz
  · rw [heq, hG] at hK
    cases hK
    exact hlead

theorem Wf.setIds {G : Group} (h : s.Wf) (hG : s.group g = some G) (sid pgid : Pid)
    (pgroup session : Pid → List GroupId) :
    ({ s.setGroup g (some { G with sid := sid, pgid := pgid }) with
      pgroup := pgroup
      session := session } : System).Wf := by
  have hold {k : GroupId} {K : Group}
      (hK : (s.setGroup g (some { G with sid := sid, pgid := pgid })).group k = some K) :
      ∃ K', s.group k = some K' ∧ K'.leader = K.leader := by
    obtain ⟨rfl, rfl⟩ | ⟨-, hK⟩ := update_some_eq_some.mp hK
    · exact ⟨G, hG, rfl⟩
    · exact ⟨K, hK, rfl⟩
  have hnew {k : GroupId} {K : Group} (hK : s.group k = some K) :
      ∃ K', (s.setGroup g (some { G with sid := sid, pgid := pgid })).group k = some K' ∧
        K'.leader = K.leader := by
    by_cases hk : k = g
    · subst hk
      cases hG.symm.trans hK
      exact ⟨_, Function.update_self _ _ _, rfl⟩
    · exact ⟨K, update_some_eq_some.mpr (.inr ⟨hk, hK⟩), rfl⟩
  refine { h with groupLt := fun hK ↦ ?_, leaderLt := fun hK ↦ ?_, leaderGroup := fun hK hu ↦ ?_,
                  zombie := fun hu hz ↦ ?_, init := ?_ }
  · obtain ⟨K', hK', -⟩ := hold hK
    exact h.groupLt hK'
  · obtain ⟨K', hK', hlead⟩ := hold hK
    exact hlead ▸ h.leaderLt hK'
  · obtain ⟨K', hK', hlead⟩ := hold hK
    exact h.leaderGroup hK' (hlead ▸ hu)
  · obtain ⟨hdead, K, hK, hlead⟩ := h.zombie hu hz
    obtain ⟨K', hK', hlead'⟩ := hnew hK
    exact ⟨hdead, K', hK', hlead'.trans hlead⟩
  · obtain ⟨x, hx, hpid, hparent, hz, K, hK, hlead⟩ := h.init
    obtain ⟨K', hK', hlead'⟩ := hnew hK
    exact ⟨x, hx, hpid, hparent, hz, K', hK', hlead'.trans hlead⟩

/-! The calls as sequences of these changes. -/

/-- A task that no group knows of yet. -/
structure Loose (s : System) (t : TaskId) (r : Task) : Prop where
  task : s.task t = some r
  notThread : ∀ g, t ∉ s.threads g
  notLeader : ∀ g G, s.group g = some G → G.leader ≠ t
  notInit : t ≠ initTask
  notZombie : r.zombie = false
  notRunning : r.running = false

theorem Wf.loose_taskCreate (h : s.Wf) (hr : s.task c = some r) (hrun : r.running)
    (hs : s.taskCreate c r = some s') :
    ∃ r', s'.Loose s.nextTask r' ∧ r'.group = r.group ∧ r'.parent = some c ∧
      s'.threads = s.threads ∧ s'.group = s.group ∧ s'.pgroup = s.pgroup ∧
      s'.session = s.session ∧ s'.nextGroup = s.nextGroup := by
  have hz := h.not_zombie hr hrun
  obtain ⟨pid, -, rfl⟩ := Option.map_eq_some_iff.mp hs
  refine ⟨_, ⟨Function.update_self _ _ _, fun g hm ↦ ?_, fun g G hG heq ↦ ?_, fun heq ↦ ?_,
    hz, rfl⟩, rfl, rfl, rfl, rfl, rfl, rfl, rfl⟩
  · exact absurd (h.threadLt hm).1 (Nat.lt_irrefl _)
  · exact absurd heq (Nat.ne_of_lt (h.leaderLt hG))
  · obtain ⟨r₀, hr₀, -⟩ := h.init
    exact absurd heq (Nat.ne_of_gt (h.taskLt hr₀))

theorem joinGroup_cases {flags : Dword} (hr : s.task t = some r) (hs : s.joinGroup t flags = some s') :
    (has flags cloneThread ∧ s' = { s with threads := Links.add s.threads r.group t }) ∨
    ∃ G, s.group r.group = some G ∧ has flags cloneThread = false ∧ s' =
      { s with
        task := Function.update s.task t (some { r with group := s.nextGroup })
        group := Function.update s.group s.nextGroup (some { G with leader := t })
        nextGroup := s.nextGroup + 1
        threads := Links.add (Function.update s.threads s.nextGroup []) s.nextGroup t
        pgroup := Links.addAfter s.pgroup r.group s.nextGroup
        session := Links.addAfter s.session r.group s.nextGroup } := by
  obtain ⟨r', hr', hs⟩ := Option.bind_eq_some_iff.mp hs
  obtain rfl : r = r' := Option.some.inj (hr.symm.trans hr')
  split at hs
  · rename_i hf
    exact .inl ⟨hf, (Option.some.inj hs).symm⟩
  · rename_i hf
    obtain ⟨s₁, hs₁, hs⟩ := Option.bind_eq_some_iff.mp hs
    obtain ⟨G, hG, hs₁⟩ := Option.bind_eq_some_iff.mp hs₁
    obtain ⟨-, heq⟩ := Option.ite_none_right_eq_some.mp hs₁
    obtain rfl := Option.some.inj heq
    exact .inr ⟨G, hG, by simpa using hf, (Option.some.inj hs).symm⟩

/-- What `sys_clone` does: nothing, or it creates a task and destroys it again,
before or after it has joined a group, or starts it. -/
theorem sysClone_cases {flags : Dword} {result : CopyResult} {e : ℤ}
    (hs : s.sysClone c flags result = some (s', e)) :
    s' = s ∨ ∃ r s₁, s.task c = some r ∧ s.taskCreate c r = some s₁ ∧
      (s₁.taskDestroy s.nextTask = some s' ∨
        ∃ s₂, s₁.joinGroup s.nextTask flags = some s₂ ∧
          ((result = .badAddress ∧ s₂.taskDestroy s.nextTask = some s') ∨
            s' = s₂.setRunning s.nextTask true)) := by
  unfold sysClone at hs
  split at hs
  · obtain ⟨r, hr, hs⟩ := Option.bind_eq_some_iff.mp hs
    obtain ⟨s₁, hs₁, hs⟩ := Option.bind_eq_some_iff.mp hs
    refine .inr ⟨r, s₁, hr, hs₁, ?_⟩
    cases result with
    | noMemory =>
      obtain ⟨s₂, hs₂, heq⟩ := Option.map_eq_some_iff.mp hs
      cases heq
      exact .inl hs₂
    | badAddress =>
      obtain ⟨-, hs⟩ := Option.ite_none_right_eq_some.mp hs
      obtain ⟨s₃, hs₃, heq⟩ := Option.map_eq_some_iff.mp hs
      obtain ⟨s₂, hs₂, hs₃⟩ := Option.bind_eq_some_iff.mp hs₃
      cases heq
      exact .inr ⟨s₂, hs₂, .inl ⟨rfl, hs₃⟩⟩
    | ok =>
      obtain ⟨s₂, hs₂, heq⟩ := Option.map_eq_some_iff.mp hs
      cases heq
      exact .inr ⟨s₂, hs₂, .inr rfl⟩
  · cases hs
    exact .inl rfl

theorem Wf.joinGroup {flags : Dword} (h : s.Wf) (ht : s.Loose t r) (hg : s.threads r.group ≠ [])
    (hs : s.joinGroup t flags = some s') :
    s'.Wf ∧ ∃ r', s'.task t = some r' ∧ t ∈ s'.threads r'.group := by
  obtain ⟨-, rfl⟩ | ⟨G, -, -, rfl⟩ := joinGroup_cases ht.task hs
  · exact ⟨h.joinThread ht.task hg, r, ht.task, Links.mem_add.mpr (.inl ⟨rfl, rfl⟩)⟩
  · refine ⟨h.joinProcess ht.task ht.notThread ht.notZombie ht.notInit ht.notRunning ht.notLeader,
      _, Function.update_self _ _ _, Links.mem_add.mpr (.inl ⟨rfl, rfl⟩)⟩

theorem Wf.sysClone {flags : Dword} {result : CopyResult} {e : ℤ} (h : s.Wf) (hrun : s.runs c)
    (hs : s.sysClone c flags result = some (s', e)) : s'.Wf := by
  obtain rfl | ⟨r, s₁, hr, hs₁, hs⟩ := sysClone_cases hs
  · exact h
  have hrun : r.running := by simpa [runs, hr] using hrun
  obtain ⟨r', hl, hgroup, -, hthreads, -⟩ := h.loose_taskCreate hr hrun hs₁
  have h₁ := h.taskCreate hr hrun hs₁
  have hlive : s₁.threads r'.group ≠ [] := by
    rw [hthreads, hgroup]
    exact List.ne_nil_of_mem (h.runsThread hr hrun)
  obtain hs | ⟨s₂, hs₂, hs⟩ := hs
  · exact h₁.taskDestroy hl.notInit hs
  · obtain ⟨h₂, r₂, hr₂, hm⟩ := h₁.joinGroup hl hlive hs₂
    obtain ⟨-, hs⟩ | rfl := hs
    · exact h₂.taskDestroy hl.notInit hs
    · exact h₂.setRunning hr₂ fun _ ↦ hm

/-- What `do_exit` does: the task leaves its group's list, a dead group leaves
its lists, hands its children on and leaves a zombie, and any other task than
the leader is destroyed. -/
theorem doExit_cases (hs : s.doExit c = some s') :
    ∃ r G s₁ dead s₂, s.task c = some r ∧ s.group r.group = some G ∧
      (s.setRunning c false).exitTgroup c r.group = some (s₁, dead) ∧
      s₁.groupExit c G.leader dead = some s₂ ∧
      (if c = G.leader then some s₂ else s₂.taskDestroy c) = some s' := by
  obtain ⟨r, hr, hs⟩ := Option.bind_eq_some_iff.mp hs
  obtain ⟨G, hG, hs⟩ := Option.bind_eq_some_iff.mp hs
  obtain ⟨⟨s₁, dead⟩, hs₁, hs⟩ := Option.bind_eq_some_iff.mp hs
  obtain ⟨s₂, hs₂, hs⟩ := Option.bind_eq_some_iff.mp hs
  exact ⟨r, G, s₁, dead, s₂, hr, hG, hs₁, hs₂, hs⟩

theorem exitTgroup_cases {dead : Bool} (hs : s.exitTgroup t g = some (s', dead)) :
    (Links.remove s.threads t g ≠ [] ∧ dead = false ∧
      s' = { s with threads := Links.remove s.threads t }) ∨
    (Links.remove s.threads t g = [] ∧ dead = true ∧ s' = { s with
      threads := Links.remove s.threads t
      pgroup := Links.remove s.pgroup g
      session := Links.remove s.session g }) := by
  unfold exitTgroup at hs
  dsimp only at hs
  split at hs
  · rename_i hd
    obtain ⟨-, heq⟩ := Option.ite_none_right_eq_some.mp hs
    cases heq
    exact .inr ⟨hd, rfl, rfl⟩
  · rename_i hd
    cases hs
    exact .inl ⟨hd, rfl, rfl⟩

theorem notifyParent_cases (hs : s.notifyParent t = some s') :
    ∃ r, s.task t = some r ∧ ((r.parent = none ∧ s' = s) ∨
      (r.parent ≠ none ∧ s' = s.setTask t (some { r with zombie := true }))) := by
  obtain ⟨r, hr, hs⟩ := Option.bind_eq_some_iff.mp hs
  refine ⟨r, hr, ?_⟩
  cases hp : r.parent with
  | none =>
    rw [hp] at hs
    obtain ⟨-, heq⟩ := Option.ite_none_left_eq_some.mp hs
    exact .inl ⟨rfl, (Option.some.inj heq).symm⟩
  | some parent =>
    rw [hp] at hs
    obtain ⟨-, heq⟩ := Option.ite_none_right_eq_some.mp hs
    exact .inr ⟨Option.some_ne_none _, (Option.some.inj heq).symm⟩

theorem Wf.exitTgroup {dead : Bool} (h : s.Wf) (hr : s.task c = some r)
    (hs : (s.setRunning c false).exitTgroup c g = some (s', dead)) : s'.Wf := by
  have h₀ := h.setRunning (b := false) hr (fun hb ↦ absurd hb Bool.false_ne_true)
  have hstop (r' : Task) (hr' : (s.setRunning c false).task c = some r') : r'.running = false := by
    rw [setRunning_eq hr] at hr'
    obtain rfl := Option.some.inj ((Function.update_self c _ s.task).symm.trans hr')
    rfl
  obtain ⟨-, -, rfl⟩ | ⟨-, -, rfl⟩ := exitTgroup_cases hs
  · exact h₀.removeThread _ _ hstop
  · exact h₀.removeThread _ _ hstop

theorem Wf.groupExit {G : Group} {dead : Bool} (h : s.Wf) (hG : s.group g = some G)
    (hd : dead → s.threads g = []) (hs : s.groupExit c G.leader dead = some s') : s'.Wf := by
  unfold System.groupExit at hs
  split at hs
  · rename_i hdead
    obtain ⟨r, hr, ⟨-, rfl⟩ | ⟨hp, rfl⟩⟩ := notifyParent_cases hs
    · exact h.reparent _
    · exact (h.reparent _).setZombie hG hr (hd hdead) hp
  · cases hs
    exact h

/-- The first task is the leader of its group. -/
theorem Wf.ne_initTask {G : Group} (h : s.Wf) (hr : s.task c = some r)
    (hG : s.group r.group = some G) (hne : c ≠ G.leader) : c ≠ initTask := by
  rintro rfl
  obtain ⟨r₀, hr₀, -, -, -, G₀, hG₀, hlead⟩ := h.init
  obtain rfl := Option.some.inj (hr.symm.trans hr₀)
  obtain rfl := Option.some.inj (hG.symm.trans hG₀)
  exact hne hlead.symm

theorem exitTgroup_group {dead : Bool} (hs : s.exitTgroup t g = some (s', dead)) :
    s'.group = s.group ∧ s'.children = s.children ∧ s'.task = s.task ∧
      (dead → s'.threads g = []) ∧ (dead = false → s'.threads g ≠ []) := by
  obtain ⟨hd, rfl, rfl⟩ | ⟨hd, rfl, rfl⟩ := exitTgroup_cases hs
  · exact ⟨rfl, rfl, rfl, fun h ↦ absurd h Bool.false_ne_true, fun _ ↦ hd⟩
  · exact ⟨rfl, rfl, rfl, fun _ ↦ hd, fun h ↦ absurd h.symm Bool.false_ne_true⟩

theorem Wf.doExit (h : s.Wf) (hs : s.doExit c = some s') : s'.Wf := by
  obtain ⟨r, G, s₁, dead, s₂, hr, hG, hs₁, hs₂, hs⟩ := doExit_cases hs
  obtain ⟨hgroup, -, -, hd, -⟩ := exitTgroup_group hs₁
  have hG₁ : s₁.group r.group = some G := by
    rw [hgroup]
    exact hG
  have h₂ := (h.exitTgroup hr hs₁).groupExit hG₁ hd hs₂
  split at hs
  · cases hs
    exact h₂
  · rename_i hne
    exact h₂.taskDestroy (h.ne_initTask hr hG hne) hs

theorem waitTarget_zombie {id : Option Pid} (hs : s.waitTarget c id = some (some t)) :
    s.isZombie t := by
  cases id with
  | none =>
    have hfind := List.find?_some (Option.some.inj hs)
    exact (Bool.and_eq_true_iff.mp hfind).2
  | some id =>
    unfold waitTarget at hs
    obtain ⟨-, hs⟩ := Option.ite_none_left_eq_some.mp hs
    split at hs
    · cases hs
    · obtain ⟨me, -, hs⟩ := Option.bind_eq_some_iff.mp hs
      obtain ⟨r, -, hs⟩ := Option.bind_eq_some_iff.mp hs
      obtain ⟨parent, -, hs⟩ := Option.bind_eq_some_iff.mp hs
      split at hs
      · cases hs
      · obtain ⟨G, -, hs⟩ := Option.bind_eq_some_iff.mp hs
        obtain ⟨hz, heq⟩ := Option.ite_none_right_eq_some.mp (Option.some.inj hs)
        cases heq
        exact hz

theorem sysWait4_cases {id : Option Pid} {fault : Bool} (hs : s.sysWait4 c id fault = some s') :
    s' = s ∨ ∃ t, fault = false ∧ s.waitTarget c id = some (some t) ∧ s.reap t = some s' := by
  obtain ⟨target, htarget, hs⟩ := Option.bind_eq_some_iff.mp hs
  cases target with
  | none =>
    cases hs
    exact .inl rfl
  | some t =>
    dsimp only at hs
    split at hs
    · cases hs
      exact .inl rfl
    · rename_i hf
      exact .inr ⟨t, by simpa using hf, htarget, hs⟩

/-- `sys_setpgid` gets past its checks to the group of the task whose number is
`id`, and the group is not in the process group yet. -/
def setpgidMoves (s : System) (current : TaskId) (id pgid : Pid) (t : TaskId) (r : Task)
    (group : Group) : Prop :=
  s.pidTask id = some t ∧ s.task t = some r ∧ s.group r.group = some group ∧
    s.mayJoin group id pgid = some true ∧ (t = current ∨ r.parent = some current) ∧
    (s.task group.leader).all (fun leader ↦ group.sid != leader.pid) ∧ group.pgid ≠ pgid

/-- What `sys_setpgid` does: nothing, or it moves that group to the list of the
number `id`. -/
theorem sysSetpgid_cases {id pgid : Pid} {e : ℤ} (hs : s.sysSetpgid c id pgid = some (s', e)) :
    s' = s ∨ ∃ me t r G, s.task c = some me ∧
      s.setpgidMoves c (defaultTo id me.pid) (defaultTo pgid (defaultTo id me.pid)) t r G ∧
      listed s.pgroup r.group ∧
      s' = { s.setGroup r.group
          (some { G with pgid := defaultTo pgid (defaultTo id me.pid) }) with
        pgroup := Links.add (Links.remove s.pgroup r.group) (defaultTo id me.pid) r.group } := by
  obtain ⟨me, hme, hs⟩ := Option.bind_eq_some_iff.mp hs
  dsimp only at hs
  obtain ⟨-, hs⟩ := Option.ite_none_left_eq_some.mp hs
  obtain ⟨pid, hpid, hs⟩ := Option.bind_eq_some_iff.mp hs
  obtain ⟨-, heq⟩ := Option.ite_none_left_eq_some.mp hpid
  obtain rfl := Option.some.inj heq
  split at hs
  · cases hs
    exact .inl rfl
  · rename_i t ht
    obtain ⟨r, hr, hs⟩ := Option.bind_eq_some_iff.mp hs
    obtain ⟨G, hG, hs⟩ := Option.bind_eq_some_iff.mp hs
    obtain ⟨join, hjoin, hs⟩ := Option.bind_eq_some_iff.mp hs
    split at hs
    · cases hs
      exact .inl rfl
    rename_i hj
    split at hs
    · cases hs
      exact .inl rfl
    rename_i hchild
    obtain ⟨leader, hleader, hs⟩ := Option.bind_eq_some_iff.mp hs
    split at hs
    · cases hs
      exact .inl rfl
    rename_i hsid
    split at hs
    · cases hs
      exact .inl rfl
    rename_i hne
    obtain ⟨hl, heq⟩ := Option.ite_none_right_eq_some.mp hs
    cases heq
    refine .inr ⟨me, t, r, G, hme, ⟨ht, hr, hG, ?_, ?_, ?_, hne⟩, hl, rfl⟩
    · rw [hjoin]
      simpa using hj
    · by_contra h
      obtain ⟨h₁, h₂⟩ := not_or.mp h
      exact hchild ⟨h₁, h₂⟩
    · simpa [hleader] using hsid

theorem sysSetsid_cases {e : ℤ} (hs : s.sysSetsid c = some (s', e)) :
    s' = s ∨ ∃ me G leader, s.task c = some me ∧ s.group me.group = some G ∧
      s.task G.leader = some leader ∧ G.pgid ≠ leader.pid ∧ G.sid ≠ leader.pid ∧
      s' = { s.setGroup me.group (some { G with sid := leader.pid, pgid := leader.pid }) with
        session := Links.add (Links.remove s.session me.group) me.pid me.group
        pgroup := Links.add (Links.remove s.pgroup me.group) me.pid me.group } := by
  obtain ⟨me, hme, hs⟩ := Option.bind_eq_some_iff.mp hs
  obtain ⟨G, hG, hs⟩ := Option.bind_eq_some_iff.mp hs
  obtain ⟨leader, hleader, hs⟩ := Option.bind_eq_some_iff.mp hs
  split at hs
  · cases hs
    exact .inl rfl
  · rename_i hne
    obtain ⟨hpgid, hsid⟩ := not_or.mp hne
    obtain ⟨pid, hpid, hs⟩ := Option.bind_eq_some_iff.mp hs
    obtain ⟨-, heq⟩ := Option.ite_none_left_eq_some.mp hpid
    obtain rfl := Option.some.inj heq
    cases hs
    exact .inr ⟨me, G, leader, hme, hG, hleader, hpgid, hsid, rfl⟩

/-- Every call keeps the invariant. -/
theorem Wf.step {a : Action} (h : s.Wf) (hs : s.step a = some s') : s'.Wf := by
  obtain ⟨hrun, hs⟩ := Option.ite_none_right_eq_some.mp hs
  cases a with
  | clone c flags result =>
    obtain ⟨⟨s₁, e⟩, hc, rfl⟩ := Option.map_eq_some_iff.mp hs
    exact h.sysClone hrun hc
  | exit c => exact h.doExit hs
  | wait c id fault =>
    obtain rfl | ⟨t, -, ht, hs⟩ := sysWait4_cases hs
    · exact h
    · exact h.reap (waitTarget_zombie ht) hs
  | setpgid c id pgid =>
    obtain ⟨⟨s₁, e⟩, hc, rfl⟩ := Option.map_eq_some_iff.mp hs
    obtain rfl | ⟨me, t, r, G, -, ⟨-, -, hG, -⟩, -, rfl⟩ := sysSetpgid_cases hc
    · exact h
    · exact h.setIds hG G.sid _ _ _
  | setsid c =>
    obtain ⟨⟨s₁, e⟩, hc, rfl⟩ := Option.map_eq_some_iff.mp hs
    obtain rfl | ⟨me, G, leader, -, hG, -, -, -, rfl⟩ := sysSetsid_cases hc
    · exact h
    · exact h.setIds hG _ _ _ _

theorem wf_of_reaches {ok : System → Action → Prop} (h : Reaches System.step ok System.init s) :
    s.Wf := h.invariant init_wf fun _ _ _ hw _ hs ↦ hw.step hs

end System

end Isl.Kernel.Process
