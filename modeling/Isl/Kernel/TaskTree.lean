import Isl.Kernel.ProcessInv

/-!
Parents and children. A task that exits while it has children leaves them on
its own list: the loop of `do_exit` only writes their parent pointers, and a
thread that is not the leader, or a leader that is reaped, takes the list with
it.
-/

namespace Isl.Kernel.Process

open Isl.Lib Isl.Lib.Run

namespace System

variable {s s' : System} {t c q z : TaskId} {g : GroupId} {p : Pid} {r : Task}

/-- Every task in the process table other than the first has a parent that is
allocated, is on its list once and on no other. -/
def Parented (s : System) : Prop :=
  ∀ p t, s.pidTask p = some t → t ≠ initTask → ∃ r q, s.task t = some r ∧ r.parent = some q ∧
    (s.task q).isSome ∧ (s.children q).count t = 1 ∧ ∀ q', q' ≠ q → t ∉ s.children q'

/-- The list of a task holds the tasks whose parent pointer it is. -/
structure Tree (s : System) : Prop where
  linked : ∀ q t, t ∈ s.children q ↔ ∃ r, s.task t = some r ∧ r.parent = some q
  once : Links.Nodup s.children
  alive : ∀ {t r q}, s.task t = some r → r.parent = some q → (s.task q).isSome
  root : ∀ {t r}, s.task t = some r → r.parent = none → t = initTask
  notSelf : ∀ {t r}, s.task t = some r → r.parent ≠ some t

theorem Tree.parented (h : s.Tree) (hw : s.Wf) : s.Parented := by
  intro p t hp hne
  obtain ⟨r, hr, -⟩ := hw.tableTask hp
  cases hpar : r.parent with
  | none => exact absurd (h.root hr hpar) hne
  | some q =>
    refine ⟨r, q, hr, hpar, h.alive hr hpar, ?_, fun q' hq' hm ↦ ?_⟩
    · exact List.count_eq_one_of_mem (h.once q) ((h.linked q t).mpr ⟨r, hr, hpar⟩)
    · obtain ⟨r', hr', hpar'⟩ := (h.linked q' t).mp hm
      obtain rfl := Option.some.inj (hr.symm.trans hr')
      exact hq' (Option.some.inj (hpar'.symm.trans hpar))

theorem init_tree : init.Tree where
  linked q t := by
    constructor
    · intro hm
      cases hm
    · rintro ⟨r, hr, hp⟩
      obtain ⟨-, rfl⟩ := init_task.mp hr
      cases hp
  once _ := List.nodup_nil
  alive ht hp := by
    obtain ⟨-, rfl⟩ := init_task.mp ht
    cases hp
  root ht _ := (init_task.mp ht).1
  notSelf ht hp := by
    obtain ⟨-, rfl⟩ := init_task.mp ht
    cases hp

/-- Operations that keep the parent pointers and the lists keep the tree. -/
theorem Tree.congr (h : s.Tree) (hc : s'.children = s.children)
    (hp : ∀ t, (s'.task t).map Task.parent = (s.task t).map Task.parent) : s'.Tree := by
  have hto {t : TaskId} {r : Task} (hr : s'.task t = some r) :
      ∃ r', s.task t = some r' ∧ r'.parent = r.parent := by
    have ht := hp t
    rw [hr] at ht
    exact Option.map_eq_some_iff.mp ht.symm
  have hof {t : TaskId} {r : Task} (hr : s.task t = some r) :
      ∃ r', s'.task t = some r' ∧ r'.parent = r.parent := by
    have ht := hp t
    rw [hr] at ht
    exact Option.map_eq_some_iff.mp ht
  refine ⟨fun q t ↦ ?_, hc ▸ h.once, fun ht hq ↦ ?_, fun ht hq ↦ ?_, fun ht hq ↦ ?_⟩
  · rw [hc, h.linked]
    constructor
    · rintro ⟨r, hr, hq⟩
      obtain ⟨r', hr', heq⟩ := hof hr
      exact ⟨r', hr', heq.trans hq⟩
    · rintro ⟨r, hr, hq⟩
      obtain ⟨r', hr', heq⟩ := hto hr
      exact ⟨r', hr', heq.trans hq⟩
  · obtain ⟨r', hr', heq⟩ := hto ht
    obtain ⟨r'', hr''⟩ := Option.isSome_iff_exists.mp (h.alive hr' (heq.trans hq))
    obtain ⟨r₃, hr₃, -⟩ := hof hr''
    exact Option.isSome_of_eq_some hr₃
  · obtain ⟨r', hr', heq⟩ := hto ht
    exact h.root hr' (heq.trans hq)
  · obtain ⟨r', hr', heq⟩ := hto ht
    exact h.notSelf hr' (heq.trans hq)

/-- A number that is not given out yet is nobody's parent and on no list. -/
theorem Tree.fresh (h : s.Tree) (hw : s.Wf) : s.children s.nextTask = [] ∧
    ∀ q, s.nextTask ∉ s.children q := by
  constructor
  · refine List.eq_nil_iff_forall_not_mem.mpr fun t hm ↦ ?_
    obtain ⟨r, hr, hp⟩ := (h.linked _ t).mp hm
    obtain ⟨r', hr'⟩ := Option.isSome_iff_exists.mp (h.alive hr hp)
    exact absurd (hw.taskLt hr') (Nat.lt_irrefl _)
  · intro q hm
    obtain ⟨r, hr, -⟩ := (h.linked q _).mp hm
    exact absurd (hw.taskLt hr) (Nat.lt_irrefl _)

theorem Tree.taskCreate (h : s.Tree) (hw : s.Wf) (hr : s.task c = some r)
    (hs : s.taskCreate c r = some s') : s'.Tree ∧ s'.children s.nextTask = [] := by
  obtain ⟨pid, -, rfl⟩ := Option.map_eq_some_iff.mp hs
  obtain ⟨hnil, hnew⟩ := h.fresh hw
  have hchildren : Function.update s.children s.nextTask [] = s.children :=
    Function.update_eq_self_iff.mpr hnil.symm
  have hne {t : TaskId} {r : Task} (ht : s.task t = some r) : t ≠ s.nextTask :=
    Nat.ne_of_lt (hw.taskLt ht)
  refine ⟨⟨fun q t ↦ ?_, ?_, ?_, ?_, ?_⟩, ?_⟩
  · simp only [hchildren, Links.mem_add, h.linked, Function.update_apply]
    by_cases ht : t = s.nextTask
    · subst ht
      have hnone : s.task s.nextTask = none :=
        Option.eq_none_iff_forall_ne_some.mpr fun _ hr ↦ hne hr rfl
      simp [hnone, eq_comm]
    · simp [ht]
  · rw [hchildren]
    exact h.once.add hnew c
  · intro t r' q ht hq
    dsimp only at ht ⊢
    rw [Function.update_apply] at ht ⊢
    split
    · rfl
    · split at ht
      · cases ht
        obtain rfl := Option.some.inj hq
        exact Option.isSome_of_eq_some hr
      · exact h.alive ht hq
  · intro t r' ht hq
    obtain ⟨-, rfl⟩ | ⟨-, ht⟩ := update_some_eq_some.mp ht
    · cases hq
    · exact h.root ht hq
  · intro t r' ht hq
    obtain ⟨heq, rfl⟩ | ⟨-, ht⟩ := update_some_eq_some.mp ht
    · exact hne hr (Option.some.inj hq |>.trans heq)
    · exact h.notSelf ht hq
  · simp [hchildren, Links.add, (hne hr).symm, hnil]

theorem Tree.taskDestroy (h : s.Tree) (hc : s.children t = [])
    (hs : s.taskDestroy t = some s') : s'.Tree := by
  obtain ⟨r, hr, rfl⟩ := Option.map_eq_some_iff.mp hs
  refine ⟨fun q x ↦ ?_, h.once.remove t, fun hx hq ↦ ?_,
    fun hx hq ↦ h.root (update_none_eq_some.mp hx).2 hq,
    fun hx hq ↦ h.notSelf (update_none_eq_some.mp hx).2 hq⟩
  · rw [Links.mem_remove, h.linked]
    constructor
    · rintro ⟨⟨r', hr', hq⟩, hne⟩
      exact ⟨r', update_none_eq_some.mpr ⟨hne, hr'⟩, hq⟩
    · rintro ⟨r', hr', hq⟩
      obtain ⟨hne, hx⟩ := update_none_eq_some.mp hr'
      exact ⟨⟨r', hx, hq⟩, hne⟩
  · rename_i x r' q
    have hx' := (update_none_eq_some.mp hx).2
    have hne : q ≠ t := by
      rintro rfl
      have hm := (h.linked q x).mpr ⟨r', hx', hq⟩
      rw [hc] at hm
      cases hm
    simpa [Function.update_apply, hne] using h.alive hx' hq

theorem Tree.joinGroup {flags : Dword} (h : s.Tree) (hr : s.task t = some r)
    (hs : s.joinGroup t flags = some s') :
    s'.Tree ∧ s'.children = s.children ∧ ∃ r', s'.task t = some r' := by
  obtain ⟨-, rfl⟩ | ⟨G, -, -, rfl⟩ := joinGroup_cases hr hs
  · exact ⟨h.congr rfl fun _ ↦ rfl, rfl, r, hr⟩
  · refine ⟨h.congr rfl fun x ↦ ?_, rfl, _, Function.update_self _ _ _⟩
    dsimp only
    rw [Function.update_apply]
    split
    · rename_i hx
      rw [hx, hr]
      rfl
    · rfl

theorem Tree.setTask {f : Task → Task} (h : s.Tree) (hr : s.task t = some r)
    (hf : (f r).parent = r.parent) : (s.setTask t (some (f r))).Tree := by
  refine h.congr rfl fun x ↦ ?_
  unfold System.setTask
  dsimp only
  rw [Function.update_apply]
  split
  · rename_i hx
    rw [hx, hr]
    exact congrArg some hf
  · rfl

theorem Tree.setRunning (h : s.Tree) (hr : s.task t = some r) (b : Bool) :
    (s.setRunning t b).Tree := by
  rw [setRunning_eq hr]
  exact @Tree.setTask s t r (fun r ↦ { r with running := b }) h hr rfl

/-- Children that already have the parent they are given. -/
theorem reparent_eq {parent : Option TaskId}
    (hp : ∀ c ∈ s.children t, ∀ r, s.task c = some r → r.parent = parent) :
    s.reparent t parent = s := by
  unfold reparent
  congr 1
  funext x
  split
  · rename_i hx
    cases hr : s.task x with
    | none => rfl
    | some r =>
      rw [← hp x hx r hr]
      rfl
  · rfl

/-- The caller is without children, or stays as the leader of a group that
goes on, or is the first task. -/
def exitKeepsChildren (s : System) (t : TaskId) : Prop :=
  s.children t = [] ∨ ∃ r G, s.task t = some r ∧ s.group r.group = some G ∧ G.leader = t ∧
    (t = initTask ∨ Links.remove s.threads t r.group ≠ [])

/-- No exit leaves children on the list of the task that goes, and no task that
is reaped has children. -/
def KeepsChildren (s : System) : Action → Prop
  | .exit t => s.exitKeepsChildren t
  | .wait t id fault => fault = false → ∀ z, s.waitTarget t id = some (some z) → s.children z = []
  | _ => True

theorem Wf.pidGetTask_one (h : s.Wf) : s.pidGetTask 1 = some initTask := by
  obtain ⟨r, hr, hp, -, hz, -⟩ := h.init
  have hpid := h.table hr
  rw [hp] at hpid
  have hempty : s.pidEmpty 1 = false := by
    by_contra he
    have hnone := (pidEmpty_iff.mp (by simpa using he)).1
    rw [hpid] at hnone
    cases hnone
  have hlt : ¬1 > maxPid + 1 := by decide
  simp [pidGetTask, pidGetTaskZombie, pidGet, hempty, hlt, hpid, hr, hz]

theorem Tree.exitTgroup {dead : Bool} (h : s.Tree) (hr : s.task c = some r)
    (hs : (s.setRunning c false).exitTgroup c g = some (s', dead)) :
    s'.Tree ∧ s'.children = s.children := by
  obtain ⟨-, hchildren, htask, -⟩ := exitTgroup_group hs
  exact ⟨(h.setRunning hr false).congr hchildren fun x ↦ by rw [htask], hchildren⟩

theorem Tree.groupExit {dead : Bool} (h : s.Tree) (hw : s.Wf)
    (hk : dead → s.children c = [] ∨ c = initTask) (hs : s.groupExit c t dead = some s') :
    s'.Tree ∧ s'.children = s.children := by
  unfold System.groupExit at hs
  split at hs
  · rename_i hdead
    have heq : s.reparent c (s.pidGetTask 1) = s := by
      apply reparent_eq
      intro x hx r hr
      obtain hnil | rfl := hk hdead
      · rw [hnil] at hx
        cases hx
      · obtain ⟨r', hr', hp⟩ := (h.linked _ x).mp hx
        obtain rfl := Option.some.inj (hr.symm.trans hr')
        rw [hp, hw.pidGetTask_one]
    rw [heq] at hs
    obtain ⟨r, hr, ⟨-, rfl⟩ | ⟨-, rfl⟩⟩ := notifyParent_cases hs
    · exact ⟨h, rfl⟩
    · exact ⟨@Tree.setTask s t r (fun r ↦ { r with zombie := true }) h hr rfl, rfl⟩
  · cases hs
    exact ⟨h, rfl⟩

theorem Tree.doExit (h : s.Tree) (hw : s.Wf) (hk : s.exitKeepsChildren c)
    (hs : s.doExit c = some s') : s'.Tree := by
  obtain ⟨r, G, s₁, dead, s₂, hr, hG, hs₁, hs₂, hs⟩ := doExit_cases hs
  obtain ⟨h₁, hc₁⟩ := h.exitTgroup hr hs₁
  have hkeep : s.children c = [] ∨
      G.leader = c ∧ (c = initTask ∨ Links.remove s.threads c r.group ≠ []) := by
    obtain hnil | ⟨r', G', hr', hG', hl⟩ := hk
    · exact .inl hnil
    · obtain rfl := Option.some.inj (hr.symm.trans hr')
      obtain rfl := Option.some.inj (hG.symm.trans hG')
      exact .inr hl
  obtain ⟨h₂, hc₂⟩ := h₁.groupExit (c := c) (hw.exitTgroup hr hs₁) (fun hdead ↦ by
    rw [hc₁]
    refine hkeep.imp_right fun hl ↦ hl.2.resolve_right fun hne ↦ ?_
    obtain ⟨-, hd, -⟩ | ⟨hd, -, -⟩ := exitTgroup_cases hs₁
    · exact absurd (hdead.symm.trans hd) Bool.noConfusion
    · exact hne hd) hs₂
  split at hs
  · cases hs
    exact h₂
  · rename_i hne
    refine h₂.taskDestroy ?_ hs
    rw [hc₂, hc₁]
    exact hkeep.resolve_right fun hl ↦ hne hl.1.symm

/-- One call keeps the tree, unless it leaves children behind. -/
theorem Tree.step {a : Action} (h : s.Tree) (hw : s.Wf) (hk : s.KeepsChildren a)
    (hs : s.step a = some s') : s'.Tree := by
  obtain ⟨hrun, hs⟩ := Option.ite_none_right_eq_some.mp hs
  cases a with
  | clone c flags result =>
    obtain ⟨⟨s₃, e⟩, hc, rfl⟩ := Option.map_eq_some_iff.mp hs
    obtain rfl | ⟨r, s₁, hr, hs₁, hd⟩ := sysClone_cases hc
    · exact h
    have hrun' : r.running := by simpa [runs, Action.current, hr] using hrun
    obtain ⟨r', hl, -⟩ := hw.loose_taskCreate hr hrun' hs₁
    obtain ⟨h₁, hnil⟩ := h.taskCreate hw hr hs₁
    obtain hd | ⟨s₂, hs₂, hd⟩ := hd
    · exact h₁.taskDestroy hnil hd
    · obtain ⟨h₂, hc₂, r₂, hr₂⟩ := h₁.joinGroup hl.task hs₂
      obtain ⟨-, hd⟩ | rfl := hd
      · exact h₂.taskDestroy (hc₂ ▸ hnil) hd
      · exact h₂.setRunning hr₂ true
  | exit c => exact h.doExit hw hk hs
  | wait c id fault =>
    obtain rfl | ⟨z, hfault, hz, hreap⟩ := sysWait4_cases hs
    · exact h
    · obtain ⟨r, hr, hreap⟩ := Option.bind_eq_some_iff.mp hreap
      have hg : (s.setGroup r.group none).Tree := h.congr rfl fun _ ↦ rfl
      exact hg.taskDestroy (hk hfault z hz) hreap
  | setpgid c id pgid =>
    obtain ⟨⟨s₁, e⟩, hc, rfl⟩ := Option.map_eq_some_iff.mp hs
    obtain rfl | ⟨me, t, r, G, -, ⟨-, -, hG, -⟩, -, rfl⟩ := sysSetpgid_cases hc
    · exact h
    · exact h.congr rfl fun _ ↦ rfl
  | setsid c =>
    obtain ⟨⟨s₁, e⟩, hc, rfl⟩ := Option.map_eq_some_iff.mp hs
    obtain rfl | ⟨me, G, leader, -, hG, -, -, -, rfl⟩ := sysSetsid_cases hc
    · exact h
    · exact h.congr rfl fun _ ↦ rfl

/-! A call that leaves children behind breaks the tree. -/

theorem groupExit_child {dead : Bool} {x : TaskId} (hw : s.Wf) (hx : x ∈ s.children c)
    (hr : s.task x = some r) (hs : s.groupExit c t dead = some s') :
    s'.children = s.children ∧ ∃ r', s'.task x = some r' ∧
      r'.parent = if dead then some initTask else r.parent := by
  unfold System.groupExit at hs
  split at hs
  · rename_i hdead
    rw [hw.pidGetTask_one] at hs
    rw [if_pos hdead]
    have hx' : (s.reparent c (some initTask)).task x = some { r with parent := some initTask } := by
      simp [reparent, hx, hr]
    obtain ⟨r₁, hr₁, ⟨-, rfl⟩ | ⟨-, rfl⟩⟩ := notifyParent_cases hs
    · exact ⟨rfl, _, hx', rfl⟩
    · refine ⟨rfl, ?_⟩
      unfold setTask
      dsimp only
      by_cases heq : x = t
      · subst heq
        obtain rfl := Option.some.inj (hx'.symm.trans hr₁)
        exact ⟨_, Function.update_self _ _ _, rfl⟩
      · exact ⟨_, by simpa [Function.update_apply, heq] using hx', rfl⟩
  · rename_i hdead
    cases hs
    rw [if_neg hdead]
    exact ⟨rfl, r, hr, rfl⟩

theorem Tree.doExit_breaks (h : s.Tree) (hw : s.Wf) (hk : ¬s.exitKeepsChildren c)
    (hs : s.doExit c = some s') : ¬s'.Parented := by
  intro hp
  have hw' := hw.doExit hs
  obtain ⟨r, G, s₁, dead, s₂, hr, hG, hs₁, hs₂, hs⟩ := doExit_cases hs
  obtain ⟨hnil, hlead⟩ := not_or.mp hk
  obtain ⟨x, hx⟩ := List.exists_mem_of_ne_nil _ hnil
  obtain ⟨rx, hrx, hpar⟩ := (h.linked c x).mp hx
  have hxc : x ≠ c := by
    rintro rfl
    exact h.notSelf hrx hpar
  obtain ⟨-, hc₁, ht₁, hd⟩ := exitTgroup_group hs₁
  have hrx₁ : s₁.task x = some rx := by
    rw [ht₁, setRunning_eq hr]
    simpa [System.setTask, hxc] using hrx
  have hx₁ : x ∈ s₁.children c := hc₁ ▸ hx
  obtain ⟨hc₂, r₂, hr₂, hpar₂⟩ := groupExit_child (hw.exitTgroup hr hs₁) hx₁ hrx₁ hs₂
  have hx₂ : x ∈ s₂.children c := hc₂ ▸ hx₁
  -- the child keeps its record and its place on the list
  obtain ⟨hr', hx', hgone⟩ : s'.task x = some r₂ ∧ x ∈ s'.children c ∧
      (c ≠ G.leader → s'.task c = none) := by
    split at hs
    · rename_i heq
      cases hs
      exact ⟨hr₂, hx₂, fun hne ↦ absurd heq hne⟩
    · obtain ⟨rc, hrc, rfl⟩ := Option.map_eq_some_iff.mp hs
      refine ⟨?_, Links.mem_remove.mpr ⟨hx₂, hxc⟩, fun _ ↦ Function.update_self _ _ _⟩
      simpa [Function.update_apply, hxc] using hr₂
  have hxi : x ≠ initTask := by
    rintro rfl
    exact hw.initLoose c hx
  obtain ⟨r₃, q, hr₃, hq, halive, -, honly⟩ := hp _ x (hw'.table hr') hxi
  obtain rfl := Option.some.inj (hr'.symm.trans hr₃)
  obtain rfl : c = q := by
    by_contra hne
    exact honly c hne hx'
  have hleader : c = G.leader := by
    by_contra hne
    rw [hgone hne] at halive
    cases halive
  refine hlead ⟨r, G, hr, hG, hleader.symm, ?_⟩
  rw [hpar₂] at hq
  split at hq
  · exact .inl (Option.some.inj hq).symm
  · rename_i hdead
    refine .inr ?_
    obtain ⟨hne, -, -⟩ | ⟨-, heq, -⟩ := exitTgroup_cases hs₁
    · exact hne
    · exact absurd heq hdead

theorem Tree.reap_breaks (h : s.Tree) (hw : s.Wf) (hz : s.isZombie z) (hk : s.children z ≠ [])
    (hs : s.reap z = some s') : ¬s'.Parented := by
  intro hp
  have hw' := hw.reap hz hs
  obtain ⟨r, hr, hs⟩ := Option.bind_eq_some_iff.mp hs
  obtain ⟨r', -, rfl⟩ := Option.map_eq_some_iff.mp hs
  obtain ⟨x, hx⟩ := List.exists_mem_of_ne_nil _ hk
  obtain ⟨rx, hrx, hpar⟩ := (h.linked z x).mp hx
  have hxz : x ≠ z := by
    rintro rfl
    exact h.notSelf hrx hpar
  have hrx' : Function.update s.task z none x = some rx := by
    simpa [Function.update_apply, hxz] using hrx
  have hxi : x ≠ initTask := by
    rintro rfl
    exact hw.initLoose z hx
  obtain ⟨r₃, q, hr₃, hq, halive, -⟩ := hp _ x (hw'.table hrx') hxi
  obtain rfl := Option.some.inj (hrx'.symm.trans hr₃)
  obtain rfl := Option.some.inj (hpar.symm.trans hq)
  simp [setGroup] at halive

/-- In every run that leaves no children behind, every task has its parent; and
the first call that leaves some behind takes a task's parent from it. -/
theorem parented_of_reaches (h : Reaches System.step KeepsChildren System.init s) :
    s.Parented ∧ ∀ a s', s.step a = some s' → (s'.Parented ↔ s.KeepsChildren a) := by
  have hw := wf_of_reaches h
  have htree : s.Tree := by
    induction h with
    | start => exact init_tree
    | next hrun hok hs ih => exact (ih (wf_of_reaches hrun)).step (wf_of_reaches hrun) hok hs
  refine ⟨htree.parented hw, fun a s' hs ↦ ⟨fun hp ↦ ?_, fun hk ↦ ?_⟩⟩
  · by_contra hk
    have hs' := (Option.ite_none_right_eq_some.mp hs).2
    cases a with
    | exit c => exact htree.doExit_breaks hw hk hs' hp
    | wait c id fault =>
      simp only [KeepsChildren, Classical.not_imp, not_forall] at hk
      obtain ⟨rfl, z, hz, hne⟩ := hk
      obtain ⟨target, htarget, hs'⟩ := Option.bind_eq_some_iff.mp hs'
      obtain rfl := Option.some.inj (htarget.symm.trans hz)
      exact htree.reap_breaks hw (waitTarget_zombie hz) hne hs' hp
    | clone c flags result => exact hk trivial
    | setpgid c id pgid => exact hk trivial
    | setsid c => exact hk trivial
  · exact (htree.step hw hk hs).parented (hw.step hs)

/-- A child is created, exits and is reaped. -/
theorem parented_fork_wait : ∃ s₁ s₂ s₃, System.init.step (.clone 0 17 .ok) = some s₁ ∧
    s₁.step (.exit 1) = some s₂ ∧ s₂.step (.wait 0 none false) = some s₃ ∧ s₃.Parented := by
  have hrun : (System.init.step (.clone 0 17 .ok)).any fun s₁ ↦ decide (s₁.children 1 = []) &&
      (s₁.step (.exit 1)).any fun s₂ ↦ decide (s₂.children 1 = []) &&
        decide (s₂.waitTarget 0 none = some (some 1)) && (s₂.step (.wait 0 none false)).isSome := by
    decide +kernel
  obtain ⟨s₁, h₁, hrun⟩ := (Option.any_eq_true _ _).mp hrun
  obtain ⟨hk₁, hrun⟩ := Bool.and_eq_true_iff.mp hrun
  obtain ⟨s₂, h₂, hrun⟩ := (Option.any_eq_true _ _).mp hrun
  simp only [Bool.and_eq_true, decide_eq_true_eq] at hk₁ hrun
  obtain ⟨⟨hk₂, htarget⟩, hsome⟩ := hrun
  obtain ⟨s₃, h₃⟩ := Option.isSome_iff_exists.mp hsome
  have hwait : s₂.KeepsChildren (.wait 0 none false) := by
    intro _ z hz
    obtain rfl := Option.some.inj (Option.some.inj (htarget.symm.trans hz))
    exact hk₂
  have hclone : System.init.KeepsChildren (.clone 0 17 .ok) := trivial
  have hexit : s₁.KeepsChildren (.exit 1) := .inl hk₁
  have hreach : Reaches System.step KeepsChildren System.init s₃ :=
    .next (.next (.next .start hclone h₁) hexit h₂) hwait h₃
  exact ⟨s₁, s₂, s₃, h₁, h₂, h₃, (parented_of_reaches hreach).1⟩

/-- A child that has a child of its own exits: the first task becomes the parent
of a task that is on the dead one's list. -/
theorem exit_leaves_child : ∃ s,
    exec System.step System.init [.clone 0 17 .ok, .clone 1 17 .ok, .exit 1] = some s ∧
      ¬s.Parented := by
  have hrun : (exec System.step System.init [.clone 0 17 .ok, .clone 1 17 .ok, .exit 1]).any fun s ↦
      decide (s.pidTask 3 = some 2 ∧ (s.task 2).bind Task.parent = some 0 ∧ 2 ∉ s.children 0) := by
    decide +kernel
  obtain ⟨s, hs, hstate⟩ := (Option.any_eq_true _ _).mp hrun
  obtain ⟨htable, hparent, hlist⟩ := of_decide_eq_true hstate
  refine ⟨s, hs, fun hp ↦ ?_⟩
  obtain ⟨r, q, hr, hq, -, hcount, -⟩ := hp 3 2 htable (by decide)
  rw [hr] at hparent
  obtain rfl := Option.some.inj (hq.symm.trans hparent)
  rw [List.count_eq_zero_of_not_mem hlist] at hcount
  cases hcount

end System

end Isl.Kernel.Process
