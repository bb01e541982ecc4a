import Isl.Kernel.ProcessInv
import Mathlib.Data.List.Basic

/-!
The loop of `sys_wait4`. The number that is asked for and the number of the
child looked at are one variable, so a call that waits for any child wakes up
waiting for the last one it looked at.
-/

namespace Isl.Kernel.Process

open Isl.Lib Isl.Lib.Run

def eintr : ℤ := -4

def wnohang : Dword := 1

/-- What one pass of the loop comes to. A call that sleeps makes another pass
with the value that `id` has then; the number `-1` is `none`. -/
inductive WaitPass
  | returned (id : Option Pid)
  | failed (err : ℤ)
  | sleeps (id : Option Pid)
deriving DecidableEq

namespace System

variable {s s' s₁ s₂ : System} {t c x y z : TaskId} {g : GroupId} {p : Pid} {r : Task} {G : Group}
  {id : Option Pid} {l : List TaskId}

/-- The loop over the children: the zombie it stops at, and the value of `id`. -/
def scanChildren (s : System) : List TaskId → Option Pid → Option TaskId × Option Pid
  | [], id => (none, id)
  | t :: ts, id =>
    if !s.isLeader t then scanChildren s ts id
    else
      let id := (s.task t).map Task.pid
      if s.isZombie t then (some t, id) else scanChildren s ts id

/-- `reap_if_zombie` for a zombie. With `fault` the stores to the guest's memory
fail, which the callers take for a task that was reaped. -/
def reapZombie (s : System) (t : TaskId) (fault : Bool) : Option System :=
  if fault then some s else s.reap t

/-- The end of a pass that finds no zombie. A pending signal ends the wait. -/
def waitFor (id : Option Pid) (options : Dword) (pending : Bool) : WaitPass :=
  if has options wnohang then .failed echild
  else if pending then .failed eintr
  else .sleeps id

def waitPass (s : System) (current : TaskId) (id : Option Pid) (options : Dword)
    (fault pending : Bool) : Option (System × WaitPass) :=
  match id with
  | none =>
    if s.children current = [] then some (s, .failed echild)
    else
      match s.scanChildren (s.children current) none with
      | (some t, id) => (s.reapZombie t fault).map (·, .returned id)
      | (none, id) => some (s, waitFor id options pending)
  | some id =>
    if pastTable id then none
    else
      match s.pidGetTaskZombie id with
      | none => some (s, .failed echild)
      | some t => do
        let me ← s.task current
        let r ← s.task t
        let parent ← r.parent.bind s.task
        if parent.group ≠ me.group then some (s, .failed echild)
        else do
          let group ← s.group r.group
          if s.isZombie group.leader then
            (s.reapZombie group.leader fault).map (·, .returned (some id))
          else some (s, waitFor (some id) options pending)

/-- The end of the wait: a signal that came ends the call, else it looks again. -/
def wake (s : System) (current : TaskId) (id : Option Pid) (options : Dword)
    (fault pending : Bool) : Option (System × WaitPass) :=
  if pending then some (s, .failed eintr) else s.waitPass current id options fault pending

/-! The loop over the children. -/

/-- A child that is a process, not a thread of the caller's. -/
def childProcess (s : System) (c x : TaskId) : Prop := x ∈ s.children c ∧ s.isLeader x

/-- The last child process on the list. -/
def lastChild (s : System) (c : TaskId) : Option TaskId := ((s.children c).filter s.isLeader).getLast?

theorem scanChildren_none (h : ∀ t ∈ l, s.isLeader t → s.isZombie t = false) :
    s.scanChildren l id =
      (none, ((l.filter s.isLeader).getLast?.map fun t ↦ (s.task t).map Task.pid).getD id) := by
  induction l generalizing id with
  | nil => rfl
  | cons t ts ih =>
    have hts : ∀ u ∈ ts, s.isLeader u → s.isZombie u = false :=
      fun u hu ↦ h u (List.mem_cons_of_mem t hu)
    cases hl : s.isLeader t with
    | false =>
      rw [scanChildren, hl, List.filter_cons_of_neg (by simp [hl])]
      exact ih hts
    | true =>
      have hz := h t List.mem_cons_self hl
      rw [scanChildren, hl, List.filter_cons_of_pos hl]
      dsimp only
      rw [hz]
      refine (ih hts).trans ?_
      rw [List.getLast?_cons]
      cases (ts.filter s.isLeader).getLast? <;> rfl

/-- The loop stops at the first zombie among the child processes. -/
theorem scanChildren_some (ht : t ∈ l) (hl : s.isLeader t) (hz : s.isZombie t) :
    ∃ u ∈ l, s.isLeader u ∧ s.isZombie u ∧
      s.scanChildren l id = (some u, (s.task u).map Task.pid) := by
  induction l generalizing id with
  | nil => cases ht
  | cons v vs ih =>
    rw [scanChildren]
    by_cases hstop : s.isLeader v ∧ s.isZombie v
    · exact ⟨v, List.mem_cons_self, hstop.1, hstop.2, by simp [hstop.1, hstop.2]⟩
    · have hvs : t ∈ vs := by
        refine (List.mem_cons.mp ht).resolve_left ?_
        rintro rfl
        exact hstop ⟨hl, hz⟩
      cases hlv : s.isLeader v with
      | false =>
        obtain ⟨u, hu, h⟩ := @ih id hvs
        exact ⟨u, List.mem_cons_of_mem v hu, h⟩
      | true =>
        have hzv : s.isZombie v = false := by simpa [hlv] using hstop
        obtain ⟨u, hu, h⟩ := @ih ((s.task v).map Task.pid) hvs
        exact ⟨u, List.mem_cons_of_mem v hu, by simpa [hzv] using h⟩

theorem scanChildren_fst :
    (s.scanChildren l id).1 = l.find? fun t ↦ s.isLeader t && s.isZombie t := by
  induction l generalizing id with
  | nil => rfl
  | cons t ts ih =>
    rw [scanChildren, List.find?_cons]
    cases hl : s.isLeader t with
    | false => exact ih
    | true => cases hz : s.isZombie t with
      | false => simpa using ih
      | true => simp

theorem map_fst_pair {σ ρ : Type} (o : Option σ) (b : ρ) : (o.map (·, b)).map Prod.fst = o := by
  cases o <;> rfl

/-- Every pass changes the system as a call of the process model does. -/
theorem waitPass_sysWait4 {options : Dword} {fault pending : Bool} :
    (s.waitPass c id options fault pending).map Prod.fst = s.sysWait4 c id fault := by
  cases id with
  | none =>
    have hfst := @scanChildren_fst s none (s.children c)
    rw [sysWait4, waitTarget, waitPass, ← hfst]
    cases hscan : s.scanChildren (s.children c) none with
    | mk target id =>
      split
      · rename_i hnil
        rw [hnil] at hscan
        cases hscan
        rfl
      · cases target with
        | none => rfl
        | some t =>
          cases fault with
          | true => rfl
          | false => exact map_fst_pair _ _
  | some id =>
    rw [sysWait4, waitTarget, waitPass]
    split
    · rfl
    · cases s.pidGetTaskZombie id with
      | none => rfl
      | some t =>
        cases hme : s.task c with
        | none => rfl
        | some me =>
          cases hr : s.task t with
          | none => simp [hr]
          | some r =>
            simp only [hr, Option.bind_eq_bind, Option.bind_some]
            cases r.parent.bind s.task with
            | none => rfl
            | some parent =>
              simp only [Option.bind_some]
              split
              · rfl
              · cases s.group r.group with
                | none => rfl
                | some G =>
                  simp only [Option.bind_some]
                  split
                  · cases fault with
                    | true => rfl
                    | false => exact map_fst_pair _ _
                  · rfl

/-! Children of a task that runs. -/

/-- A task is on one list of children, and that of its parent if that one runs. -/
structure Family (s : System) : Prop where
  linked : ∀ {q x}, x ∈ s.children q → ∃ r, s.task x = some r ∧ (s.runs q → r.parent = some q)
  once : ∀ {q q' x}, x ∈ s.children q → x ∈ s.children q' → q = q'

theorem init_family : init.Family := ⟨fun hx ↦ (nomatch hx), fun hx ↦ (nomatch hx)⟩

/-- Changes of tasks that leave the lists alone. -/
theorem Family.congr (h : s.Family) (hc : s'.children = s.children)
    (ht : ∀ q x r, x ∈ s.children q → s.task x = some r →
      ∃ r', s'.task x = some r' ∧ (s'.runs q → s.runs q ∧ r'.parent = r.parent)) : s'.Family where
  linked hx := by
    rw [hc] at hx
    obtain ⟨r, hr, hp⟩ := h.linked hx
    obtain ⟨r', hr', hrun⟩ := ht _ _ r hx hr
    refine ⟨r', hr', fun hq ↦ ?_⟩
    obtain ⟨hq, heq⟩ := hrun hq
    exact heq.trans (hp hq)
  once hx hx' := by
    rw [hc] at hx hx'
    exact h.once hx hx'

theorem runs_update {f : TaskId → Option Task} {q u : TaskId} {o : Option Task} (h : q ≠ u)
    (hs : s'.task = Function.update f u o) : s'.runs q = (f q).any Task.running := by
  rw [runs, hs, Function.update_of_ne h]

theorem Family.taskCreate (h : s.Family) (hw : s.Wf) (hr : s.task c = some r)
    (hs : s.taskCreate c r = some s') : s'.Family := by
  obtain ⟨pid, -, rfl⟩ := Option.map_eq_some_iff.mp hs
  have hnew {q : TaskId} : s.nextTask ∉ s.children q := by
    intro hm
    obtain ⟨x, hx, -⟩ := h.linked hm
    exact absurd (hw.taskLt hx) (Nat.lt_irrefl _)
  have hmem {q x : TaskId} (hx : x ∈ Links.add (Function.update s.children s.nextTask []) c
      s.nextTask q) : (x = s.nextTask ∧ q = c) ∨ (q ≠ s.nextTask ∧ x ∈ s.children q) := by
    exact (Links.mem_add.mp hx).imp_right Links.mem_clear.mp
  refine ⟨fun {q x} hx ↦ ?_, fun hx hx' ↦ ?_⟩
  · obtain ⟨rfl, rfl⟩ | ⟨hq, hx⟩ := hmem hx
    · exact ⟨_, Function.update_self _ _ _, fun _ ↦ rfl⟩
    · obtain ⟨rx, hrx, hp⟩ := h.linked hx
      have hne : x ≠ s.nextTask := (hw.taskLt hrx).ne
      refine ⟨rx, (Function.update_of_ne hne _ _).trans hrx, fun hrun ↦ hp ?_⟩
      rwa [runs_update hq rfl] at hrun
  · obtain ⟨rfl, rfl⟩ | ⟨-, hold⟩ := hmem hx <;> obtain ⟨heq, rfl⟩ | ⟨-, hold'⟩ := hmem hx'
    · rfl
    · exact absurd hold' hnew
    · exact absurd (heq ▸ hold) hnew
    · exact h.once hold hold'

theorem Family.taskDestroy (h : s.Family) (hs : s.taskDestroy t = some s') : s'.Family := by
  obtain ⟨r, -, rfl⟩ := Option.map_eq_some_iff.mp hs
  refine ⟨fun {q x} hx ↦ ?_, fun hx hx' ↦ ?_⟩
  · obtain ⟨hx, hne⟩ := Links.mem_remove.mp hx
    obtain ⟨rx, hrx, hp⟩ := h.linked hx
    refine ⟨rx, (Function.update_of_ne hne _ _).trans hrx, fun hrun ↦ ?_⟩
    by_cases hq : q = t
    · subst hq
      simp [runs] at hrun
    · rw [runs_update hq rfl] at hrun
      exact hp hrun
  · exact h.once (Links.mem_remove.mp hx).1 (Links.mem_remove.mp hx').1

/-- The record of one task changes. -/
theorem Family.setTask {q : Task} (h : s.Family) (hr : s.task t = some r)
    (hp : q.parent = r.parent) (hrun : q.running → r.running ∨ s.children t = []) :
    (s.setTask t (some q)).Family := by
  refine h.congr rfl fun u x rx hx hrx ↦ ?_
  have hruns : (s.setTask t (some q)).runs u → s.runs u := by
    intro hu
    by_cases hut : u = t
    · subst hut
      have hq : q.running := by simpa [runs, System.setTask] using hu
      obtain hrr | hnil := hrun hq
      · simpa [runs, hr] using hrr
      · rw [hnil] at hx
        cases hx
    · rwa [runs_update hut rfl] at hu
  by_cases hxt : x = t
  · subst hxt
    refine ⟨q, Function.update_self _ _ _, fun hu ↦ ⟨hruns hu, ?_⟩⟩
    rw [hp, Option.some.inj (hr.symm.trans hrx)]
  · exact ⟨rx, (Function.update_of_ne hxt _ _).trans hrx, fun hu ↦ ⟨hruns hu, rfl⟩⟩

theorem Family.reparent (h : s.Family) (ht : s.runs t = false) (o : Option TaskId) :
    (s.reparent t o).Family := by
  have hruns (u : TaskId) : (s.reparent t o).runs u = s.runs u := by
    unfold runs System.reparent
    dsimp only
    split
    · cases s.task u <;> rfl
    · rfl
  refine h.congr rfl fun u x rx hx hrx ↦ ?_
  rw [hruns]
  by_cases hxt : x ∈ s.children t
  · refine ⟨{ rx with parent := o }, ?_, fun hu ↦ ?_⟩
    · simp [System.reparent, hxt, hrx]
    · rw [h.once hx hxt, ht] at hu
      cases hu
  · refine ⟨rx, ?_, fun hu ↦ ⟨hu, rfl⟩⟩
    simp [System.reparent, hxt, hrx]

theorem Family.joinGroup {flags : Dword} (h : s.Family) (hr : s.task t = some r)
    (hs : s.joinGroup t flags = some s') : s'.Family := by
  obtain ⟨-, rfl⟩ | ⟨G, -, -, rfl⟩ := joinGroup_cases hr hs
  · exact ⟨h.linked, h.once⟩
  · obtain ⟨hlinked, honce⟩ := h.setTask (q := { r with group := s.nextGroup }) hr rfl .inl
    exact ⟨hlinked, honce⟩

theorem taskCreate_children_new (hc : c ≠ s.nextTask) (hs : s.taskCreate c r = some s') :
    s'.children s.nextTask = [] := by
  obtain ⟨pid, -, rfl⟩ := Option.map_eq_some_iff.mp hs
  exact (Function.update_of_ne hc.symm _ _).trans (Function.update_self _ _ _)

theorem joinGroup_children {flags : Dword} (hr : s.task t = some r)
    (hs : s.joinGroup t flags = some s') :
    s'.children = s.children ∧ ∃ r', s'.task t = some r' := by
  obtain ⟨-, rfl⟩ | ⟨G, -, -, rfl⟩ := joinGroup_cases hr hs
  · exact ⟨rfl, r, hr⟩
  · exact ⟨rfl, _, Function.update_self _ _ _⟩

theorem Family.sysClone {flags : Dword} {result : CopyResult} {e : ℤ} (h : s.Family) (hw : s.Wf)
    (hrun : s.runs c) (hs : s.sysClone c flags result = some (s', e)) : s'.Family := by
  obtain rfl | ⟨r, s₁, hr, hs₁, hs⟩ := sysClone_cases hs
  · exact h
  have hrun : r.running := by simpa [runs, hr] using hrun
  obtain ⟨r', hl, -⟩ := hw.loose_taskCreate hr hrun hs₁
  have h₁ := h.taskCreate hw hr hs₁
  obtain hs | ⟨s₂, hs₂, hs⟩ := hs
  · exact h₁.taskDestroy hs
  have h₂ := h₁.joinGroup hl.task hs₂
  obtain ⟨-, hs⟩ | rfl := hs
  · exact h₂.taskDestroy hs
  · obtain ⟨hchildren, r₂, hr₂⟩ := joinGroup_children hl.task hs₂
    rw [setRunning_eq hr₂]
    refine h₂.setTask hr₂ rfl fun _ ↦ .inr ?_
    rw [hchildren]
    exact taskCreate_children_new (hw.taskLt hr).ne hs₁

theorem Family.doExit (h : s.Family) (hs : s.doExit c = some s') : s'.Family := by
  obtain ⟨r, G, s₁, dead, s₂, hr, -, hs₁, hs₂, hs⟩ := doExit_cases hs
  have h₀ : (s.setRunning c false).Family := by
    rw [setRunning_eq hr]
    exact h.setTask hr rfl nofun
  have hstop : (s.setRunning c false).runs c = false := by
    rw [setRunning_eq hr]
    simp [runs, System.setTask]
  obtain ⟨-, hchildren, htask, -⟩ := exitTgroup_group hs₁
  have h₁ : s₁.Family := h₀.congr hchildren fun q x rx hx hrx ↦
    ⟨rx, htask ▸ hrx, fun hq ↦ ⟨by rwa [runs, htask] at hq, rfl⟩⟩
  have hstop₁ : s₁.runs c = false := by rwa [runs, htask]
  have h₂ : s₂.Family := by
    unfold System.groupExit at hs₂
    split at hs₂
    · have hrep := h₁.reparent hstop₁ (s₁.pidGetTask 1)
      obtain ⟨r₁, hr₁, ⟨-, rfl⟩ | ⟨-, rfl⟩⟩ := notifyParent_cases hs₂
      · exact hrep
      · exact hrep.setTask hr₁ rfl .inl
    · cases hs₂
      exact h₁
  split at hs
  · cases hs
    exact h₂
  · exact h₂.taskDestroy hs

theorem Family.reap (h : s.Family) (hs : s.reap z = some s') : s'.Family := by
  obtain ⟨r, -, hs⟩ := Option.bind_eq_some_iff.mp hs
  have hfree : (s.setGroup r.group none).Family := ⟨h.linked, h.once⟩
  exact hfree.taskDestroy hs

theorem Family.step {a : Action} (h : s.Family) (hw : s.Wf) (hs : s.step a = some s') :
    s'.Family := by
  obtain ⟨hrun, hs⟩ := Option.ite_none_right_eq_some.mp hs
  cases a with
  | clone c flags result =>
    obtain ⟨⟨s₁, e⟩, hc, rfl⟩ := Option.map_eq_some_iff.mp hs
    exact h.sysClone hw hrun hc
  | exit c => exact h.doExit hs
  | wait c id fault =>
    obtain rfl | ⟨z, -, -, hreap⟩ := sysWait4_cases hs
    · exact h
    · exact h.reap hreap
  | setpgid c id pgid =>
    obtain ⟨⟨s₁, e⟩, hc, rfl⟩ := Option.map_eq_some_iff.mp hs
    obtain rfl | ⟨me, t, r, G, -, -, -, rfl⟩ := sysSetpgid_cases hc
    · exact h
    · exact ⟨h.linked, h.once⟩
  | setsid c =>
    obtain ⟨⟨s₁, e⟩, hc, rfl⟩ := Option.map_eq_some_iff.mp hs
    obtain rfl | ⟨me, G, leader, -, -, -, -, -, rfl⟩ := sysSetsid_cases hc
    · exact h
    · exact ⟨h.linked, h.once⟩

/-! What the other tasks do while one sleeps. -/

/-- A call of another task leaves the children of `c` that are processes, and
makes no zombie of them but `z`. -/
structure Evolves (c z : TaskId) (s s' : System) : Prop where
  runs : s.runs c → s'.runs c
  child : ∀ x, s'.childProcess c x ↔ s.childProcess c x
  pid : ∀ x r, s.childProcess c x → s.task x = some r → ∃ r', s'.task x = some r' ∧ r'.pid = r.pid
  zombie : ∀ x, s.childProcess c x → s'.isZombie x → x = z ∨ s.isZombie x

theorem Evolves.refl (s : System) : Evolves c z s s :=
  ⟨id, fun _ ↦ Iff.rfl, fun _ r _ hr ↦ ⟨r, hr, rfl⟩, fun _ _ ↦ .inr⟩

theorem Evolves.trans (h : Evolves c z s s₁) (h' : Evolves c z s₁ s₂) : Evolves c z s s₂ where
  runs := h'.runs ∘ h.runs
  child x := (h'.child x).trans (h.child x)
  pid x r hx hr := by
    obtain ⟨r₁, hr₁, hp₁⟩ := h.pid x r hx hr
    obtain ⟨r₂, hr₂, hp₂⟩ := h'.pid x r₁ ((h.child x).mpr hx) hr₁
    exact ⟨r₂, hr₂, hp₂.trans hp₁⟩
  zombie x hx hz := (h'.zombie x ((h.child x).mpr hx) hz).elim .inl (h.zombie x hx)

/-- The records of tasks change, but for their group and number. -/
theorem Evolves.of_task {f : TaskId → Task → Task} (hc : s'.children = s.children)
    (hg : ∀ g, s'.group g = s.group g ∨
      ∃ G G', s.group g = some G ∧ s'.group g = some G' ∧ G'.leader = G.leader)
    (ht : ∀ x, s'.task x = (s.task x).map (f x))
    (hf : ∀ x r, (f x r).group = r.group ∧ (f x r).pid = r.pid)
    (hrun : ∀ r, (f c r).running = r.running)
    (hz : ∀ x r, (f x r).zombie → x = z ∨ r.zombie) : Evolves c z s s' := by
  have hleader (x : TaskId) : s'.isLeader x = s.isLeader x := by
    unfold isLeader
    rw [ht]
    cases s.task x with
    | none => rfl
    | some r =>
      simp only [Option.map_some, Option.any_some, (hf x r).1]
      obtain heq | ⟨G, G', hG, hG', hl⟩ := hg r.group
      · rw [heq]
      · rw [hG, hG', Option.any_some, Option.any_some, hl]
  refine ⟨fun h ↦ ?_, fun x ↦ ?_, fun x r _ hr ↦ ?_, fun x _ hx ↦ ?_⟩
  · unfold System.runs at h ⊢
    rw [ht]
    cases hr : s.task c with
    | none => rwa [hr] at h
    | some r =>
      rw [hr] at h
      simpa [hrun] using h
  · rw [childProcess, childProcess, hc, hleader]
  · exact ⟨f x r, by rw [ht, hr]; rfl, (hf x r).2⟩
  · unfold isZombie at hx ⊢
    rw [ht] at hx
    cases hr : s.task x with
    | none =>
      rw [hr] at hx
      cases hx
    | some r =>
      rw [hr] at hx
      exact hz x r hx

theorem isLeader_congr (ht : s'.task x = s.task x)
    (hg : ∀ r, s.task x = some r → s'.group r.group = s.group r.group) :
    s'.isLeader x = s.isLeader x := by
  unfold isLeader
  rw [ht]
  cases hr : s.task x with
  | none => rfl
  | some r => rw [Option.any_some, Option.any_some, hg r hr]

/-- Nothing changes for `c` and the tasks on its list. -/
theorem Evolves.of_agree (hc : ∀ x, x ∈ s'.children c ↔ x ∈ s.children c)
    (ht : ∀ x, x = c ∨ x ∈ s.children c → s'.task x = s.task x)
    (hg : ∀ x r, x ∈ s.children c → s.task x = some r → s'.group r.group = s.group r.group) :
    Evolves c z s s' where
  runs h := by
    unfold System.runs at h ⊢
    rwa [ht c (.inl rfl)]
  child x := by
    unfold childProcess
    rw [hc]
    refine and_congr_right fun hx ↦ ?_
    rw [isLeader_congr (ht x (.inr hx)) fun r hr ↦ hg x r hx hr]
  pid x r hx hr := ⟨r, (ht x (.inr hx.1)).trans hr, rfl⟩
  zombie x hx hz := by
    unfold isZombie at hz
    rw [ht x (.inr hx.1)] at hz
    exact .inr hz

theorem taskDestroy_evolves (hne : t ≠ c) (hnot : ¬s.childProcess c t)
    (hs : s.taskDestroy t = some s') : Evolves c z s s' := by
  obtain ⟨r, -, heq⟩ := Option.map_eq_some_iff.mp hs
  have ht {x : TaskId} (hx : x ≠ t) : s'.task x = s.task x := by
    rw [← heq]
    exact Function.update_of_ne hx _ _
  have hl {x : TaskId} (hx : x ≠ t) : s'.isLeader x = s.isLeader x := by
    refine isLeader_congr (ht hx) fun _ _ ↦ ?_
    rw [← heq]
  have hc {x : TaskId} : x ∈ s'.children c ↔ x ∈ s.children c ∧ x ≠ t := by
    rw [← heq]
    exact Links.mem_remove
  have hchild {x : TaskId} (hx : s.childProcess c x) : x ≠ t := by
    rintro rfl
    exact hnot hx
  refine ⟨fun h ↦ ?_, fun x ↦ ⟨fun hx ↦ ?_, fun hx ↦ ?_⟩, fun x r hx hr ↦ ?_, fun x hx hz ↦ .inr ?_⟩
  · unfold System.runs at h ⊢
    rwa [ht hne.symm]
  · obtain ⟨hm, hxt⟩ := hc.mp hx.1
    exact ⟨hm, (hl hxt).symm.trans hx.2⟩
  · have hxt := hchild hx
    exact ⟨hc.mpr ⟨hx.1, hxt⟩, (hl hxt).trans hx.2⟩
  · exact ⟨r, (ht (hchild hx)).trans hr, rfl⟩
  · unfold isZombie at hz ⊢
    rwa [ht (hchild hx)] at hz

theorem reap_evolves (hw : s.Wf) (hrun : s.runs c) (hzom : s.isZombie t)
    (hnot : ¬s.childProcess c t) (hs : s.reap t = some s') : Evolves c z s s' := by
  obtain ⟨r, hr, hs⟩ := Option.bind_eq_some_iff.mp hs
  have hzombie : r.zombie := by simpa [isZombie, hr] using hzom
  obtain ⟨hdead, G, hG, hlead⟩ := hw.zombie hr hzombie
  have hne : t ≠ c := by
    rintro rfl
    have hrunning : r.running := by simpa [runs, hr] using hrun
    exact absurd hzombie (by simp [hw.not_zombie hr hrunning])
  -- no other task leads the group that is freed
  have hleader {x : TaskId} (hx : x ≠ t) : (s.setGroup r.group none).isLeader x = s.isLeader x := by
    unfold isLeader setGroup
    cases hrx : s.task x with
    | none => rfl
    | some rx =>
      by_cases hg : rx.group = r.group
      · simp [hg, hG, hlead, hx.symm]
      · simp [hg]
  have hchild (x : TaskId) : (s.setGroup r.group none).childProcess c x → x ≠ t → s.childProcess c x := by
    rintro ⟨hx, hl⟩ hxt
    exact ⟨hx, (hleader hxt).symm.trans hl⟩
  have hnot' : ¬(s.setGroup r.group none).childProcess c t := by
    rintro ⟨hm, -⟩
    refine hnot ⟨hm, ?_⟩
    simp [isLeader, hr, hG, hlead]
  have hfree : Evolves c z s (s.setGroup r.group none) := by
    refine ⟨id, fun x ↦ ?_, fun x r _ hr ↦ ⟨r, hr, rfl⟩, fun _ _ ↦ .inr⟩
    by_cases hxt : x = t
    · subst hxt
      exact iff_of_false hnot' hnot
    · unfold childProcess
      rw [hleader hxt]
      rfl
  exact hfree.trans (taskDestroy_evolves hne hnot' hs)

theorem sysClone_evolves {d : TaskId} {flags : Dword} {result : CopyResult} {e : ℤ} (h : s.Family)
    (hw : s.Wf) (hd : s.runs d) (hne : d ≠ c) (hc : s.runs c)
    (hs : s.sysClone d flags result = some (s', e)) : Evolves c z s s' := by
  obtain rfl | ⟨r, s₁, hr, hs₁, hs⟩ := sysClone_cases hs
  · exact .refl _
  have hrun : r.running := by simpa [runs, hr] using hd
  obtain ⟨rc, hrc, -⟩ := (Option.any_eq_true _ _).mp hc
  have hcn : c ≠ s.nextTask := (hw.taskLt hrc).ne
  obtain ⟨r', hl, -⟩ := hw.loose_taskCreate hr hrun hs₁
  have hnew : s.nextTask ∉ s₁.children c := by
    obtain ⟨pid, -, rfl⟩ := Option.map_eq_some_iff.mp hs₁
    intro hm
    obtain ⟨-, rfl⟩ | hm := Links.mem_add.mp hm
    · exact hne rfl
    · rw [Function.update_of_ne hcn] at hm
      obtain ⟨rx, hrx, -⟩ := h.linked hm
      exact absurd (hw.taskLt hrx) (Nat.lt_irrefl _)
  have h₁ : Evolves c z s s₁ := by
    obtain ⟨pid, -, rfl⟩ := Option.map_eq_some_iff.mp hs₁
    refine .of_agree (fun x ↦ ?_) (fun x hx ↦ Function.update_of_ne ?_ _ _) fun _ _ _ _ ↦ rfl
    · rw [Links.mem_add, Function.update_of_ne hcn, or_iff_right (fun h ↦ hne h.2.symm)]
    · obtain rfl | hx := hx
      · exact hcn
      · obtain ⟨rx, hrx, -⟩ := h.linked hx
        exact (hw.taskLt hrx).ne
  have hw₁ := hw.taskCreate hr hrun hs₁
  obtain hs | ⟨s₂, hs₂, hs⟩ := hs
  · exact h₁.trans (taskDestroy_evolves hcn.symm (fun hx ↦ hnew hx.1) hs)
  have h₂ : Evolves c z s₁ s₂ := by
    obtain ⟨-, rfl⟩ | ⟨G, -, -, rfl⟩ := joinGroup_cases hl.task hs₂
    · exact .of_agree (fun _ ↦ Iff.rfl) (fun _ _ ↦ rfl) fun _ _ _ _ ↦ rfl
    · refine .of_agree (fun _ ↦ Iff.rfl) (fun x hx ↦ Function.update_of_ne ?_ _ _)
        fun x rx _ hrx ↦ Function.update_of_ne (hw₁.taskGroupLt hrx).ne _ _
      obtain rfl | hx := hx
      · exact hcn
      · rintro rfl
        exact hnew hx
  obtain ⟨hchildren, r₂, hr₂⟩ := joinGroup_children hl.task hs₂
  have hnew₂ : ¬s₂.childProcess c s.nextTask := by
    rintro ⟨hm, -⟩
    exact hnew (hchildren ▸ hm)
  obtain ⟨-, hs⟩ | rfl := hs
  · exact (h₁.trans h₂).trans (taskDestroy_evolves hcn.symm hnew₂ hs)
  · refine (h₁.trans h₂).trans ?_
    rw [setRunning_eq hr₂]
    refine .of_agree (fun _ ↦ Iff.rfl) (fun x hx ↦ Function.update_of_ne ?_ _ _) fun _ _ _ _ ↦ rfl
    obtain rfl | hx := hx
    · exact hcn
    · rintro rfl
      exact hnew (hchildren ▸ hx)

/-- The record of one task changes, but for its group and number. -/
theorem setTask_evolves {f : Task → Task} (hr : s.task t = some r)
    (hf : ∀ r, (f r).group = r.group ∧ (f r).pid = r.pid)
    (hrun : t = c → ∀ r, (f r).running = r.running)
    (hz : ∀ r, (f r).zombie → t = z ∨ r.zombie) : Evolves c z s (s.setTask t (some (f r))) := by
  rw [setTask_eq_map hr]
  refine .of_task (f := fun x r ↦ if x = t then f r else r) rfl (fun _ ↦ .inl rfl) (fun _ ↦ rfl)
    (fun x r ↦ ?_) (fun r ↦ ?_) fun x r hx ↦ ?_
  · split
    · exact hf r
    · exact ⟨rfl, rfl⟩
  · split
    · rename_i h
      exact hrun h.symm r
    · rfl
  · split at hx
    · rename_i h
      rw [h]
      exact hz r hx
    · exact .inr hx

theorem reparent_evolves (t : TaskId) (o : Option TaskId) : Evolves c z s (s.reparent t o) := by
  rw [reparent_eq_map]
  refine .of_task (f := fun x r ↦ if x ∈ s.children t then { r with parent := o } else r) rfl
    (fun _ ↦ .inl rfl) (fun _ ↦ rfl) (fun x r ↦ ?_) (fun r ↦ ?_) fun x r hx ↦ .inr ?_
  · split <;> exact ⟨rfl, rfl⟩
  · split <;> rfl
  · split at hx <;> exact hx

theorem doExit_evolves {d : TaskId} (hne : d ≠ c) (hs : s.doExit d = some s') :
    ∃ z, Evolves c z s s' := by
  obtain ⟨r, G, s₁, dead, s₂, hr, hG, hs₁, hs₂, hs⟩ := doExit_cases hs
  refine ⟨G.leader, ?_⟩
  have h₀ : Evolves c G.leader s (s.setRunning d false) := by
    rw [setRunning_eq hr]
    exact setTask_evolves (f := fun r ↦ { r with running := false }) hr (fun _ ↦ ⟨rfl, rfl⟩)
      (fun h ↦ absurd h hne) fun _ ↦ .inr
  have h₁ : Evolves c G.leader (s.setRunning d false) s₁ := by
    obtain ⟨-, -, rfl⟩ | ⟨-, -, rfl⟩ := exitTgroup_cases hs₁ <;>
      exact .of_agree (fun _ ↦ Iff.rfl) (fun _ _ ↦ rfl) fun _ _ _ _ ↦ rfl
  have h₂ : Evolves c G.leader s₁ s₂ := by
    unfold System.groupExit at hs₂
    split at hs₂
    · have hrep : Evolves c G.leader s₁ (s₁.reparent d (s₁.pidGetTask 1)) := reparent_evolves _ _
      obtain ⟨r₁, hr₁, ⟨-, rfl⟩ | ⟨-, rfl⟩⟩ := notifyParent_cases hs₂
      · exact hrep
      · exact hrep.trans (setTask_evolves (f := fun r ↦ { r with zombie := true }) hr₁
          (fun _ ↦ ⟨rfl, rfl⟩) (fun _ _ ↦ rfl) fun _ _ ↦ .inl rfl)
    · cases hs₂
      exact .refl _
  have h := (h₀.trans h₁).trans h₂
  split at hs
  · cases hs
    exact h
  · rename_i hlead
    refine h.trans (taskDestroy_evolves hne (fun hx ↦ hlead ?_) hs)
    have hl := ((h.child d).mp hx).2
    have hbeq : (G.leader == d) = true := by simpa [isLeader, hr, hG] using hl
    exact (beq_iff_eq.mp hbeq).symm

/-- A group gets other numbers. -/
theorem setGroup_evolves {G' : Group} {pgroup session : Pid → List GroupId} (hG : s.group g = some G)
    (hl : G'.leader = G.leader) : Evolves c z s { s.setGroup g (some G') with
      pgroup := pgroup
      session := session } := by
  refine .of_task (f := fun _ r ↦ r) rfl (fun k ↦ ?_) (fun x ↦ ?_) (fun _ _ ↦ ⟨rfl, rfl⟩)
    (fun _ ↦ rfl) fun _ _ ↦ .inr
  · by_cases hk : k = g
    · subst hk
      exact .inr ⟨G, G', hG, Function.update_self _ _ _, hl⟩
    · exact .inl (Function.update_of_ne hk _ _)
  · exact (Option.map_id' ..).symm

theorem step_evolves {a : Action} (h : s.Family) (hw : s.Wf) (hc : s.runs c) (hne : a.current ≠ c)
    (hquiet : ∀ x, s.childProcess c x → s.isZombie x = false) (hs : s.step a = some s') :
    ∃ z, Evolves c z s s' := by
  obtain ⟨hrun, hs⟩ := Option.ite_none_right_eq_some.mp hs
  cases a with
  | clone d flags result =>
    obtain ⟨⟨s₁, e⟩, hclone, rfl⟩ := Option.map_eq_some_iff.mp hs
    exact ⟨d, sysClone_evolves h hw hrun hne hc hclone⟩
  | exit d => exact doExit_evolves hne hs
  | wait d id fault =>
    obtain rfl | ⟨t, -, ht, hreap⟩ := sysWait4_cases hs
    · exact ⟨d, .refl _⟩
    · have hzom := waitTarget_zombie ht
      refine ⟨d, reap_evolves hw hc hzom (fun hx ↦ ?_) hreap⟩
      rw [hquiet t hx] at hzom
      cases hzom
  | setpgid d id pgid =>
    obtain ⟨⟨s₁, e⟩, hcall, rfl⟩ := Option.map_eq_some_iff.mp hs
    obtain rfl | ⟨me, t, r, G, -, ⟨-, -, hG, -⟩, -, rfl⟩ := sysSetpgid_cases hcall
    · exact ⟨d, .refl _⟩
    · exact ⟨d, setGroup_evolves hG rfl⟩
  | setsid d =>
    obtain ⟨⟨s₁, e⟩, hcall, rfl⟩ := Option.map_eq_some_iff.mp hs
    obtain rfl | ⟨me, G, leader, -, hG, -, -, -, rfl⟩ := sysSetsid_cases hcall
    · exact ⟨d, .refl _⟩
    · exact ⟨d, setGroup_evolves hG rfl⟩

/-! The call. -/

/-- The other tasks act while no child process of `c` is a zombie. -/
def Quiet (c : TaskId) (s : System) (a : Action) : Prop :=
  a.current ≠ c ∧ ∀ x, s.childProcess c x → s.isZombie x = false

/-- The children that are processes stay the ones they are while `c` sleeps. -/
structure Waits (c : TaskId) (s s' : System) : Prop where
  wf : s'.Wf
  family : s'.Family
  runs : s'.runs c
  child : ∀ x, s'.childProcess c x ↔ s.childProcess c x
  pid : ∀ x r, s.childProcess c x → s.task x = some r → ∃ r', s'.task x = some r' ∧ r'.pid = r.pid

theorem Waits.step {a : Action} (h : Waits c s s₁) (hq : Quiet c s₁ a)
    (hs : s₁.step a = some s₂) : Waits c s s₂ ∧
      ∃ z, ∀ x, s.childProcess c x → s₂.isZombie x → x = z := by
  obtain ⟨z, he⟩ := step_evolves h.family h.wf h.runs hq.1 hq.2 hs
  refine ⟨⟨h.wf.step hs, h.family.step h.wf hs, he.runs h.runs,
    fun x ↦ (he.child x).trans (h.child x), fun x r hx hr ↦ ?_⟩, z, fun x hx hz ↦ ?_⟩
  · obtain ⟨r₁, hr₁, hp₁⟩ := h.pid x r hx hr
    obtain ⟨r₂, hr₂, hp₂⟩ := he.pid x r₁ ((h.child x).mpr hx) hr₁
    exact ⟨r₂, hr₂, hp₂.trans hp₁⟩
  · have hx₁ := (h.child x).mpr hx
    refine (he.zombie x hx₁ hz).resolve_right fun hz₁ ↦ ?_
    rw [hq.2 x hx₁] at hz₁
    cases hz₁

theorem waits_of_reaches (hw : s.Wf) (hf : s.Family) (hc : s.runs c)
    (h : Reaches System.step (Quiet c) s s') : Waits c s s' := by
  induction h with
  | start => exact ⟨hw, hf, hc, fun _ ↦ Iff.rfl, fun _ r _ hr ↦ ⟨r, hr, rfl⟩⟩
  | next _ hq hs ih => exact (ih.step hq hs).1

/-- The call has returned the number of `x`, which is gone. -/
def Reaps (s : System) (x : TaskId) (result : Option (System × WaitPass)) : Prop :=
  ∃ r s', s.task x = some r ∧ result = some (s', .returned (some r.pid)) ∧
    s'.task x = none ∧ s'.pidTask r.pid = none

theorem reap_gone (hr : s.task x = some r) :
    ∃ s', s.reap x = some s' ∧ s'.task x = none ∧ s'.pidTask r.pid = none := by
  have hdestroy : ((s.setGroup r.group none).taskDestroy x).isSome := by
    simp [System.taskDestroy, setGroup, hr]
  obtain ⟨s', hs'⟩ := Option.isSome_iff_exists.mp hdestroy
  refine ⟨s', Option.bind_eq_some_iff.mpr ⟨r, hr, hs'⟩, ?_⟩
  obtain ⟨r', hr', rfl⟩ := Option.map_eq_some_iff.mp hs'
  obtain rfl := Option.some.inj (hr.symm.trans hr')
  exact ⟨Function.update_self _ _ _, Function.update_self _ _ _⟩

/-- A zombie that a pass has found is gone unless the stores fail. -/
theorem reaps_reapZombie_iff {fault : Bool} (hr : s.task x = some r) :
    s.Reaps x ((s.reapZombie x fault).map (·, .returned (some r.pid))) ↔ fault = false := by
  obtain ⟨s', hs', hgone, htable⟩ := reap_gone hr
  cases fault with
  | true =>
    refine iff_of_false ?_ Bool.true_eq_false.mp
    rintro ⟨r', s₁, hr', heq, hnone, -⟩
    obtain rfl := Option.some.inj (hr.symm.trans hr')
    cases heq
    rw [hr] at hnone
    cases hnone
  | false =>
    refine iff_of_true ⟨r, s', hr, ?_, hgone, htable⟩ rfl
    simp [reapZombie, hs']

/-- A pass that looks at one child process. -/
theorem waitPass_child {options : Dword} {fault pending : Bool} (hw : s.Wf) (hf : s.Family)
    (hc : s.runs c) (hy : s.childProcess c y) (hr : s.task y = some r) :
    s.waitPass c (some r.pid) options fault pending =
      if s.isZombie y then (s.reapZombie y fault).map (·, .returned (some r.pid))
      else some (s, waitFor (some r.pid) options pending) := by
  obtain ⟨me, hme, -⟩ := (Option.any_eq_true _ _).mp hc
  obtain ⟨r', hr', hparent⟩ := hf.linked hy.1
  obtain rfl := Option.some.inj (hr.symm.trans hr')
  have hpast : pastTable r.pid = false := beq_eq_false_iff_ne.mpr
    (Nat.ne_of_lt (Nat.lt_succ_of_le (hw.pidLe hr)))
  have htable : s.pidGetTaskZombie r.pid = some y := by
    have hempty : s.pidEmpty r.pid = false := by simp [pidEmpty, hw.table hr]
    have hle : ¬r.pid > maxPid + 1 := Nat.not_lt.mpr ((hw.pidLe hr).trans (Nat.le_succ _))
    simp [pidGetTaskZombie, pidGet, hempty, hle, hw.table hr]
  obtain ⟨q, hq, hl⟩ := (Option.any_eq_true _ _).mp hy.2
  obtain rfl := Option.some.inj (hr.symm.trans hq)
  obtain ⟨G, hG, hlead⟩ := (Option.any_eq_true _ _).mp hl
  have hlead : G.leader = y := beq_iff_eq.mp hlead
  rw [waitPass]
  simp [hpast, htable, hme, hr, hparent hc, hG, hlead]

theorem lastChild_eq_some (h : s.lastChild c = some y) : s.childProcess c y := by
  obtain ⟨hm, hl⟩ := List.mem_filter.mp (List.mem_of_getLast? h)
  exact ⟨hm, hl⟩

theorem lastChild_isSome (h : s.childProcess c x) : ∃ y, s.lastChild c = some y := by
  have hne : (s.children c).filter s.isLeader ≠ [] :=
    List.ne_nil_of_mem (List.mem_filter.mpr ⟨h.1, h.2⟩)
  exact ⟨_, List.getLast?_eq_some_getLast hne⟩

theorem waitFor_sleeps {options : Dword} {pending : Bool} {id' : Option Pid}
    (h : waitFor id options pending = .sleeps id') : id' = id := by
  unfold waitFor at h
  split_ifs at h
  cases h
  rfl

/-- A pass for any child that sleeps has seen no zombie, and waits for the last
child it has looked at. -/
theorem waitPass_sleeps {options : Dword} {fault pending : Bool}
    (h : s.waitPass c none options fault pending = some (s', .sleeps id)) :
    s' = s ∧ (∀ x, s.childProcess c x → s.isZombie x = false) ∧
      id = ((s.lastChild c).map fun y ↦ (s.task y).map Task.pid).getD none := by
  rw [waitPass] at h
  split at h
  · cases h
  have hquiet : ∀ x ∈ s.children c, s.isLeader x → s.isZombie x = false := by
    intro x hx hl
    by_contra hz
    rw [Bool.not_eq_false] at hz
    obtain ⟨u, -, -, -, hscan⟩ := @scanChildren_some s x none _ hx hl hz
    rw [hscan] at h
    obtain ⟨s₁, -, heq⟩ := Option.map_eq_some_iff.mp h
    cases heq
  rw [scanChildren_none hquiet] at h
  obtain ⟨hsys, hid⟩ := Prod.mk.inj (Option.some.inj h)
  exact ⟨hsys.symm, fun x hx ↦ hquiet x hx.1 hx.2, waitFor_sleeps hid⟩

/-- A pass for one child that sleeps changes nothing, and waits for it. -/
theorem waitPass_some_sleeps {options : Dword} {fault pending : Bool} {id' : Option Pid}
    (h : s.waitPass c (some p) options fault pending = some (s', .sleeps id')) :
    s' = s ∧ id' = some p := by
  rw [waitPass] at h
  split at h
  · cases h
  split at h
  · cases h
  obtain ⟨me, -, h⟩ := Option.bind_eq_some_iff.mp h
  obtain ⟨r, -, h⟩ := Option.bind_eq_some_iff.mp h
  obtain ⟨parent, -, h⟩ := Option.bind_eq_some_iff.mp h
  split at h
  · cases h
  obtain ⟨G, -, h⟩ := Option.bind_eq_some_iff.mp h
  split at h
  · obtain ⟨s₁, -, heq⟩ := Option.map_eq_some_iff.mp h
    cases heq
  · obtain ⟨hsys, hid⟩ := Prod.mk.inj (Option.some.inj h)
    exact ⟨hsys.symm, waitFor_sleeps hid⟩

/-- A pass for any child stops at a zombie if there is one. -/
theorem waitPass_zombie {options : Dword} {fault pending : Bool} (hx : s.childProcess c x)
    (hz : s.isZombie x) : ∃ u r, s.childProcess c u ∧ s.isZombie u ∧ s.task u = some r ∧
      s.waitPass c none options fault pending =
        (s.reapZombie u fault).map (·, .returned (some r.pid)) := by
  obtain ⟨u, hu, hl, hzu, hscan⟩ := @scanChildren_some s x none _ hx.1 hx.2 hz
  obtain ⟨r, hr, -⟩ := (Option.any_eq_true _ _).mp hl
  have hne : s.children c ≠ [] := List.ne_nil_of_mem hu
  refine ⟨u, r, ⟨hu, hl⟩, hzu, hr, ?_⟩
  rw [waitPass, if_neg hne, hscan, hr]
  rfl

theorem Reaps.unique {r : Task} {o : Option System} {id : Pid}
    (h : s.Reaps x (o.map (·, .returned (some id)))) (hw : s.Wf) (hr : s.task y = some r)
    (hid : r.pid = id) : x = y := by
  obtain ⟨rx, s', hrx, heq, -⟩ := h
  obtain ⟨s₁, -, heq⟩ := Option.map_eq_some_iff.mp heq
  have hpid : id = rx.pid := Option.some.inj (WaitPass.returned.inj (Prod.mk.inj heq).2)
  have hx := hw.table hrx
  have hy := hw.table hr
  rw [hid, hpid] at hy
  exact Option.some.inj (hx.symm.trans hy)

theorem family_of_reaches (h : Reaches System.step (fun _ _ ↦ True) System.init s) : s.Family := by
  induction h with
  | start => exact init_family
  | next hrun _ hs ih => exact ih.step (wf_of_reaches hrun) hs

/-- The pass after the sleep, when `x` is the first child process to exit. -/
theorem Waits.wake_reaps_iff {options : Dword} {fault pending : Bool} (h : Waits c s s₂)
    (hx : s.childProcess c x) (hz : s₂.isZombie x)
    (honly : ∀ y, s.childProcess c y → s₂.isZombie y → y = x)
    (hid : id = ((s.lastChild c).map fun y ↦ (s.task y).map Task.pid).getD none) :
    s₂.Reaps x (s₂.wake c id options fault pending) ↔
      s.lastChild c = some x ∧ fault = false ∧ pending = false := by
  obtain ⟨y, hy⟩ := lastChild_isSome hx
  have hchild := lastChild_eq_some hy
  obtain ⟨r, hr, -⟩ := (Option.any_eq_true _ _).mp hchild.2
  obtain ⟨r₂, hr₂, hpid⟩ := h.pid y r hchild hr
  obtain rfl : id = some r₂.pid := by
    rw [hid, hy, hpid]
    simp [hr]
  have hpass := @waitPass_child s₂ c y r₂ options fault pending h.wf h.family h.runs
    ((h.child y).mpr hchild) hr₂
  have hfailed (w : WaitPass) (hw : ∀ p, w ≠ .returned p) : ¬s₂.Reaps x (some (s₂, w)) := by
    rintro ⟨rx, s', -, heq, -⟩
    cases heq
    exact hw _ rfl
  unfold wake
  cases pending with
  | true =>
    rw [if_pos rfl]
    refine iff_of_false (hfailed _ fun _ h ↦ ?_) fun h ↦ Bool.false_ne_true h.2.2.symm
    cases h
  | false =>
    rw [if_neg Bool.false_ne_true, hpass]
    by_cases hzy : s₂.isZombie y
    · -- it waits for the child that has exited
      obtain rfl := honly y hchild hzy
      rw [if_pos hz, reaps_reapZombie_iff hr₂]
      exact ⟨fun hf ↦ ⟨hy, hf, rfl⟩, fun h ↦ h.2.1⟩
    · -- it waits for another one, and goes back to sleep
      rw [if_neg hzy]
      refine iff_of_false (hfailed _ fun p hp ↦ ?_) fun hlast ↦ hzy ?_
      · unfold waitFor at hp
        split_ifs at hp
      · obtain rfl := Option.some.inj (hy.symm.trans hlast.1)
        exact hz

end System

end Isl.Kernel.Process
