import Isl.Kernel.ProcessGroup
import Mathlib.Data.List.Basic

/-!
Process numbers. `task_create_` looks for a free slot behind the last one it
took, and slot zero is one of those it comes to.
-/

namespace Isl.Kernel.Process

open Isl.Lib Isl.Lib.Run

namespace System

variable {s s' : System} {t c z : TaskId} {g : GroupId} {p : Pid} {r : Task} {G : Group}

/-- The number of a task, or of the process group or the session of a group that
has not exited. -/
def pidInUse (s : System) (p : Pid) : Prop :=
  (∃ t r, s.task t = some r ∧ r.pid = p) ∨ ∃ g G, s.live g G ∧ (G.pgid = p ∨ G.sid = p)

/-- The loop of `task_create_` ends, with a number that nothing uses. -/
def CreatesFresh (s : System) : Prop :=
  ∃ p, s.nextPid = some p ∧ 1 ≤ p ∧ p ≤ maxPid ∧ ¬s.pidInUse p

/-- There is a free slot before the loop starts again at the first one. -/
def RoomAbove (s : System) : Prop := ∃ p, s.curPid < p ∧ p ≤ maxPid ∧ s.pidEmpty p

/-- The calls before which the loop has room, and the moves of groups that go to
the list of their number. -/
def KeepsNumbers (s : System) : Action → Prop
  | .clone _ flags _ => accepted flags → s.RoomAbove
  | .exit _ | .wait _ _ _ => True
  | a => s.KeepsGroups a

structure Numbered (s : System) : Prop where
  placed : s.Placed
  curLe : s.curPid ≤ maxPid
  task : ∀ {t r}, s.task t = some r → r.pid ≠ 0
  group : ∀ {g G}, s.group g = some G → G.pgid ≠ 0 ∧ G.sid ≠ 0

theorem init_numbered : init.Numbered := by
  refine ⟨init_listed.placed, by decide, fun ht ↦ ?_, fun hg ↦ ?_⟩
  · obtain ⟨-, rfl⟩ := init_task.mp ht
    exact Nat.one_ne_zero
  · obtain ⟨-, rfl⟩ := init_group.mp hg
    exact ⟨Nat.one_ne_zero, Nat.one_ne_zero⟩

/-! The loop. -/

/-- A search from `c + 1` around to `c` looks at the numbers above, and then at
those from zero on. -/
theorem find_rotate (f : ℕ → Bool) {c n : ℕ} (h : c ≤ n) :
    ((List.range (n + 1)).map fun i ↦ (c + 1 + i) % (n + 1)).find? f =
      (((List.range (n - c)).map (c + 1 + ·)).find? f).or ((List.range (c + 1)).find? f) := by
  have habove : (List.range (n - c)).map (fun i ↦ (c + 1 + i) % (n + 1)) =
      (List.range (n - c)).map (c + 1 + ·) := by
    refine List.map_congr_left fun i hi ↦ Nat.mod_eq_of_lt ?_
    have hlt := List.mem_range.mp hi
    omega
  have hbelow : (List.range (c + 1)).map ((fun i ↦ (c + 1 + i) % (n + 1)) ∘ (n - c + ·)) =
      List.range (c + 1) := by
    refine (List.map_congr_left fun i hi ↦ ?_).trans (List.map_id _)
    have hlt := List.mem_range.mp hi
    have hadd : c + 1 + (n - c + i) = i + (n + 1) := by omega
    rw [Function.comp_apply, hadd, Nat.add_mod_right, id, Nat.mod_eq_of_lt (by omega)]
  have hrange : List.range (n + 1) = List.range (n - c) ++ (List.range (c + 1)).map (n - c + ·) := by
    rw [← List.range_add]
    congr 1
    omega
  rw [hrange, List.map_append, List.map_map, List.find?_append, habove, hbelow]

theorem mem_above {c n p : ℕ} (hlt : c < p) (hle : p ≤ n) :
    p ∈ (List.range (n - c)).map (c + 1 + ·) := by
  refine List.mem_map.mpr ⟨p - (c + 1), List.mem_range.mpr ?_, ?_⟩
  · omega
  · omega

theorem lt_of_mem_above {c n p : ℕ} (h : p ∈ (List.range (n - c)).map (c + 1 + ·)) :
    c < p ∧ p ≤ n := by
  obtain ⟨k, hk, rfl⟩ := List.mem_map.mp h
  have hlt := List.mem_range.mp hk
  omega

/-- With room above, the loop stops at a free slot there. -/
theorem nextPid_above (hcur : s.curPid ≤ maxPid) (h : s.RoomAbove) :
    ∃ p, s.nextPid = some p ∧ s.curPid < p ∧ p ≤ maxPid ∧ s.pidEmpty p := by
  obtain ⟨p, hlt, hle, hempty⟩ := h
  have hsome : (((List.range (maxPid - s.curPid)).map (s.curPid + 1 + ·)).find?
      s.pidEmpty).isSome := List.find?_isSome.mpr ⟨p, mem_above hlt hle, hempty⟩
  obtain ⟨q, hq⟩ := Option.isSome_iff_exists.mp hsome
  obtain ⟨hlt', hle'⟩ := lt_of_mem_above (List.mem_of_find?_eq_some hq)
  refine ⟨q, ?_, hlt', hle', List.find?_some hq⟩
  exact (find_rotate s.pidEmpty hcur).trans (by rw [hq, Option.some_or])

/-- Without, it comes to slot zero. -/
theorem nextPid_zero (hcur : s.curPid ≤ maxPid) (h : ¬s.RoomAbove) (hempty : s.pidEmpty 0) :
    s.nextPid = some 0 := by
  have hnone : ((List.range (maxPid - s.curPid)).map (s.curPid + 1 + ·)).find? s.pidEmpty =
      none := by
    refine List.find?_eq_none.mpr fun p hp hp' ↦ h ?_
    obtain ⟨hlt, hle⟩ := lt_of_mem_above hp
    exact ⟨p, hlt, hle, hp'⟩
  refine (find_rotate s.pidEmpty hcur).trans ?_
  rw [hnone, Option.none_or, List.range_succ_eq_map, List.find?_cons_of_pos hempty]

theorem Numbered.zero_empty (h : s.Numbered) (hw : s.Wf) : s.pidEmpty 0 := by
  refine pidEmpty_iff.mpr ⟨?_, ?_, ?_⟩
  · cases ht : s.pidTask 0 with
    | none => rfl
    | some t =>
      obtain ⟨r, hr, hp⟩ := hw.tableTask ht
      exact absurd hp (h.task hr)
  · refine List.eq_nil_iff_forall_not_mem.mpr fun g hg ↦ ?_
    obtain ⟨G, hl, hp⟩ := h.placed.session.mp hg
    exact (h.group hl.1).2 hp
  · refine List.eq_nil_iff_forall_not_mem.mpr fun g hg ↦ ?_
    obtain ⟨G, hl, hp⟩ := h.placed.pgroup.mp hg
    exact (h.group hl.1).1 hp

/-- A free slot is that of a number nothing uses. -/
theorem Placed.not_pidInUse (h : s.Placed) (hw : s.Wf) (hp : s.pidEmpty p) : ¬s.pidInUse p := by
  obtain ⟨htask, hsession, hpgroup⟩ := pidEmpty_iff.mp hp
  rintro (⟨t, r, hr, rfl⟩ | ⟨g, G, hl, rfl | rfl⟩)
  · cases (hw.table hr).symm.trans htask
  · have hm := h.pgroup.mpr ⟨G, hl, rfl⟩
    rw [hpgroup] at hm
    cases hm
  · have hm := h.session.mpr ⟨G, hl, rfl⟩
    rw [hsession] at hm
    cases hm

theorem Numbered.createsFresh_iff (h : s.Numbered) (hw : s.Wf) :
    s.CreatesFresh ↔ s.RoomAbove := by
  constructor
  · rintro ⟨p, hp, hpos, -⟩
    by_contra hroom
    cases hp.symm.trans (nextPid_zero h.curLe hroom (h.zero_empty hw))
    cases hpos
  · intro hroom
    obtain ⟨p, hp, hlt, hle, hempty⟩ := nextPid_above h.curLe hroom
    exact ⟨p, hp, Nat.succ_le_of_lt (Nat.zero_lt_of_lt hlt), hle, h.placed.not_pidInUse hw hempty⟩

/-! What the calls do to the numbers. -/

/-- No task or group has a number that none had before. -/
structure SameNumbers (s s' : System) : Prop where
  curPid : s'.curPid = s.curPid
  task : ∀ {t r}, s'.task t = some r → ∃ u q, s.task u = some q ∧ q.pid = r.pid
  group : ∀ {g G}, s'.group g = some G →
    ∃ k K, s.group k = some K ∧ K.pgid = G.pgid ∧ K.sid = G.sid

theorem SameNumbers.trans {s₁ : System} (h : s.SameNumbers s₁) (h' : s₁.SameNumbers s') :
    s.SameNumbers s' where
  curPid := h'.curPid.trans h.curPid
  task ht := by
    obtain ⟨u, q, hq, hp⟩ := h'.task ht
    obtain ⟨u', q', hq', hp'⟩ := h.task hq
    exact ⟨u', q', hq', hp'.trans hp⟩
  group hg := by
    obtain ⟨k, K, hK, hp, hs⟩ := h'.group hg
    obtain ⟨k', K', hK', hp', hs'⟩ := h.group hK
    exact ⟨k', K', hK', hp'.trans hp, hs'.trans hs⟩

/-- Tasks may go and change, as long as each keeps its number. -/
theorem SameNumbers.of_task (hcur : s'.curPid = s.curPid) (hgroup : s'.group = s.group)
    (ht : ∀ {t r}, s'.task t = some r → ∃ q, s.task t = some q ∧ q.pid = r.pid) :
    s.SameNumbers s' where
  curPid := hcur
  task {t _} hr := ⟨t, ht hr⟩
  group {g G} hG := ⟨g, G, hgroup ▸ hG, rfl, rfl⟩

theorem taskDestroy_sameNumbers (hs : s.taskDestroy t = some s') : s.SameNumbers s' := by
  obtain ⟨r, -, rfl⟩ := Option.map_eq_some_iff.mp hs
  exact .of_task rfl rfl fun hq ↦ ⟨_, (update_none_eq_some.mp hq).2, rfl⟩

/-- The record of one task changes. -/
theorem setTask_sameNumbers {q : Task} (hr : s.task t = some r) (hp : q.pid = r.pid) :
    s.SameNumbers (s.setTask t (some q)) := by
  refine .of_task rfl rfl fun {u x} hx ↦ ?_
  obtain ⟨rfl, rfl⟩ | ⟨-, hx⟩ := update_some_eq_some.mp hx
  · exact ⟨r, hr, hp.symm⟩
  · exact ⟨x, hx, rfl⟩

theorem setRunning_sameNumbers (hr : s.task t = some r) (b : Bool) :
    s.SameNumbers (s.setRunning t b) := by
  rw [setRunning, hr]
  exact setTask_sameNumbers hr rfl

theorem reparent_sameNumbers (t : TaskId) (q : Option TaskId) : s.SameNumbers (s.reparent t q) := by
  refine .of_task rfl rfl fun {u x} hx ↦ ?_
  dsimp only [reparent] at hx
  split at hx
  · obtain ⟨r, hr, rfl⟩ := Option.map_eq_some_iff.mp hx
    exact ⟨r, hr, rfl⟩
  · exact ⟨x, hx, rfl⟩

theorem joinGroup_sameNumbers {flags : Dword} (hr : s.task t = some r)
    (hs : s.joinGroup t flags = some s') : s.SameNumbers s' := by
  obtain ⟨-, rfl⟩ | ⟨G, hG, -, rfl⟩ := joinGroup_cases hr hs
  · exact .of_task rfl rfl fun hq ↦ ⟨_, hq, rfl⟩
  · refine ⟨rfl, fun {u x} hx ↦ ?_, fun {k K} hK ↦ ?_⟩
    · obtain ⟨-, rfl⟩ | ⟨-, hx⟩ := update_some_eq_some.mp hx
      · exact ⟨t, r, hr, rfl⟩
      · exact ⟨u, x, hx, rfl⟩
    · obtain ⟨-, rfl⟩ | ⟨-, hK⟩ := update_some_eq_some.mp hK
      · exact ⟨r.group, G, hG, rfl, rfl⟩
      · exact ⟨k, K, hK, rfl, rfl⟩

theorem exitTgroup_sameNumbers {dead : Bool} (hs : s.exitTgroup t g = some (s', dead)) :
    s.SameNumbers s' := by
  obtain ⟨-, -, rfl⟩ | ⟨-, -, rfl⟩ := exitTgroup_cases hs <;>
    exact .of_task rfl rfl fun hq ↦ ⟨_, hq, rfl⟩

theorem groupExit_sameNumbers {dead : Bool} (hs : s.groupExit c t dead = some s') :
    s.SameNumbers s' := by
  unfold groupExit at hs
  split at hs
  · have hrep : s.SameNumbers (s.reparent c (s.pidGetTask 1)) := reparent_sameNumbers _ _
    obtain ⟨r₁, hr₁, ⟨-, rfl⟩ | ⟨-, rfl⟩⟩ := notifyParent_cases hs
    · exact hrep
    · exact hrep.trans (setTask_sameNumbers hr₁ rfl)
  · cases hs
    exact .of_task rfl rfl fun hq ↦ ⟨_, hq, rfl⟩

theorem doExit_sameNumbers (hs : s.doExit c = some s') : s.SameNumbers s' := by
  obtain ⟨r, G, s₁, dead, s₂, hr, -, hs₁, hs₂, hs⟩ := doExit_cases hs
  have h₂ := ((setRunning_sameNumbers hr false).trans (exitTgroup_sameNumbers hs₁)).trans
    (groupExit_sameNumbers hs₂)
  split at hs
  · cases hs
    exact h₂
  · exact h₂.trans (taskDestroy_sameNumbers hs)

theorem setGroup_none_sameNumbers (g : GroupId) : s.SameNumbers (s.setGroup g none) := by
  exact ⟨rfl, fun hr ↦ ⟨_, _, hr, rfl⟩,
    fun hK ↦ ⟨_, _, (update_none_eq_some.mp hK).2, rfl, rfl⟩⟩

theorem reap_sameNumbers (hs : s.reap z = some s') : s.SameNumbers s' := by
  obtain ⟨r, -, hs⟩ := Option.bind_eq_some_iff.mp hs
  exact (setGroup_none_sameNumbers r.group).trans (taskDestroy_sameNumbers hs)

theorem Numbered.same (h : s.Numbered) (hp : s'.Placed) (hs : s.SameNumbers s') : s'.Numbered where
  placed := hp
  curLe := hs.curPid ▸ h.curLe
  task hr := by
    obtain ⟨u, q, hq, hp⟩ := hs.task hr
    exact hp ▸ h.task hq
  group hG := by
    obtain ⟨k, K, hK, hp, hs⟩ := hs.group hG
    exact hp ▸ hs ▸ h.group hK

/-! Places on the lists. -/

theorem Placed.taskDestroy (h : s.Placed) (hs : s.taskDestroy t = some s') : s'.Placed := by
  obtain ⟨r, -, rfl⟩ := Option.map_eq_some_iff.mp hs
  exact h.congr (fun _ _ ↦ Iff.rfl) rfl rfl

theorem Placed.mapTasks (h : s.Placed) (task : TaskId → Option Task) :
    ({ s with task := task } : System).Placed := h.congr (fun _ _ ↦ Iff.rfl) rfl rfl

theorem Placed.groupExit {dead : Bool} (h : s.Placed) (hs : s.groupExit c t dead = some s') :
    s'.Placed := by
  unfold System.groupExit at hs
  split at hs
  · obtain ⟨r₁, -, ⟨-, rfl⟩ | ⟨-, rfl⟩⟩ := notifyParent_cases hs
    · exact h.mapTasks _
    · exact (h.mapTasks _).mapTasks _
  · cases hs
    exact h

theorem Placed.doExit (h : s.Placed) (hw : s.Wf) (hs : s.doExit c = some s') : s'.Placed := by
  obtain ⟨r, G, s₁, dead, s₂, hr, -, hs₁, hs₂, hs⟩ := doExit_cases hs
  have hr₀ : (s.setRunning c false).task c = some { r with running := false } := by
    rw [setRunning_eq hr]
    exact Function.update_self _ _ _
  have hw₀ := hw.setRunning (b := false) hr (fun hb ↦ absurd hb Bool.false_ne_true)
  have h₀ : (s.setRunning c false).Placed := h.mapTasks _
  have h₂ := (h₀.exitTgroup hw₀ hr₀ hs₁).groupExit hs₂
  split at hs
  · cases hs
    exact h₂
  · exact h₂.taskDestroy hs

theorem Placed.reap (h : s.Placed) (hw : s.Wf) (hz : s.isZombie z) (hs : s.reap z = some s') :
    s'.Placed := by
  obtain ⟨r, hr, hs⟩ := Option.bind_eq_some_iff.mp hs
  have hfree : (s.setGroup r.group none).Placed := h.congr (reap_live hw hz hr) rfl rfl
  exact hfree.taskDestroy hs

/-! One call. -/

theorem Numbered.taskCreate (h : s.Numbered) (hroom : s.RoomAbove)
    (hs : s.taskCreate c r = some s') : s'.Numbered := by
  obtain ⟨pid, hpid, rfl⟩ := Option.map_eq_some_iff.mp hs
  obtain ⟨p, hp, hlt, hle, -⟩ := nextPid_above h.curLe hroom
  obtain rfl := Option.some.inj (hpid.symm.trans hp)
  refine ⟨h.placed.congr (fun _ _ ↦ Iff.rfl) rfl rfl, hle, fun {u q} hq ↦ ?_, h.group⟩
  obtain ⟨-, rfl⟩ | ⟨-, hq⟩ := update_some_eq_some.mp hq
  · exact Nat.ne_zero_of_lt hlt
  · exact h.task hq

theorem Numbered.sysClone {flags : Dword} {result : CopyResult} {e : ℤ} (h : s.Numbered)
    (hw : s.Wf) (hrun : s.runs c) (hroom : s.RoomAbove)
    (hs : s.sysClone c flags result = some (s', e)) : s'.Numbered := by
  obtain rfl | ⟨r, s₁, hr, hs₁, hs⟩ := sysClone_cases hs
  · exact h
  have hrun : r.running := by simpa [runs, hr] using hrun
  obtain ⟨r', hl, hgroup, -, hthreads, -⟩ := hw.loose_taskCreate hr hrun hs₁
  have h₁ := h.taskCreate hroom hs₁
  have hw₁ := hw.taskCreate hr hrun hs₁
  have hlive : s₁.threads r'.group ≠ [] := by
    rw [hthreads, hgroup]
    exact List.ne_nil_of_mem (hw.runsThread hr hrun)
  obtain hs | ⟨s₂, hs₂, hs⟩ := hs
  · exact h₁.same (h₁.placed.taskDestroy hs) (taskDestroy_sameNumbers hs)
  have hp₂ : s₂.Placed := by
    obtain ⟨-, rfl⟩ | ⟨G, hG, -, heq⟩ := joinGroup_cases hl.task hs₂
    · exact h₁.placed.congr (joinThread_live hlive) rfl rfl
    · exact h₁.placed.joinProcess hw₁ ⟨hG, hlive⟩ heq
  have h₂ := h₁.same hp₂ (joinGroup_sameNumbers hl.task hs₂)
  obtain ⟨-, hs⟩ | rfl := hs
  · exact h₂.same (hp₂.taskDestroy hs) (taskDestroy_sameNumbers hs)
  · obtain ⟨r₂, hr₂, -⟩ := (hw₁.joinGroup hl hlive hs₂).2
    exact h₂.same (hp₂.mapTasks _) (setRunning_sameNumbers hr₂ true)

theorem Numbered.setIds {sid pgid : Pid} {pgroup session : Pid → List GroupId} (h : s.Numbered)
    (hG : s.live g G) (hp0 : pgid ≠ 0) (hs0 : sid ≠ 0)
    (hp : ∀ x p, x ∈ pgroup p ↔ (x = g ∧ p = pgid) ∨ (x ∈ s.pgroup p ∧ x ≠ g))
    (hs : ∀ x p, x ∈ session p ↔ (x = g ∧ p = sid) ∨ (x ∈ s.session p ∧ x ≠ g)) :
    ({ s.setGroup g (some { G with sid := sid, pgid := pgid }) with
      pgroup := pgroup
      session := session } : System).Numbered := by
  refine ⟨h.placed.setIds hG hp hs, h.curLe, h.task, fun {k K} hK ↦ ?_⟩
  obtain ⟨-, rfl⟩ | ⟨-, hK⟩ := update_some_eq_some.mp hK
  · exact ⟨hp0, hs0⟩
  · exact h.group hK

theorem Numbered.step {a : Action} (h : s.Numbered) (hw : s.Wf) (hk : s.KeepsNumbers a)
    (hs : s.step a = some s') : s'.Numbered := by
  obtain ⟨hrun, hs⟩ := Option.ite_none_right_eq_some.mp hs
  cases a with
  | clone c flags result =>
    obtain ⟨⟨s₁, e⟩, hc, rfl⟩ := Option.map_eq_some_iff.mp hs
    by_cases hf : accepted flags
    · exact h.sysClone hw hrun (hk hf) hc
    · unfold System.sysClone at hc
      rw [if_neg hf] at hc
      cases hc
      exact h
  | exit c => exact h.same (h.placed.doExit hw hs) (doExit_sameNumbers hs)
  | wait c id fault =>
    obtain rfl | ⟨z, -, hz, hreap⟩ := sysWait4_cases hs
    · exact h
    · exact h.same (h.placed.reap hw (waitTarget_zombie hz) hreap) (reap_sameNumbers hreap)
  | setpgid c id pgid =>
    obtain ⟨⟨s₁, e⟩, hc, rfl⟩ := Option.map_eq_some_iff.mp hs
    obtain rfl | ⟨me, t, r, G, hme, hm, hlisted, heq⟩ := sysSetpgid_cases hc
    · exact h
    have hid := hk me t r G hme hm
    obtain ⟨htable, -, hG, -⟩ := hm
    obtain ⟨hl, hsession⟩ := h.placed.live_of_listed hlisted hG
    obtain ⟨t', ht', hpid⟩ := hw.tableTask htable
    have hne := h.task ht'
    generalize defaultTo pgid (defaultTo id me.pid) = q at hid heq
    rw [hpid, hid] at hne
    rw [hid] at heq
    have h' := @Numbered.setIds s _ G G.sid q _ s.session h hl hne (h.group hG).2
      (fun _ _ ↦ mem_add_remove) hsession
    rw [heq]
    exact h'
  | setsid c =>
    obtain ⟨⟨s₁, e⟩, hc, rfl⟩ := Option.map_eq_some_iff.mp hs
    obtain rfl | ⟨me, G, leader, hme, hG, hleader, hpgid, hsid, heq⟩ := sysSetsid_cases hc
    · exact h
    obtain rfl := hk me G leader hme hG hleader hpgid hsid
    obtain rfl := Option.some.inj (hme.symm.trans hleader)
    have hl := hw.live_of_runs hrun hme hG
    have h' := @Numbered.setIds s _ G me.pid me.pid _ _ h hl (h.task hme) (h.task hme)
      (fun _ _ ↦ mem_add_remove) fun _ _ ↦ mem_add_remove
    rw [heq]
    exact h'

/-- In every run of such calls `task_create_` gives a number that nothing uses,
exactly when it finds one above the last it gave. -/
theorem createsFresh_of_reaches (h : Reaches System.step KeepsNumbers System.init s) :
    s.CreatesFresh ↔ s.RoomAbove := by
  have hnum : s.Numbered := by
    induction h with
    | start => exact init_numbered
    | next hrun hok hs ih => exact ih.step (wf_of_reaches hrun) hok hs
  exact hnum.createsFresh_iff (wf_of_reaches h)

/-- A child of a child moves to a process group of its own. -/
theorem createsFresh_setpgid : ∃ s₁ s₂ s, System.init.step (.clone 0 17 .ok) = some s₁ ∧
    s₁.step (.clone 1 17 .ok) = some s₂ ∧ s₂.step (.setpgid 1 3 0) = some s ∧
      s.CreatesFresh := by
  have hrun : (System.init.step (.clone 0 17 .ok)).any fun s₁ ↦
      decide (s₁.curPid = 2 ∧ s₁.pidEmpty 3) && (s₁.step (.clone 1 17 .ok)).any fun s₂ ↦
        (s₂.step (.setpgid 1 3 0)).any fun s₃ ↦ decide (s₃.curPid = 3 ∧ s₃.pidEmpty 4) := by
    decide +kernel
  obtain ⟨s₁, h₁, hrun⟩ := (Option.any_eq_true _ _).mp hrun
  obtain ⟨hroom₁, hrun⟩ := Bool.and_eq_true_iff.mp hrun
  obtain ⟨s₂, h₂, hrun⟩ := (Option.any_eq_true _ _).mp hrun
  obtain ⟨s₃, h₃, hroom₃⟩ := (Option.any_eq_true _ _).mp hrun
  obtain ⟨hcur₁, hempty₁⟩ := of_decide_eq_true hroom₁
  obtain ⟨hcur₃, hempty₃⟩ := of_decide_eq_true hroom₃
  have hk₁ : System.init.KeepsNumbers (.clone 0 17 .ok) := fun _ ↦ ⟨2, by decide, by decide, rfl⟩
  have hk₂ : s₁.KeepsNumbers (.clone 1 17 .ok) :=
    fun _ ↦ ⟨3, hcur₁ ▸ Nat.lt_succ_self 2, by decide, hempty₁⟩
  have hk₃ : s₂.KeepsNumbers (.setpgid 1 3 0) := fun _ _ _ _ _ _ ↦ rfl
  have hreach : Reaches System.step KeepsNumbers System.init s₃ :=
    .next (.next (.next .start hk₁ h₁) hk₂ h₂) hk₃ h₃
  exact ⟨s₁, s₂, s₃, h₁, h₂, h₃, (createsFresh_of_reaches hreach).mpr
    ⟨4, hcur₃ ▸ Nat.lt_succ_self 3, by decide, hempty₃⟩⟩

/-- The system with nothing but the first task, which has tried to clone itself
`k` times. -/
def afterClones (k : ℕ) : System := { System.init with nextTask := k + 1, curPid := k + 1 }

theorem afterClones_pidEmpty {k p : ℕ} : (afterClones k).pidEmpty p ↔ p ≠ 1 := by
  rw [pidEmpty_iff]
  by_cases hp : p = 1
  · subst hp
    simp [afterClones, System.init, firstProcess]
  · simp [afterClones, System.init, firstProcess, hp]

theorem afterClones_nextPid {k : ℕ} (hk : k + 2 ≤ maxPid) :
    (afterClones k).nextPid = some (k + 2) := by
  have hmod : ((afterClones k).curPid + 1 + 0) % (maxPid + 1) = k + 2 :=
    Nat.mod_eq_of_lt (Nat.lt_succ_of_le hk)
  have hempty : (afterClones k).pidEmpty (k + 2) := by
    refine afterClones_pidEmpty.mpr fun h ↦ ?_
    cases h
  unfold nextPid
  rw [List.range_succ_eq_map, List.map_cons, hmod, List.find?_cons_of_pos hempty]

theorem afterClones_step {k : ℕ} (hk : k + 2 ≤ maxPid) :
    (afterClones k).step (.clone 0 17 .noMemory) = some (afterClones (k + 1)) := by
  have hrun : (afterClones k).runs 0 := rfl
  have hflags : accepted 17 := by decide
  have htask : Function.update System.init.task (k + 1) none = System.init.task :=
    Function.update_eq_self_iff.mpr rfl
  have hpid : Function.update System.init.pidTask (k + 2) none = System.init.pidTask :=
    Function.update_eq_self_iff.mpr rfl
  have hchildren : Links.remove (Links.add (Function.update System.init.children (k + 1) []) 0
      (k + 1)) (k + 1) = System.init.children := by
    funext q
    refine List.eq_nil_iff_forall_not_mem.mpr fun x hx ↦ ?_
    obtain ⟨hx, hne⟩ := Links.mem_remove.mp hx
    obtain ⟨rfl, -⟩ | hx := Links.mem_add.mp hx
    · exact hne rfl
    · cases (Links.mem_clear.mp hx).2
  -- the task is created and destroyed again
  have hcreate := congrArg (Option.map fun pid ↦ { afterClones k with
      task := Function.update System.init.task (k + 1)
        (some { (⟨0, 1, none, false, true⟩ : Task) with
          pid := pid, parent := some 0, running := false })
      nextTask := k + 2
      children := Links.add (Function.update System.init.children (k + 1) []) 0 (k + 1)
      pidTask := Function.update System.init.pidTask pid (some (k + 1))
      curPid := pid }) (afterClones_nextPid hk)
  have hclone : (afterClones k).sysClone 0 17 .noMemory = some (afterClones (k + 1), enomem) := by
    rw [System.sysClone, if_pos hflags]
    refine Option.bind_eq_some_iff.mpr ⟨_, rfl, Option.bind_eq_some_iff.mpr ⟨_, hcreate, ?_⟩⟩
    simp only [taskDestroy, afterClones, Option.map_some, Function.update_self,
      Function.update_idem, hchildren, htask, hpid]
  rw [System.step, Action.current, if_pos hrun, apply, hclone]
  rfl

/-- The first task clones itself until the numbers are used up, and its last
child gets the number zero. -/
theorem clones_reach_zero : ∃ s, Reaches System.step (fun _ _ ↦ True) System.init s ∧
    s.nextPid = some 0 ∧ ¬s.CreatesFresh := by
  have hreach (k : ℕ) (hk : k + 1 ≤ maxPid) :
      Reaches System.step (fun _ _ ↦ True) System.init (afterClones k) := by
    induction k with
    | zero => exact .start
    | succ k ih => exact .next (ih (Nat.le_of_succ_le hk)) trivial (afterClones_step hk)
  have hle : maxPid - 1 + 1 ≤ maxPid := by decide
  have hroom : ¬(afterClones (maxPid - 1)).RoomAbove := by
    rintro ⟨p, hlt, hle', -⟩
    exact absurd hle' (Nat.not_le.mpr hlt)
  have hempty : (afterClones (maxPid - 1)).pidEmpty 0 := afterClones_pidEmpty.mpr Nat.zero_ne_one
  have hzero := nextPid_zero hle hroom hempty
  refine ⟨_, hreach _ hle, hzero, ?_⟩
  rintro ⟨p, hp, hpos, -⟩
  cases hp.symm.trans hzero
  cases hpos

end System

end Isl.Kernel.Process
