import Isl.Kernel.ProcessInv

/-!
Process groups and sessions. A group's membership is kept twice, as its numbers
and as its place on the lists of the process table; `sys_setpgid` uses the list
of the task it is given, and `sys_setsid` the list of the calling thread.
-/

namespace Isl.Kernel.Process

open Isl.Lib Isl.Lib.Run

namespace System

variable {s s' : System} {t c z : TaskId} {g : GroupId} {p : Pid} {r : Task} {G : Group}

/-- A group that has not exited. -/
def live (s : System) (g : GroupId) (G : Group) : Prop := s.group g = some G ∧ s.threads g ≠ []

/-- The numbers and the lists agree, and `send_group_signal` finds the leaders of
exactly the groups that have the number. -/
structure Consistent (s : System) : Prop where
  pgroup : ∀ {g G}, s.live g G → ∀ p, g ∈ s.pgroup p ↔ G.pgid = p
  session : ∀ {g G}, s.live g G → ∀ p, g ∈ s.session p ↔ G.sid = p
  signalled : ∀ p g, g ∈ s.signalled p ↔
    ∃ G, s.live g G ∧ G.pgid = p ∧ (s.task G.leader).isSome

/-- The lists hold the live groups. -/
structure Placed (s : System) : Prop where
  pgroup : ∀ {g p}, g ∈ s.pgroup p ↔ ∃ G, s.live g G ∧ G.pgid = p
  session : ∀ {g p}, g ∈ s.session p ↔ ∃ G, s.live g G ∧ G.sid = p

/-- The lists hold the live groups, and a live group has its leader. -/
structure Listed (s : System) : Prop where
  pgroup : ∀ {g p}, g ∈ s.pgroup p ↔ ∃ G, s.live g G ∧ G.pgid = p
  session : ∀ {g p}, g ∈ s.session p ↔ ∃ G, s.live g G ∧ G.sid = p
  pgidLe : ∀ {g G}, s.live g G → G.pgid ≤ maxPid
  leader : ∀ {g G}, s.live g G → (s.task G.leader).isSome

theorem live_unique {G' : Group} (h : s.live g G) (h' : s.live g G') : G = G' :=
  Option.some.inj (h.1.symm.trans h'.1)

theorem Listed.placed (h : s.Listed) : s.Placed := ⟨h.pgroup, h.session⟩

theorem Listed.consistent (h : s.Listed) : s.Consistent where
  pgroup hl p := by
    rw [h.pgroup]
    constructor
    · rintro ⟨G', hl', rfl⟩
      rw [live_unique hl hl']
    · intro hp
      exact ⟨_, hl, hp⟩
  session hl p := by
    rw [h.session]
    constructor
    · rintro ⟨G', hl', rfl⟩
      rw [live_unique hl hl']
    · intro hp
      exact ⟨_, hl, hp⟩
  signalled p g := by
    constructor
    · intro hm
      unfold System.signalled at hm
      split at hm
      · cases hm
      · rename_i hget
        obtain ⟨-, heq⟩ := Option.ite_none_left_eq_some.mp hget
        obtain rfl := Option.some.inj heq
        obtain ⟨G, hl, hp⟩ := h.pgroup.mp hm
        exact ⟨G, hl, hp, h.leader hl⟩
    · rintro ⟨G, hl, rfl, -⟩
      have hm : g ∈ s.pgroup G.pgid := h.pgroup.mpr ⟨G, hl, rfl⟩
      have hempty : s.pidEmpty G.pgid = false := by
        by_contra he
        have hnil := (pidEmpty_iff.mp (by simpa using he)).2.2
        rw [hnil] at hm
        cases hm
      have hle : ¬G.pgid > maxPid + 1 := Nat.not_lt.mpr ((h.pgidLe hl).trans (Nat.le_succ _))
      simpa [System.signalled, pidGet, hempty, hle] using hm

theorem mem_init_pgroup : g ∈ init.pgroup p ↔ g = 0 ∧ p = 1 := by
  by_cases hp : p = 1 <;> simp [System.init, firstProcess, hp]

theorem mem_init_session : g ∈ init.session p ↔ g = 0 ∧ p = 1 := by
  by_cases hp : p = 1 <;> simp [System.init, firstProcess, hp]

theorem init_live : init.live g G ↔ g = 0 ∧ G = ⟨initTask, 1, 1⟩ := by
  unfold live
  rw [init_group]
  refine and_iff_left_of_imp ?_
  rintro ⟨rfl, -⟩
  exact List.ne_nil_of_mem (mem_init_threads.mpr ⟨rfl, rfl⟩)

theorem init_listed : init.Listed := by
  refine ⟨fun {g p} ↦ ?_, fun {g p} ↦ ?_, fun hl ↦ ?_, fun hl ↦ ?_⟩
  · rw [mem_init_pgroup]
    constructor
    · rintro ⟨rfl, rfl⟩
      exact ⟨_, init_live.mpr ⟨rfl, rfl⟩, rfl⟩
    · rintro ⟨G, hl, rfl⟩
      obtain ⟨rfl, rfl⟩ := init_live.mp hl
      exact ⟨rfl, rfl⟩
  · rw [mem_init_session]
    constructor
    · rintro ⟨rfl, rfl⟩
      exact ⟨_, init_live.mpr ⟨rfl, rfl⟩, rfl⟩
    · rintro ⟨G, hl, rfl⟩
      obtain ⟨rfl, rfl⟩ := init_live.mp hl
      exact ⟨rfl, rfl⟩
  · obtain ⟨-, rfl⟩ := init_live.mp hl
    decide
  · obtain ⟨-, rfl⟩ := init_live.mp hl
    exact Option.isSome_of_eq_some (init_task.mpr ⟨rfl, rfl⟩)

/-- Changes of tasks that leave the groups alone. -/
theorem Placed.congr (h : s.Placed) (hlive : ∀ g G, s'.live g G ↔ s.live g G)
    (hp : s'.pgroup = s.pgroup) (hs : s'.session = s.session) : s'.Placed := by
  refine ⟨fun {g p} ↦ ?_, fun {g p} ↦ ?_⟩
  · simp only [hp, hlive, h.pgroup]
  · simp only [hs, hlive, h.session]

theorem Listed.congr (h : s.Listed) (hlive : ∀ g G, s'.live g G ↔ s.live g G)
    (hp : s'.pgroup = s.pgroup) (hs : s'.session = s.session)
    (hleader : ∀ g G, s.live g G → (s'.task G.leader).isSome) : s'.Listed := by
  obtain ⟨hpgroup, hsession⟩ := h.placed.congr hlive hp hs
  exact ⟨hpgroup, hsession, fun hl ↦ h.pgidLe ((hlive _ _).mp hl),
    fun hl ↦ hleader _ _ ((hlive _ _).mp hl)⟩

theorem Listed.taskCreate (h : s.Listed) (hs : s.taskCreate c r = some s') : s'.Listed := by
  obtain ⟨pid, -, rfl⟩ := Option.map_eq_some_iff.mp hs
  refine h.congr (fun _ _ ↦ Iff.rfl) rfl rfl fun g G hl ↦ ?_
  dsimp only
  rw [Function.update_apply]
  split
  · rfl
  · exact h.leader hl

theorem Listed.taskDestroy (h : s.Listed) (ht : ∀ g G, s.live g G → G.leader ≠ t)
    (hs : s.taskDestroy t = some s') : s'.Listed := by
  obtain ⟨r, -, rfl⟩ := Option.map_eq_some_iff.mp hs
  refine h.congr (fun _ _ ↦ Iff.rfl) rfl rfl fun g G hl ↦ ?_
  dsimp only
  rw [Function.update_of_ne (ht g G hl)]
  exact h.leader hl

theorem Listed.mapTasks (h : s.Listed) {task : TaskId → Option Task}
    (ht : ∀ t, (s.task t).isSome → (task t).isSome) : ({ s with task := task } : System).Listed :=
  h.congr (fun _ _ ↦ Iff.rfl) rfl rfl fun _ _ hl ↦ ht _ (h.leader hl)

theorem joinThread_live (hg : s.threads g ≠ []) (g' : GroupId) (G' : Group) :
    live { s with threads := Links.add s.threads g t } g' G' ↔ s.live g' G' := by
  refine and_congr_right fun _ ↦ ?_
  by_cases heq : g' = g
  · subst heq
    simp [Links.add, hg]
  · simp [Links.add, heq]

theorem joinProcess_live (hw : s.Wf) (hs : s' = { s with
      task := Function.update s.task t (some { r with group := s.nextGroup })
      group := Function.update s.group s.nextGroup (some { G with leader := t })
      nextGroup := s.nextGroup + 1
      threads := Links.add (Function.update s.threads s.nextGroup []) s.nextGroup t
      pgroup := Links.addAfter s.pgroup g s.nextGroup
      session := Links.addAfter s.session g s.nextGroup }) (g' : GroupId) (G' : Group) :
    s'.live g' G' ↔ s.live g' G' ∨ (g' = s.nextGroup ∧ G' = { G with leader := t }) := by
  by_cases heq : g' = s.nextGroup
  · have hnot : ¬s.live g' G' := fun hl ↦ Nat.ne_of_lt (hw.groupLt hl.1) heq
    have hiff : s'.live g' G' ↔ { G with leader := t } = G' := by
      simp [hs, live, Links.add, heq]
    rw [hiff, eq_comm]
    exact ⟨fun h' ↦ .inr ⟨heq, h'⟩, fun h' ↦ (h'.resolve_left hnot).2⟩
  · simp [hs, live, Links.add, heq]

theorem Placed.joinProcess (h : s.Placed) (hw : s.Wf) (hG : s.live g G) (hs : s' = { s with
      task := Function.update s.task t (some { r with group := s.nextGroup })
      group := Function.update s.group s.nextGroup (some { G with leader := t })
      nextGroup := s.nextGroup + 1
      threads := Links.add (Function.update s.threads s.nextGroup []) s.nextGroup t
      pgroup := Links.addAfter s.pgroup g s.nextGroup
      session := Links.addAfter s.session g s.nextGroup }) : s'.Placed := by
  have hlive := joinProcess_live hw hs
  have hpgroup : s'.pgroup = Links.addAfter s.pgroup g s.nextGroup := by rw [hs]
  have hsession : s'.session = Links.addAfter s.session g s.nextGroup := by rw [hs]
  refine ⟨fun {g' p} ↦ ?_, fun {g' p} ↦ ?_⟩
  · rw [hpgroup, Links.mem_addAfter]
    simp only [hlive, or_and_right, exists_or, ← h.pgroup]
    apply or_congr_right
    constructor
    · rintro ⟨rfl, hm⟩
      obtain ⟨G', hl, hp⟩ := h.pgroup.mp hm
      rw [live_unique hl hG] at hp
      exact ⟨_, ⟨rfl, rfl⟩, hp⟩
    · rintro ⟨_, ⟨rfl, rfl⟩, hp⟩
      exact ⟨rfl, h.pgroup.mpr ⟨G, hG, hp⟩⟩
  · rw [hsession, Links.mem_addAfter]
    simp only [hlive, or_and_right, exists_or, ← h.session]
    apply or_congr_right
    constructor
    · rintro ⟨rfl, hm⟩
      obtain ⟨G', hl, hp⟩ := h.session.mp hm
      rw [live_unique hl hG] at hp
      exact ⟨_, ⟨rfl, rfl⟩, hp⟩
    · rintro ⟨_, ⟨rfl, rfl⟩, hp⟩
      exact ⟨rfl, h.session.mpr ⟨G, hG, hp⟩⟩

theorem Listed.joinProcess (h : s.Listed) (hw : s.Wf) (hG : s.live g G) (hr : s.task t = some r)
    (hs : s' = { s with
      task := Function.update s.task t (some { r with group := s.nextGroup })
      group := Function.update s.group s.nextGroup (some { G with leader := t })
      nextGroup := s.nextGroup + 1
      threads := Links.add (Function.update s.threads s.nextGroup []) s.nextGroup t
      pgroup := Links.addAfter s.pgroup g s.nextGroup
      session := Links.addAfter s.session g s.nextGroup }) : s'.Listed := by
  have hlive := joinProcess_live hw hs
  have htask {x : TaskId} (hx : (s.task x).isSome) : (s'.task x).isSome := by
    by_cases heq : x = t
    · simp [hs, heq]
    · simpa [hs, heq] using hx
  obtain ⟨hpgroup, hsession⟩ := h.placed.joinProcess hw hG hs
  refine ⟨hpgroup, hsession, fun hl ↦ ?_, fun hl ↦ ?_⟩
  · obtain hl | ⟨rfl, rfl⟩ := (hlive _ _).mp hl
    · exact h.pgidLe hl
    · have hle := h.pgidLe hG
      exact hle
  · obtain hl | ⟨rfl, rfl⟩ := (hlive _ _).mp hl
    · exact htask (h.leader hl)
    · exact htask (Option.isSome_of_eq_some hr)

/-- A task that leaves its group's list takes a dead group off the lists. -/
theorem exitTgroup_live {dead : Bool} (hw : s.Wf) (hr : s.task c = some r)
    (hs : s.exitTgroup c r.group = some (s', dead)) (g : GroupId) (G : Group) :
    s'.live g G ↔ s.live g G ∧ (dead → g ≠ r.group) := by
  have hother {g : GroupId} (hg : g ≠ r.group) : Links.remove s.threads c g = s.threads g := by
    refine List.filter_eq_self.mpr fun x hx ↦ ?_
    have hne : x ≠ c := by
      rintro rfl
      exact hg (hw.threadGroup hx hr).symm
    simpa using hne
  have hself : Links.remove s.threads c r.group ≠ [] → s.threads r.group ≠ [] := by
    intro hd hnil
    apply hd
    simp [Links.remove, hnil]
  obtain ⟨hd, rfl, rfl⟩ | ⟨hd, rfl, rfl⟩ := exitTgroup_cases hs
  · by_cases hg : g = r.group
    · subst hg
      simp [live, hd, hself hd]
    · simp [live, hother hg]
  · by_cases hg : g = r.group
    · subst hg
      simp [live, hd]
    · simp [live, hother hg, hg]

theorem Placed.exitTgroup {dead : Bool} (h : s.Placed) (hw : s.Wf) (hr : s.task c = some r)
    (hs : s.exitTgroup c r.group = some (s', dead)) : s'.Placed := by
  have hlive := exitTgroup_live hw hr hs
  obtain ⟨-, rfl, rfl⟩ | ⟨-, rfl, rfl⟩ := exitTgroup_cases hs
  · exact h.congr (fun g G ↦ (hlive g G).trans (and_iff_left nofun)) rfl rfl
  · refine ⟨fun {g p} ↦ ?_, fun {g p} ↦ ?_⟩
    · simp only [Links.mem_remove, h.pgroup, hlive, true_imp_iff, and_right_comm, exists_and_right]
    · simp only [Links.mem_remove, h.session, hlive, true_imp_iff, and_right_comm, exists_and_right]

theorem Listed.exitTgroup {dead : Bool} (h : s.Listed) (hw : s.Wf) (hr : s.task c = some r)
    (hs : s.exitTgroup c r.group = some (s', dead)) : s'.Listed := by
  have hlive := exitTgroup_live hw hr hs
  obtain ⟨hpgroup, hsession⟩ := h.placed.exitTgroup hw hr hs
  refine ⟨hpgroup, hsession, fun hl ↦ h.pgidLe ((hlive _ _).mp hl).1, fun hl ↦ ?_⟩
  rw [(exitTgroup_group hs).2.2.1]
  exact h.leader ((hlive _ _).mp hl).1

theorem Listed.groupExit {dead : Bool} (h : s.Listed) (hs : s.groupExit c t dead = some s') :
    s'.Listed := by
  unfold System.groupExit at hs
  split at hs
  · have hrep : (s.reparent c (s.pidGetTask 1)).Listed := by
      refine h.mapTasks fun x hx ↦ ?_
      split
      · simpa using hx
      · exact hx
    obtain ⟨r₁, hr₁, ⟨-, rfl⟩ | ⟨-, rfl⟩⟩ := notifyParent_cases hs
    · exact hrep
    · refine hrep.mapTasks fun x hx ↦ ?_
      rw [Function.update_apply]
      split
      · rfl
      · exact hx
  · cases hs
    exact h

theorem groupExit_group {dead : Bool} (hs : s.groupExit c t dead = some s') :
    s'.group = s.group := by
  unfold System.groupExit at hs
  split at hs
  · obtain ⟨r₁, -, ⟨-, rfl⟩ | ⟨-, rfl⟩⟩ := notifyParent_cases hs <;> rfl
  · cases hs
    rfl

theorem Listed.setRunning (h : s.Listed) (t : TaskId) (b : Bool) : (s.setRunning t b).Listed := by
  refine h.mapTasks fun x hx ↦ ?_
  by_cases heq : x = t
  · subst heq
    simpa using hx
  · simpa [heq] using hx

theorem Listed.doExit (h : s.Listed) (hw : s.Wf) (hs : s.doExit c = some s') : s'.Listed := by
  obtain ⟨r, G, s₁, dead, s₂, hr, hG, hs₁, hs₂, hs⟩ := doExit_cases hs
  have hr₀ : (s.setRunning c false).task c = some { r with running := false } := by
    rw [setRunning_eq hr]
    exact Function.update_self _ _ _
  have hw₀ := hw.setRunning (b := false) hr (fun hb ↦ absurd hb Bool.false_ne_true)
  have h₁ := (h.setRunning c false).exitTgroup hw₀ hr₀ hs₁
  have h₂ := h₁.groupExit hs₂
  split at hs
  · cases hs
    exact h₂
  · rename_i hne
    refine h₂.taskDestroy (fun g' G' hl heq ↦ ?_) hs
    -- another group with this leader would be the task's own
    have hG' : s.group g' = some G' := by
      have hl := hl.1
      rwa [groupExit_group hs₂, (exitTgroup_group hs₁).1] at hl
    obtain rfl := hw.leaderGroup hG' (heq ▸ hr)
    obtain rfl := Option.some.inj (hG.symm.trans hG')
    exact hne heq.symm

theorem reap_live (hw : s.Wf) (hz : s.isZombie z) (hr : s.task z = some r) (g : GroupId)
    (G : Group) : (s.setGroup r.group none).live g G ↔ s.live g G := by
  have hzombie : r.zombie := by simpa [isZombie, hr] using hz
  obtain ⟨hdead, -⟩ := hw.zombie hr hzombie
  by_cases hg : g = r.group
  · subst hg
    simp [live, setGroup, hdead]
  · simp [live, setGroup, hg]

theorem Listed.reap (h : s.Listed) (hw : s.Wf) (hz : s.isZombie z) (hs : s.reap z = some s') :
    s'.Listed := by
  obtain ⟨r, hr, hs⟩ := Option.bind_eq_some_iff.mp hs
  have hlive := reap_live hw hz hr
  have hfree : (s.setGroup r.group none).Listed := h.congr hlive rfl rfl fun _ _ hl ↦ h.leader hl
  refine hfree.taskDestroy (fun g G hl heq ↦ ?_) hs
  have hl := (hlive g G).mp hl
  obtain rfl := hw.leaderGroup hl.1 (heq ▸ hr)
  have hzombie : r.zombie := by simpa [isZombie, hr] using hz
  exact hl.2 (hw.zombie hr hzombie).1

theorem setIds_live {sid pgid : Pid} {pgroup session : Pid → List GroupId} (hG : s.live g G)
    (g' : GroupId) (G' : Group) :
    live { s.setGroup g (some { G with sid := sid, pgid := pgid }) with
      pgroup := pgroup
      session := session } g' G' ↔
        (g' = g ∧ G' = { G with sid := sid, pgid := pgid }) ∨ (s.live g' G' ∧ g' ≠ g) := by
  by_cases heq : g' = g
  · subst heq
    have hiff : live { s.setGroup g' (some { G with sid := sid, pgid := pgid }) with
        pgroup := pgroup
        session := session } g' G' ↔ { G with sid := sid, pgid := pgid } = G' := by
      simp [live, setGroup, hG.2]
    rw [hiff, eq_comm]
    simp
  · simp [live, setGroup, heq]

/-- A live group gets other numbers, and its places are those of the numbers. -/
theorem Placed.setIds {sid pgid : Pid} {pgroup session : Pid → List GroupId} (h : s.Placed)
    (hG : s.live g G)
    (hp : ∀ x p, x ∈ pgroup p ↔ (x = g ∧ p = pgid) ∨ (x ∈ s.pgroup p ∧ x ≠ g))
    (hs : ∀ x p, x ∈ session p ↔ (x = g ∧ p = sid) ∨ (x ∈ s.session p ∧ x ≠ g)) :
    ({ s.setGroup g (some { G with sid := sid, pgid := pgid }) with
      pgroup := pgroup
      session := session } : System).Placed := by
  have hlive := @setIds_live s g G sid pgid pgroup session hG
  refine ⟨fun {g' p} ↦ ?_, fun {g' p} ↦ ?_⟩
  · rw [hp, h.pgroup]
    simp only [hlive, or_and_right, exists_or]
    apply or_congr
    · constructor
      · rintro ⟨rfl, rfl⟩
        exact ⟨_, ⟨rfl, rfl⟩, rfl⟩
      · rintro ⟨_, ⟨rfl, rfl⟩, rfl⟩
        exact ⟨rfl, rfl⟩
    · simp only [and_right_comm, exists_and_right]
  · rw [hs, h.session]
    simp only [hlive, or_and_right, exists_or]
    apply or_congr
    · constructor
      · rintro ⟨rfl, rfl⟩
        exact ⟨_, ⟨rfl, rfl⟩, rfl⟩
      · rintro ⟨_, ⟨rfl, rfl⟩, rfl⟩
        exact ⟨rfl, rfl⟩
    · simp only [and_right_comm, exists_and_right]

theorem Listed.setIds {sid pgid : Pid} {pgroup session : Pid → List GroupId} (h : s.Listed)
    (hG : s.live g G) (hle : pgid ≤ maxPid)
    (hp : ∀ x p, x ∈ pgroup p ↔ (x = g ∧ p = pgid) ∨ (x ∈ s.pgroup p ∧ x ≠ g))
    (hs : ∀ x p, x ∈ session p ↔ (x = g ∧ p = sid) ∨ (x ∈ s.session p ∧ x ≠ g)) :
    ({ s.setGroup g (some { G with sid := sid, pgid := pgid }) with
      pgroup := pgroup
      session := session } : System).Listed := by
  have hlive := @setIds_live s g G sid pgid pgroup session hG
  obtain ⟨hpgroup, hsession⟩ := h.placed.setIds hG hp hs
  refine ⟨hpgroup, hsession, fun hl ↦ ?_, fun hl ↦ ?_⟩
  · obtain ⟨rfl, rfl⟩ | ⟨hl, -⟩ := (hlive _ _).mp hl
    · exact hle
    · exact h.pgidLe hl
  · obtain ⟨rfl, rfl⟩ | ⟨hl, -⟩ := (hlive _ _).mp hl
    · have hleader := h.leader hG
      exact hleader
    · exact h.leader hl

theorem Placed.live_of_listed (h : s.Placed) (hl : listed s.pgroup g) (hG : s.group g = some G) :
    s.live g G ∧
      ∀ x p, x ∈ s.session p ↔ (x = g ∧ p = G.sid) ∨ (x ∈ s.session p ∧ x ≠ g) := by
  obtain ⟨p, -, hp⟩ := List.any_eq_true.mp hl
  obtain ⟨G', hlive, -⟩ := h.pgroup.mp (of_decide_eq_true hp)
  obtain rfl := Option.some.inj (hlive.1.symm.trans hG)
  refine ⟨hlive, fun x q ↦ ?_⟩
  by_cases hx : x = g
  · subst hx
    have hiff : x ∈ s.session q ↔ q = G'.sid := by
      rw [h.session]
      constructor
      · rintro ⟨G, hlive', rfl⟩
        rw [live_unique hlive hlive']
      · rintro rfl
        exact ⟨G', hlive, rfl⟩
    simpa using hiff
  · simp [hx]

theorem Wf.live_of_runs (hw : s.Wf) (hrun : s.runs c) (hr : s.task c = some r)
    (hG : s.group r.group = some G) : s.live r.group G := by
  have hrunning : r.running := by simpa [runs, hr] using hrun
  exact ⟨hG, List.ne_nil_of_mem (hw.runsThread hr hrunning)⟩

theorem mem_add_remove {lists : Pid → List GroupId} {x : GroupId} {p q : Pid} :
    x ∈ Links.add (Links.remove lists g) q g p ↔ (x = g ∧ p = q) ∨ (x ∈ lists p ∧ x ≠ g) := by
  rw [Links.mem_add, Links.mem_remove]

/-- A call of `sys_setpgid` that moves a group is given the number of a task for
the process group, a call of `sys_setsid` that succeeds comes from the leader,
and no clone fails once it has made a group. -/
def KeepsGroups (s : System) : Action → Prop
  | .setpgid c id pgid => ∀ me t r G, s.task c = some me →
      s.setpgidMoves c (defaultTo id me.pid) (defaultTo pgid (defaultTo id me.pid)) t r G →
      defaultTo id me.pid = defaultTo pgid (defaultTo id me.pid)
  | .setsid c => ∀ me G leader, s.task c = some me → s.group me.group = some G →
      s.task G.leader = some leader → G.pgid ≠ leader.pid → G.sid ≠ leader.pid → G.leader = c
  | .clone _ flags result => accepted flags → result = .badAddress → has flags cloneThread
  | _ => True

theorem Listed.sysClone {flags : Dword} {result : CopyResult} {e : ℤ} (h : s.Listed) (hw : s.Wf)
    (hrun : s.runs c) (hk : result = .badAddress → has flags cloneThread)
    (hs : s.sysClone c flags result = some (s', e)) : s'.Listed := by
  obtain rfl | ⟨r, s₁, hr, hs₁, hs⟩ := sysClone_cases hs
  · exact h
  have hrun : r.running := by simpa [runs, hr] using hrun
  obtain ⟨r', hl, hgroup, -, hthreads, hgroups, -⟩ := hw.loose_taskCreate hr hrun hs₁
  have h₁ := h.taskCreate hs₁
  have hw₁ := hw.taskCreate hr hrun hs₁
  have hlive : s₁.threads r'.group ≠ [] := by
    rw [hthreads, hgroup]
    exact List.ne_nil_of_mem (hw.runsThread hr hrun)
  obtain hs | ⟨s₂, hs₂, hs⟩ := hs
  · exact h₁.taskDestroy (fun g G hG ↦ hl.notLeader g G hG.1) hs
  · obtain ⟨-, rfl⟩ | ⟨G, hG, hf, heq⟩ := joinGroup_cases hl.task hs₂
    · have h₂ : ({ s₁ with threads := Links.add s₁.threads r'.group s.nextTask } : System).Listed :=
        h₁.congr (joinThread_live hlive) rfl rfl fun _ _ hl ↦ h₁.leader hl
      obtain ⟨-, hs⟩ | rfl := hs
      · exact h₂.taskDestroy (fun g G hG ↦ hl.notLeader g G hG.1) hs
      · exact h₂.setRunning _ _
    · obtain ⟨hbad, -⟩ | rfl := hs
      · rw [hk hbad] at hf
        cases hf
      · exact (h₁.joinProcess hw₁ ⟨hG, hlive⟩ hl.task heq).setRunning _ _

/-- One call keeps the lists right. -/
theorem Listed.step {a : Action} (h : s.Listed) (hw : s.Wf) (hk : s.KeepsGroups a)
    (hs : s.step a = some s') : s'.Listed := by
  obtain ⟨hrun, hs⟩ := Option.ite_none_right_eq_some.mp hs
  cases a with
  | clone c flags result =>
    obtain ⟨⟨s₁, e⟩, hc, rfl⟩ := Option.map_eq_some_iff.mp hs
    by_cases hf : accepted flags
    · exact h.sysClone hw hrun (hk hf) hc
    · unfold System.sysClone at hc
      rw [if_neg hf] at hc
      cases hc
      exact h
  | exit c => exact h.doExit hw hs
  | wait c id fault =>
    obtain rfl | ⟨z, -, hz, hreap⟩ := sysWait4_cases hs
    · exact h
    · exact h.reap hw (waitTarget_zombie hz) hreap
  | setpgid c id pgid =>
    obtain ⟨⟨s₁, e⟩, hc, rfl⟩ := Option.map_eq_some_iff.mp hs
    obtain rfl | ⟨me, t, r, G, hme, hm, hlisted, heq⟩ := sysSetpgid_cases hc
    · exact h
    have hid := hk me t r G hme hm
    obtain ⟨htable, -, hG, -⟩ := hm
    obtain ⟨hl, hsession⟩ := h.placed.live_of_listed hlisted hG
    obtain ⟨t', ht', hpid⟩ := hw.tableTask htable
    have hle := hw.pidLe ht'
    generalize defaultTo pgid (defaultTo id me.pid) = q at hid heq
    rw [hpid, hid] at hle
    rw [hid] at heq
    have h' := @Listed.setIds s _ _ G.sid q _ s.session h hl hle (fun _ _ ↦ mem_add_remove) hsession
    rw [heq]
    exact h'
  | setsid c =>
    obtain ⟨⟨s₁, e⟩, hc, rfl⟩ := Option.map_eq_some_iff.mp hs
    obtain rfl | ⟨me, G, leader, hme, hG, hleader, hpgid, hsid, heq⟩ := sysSetsid_cases hc
    · exact h
    obtain rfl := hk me G leader hme hG hleader hpgid hsid
    obtain rfl := Option.some.inj (hme.symm.trans hleader)
    have hl := hw.live_of_runs hrun hme hG
    have h' := @Listed.setIds s _ _ me.pid _ _ _ h hl (hw.pidLe hme) (fun _ _ ↦ mem_add_remove)
      fun _ _ ↦ mem_add_remove
    rw [heq]
    exact h'

/-- In every run of such calls the numbers and the lists agree, and a group on a
list has not exited. -/
theorem consistent_of_reaches (h : Reaches System.step KeepsGroups System.init s) :
    s.Consistent ∧ ∀ g p, g ∈ s.pgroup p ∨ g ∈ s.session p → ∃ G, s.live g G := by
  have hlisted : s.Listed := by
    induction h with
    | start => exact init_listed
    | next hrun hok hs ih => exact ih.step (wf_of_reaches hrun) hok hs
  refine ⟨hlisted.consistent, fun g p hm ↦ ?_⟩
  obtain hm | hm := hm
  · obtain ⟨G, hl, -⟩ := hlisted.pgroup.mp hm
    exact ⟨G, hl⟩
  · obtain ⟨G, hl, -⟩ := hlisted.session.mp hm
    exact ⟨G, hl⟩

/-- One child gets its own process group from its parent, and another one its
own session. -/
theorem consistent_setpgid_setsid : ∃ s₁ s₂ s₃ s, System.init.step (.clone 0 17 .ok) = some s₁ ∧
    s₁.step (.clone 0 17 .ok) = some s₂ ∧ s₂.step (.setpgid 0 2 0) = some s₃ ∧
      s₃.step (.setsid 2) = some s ∧ s.Consistent := by
  have hrun : (System.init.step (.clone 0 17 .ok)).any fun s₁ ↦
      (s₁.step (.clone 0 17 .ok)).any fun s₂ ↦
        (s₂.step (.setpgid 0 2 0)).any fun s₃ ↦
          decide ((s₃.task 2).map Task.group = some 2 ∧
            (s₃.group 2).map Group.leader = some 2) &&
          (s₃.step (.setsid 2)).isSome := by
    decide +kernel
  obtain ⟨s₁, h₁, hrun⟩ := (Option.any_eq_true _ _).mp hrun
  obtain ⟨s₂, h₂, hrun⟩ := (Option.any_eq_true _ _).mp hrun
  obtain ⟨s₃, h₃, hrun⟩ := (Option.any_eq_true _ _).mp hrun
  obtain ⟨hlead, hsome⟩ := Bool.and_eq_true_iff.mp hrun
  obtain ⟨s₄, h₄⟩ := Option.isSome_iff_exists.mp hsome
  obtain ⟨hgroup, hlead⟩ := of_decide_eq_true hlead
  have hclone (s : System) : s.KeepsGroups (.clone 0 17 .ok) := fun _ h ↦ nomatch h
  have hsetpgid : s₂.KeepsGroups (.setpgid 0 2 0) := fun _ _ _ _ _ _ ↦ rfl
  have hsetsid : s₃.KeepsGroups (.setsid 2) := by
    intro me G leader hme hG _ _ _
    rw [hme] at hgroup
    obtain heq : me.group = 2 := Option.some.inj hgroup
    rw [← heq, hG] at hlead
    exact (Option.some.inj hlead).trans heq
  have hreach : Reaches System.step KeepsGroups System.init s₄ :=
    .next (.next (.next (.next .start (hclone _) h₁) (hclone _) h₂) hsetpgid h₃) hsetsid h₄
  exact ⟨s₁, s₂, s₃, s₄, h₁, h₂, h₃, h₄, (consistent_of_reaches hreach).1⟩

/-- A parent puts its second child into the group of the first one, and the
second child's own list gets it. -/
theorem setpgid_wrong_list : ∃ s, exec System.step System.init
    [.clone 0 17 .ok, .clone 0 17 .ok, .setpgid 0 2 0, .setpgid 0 3 2] = some s ∧
      ¬s.Consistent := by
  have hrun : (exec System.step System.init [.clone 0 17 .ok, .clone 0 17 .ok,
      .setpgid 0 2 0, .setpgid 0 3 2]).any fun s ↦
        decide (s.group 2 = some ⟨2, 1, 2⟩ ∧ s.threads 2 ≠ [] ∧ 2 ∉ s.pgroup 2) := by
    decide +kernel
  obtain ⟨s, hs, hstate⟩ := (Option.any_eq_true _ _).mp hrun
  obtain ⟨hG, hlive, hlist⟩ := of_decide_eq_true hstate
  refine ⟨s, hs, fun hc ↦ hlist ?_⟩
  exact (hc.pgroup ⟨hG, hlive⟩ 2).mpr rfl

end System

end Isl.Kernel.Process
