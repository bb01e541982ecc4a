import Isl.Fs.Fd
import Isl.Kernel.CallTables
import Isl.Kernel.ProcessLists

/-!
`sys_clone` with everything that `copy_task` takes references to. A call that
fails goes through the labels at its end, which drop what has been taken.
-/

namespace Isl.Kernel.Fork

open Isl.Lib Isl.Kernel.Process Isl.Kernel.Process.System Isl.Kernel.CallTables
open Isl.Fs.OpenFiles hiding Dword

/-- What the record of a task points to. -/
structure Pointers where
  mem : ℕ
  files : TableId
  fs : FsId
  sighand : ℕ
deriving DecidableEq

structure State where
  sys : System
  pointers : TaskId → Option Pointers
  mems : Pool Unit
  files : Files
  sighands : Pool (Fin Isl.Kernel.numSigs → Sigaction)
  ttys : Pool Unit
  tty : GroupId → Option ℕ

/-- What goes wrong in a call: the allocation of a task, a descriptor table, the
directories or the signal handlers, or an access to the guest's memory. What
`mem_new` and `tgroup_copy` allocate is used unchecked, and there. -/
structure Failures where
  task : Bool
  table : Bool
  fs : Bool
  sighand : Bool
  tls : Bool
  ctid : Bool
  ptid : Bool

namespace State

def withSys (k : State) (sys : System) : State := { k with sys := sys }

def withMems (k : State) (mems : Pool Unit) : State := { k with mems := mems }

def withFiles (k : State) (files : Files) : State := { k with files := files }

/-! The labels of `copy_task`: `current` is the table of the caller, `c` what
the new task points to. -/

def failFreeMem (k : State) (c : Pointers) (err : ℤ) : Option (State × ℤ) := do
  let mems ← k.mems.release c.mem
  some (k.withMems mems, err)

def failFreeFiles (k : State) (current : TableId) (c : Pointers) (err : ℤ) :
    Option (State × ℤ) := do
  let files ← k.files.fdtableRelease current c.files
  (k.withFiles files).failFreeMem c err

def failFreeFs (k : State) (current : TableId) (c : Pointers) (err : ℤ) :
    Option (State × ℤ) := do
  let files ← k.files.fsInfoRelease c.fs
  (k.withFiles files).failFreeFiles current c err

def failFreeSighand (k : State) (current : TableId) (c : Pointers) (err : ℤ) :
    Option (State × ℤ) := do
  let sighands ← k.sighands.release c.sighand
  { k with sighands := sighands }.failFreeFs current c err

/-! The steps of `copy_task`. -/

def copyMem (k : State) (mem : ℕ) (flags : Dword) : Option (ℕ × State) :=
  if has flags cloneVm then (k.mems.retain mem).map fun mems ↦ (mem, k.withMems mems)
  else (k.mems.get mem).map fun _ ↦
    let (mem', mems) := k.mems.alloc ()
    (mem', k.withMems mems)

def copyFiles (k : State) (t : TableId) (flags : Dword) (noMemory : Bool) :
    Option (Except ℤ (TableId × State)) :=
  if has flags cloneFiles then
    (k.files.tables.retain t).map fun tables ↦
      .ok (t, k.withFiles { k.files with tables := tables })
  else
    (k.files.fdtableCopy t noMemory).map fun r ↦ r.map fun (t', files) ↦ (t', k.withFiles files)

def copyFs (k : State) (i : FsId) (flags : Dword) (noMemory : Bool) : Option (FsId × State) :=
  if has flags cloneFs then
    (k.files.fsInfos.retain i).map fun fsInfos ↦
      (i, k.withFiles { k.files with fsInfos := fsInfos })
  else (k.files.fsInfoCopy i noMemory).map fun (i', files) ↦ (i', k.withFiles files)

/-- `sighand_copy` returns a null pointer when it is out of memory. -/
def copySighand (k : State) (i : ℕ) (flags : Dword) (noMemory : Bool) :
    Option (Option (ℕ × State)) :=
  if has flags cloneSighand then
    (k.sighands.retain i).map fun sighands ↦ some (i, { k with sighands := sighands })
  else if noMemory then some none
  else (k.sighands.get i).map fun action ↦
    let (i', sighands) := k.sighands.alloc action
    some (i', { k with sighands := sighands })

/-- The terminal of a group, which `tgroup_copy` retains. -/
def retainTty (k : State) (g : GroupId) : Option (Pool Unit) :=
  match k.tty g with
  | none => some k.ttys
  | some y => k.ttys.retain y

def joinGroup (k : State) (t : TaskId) (flags : Dword) : Option State := do
  let r ← k.sys.task t
  let sys ← k.sys.joinGroup t flags
  if has flags cloneThread then some (k.withSys sys)
  else do
    let ttys ← k.retainTty r.group
    some { k.withSys sys with
      ttys := ttys, tty := Function.update k.tty k.sys.nextGroup (k.tty r.group) }

/-- Whether one of the accesses to the guest's memory fails. -/
def badAddress (flags : Dword) (f : Failures) : Bool :=
  has flags cloneSettls && f.tls || has flags cloneChildSettid && f.ctid ||
    has flags cloneParentSettid && f.ptid

/-- `copy_task` for a task `t` whose record is a copy of the caller's. -/
def copyTask (k : State) (t : TaskId) (me : Pointers) (flags : Dword) (f : Failures) :
    Option (State × ℤ) := do
  let (mem, k) ← k.copyMem me.mem flags
  let c := { me with mem := mem }
  match ← k.copyFiles me.files flags f.table with
  | .error err => k.failFreeMem c err
  | .ok (files, k) =>
    let c := { c with files := files }
    let (fs, k) ← k.copyFs me.fs flags f.fs
    let c := { c with fs := fs }
    match ← k.copySighand me.sighand flags f.sighand with
    | none => k.failFreeFs me.files c enomem
    | some (sighand, k) =>
      let c := { c with sighand := sighand }
      let k ← k.joinGroup t flags
      if badAddress flags f then k.failFreeSighand me.files c efault
      else some ({ k with pointers := Function.update k.pointers t (some c) }, 0)

def sysClone (k : State) (current : TaskId) (flags : Dword) (f : Failures) :
    Option (State × ℤ) :=
  if accepted flags then do
    let me ← k.pointers current
    let r ← k.sys.task current
    if f.task then
      -- the number is taken before the allocation
      let pid ← k.sys.nextPid
      some (k.withSys { k.sys with curPid := pid }, enomem)
    else do
      let t := k.sys.nextTask
      let sys ← k.sys.taskCreate current r
      let (k, err) ← (k.withSys sys).copyTask t me flags f
      if err < 0 then do
        let sys ← k.sys.taskDestroy t
        some (k.withSys sys, err)
      else some (k.withSys (k.sys.setRunning t true), sys.curPid)
  else some (k, einval)

/-! What a failed call leaves. -/

/-- The next task to be made, and the next group, are on no list, and the number
is free. -/
structure Forgotten (s s' : System) (pid : Pid) : Prop where
  threads : ∀ g, s.nextTask ∉ s'.threads g
  children : ∀ q, s.nextTask ∉ s'.children q
  pgroup : ∀ p, s.nextGroup ∉ s'.pgroup p
  session : ∀ p, s.nextGroup ∉ s'.session p
  pid : s'.pidEmpty pid

/-- What the caller has is what it had. -/
structure Undone (k k' : State) (current : TaskId) (me : Pointers) (pid : Pid) : Prop where
  pointers : k'.pointers current = some me
  descriptors : k'.files.tables.val me.files = k.files.tables.val me.files
  opened : ∀ d, k'.files.fds.refcount d = k.files.fds.refcount d
  directories : k'.files.fsInfos.val me.fs = k.files.fsInfos.val me.fs
  handlers : k'.sighands.val me.sighand = k.sighands.val me.sighand
  mem : k'.mems.refcount me.mem = k.mems.refcount me.mem
  table : k'.files.tables.refcount me.files = k.files.tables.refcount me.files
  fs : k'.files.fsInfos.refcount me.fs = k.files.fsInfos.refcount me.fs
  sighand : k'.sighands.refcount me.sighand = k.sighands.refcount me.sighand
  tty : ∀ y, k'.ttys.refcount y = k.ttys.refcount y
  lists : Forgotten k.sys k'.sys pid

/-- The call returns, and leaves nothing behind when it fails. One that finds no
number for the task does not get as far. -/
def Unwinds (k : State) (current : TaskId) (me : Pointers) (flags : Dword) (f : Failures) : Prop :=
  ∀ pid, k.sys.nextPid = some pid → ∃ k' r, k.sysClone current flags f = some (k', r) ∧
    (r < 0 → Undone k k' current me pid)

/-- A running task whose record points to objects in use. -/
structure Valid (k : State) (current : TaskId) (me : Pointers) : Prop where
  wf : k.sys.Wf
  anchored : k.sys.Anchored
  runs : k.sys.runs current
  pointers : k.pointers current = some me
  mem : k.mems.live me.mem
  table : k.files.tables.live me.files
  size : (k.files.tables.val me.files).size ≠ 0
  opened : ∀ d ∈ (k.files.tables.val me.files).opened, k.files.fds.live d
  fs : k.files.fsInfos.live me.fs
  pwd : k.files.fds.live (k.files.fsInfos.val me.fs).pwd
  root : k.files.fds.live (k.files.fsInfos.val me.fs).root
  sighand : k.sighands.live me.sighand
  tty : ∀ {r y}, k.sys.task current = some r → k.tty r.group = some y → k.ttys.live y

/-- The calls that fail before they have taken anything, or have taken nothing
but what the labels give back, and the ones that succeed. -/
def CloneFits (k : State) (me : Pointers) (flags : Dword) (f : Failures) : Prop :=
  k.sys.nextPid = none ∨ accepted flags = false ∨ f.task ∨
    (has flags cloneFiles = false ∧ f.table) ∨
    ((has flags cloneFs ∨ f.fs = false) ∧
      if has flags cloneSighand = false ∧ f.sighand then
        has flags cloneFiles ∨ (k.files.tables.val me.files).opened = []
      else badAddress flags f = false)

section

variable {s s₁ s' : System} {c current t : TaskId} {r : Process.Task} {pid : Pid} {flags : Dword}
  {k k' : State} {me p : Pointers} {err e : ℤ} {f : Failures}

theorem forgotten_self (hw : s.Wf) (ha : s.Anchored) (hpid : s.nextPid = some pid) :
    Forgotten s s pid where
  threads _ hm := absurd (hw.threadLt hm).1 (Nat.lt_irrefl _)
  children _ hm := absurd (ha.child hm) (Nat.lt_irrefl _)
  pgroup _ hm := absurd (ha.pgroup hm) (Nat.lt_irrefl _)
  session _ hm := absurd (ha.session hm) (Nat.lt_irrefl _)
  pid := (nextPid_some hpid).1

theorem taskDestroy_of_task (h : s.task t = some r) :
    ∃ s', s.taskDestroy t = some s' ∧ s'.threads = s.threads ∧ s'.pgroup = s.pgroup ∧
      s'.session = s.session ∧ s'.children = Links.remove s.children t ∧
      s'.pidTask = Function.update s.pidTask r.pid none := by
  rw [taskDestroy, h]
  exact ⟨_, rfl, rfl, rfl, rfl, rfl, rfl⟩

/-- A task that is destroyed before it joins a group. -/
theorem forgotten_destroy (hw : s.Wf) (ha : s.Anchored) (hpid : s.nextPid = some pid)
    (hs : s.taskCreate c r = some s₁) :
    ∃ s', s₁.taskDestroy s.nextTask = some s' ∧ Forgotten s s' pid := by
  obtain ⟨pid', hpid', rfl⟩ := Option.map_eq_some_iff.mp hs
  obtain rfl := Option.some.inj (hpid.symm.trans hpid')
  obtain ⟨-, hsession, hpgroup⟩ := pidEmpty_iff.mp (nextPid_some hpid).1
  obtain ⟨s', hs', hthreads, hpg, hse, hchildren, hpidTask⟩ :=
    taskDestroy_of_task (s := { s with
      task := Function.update s.task s.nextTask
        (some { r with pid := pid, parent := some c, running := false })
      nextTask := s.nextTask + 1
      children := Links.add (Function.update s.children s.nextTask []) c s.nextTask
      pidTask := Function.update s.pidTask pid (some s.nextTask)
      curPid := pid }) (Function.update_self _ _ _)
  have hself := forgotten_self hw ha hpid
  refine ⟨s', hs', fun g hm ↦ hself.threads g (hthreads ▸ hm), fun q hm ↦ ?_,
    fun p hm ↦ hself.pgroup p (hpg ▸ hm), fun p hm ↦ hself.session p (hse ▸ hm), ?_⟩
  · rw [hchildren] at hm
    exact absurd rfl (Links.mem_remove.mp hm).2
  · rw [pidEmpty_iff, hpidTask, hse, hpg]
    exact ⟨Function.update_self _ _ _, hsession, hpgroup⟩

/-- A task that has joined a group stays on its list. -/
theorem not_forgotten_of_join (ht : s₁.task s.nextTask = some r)
    (hs : s₁.joinGroup s.nextTask flags = some s') {s'' : System} (h : s''.threads = s'.threads) :
    ¬Forgotten s s'' pid := by
  intro hf
  obtain ⟨-, rfl⟩ | ⟨G, -, -, rfl⟩ := joinGroup_cases ht hs
  · refine hf.threads r.group ?_
    rw [h]
    exact Links.mem_add.mpr (.inl ⟨rfl, rfl⟩)
  · refine hf.threads s₁.nextGroup ?_
    rw [h]
    exact Links.mem_add.mpr (.inl ⟨rfl, rfl⟩)

theorem joinGroup_of_anchored (ha : s.Anchored) (ht : s.task t = some r)
    (hg : s.threads r.group ≠ []) : ∃ s', s.joinGroup t flags = some s' := by
  rw [System.joinGroup, ht, Option.bind_eq_bind, Option.bind_some]
  split
  · exact ⟨_, rfl⟩
  · obtain ⟨G, hG⟩ := Option.isSome_iff_exists.mp (ha.group hg)
    have hl : (listed s.pgroup r.group && listed s.session r.group) = true := by
      simp [ha.listedPgroup hg, ha.listedSession hg]
    rw [tgroupCopy, hG]
    dsimp only [Option.bind_eq_bind, Option.bind_some]
    rw [if_pos hl]
    exact ⟨_, rfl⟩

theorem isSome_of_runs (h : s.runs t) : (s.task t).isSome := by
  unfold System.runs at h
  cases hr : s.task t with
  | none => simp [hr] at h
  | some r => rfl

/-! The steps. -/

theorem copyMem_of_live (flags : Dword) (h : k.mems.live p.mem) :
    ∃ mem mems, k.copyMem p.mem flags = some (mem, k.withMems mems) ∧
      Pool.Acquired k.mems mem mems := by
  unfold copyMem
  split
  · obtain ⟨mems, hmems, hr⟩ := Pool.retain_of_live h
    exact ⟨p.mem, mems, by rw [hmems]; rfl, hr.acquired⟩
  · exact ⟨_, _, by rw [Pool.get_of_live h]; rfl, Pool.acquired_alloc _ _⟩

theorem failFreeMem_of_acquired (k' : State) (err : ℤ) (h : Pool.Acquired k.mems p.mem k'.mems) :
    ∃ mems, k'.failFreeMem p err = some (k'.withMems mems, err) ∧ Pool.Same k.mems mems := by
  obtain ⟨mems, hmems, hsame⟩ := h
  exact ⟨mems, by rw [failFreeMem, hmems]; rfl, hsame⟩

theorem copyFs_of_live (h : k.files.fsInfos.live p.fs)
    (hpwd : k.files.fds.live (k.files.fsInfos.val p.fs).pwd)
    (hroot : k.files.fds.live (k.files.fsInfos.val p.fs).root) {noMemory : Bool}
    (hm : has flags cloneFs ∨ noMemory = false) :
    ∃ i files, k.copyFs p.fs flags noMemory = some (i, k.withFiles files) ∧
      files.tables = k.files.tables ∧ ∃ fsInfos,
        files.fsInfoRelease i = some { k.files with fsInfos := fsInfos } ∧
        Pool.Same k.files.fsInfos fsInfos := by
  unfold copyFs
  split
  · obtain ⟨fsInfos, hfs, hr⟩ := Pool.retain_of_live h
    refine ⟨p.fs, { k.files with fsInfos := fsInfos }, by rw [hfs]; rfl, rfl, k.files.fsInfos, ?_,
      .refl _⟩
    exact Files.fsInfoRelease_of_shared (s := { k.files with fsInfos := fsInfos }) h hr
  · rename_i hfs
    obtain rfl := hm.resolve_left hfs
    obtain ⟨files, hcopy, htables, -, hrelease⟩ := Files.fsInfoCopy_of_live h hpwd hroot
    exact ⟨_, files, by rw [hcopy]; rfl, htables, hrelease⟩

theorem copySighand_of_live (h : k.sighands.live p.sighand) {noMemory : Bool}
    (hm : ¬(has flags cloneSighand = false ∧ noMemory)) :
    ∃ i sighands, k.copySighand p.sighand flags noMemory =
      some (some (i, { k with sighands := sighands })) := by
  unfold copySighand
  split
  · obtain ⟨sighands, hs, -⟩ := Pool.retain_of_live h
    exact ⟨p.sighand, sighands, by rw [hs]; rfl⟩
  · rename_i hf
    rw [if_neg fun hn ↦ hm ⟨by simpa using hf, hn⟩, Pool.get_of_live h]
    exact ⟨_, _, rfl⟩

/-- The descriptors after `copyFiles`, and what their release does: it gives back
what was taken, or closes what is open in the caller's table. -/
structure Copied (s s₁ : Files) (t t' : TableId) (flags : Dword) : Prop where
  fsInfos : s₁.fsInfos = s.fsInfos
  live : ∀ d, s.fds.live d → s₁.fds.live d
  givesBack : has flags cloneFiles ∨ (s.tables.val t).opened = [] →
    s₁.fds = s.fds ∧ ∀ s₂ : Files, s₂.tables = s₁.tables → ∃ tables,
      s₂.fdtableRelease t t' = some { s₂ with tables := tables } ∧ Pool.Same s.tables tables
  closes : has flags cloneFiles = false → ∀ s₂ s₃ : Files, s₂.tables = s₁.tables →
    s₂.fdtableRelease t t' = some s₃ → ∀ f < (s.tables.val t).size, (s₃.tables.val t).get f = none

theorem copyFiles_of_live (ht : k.files.tables.live p.files)
    (hsize : (k.files.tables.val p.files).size ≠ 0)
    (hopened : ∀ d ∈ (k.files.tables.val p.files).opened, k.files.fds.live d) {noMemory : Bool}
    (hm : ¬(has flags cloneFiles = false ∧ noMemory)) :
    ∃ t' files, k.copyFiles p.files flags noMemory = some (.ok (t', k.withFiles files)) ∧
      Copied k.files files p.files t' flags := by
  unfold copyFiles
  split
  · rename_i hshare
    obtain ⟨tables, htables, hr⟩ := Pool.retain_of_live ht
    refine ⟨p.files, { k.files with tables := tables }, by rw [htables]; rfl, rfl, fun _ hd ↦ hd,
      fun _ ↦ ⟨rfl, fun s₂ hs₂ ↦ ⟨k.files.tables, ?_, .refl _⟩⟩, fun hf ↦ ?_⟩
    · exact Files.fdtableRelease_of_shared ht (hs₂ ▸ hr) p.files
    · rw [hshare] at hf
      cases hf
  · rename_i hf
    obtain rfl : noMemory = false := by simpa [hf] using hm
    obtain ⟨fds, hcopy, hlive, hempty, -⟩ := Files.fdtableCopy_of_live ht hsize hopened
    refine ⟨_, { k.files with fds := fds, tables := (k.files.tables.alloc _).2 },
      by rw [hcopy]; rfl, rfl, hlive, fun hnil ↦ ?_, fun _ s₂ s₃ hs₂ hrelease ↦ ?_⟩
    · have hnil := hnil.resolve_left hf
      exact ⟨hempty hnil, fun s₂ hs₂ ↦ Files.fdtableRelease_copy_of_empty ht hnil hs₂⟩
    · exact fun f hlt ↦ Files.get_fdtableRelease_copy hs₂ hrelease hlt

theorem joinGroup_of_valid (h : k.Valid current me) (hr : k.sys.task current = some r)
    (hs : k.sys.taskCreate current r = some s₁) (hk : k'.sys = s₁) (htty : k'.tty = k.tty)
    (httys : k'.ttys = k.ttys) :
    ∃ k'' r', k'.joinGroup k.sys.nextTask flags = some k'' ∧ s₁.task k.sys.nextTask = some r' ∧
      s₁.joinGroup k.sys.nextTask flags = some k''.sys := by
  have hrun : r.running := by simpa [System.runs, hr] using h.runs
  obtain ⟨r', hl, hgroup, -, hthreads, -⟩ := h.wf.loose_taskCreate hr hrun hs
  have hlive : s₁.threads r'.group ≠ [] := by
    rw [hthreads, hgroup]
    exact List.ne_nil_of_mem (h.wf.runsThread hr hrun)
  obtain ⟨s₂, hs₂⟩ := joinGroup_of_anchored (h.anchored.taskCreate hs) hl.task hlive
  have htask : k'.sys.task k.sys.nextTask = some r' := hk ▸ hl.task
  obtain ⟨ttys, httys⟩ : ∃ ttys, k'.retainTty r'.group = some ttys := by
    rw [retainTty, htty, httys, hgroup]
    cases hy : k.tty r.group with
    | none => exact ⟨_, rfl⟩
    | some y =>
      obtain ⟨ttys, httys, -⟩ := Pool.retain_of_live (h.tty hr hy)
      exact ⟨ttys, httys⟩
  obtain ⟨k'', hjoin, hsys⟩ : ∃ k'', k'.joinGroup k.sys.nextTask flags = some k'' ∧ k''.sys = s₂ := by
    rw [joinGroup, htask]
    dsimp only [Option.bind_eq_bind, Option.bind_some]
    rw [hk, hs₂, Option.bind_some]
    split
    · exact ⟨_, rfl, rfl⟩
    · rw [httys]
      exact ⟨_, rfl, rfl⟩
  exact ⟨k'', r', hjoin, hl.task, hsys ▸ hs₂⟩

/-! The labels. -/

theorem failFreeMem_eq_some (h : k.failFreeMem p err = some (k', e)) :
    e = err ∧ k'.sys = k.sys ∧ k'.files = k.files := by
  obtain ⟨mems, -, h⟩ := Option.bind_eq_some_iff.mp h
  cases h
  exact ⟨rfl, rfl, rfl⟩

theorem failFreeFiles_eq_some (h : k.failFreeFiles t p err = some (k', e)) :
    e = err ∧ k'.sys = k.sys ∧ k.files.fdtableRelease t p.files = some k'.files := by
  obtain ⟨files, hfiles, h⟩ := Option.bind_eq_some_iff.mp h
  obtain ⟨he, hsys, heq⟩ := failFreeMem_eq_some h
  exact ⟨he, hsys, heq ▸ hfiles⟩

theorem failFreeFs_eq_some (h : k.failFreeFs t p err = some (k', e)) :
    e = err ∧ k'.sys = k.sys ∧ ∃ files, k.files.fsInfoRelease p.fs = some files ∧
      files.fdtableRelease t p.files = some k'.files := by
  obtain ⟨files, hfiles, h⟩ := Option.bind_eq_some_iff.mp h
  obtain ⟨he, hsys, heq⟩ := failFreeFiles_eq_some h
  exact ⟨he, hsys, files, hfiles, heq⟩

theorem failFreeSighand_eq_some (h : k.failFreeSighand t p err = some (k', e)) :
    e = err ∧ k'.sys = k.sys := by
  obtain ⟨sighands, -, h⟩ := Option.bind_eq_some_iff.mp h
  obtain ⟨he, hsys, -⟩ := failFreeFs_eq_some h
  exact ⟨he, hsys⟩

/-- The labels have given back what was taken. -/
structure GivenBack (k k' : State) : Prop where
  pointers : k'.pointers = k.pointers
  fds : k'.files.fds = k.files.fds
  tables : Pool.Same k.files.tables k'.files.tables
  fsInfos : Pool.Same k.files.fsInfos k'.files.fsInfos
  sighands : k'.sighands = k.sighands
  mems : Pool.Same k.mems k'.mems
  ttys : k'.ttys = k.ttys

theorem GivenBack.undone (hg : GivenBack k k') (h : k.Valid current me)
    (hl : Forgotten k.sys k'.sys pid) : Undone k k' current me pid where
  pointers := by rw [hg.pointers, h.pointers]
  descriptors := hg.tables.val _ h.table
  opened d := by rw [hg.fds]
  directories := hg.fsInfos.val _ h.fs
  handlers := by rw [hg.sighands]
  mem := hg.mems.refcount _
  table := hg.tables.refcount _
  fs := hg.fsInfos.refcount _
  sighand := by rw [hg.sighands]
  tty y := by rw [hg.ttys]
  lists := hl

/-! The call. -/

/-- `sys_clone` after `copy_task`. -/
def finish (s₁ : System) (t : TaskId) (x : State × ℤ) : Option (State × ℤ) :=
  if x.2 < 0 then (x.1.sys.taskDestroy t).bind fun sys ↦ some (x.1.withSys sys, x.2)
  else some (x.1.withSys (x.1.sys.setRunning t true), s₁.curPid)

theorem sysClone_eq (hacc : accepted flags) (hme : k.pointers current = some me)
    (hr : k.sys.task current = some r) (hf : f.task = false)
    (hs : k.sys.taskCreate current r = some s₁) :
    k.sysClone current flags f =
      ((k.withSys s₁).copyTask k.sys.nextTask me flags f).bind (finish s₁ k.sys.nextTask) := by
  rw [sysClone, if_pos hacc, hme, hr]
  dsimp only [Option.bind_eq_bind, Option.bind_some]
  rw [if_neg (by simp [hf]), hs]
  rfl

theorem unwinds_iff_of_copyTask (h : k.Valid current me) (hacc : accepted flags)
    (hr : k.sys.task current = some r) (hf : f.task = false) (hpid : k.sys.nextPid = some pid)
    (hs : k.sys.taskCreate current r = some s₁) :
    k.Unwinds current me flags f ↔ ∃ k' e, ((k.withSys s₁).copyTask k.sys.nextTask me flags f).bind
      (finish s₁ k.sys.nextTask) = some (k', e) ∧ (e < 0 → Undone k k' current me pid) := by
  rw [← sysClone_eq hacc h.pointers hr hf hs]
  refine ⟨fun hu ↦ hu pid hpid, fun hu pid' hpid' ↦ ?_⟩
  obtain rfl := Option.some.inj (hpid.symm.trans hpid')
  exact hu

/-- A call that fails with everything given back. -/
theorem exists_undone (h : k.Valid current me) (hpid : k.sys.nextPid = some pid)
    (hs : k.sys.taskCreate current r = some s₁) (hg : GivenBack k k') (hk : k'.sys = s₁)
    (herr : err < 0) :
    ∃ k'' e, finish s₁ k.sys.nextTask (k', err) = some (k'', e) ∧
      (e < 0 → Undone k k'' current me pid) := by
  obtain ⟨s', hs', hl⟩ := forgotten_destroy h.wf h.anchored hpid hs
  refine ⟨k'.withSys s', err, ?_, fun _ ↦ ?_⟩
  · rw [finish, if_pos herr, hk, hs']
    rfl
  · exact (show GivenBack k (k'.withSys s') from ⟨hg.pointers, hg.fds, hg.tables, hg.fsInfos,
      hg.sighands, hg.mems, hg.ttys⟩).undone h hl

/-! `copy_task`, by the first thing that goes wrong. -/

section

variable (s₁ t)

theorem copyTask_noTable (h : k.Valid current me) (hf : has flags cloneFiles = false ∧ f.table) :
    ∃ k' e, (k.withSys s₁).copyTask t me flags f = some (k', e) ∧ e < 0 ∧ GivenBack k k' ∧
      k'.sys = s₁ := by
  obtain ⟨mem, mems, hmem, hacq⟩ := copyMem_of_live (k := k.withSys s₁) flags h.mem
  obtain ⟨mems', hfree, hsame⟩ := failFreeMem_of_acquired (p := { me with mem := mem })
    ((k.withSys s₁).withMems mems) eNomem hacq
  have hcopy : ((k.withSys s₁).withMems mems).copyFiles me.files flags f.table =
      some (.error eNomem) := by
    rw [copyFiles, if_neg (by simp [hf.1]), hf.2, Files.fdtableCopy,
      show ((k.withSys s₁).withMems mems).files.tables.get me.files = _ from
        Pool.get_of_live h.table]
    rfl
  refine ⟨((k.withSys s₁).withMems mems).withMems mems', eNomem, ?_, by decide,
    ⟨rfl, rfl, .refl _, .refl _, rfl, hsame, rfl⟩, rfl⟩
  rw [copyTask, hmem]
  dsimp only [Option.bind_eq_bind, Option.bind_some]
  rw [hcopy]
  exact hfree

/-- What holds of a call once it has its descriptors. -/
theorem copyTask_of_files (h : k.Valid current me) (hf : ¬(has flags cloneFiles = false ∧ f.table)) :
    ∃ mem k₁ files t', Pool.Acquired k.mems mem k₁.mems ∧ k₁ = (k.withSys s₁).withMems k₁.mems ∧
      Copied k.files files me.files t' flags ∧
      (k.withSys s₁).copyTask t me flags f = ((k₁.withFiles files).copyFs me.fs flags f.fs).bind
        fun x ↦ (x.2.copySighand me.sighand flags f.sighand).bind fun y ↦ match y with
          | none => x.2.failFreeFs me.files ⟨mem, t', x.1, me.sighand⟩ enomem
          | some (sighand, k₂) => (k₂.joinGroup t flags).bind fun k' ↦
            if badAddress flags f then
              k'.failFreeSighand me.files ⟨mem, t', x.1, sighand⟩ efault
            else some ({ k' with
              pointers := Function.update k'.pointers t (some ⟨mem, t', x.1, sighand⟩) }, 0) := by
  obtain ⟨mem, mems, hmem, hacq⟩ := copyMem_of_live (k := k.withSys s₁) flags h.mem
  obtain ⟨t', files, hfiles, hcopied⟩ := copyFiles_of_live (k := (k.withSys s₁).withMems mems)
    (p := me) h.table h.size h.opened hf
  refine ⟨mem, (k.withSys s₁).withMems mems, files, t', hacq, rfl, hcopied, ?_⟩
  rw [copyTask, hmem]
  dsimp only [Option.bind_eq_bind, Option.bind_some]
  rw [hfiles]
  rfl

theorem copyTask_noFs (h : k.Valid current me) (hf : ¬(has flags cloneFiles = false ∧ f.table))
    (hfs : ¬(has flags cloneFs ∨ f.fs = false)) :
    (k.withSys s₁).copyTask t me flags f = none := by
  obtain ⟨mem, k₁, files, t', -, -, hcopied, heq⟩ := copyTask_of_files s₁ t h hf
  obtain ⟨hshare, hm⟩ := not_or.mp hfs
  have hget : files.fsInfos.get me.fs = some (files.fsInfos.val me.fs) := by
    rw [hcopied.fsInfos]
    exact Pool.get_of_live h.fs
  rw [heq, copyFs, if_neg hshare, Files.fsInfoCopy,
    show (k₁.withFiles files).files.fsInfos.get me.fs = _ from hget, Option.bind_eq_bind,
    Option.bind_some, if_pos (by simpa using hm)]
  rfl

/-- What holds of a call once it has its directories too. -/
theorem copyTask_of_fs (h : k.Valid current me) (hf : ¬(has flags cloneFiles = false ∧ f.table))
    (hfs : has flags cloneFs ∨ f.fs = false) :
    ∃ mem k₁ files files' t' i fsInfos, Pool.Acquired k.mems mem k₁.mems ∧
      k₁ = ((k.withSys s₁).withMems k₁.mems).withFiles files' ∧
      Copied k.files files me.files t' flags ∧ files'.tables = files.tables ∧
      files'.fsInfoRelease i = some { files with fsInfos := fsInfos } ∧
      Pool.Same k.files.fsInfos fsInfos ∧
      (k.withSys s₁).copyTask t me flags f =
        (k₁.copySighand me.sighand flags f.sighand).bind fun y ↦ match y with
          | none => k₁.failFreeFs me.files ⟨mem, t', i, me.sighand⟩ enomem
          | some (sighand, k₂) => (k₂.joinGroup t flags).bind fun k' ↦
            if badAddress flags f then
              k'.failFreeSighand me.files ⟨mem, t', i, sighand⟩ efault
            else some ({ k' with
              pointers := Function.update k'.pointers t (some ⟨mem, t', i, sighand⟩) }, 0) := by
  obtain ⟨mem, k₁, files, t', hacq, hk₁, hcopied, heq⟩ := copyTask_of_files s₁ t h hf
  have hlive : files.fsInfos.live me.fs := hcopied.fsInfos ▸ h.fs
  have hpwd : files.fds.live (files.fsInfos.val me.fs).pwd :=
    hcopied.live _ (hcopied.fsInfos ▸ h.pwd)
  have hroot : files.fds.live (files.fsInfos.val me.fs).root :=
    hcopied.live _ (hcopied.fsInfos ▸ h.root)
  obtain ⟨i, files', hcopy, htables, fsInfos, hrelease, hsame⟩ :=
    copyFs_of_live (k := k₁.withFiles files) (p := me) hlive hpwd hroot hfs
  refine ⟨mem, k₁.withFiles files', files, files', t', i, fsInfos, hacq, ?_, hcopied, htables,
    hrelease, hcopied.fsInfos ▸ hsame, ?_⟩
  · rw [hk₁]
    rfl
  · rw [heq, hcopy]
    rfl

theorem copySighand_noMemory (hf : has flags cloneSighand = false ∧ f.sighand) :
    k.copySighand me.sighand flags f.sighand = some none := by
  rw [copySighand, if_neg (by simp [hf.1]), if_pos hf.2]

theorem copyTask_noSighand_givenBack (h : k.Valid current me)
    (hf : ¬(has flags cloneFiles = false ∧ f.table)) (hfs : has flags cloneFs ∨ f.fs = false)
    (hs : has flags cloneSighand = false ∧ f.sighand)
    (hopen : has flags cloneFiles ∨ (k.files.tables.val me.files).opened = []) :
    ∃ k' e, (k.withSys s₁).copyTask t me flags f = some (k', e) ∧ e < 0 ∧ GivenBack k k' ∧
      k'.sys = s₁ := by
  obtain ⟨mem, k₁, files, files', t', i, fsInfos, hacq, hk₁, hcopied, htables, hrelease, hsame, heq⟩ :=
    copyTask_of_fs s₁ t h hf hfs
  obtain ⟨hfds, hgives⟩ := hcopied.givesBack hopen
  obtain ⟨tables, hfree, hsame'⟩ := hgives { files with fsInfos := fsInfos } rfl
  obtain ⟨mems, hmem, hsame''⟩ := failFreeMem_of_acquired (k := k)
    (p := ⟨mem, t', i, me.sighand⟩)
    (k₁.withFiles { files with fsInfos := fsInfos, tables := tables }) enomem hacq
  refine ⟨(k₁.withFiles { files with fsInfos := fsInfos, tables := tables }).withMems mems, enomem,
    ?_, by decide, ?_, ?_⟩
  · rw [heq, copySighand_noMemory hs, Option.bind_some, failFreeFs,
      show k₁.files = files' from congrArg State.files hk₁, hrelease]
    dsimp only [Option.bind_eq_bind, Option.bind_some]
    rw [failFreeFiles, show (k₁.withFiles { files with fsInfos := fsInfos }).files.fdtableRelease
      me.files t' = _ from hfree]
    exact hmem
  · rw [hk₁]
    exact ⟨rfl, hfds, hsame', hsame, rfl, hsame'', rfl⟩
  · rw [hk₁]
    rfl

end

theorem copyTask_noSighand_closes (h : k.Valid current me)
    (hf : ¬(has flags cloneFiles = false ∧ f.table)) (hfs : has flags cloneFs ∨ f.fs = false)
    (hs : has flags cloneSighand = false ∧ f.sighand) (hcopy : has flags cloneFiles = false)
    (hrun : (k.withSys s₁).copyTask t me flags f = some (k', e)) :
    e < 0 ∧ k'.sys = s₁ ∧
      ∀ n < (k.files.tables.val me.files).size, (k'.files.tables.val me.files).get n = none := by
  obtain ⟨mem, k₁, files, files', t', i, fsInfos, -, hk₁, hcopied, -, hrelease, -, heq⟩ :=
    copyTask_of_fs s₁ t h hf hfs
  rw [heq, copySighand_noMemory hs, Option.bind_some] at hrun
  obtain ⟨rfl, hsys, files₂, hfiles₂, hfree⟩ := failFreeFs_eq_some hrun
  rw [show k₁.files = files' from congrArg State.files hk₁, hrelease] at hfiles₂
  obtain rfl := Option.some.inj hfiles₂
  refine ⟨by decide, ?_, hcopied.closes hcopy { files with fsInfos := fsInfos } _ rfl hfree⟩
  rw [hsys, hk₁]
  rfl

theorem copyTask_joined (h : k.Valid current me) (hr : k.sys.task current = some r)
    (hcreate : k.sys.taskCreate current r = some s₁)
    (hf : ¬(has flags cloneFiles = false ∧ f.table)) (hfs : has flags cloneFs ∨ f.fs = false)
    (hs : ¬(has flags cloneSighand = false ∧ f.sighand)) :
    ∃ (k' : State) (r' : Process.Task) (p : Pointers), s₁.task k.sys.nextTask = some r' ∧
      s₁.joinGroup k.sys.nextTask flags = some k'.sys ∧
      (k.withSys s₁).copyTask k.sys.nextTask me flags f =
        if badAddress flags f then k'.failFreeSighand me.files p efault
        else some ({ k' with
          pointers := Function.update k'.pointers k.sys.nextTask (some p) }, 0) := by
  obtain ⟨mem, k₁, files, files', t', i, fsInfos, -, hk₁, -, -, -, -, heq⟩ :=
    copyTask_of_fs s₁ k.sys.nextTask h hf hfs
  have hlive : k₁.sighands.live me.sighand := by
    rw [hk₁]
    exact h.sighand
  obtain ⟨j, sighands, hcopy⟩ := copySighand_of_live (p := me) hlive hs
  have hsys₁ : k₁.sys = s₁ := by
    rw [hk₁]
    rfl
  have htty : k₁.tty = k.tty := by
    rw [hk₁]
    rfl
  have httys : k₁.ttys = k.ttys := by
    rw [hk₁]
    rfl
  obtain ⟨k', r', hjoin, hr', hsys⟩ := @joinGroup_of_valid _ _ _ flags _
    { k₁ with sighands := sighands } _ h hr hcreate hsys₁ htty httys
  refine ⟨k', r', ⟨mem, t', i, j⟩, hr', hsys, ?_⟩
  rw [heq, hcopy, Option.bind_some]
  dsimp only
  rw [hjoin, Option.bind_some]

theorem finish_eq_some (h : finish s₁ t (k, err) = some (k', e)) (herr : err < 0) :
    e = err ∧ k'.files = k.files ∧ k'.sys.threads = k.sys.threads := by
  rw [finish, if_pos herr] at h
  obtain ⟨s', hs', heq⟩ := Option.bind_eq_some_iff.mp h
  obtain ⟨r, -, rfl⟩ := Option.map_eq_some_iff.mp hs'
  cases heq
  exact ⟨rfl, rfl, rfl⟩

/-- A task that has joined a group is on its list after the call, when it fails. -/
theorem not_undone_of_joined {r' : Process.Task} (hr' : s₁.task k.sys.nextTask = some r')
    (hjoin : s₁.joinGroup k.sys.nextTask flags = some k'.sys)
    (hbad : ∃ k₁ e, (k'.failFreeSighand t p efault).bind (finish s₁ k.sys.nextTask) = some (k₁, e) ∧
      (e < 0 → Undone k k₁ current me pid)) : False := by
  obtain ⟨k₁, e, hrun, hundone⟩ := hbad
  obtain ⟨⟨k₂, e₂⟩, hfree, hfinish⟩ := Option.bind_eq_some_iff.mp hrun
  obtain ⟨rfl, hsys⟩ := failFreeSighand_eq_some hfree
  obtain ⟨rfl, -, hthreads⟩ := finish_eq_some hfinish (by decide)
  refine not_forgotten_of_join hr' hjoin ?_ (hundone (by decide)).lists
  rw [hthreads, hsys]

/-- The caller's descriptors are gone after the call, when there are any. -/
theorem not_undone_of_closed (h : k.Valid current me)
    (hf : ¬(has flags cloneFiles = false ∧ f.table)) (hfs : has flags cloneFs ∨ f.fs = false)
    (hs : has flags cloneSighand = false ∧ f.sighand)
    (hopen : ¬(has flags cloneFiles ∨ (k.files.tables.val me.files).opened = []))
    (hbad : ∃ k₁ e, ((k.withSys s₁).copyTask k.sys.nextTask me flags f).bind
      (finish s₁ k.sys.nextTask) = some (k₁, e) ∧ (e < 0 → Undone k k₁ current me pid)) : False := by
  obtain ⟨hcopy, hne⟩ := not_or.mp hopen
  obtain ⟨k₁, e, hrun, hundone⟩ := hbad
  obtain ⟨⟨k₂, e₂⟩, hcopied, hfinish⟩ := Option.bind_eq_some_iff.mp hrun
  obtain ⟨hneg, -, hclosed⟩ :=
    copyTask_noSighand_closes h hf hfs hs (by simpa using hcopy) hcopied
  obtain ⟨rfl, hfiles, -⟩ := finish_eq_some hfinish hneg
  obtain ⟨d, hd⟩ := List.exists_mem_of_ne_nil _ hne
  obtain ⟨n, hn⟩ := FdTable.mem_opened.mp hd
  have hnone := hclosed n (FdTable.lt_of_get hn)
  rw [← hfiles, (hundone hneg).descriptors, hn] at hnone
  cases hnone

/-- The calls that get as far as `copy_task`. -/
theorem unwinds_iff_of_created (h : k.Valid current me) (hpid : k.sys.nextPid = some pid)
    (hacc : accepted flags) (hf : f.task = false) :
    k.Unwinds current me flags f ↔ (has flags cloneFiles = false ∧ f.table) ∨
      ((has flags cloneFs ∨ f.fs = false) ∧
        if has flags cloneSighand = false ∧ f.sighand then
          has flags cloneFiles ∨ (k.files.tables.val me.files).opened = []
        else badAddress flags f = false) := by
  obtain ⟨r, hr⟩ := Option.isSome_iff_exists.mp (isSome_of_runs h.runs)
  obtain ⟨s₁, hs⟩ : ∃ s₁, k.sys.taskCreate current r = some s₁ := by
    rw [taskCreate, hpid]
    exact ⟨_, rfl⟩
  refine (unwinds_iff_of_copyTask h hacc hr hf hpid hs).trans ?_
  by_cases htable : has flags cloneFiles = false ∧ f.table
  · refine iff_of_true ?_ (.inl htable)
    obtain ⟨k', e, hrun, he, hg, hsys⟩ :=
      copyTask_noTable s₁ k.sys.nextTask h htable
    rw [hrun]
    exact exists_undone h hpid hs hg hsys he
  refine Iff.trans ?_ (or_iff_right htable).symm
  by_cases hfs : has flags cloneFs ∨ f.fs = false
  swap
  · refine iff_of_false ?_ fun hfits ↦ hfs hfits.1
    rw [copyTask_noFs s₁ k.sys.nextTask h htable hfs]
    rintro ⟨k', e, hrun, -⟩
    cases hrun
  refine Iff.trans ?_ (and_iff_right hfs).symm
  split
  · rename_i hsig
    by_cases hopen : has flags cloneFiles ∨ (k.files.tables.val me.files).opened = []
    · refine iff_of_true ?_ hopen
      obtain ⟨k', e, hrun, he, hg, hsys⟩ :=
        copyTask_noSighand_givenBack s₁ k.sys.nextTask h htable hfs hsig hopen
      rw [hrun]
      exact exists_undone h hpid hs hg hsys he
    · exact iff_of_false (not_undone_of_closed h htable hfs hsig hopen) hopen
  · rename_i hsig
    obtain ⟨k', r', p, hr', hjoin, hrun⟩ := copyTask_joined h hr hs htable hfs hsig
    rw [hrun]
    cases hbad : badAddress flags f with
    | true => exact iff_of_false (fun hu ↦ not_undone_of_joined hr' hjoin hu) (by decide)
    | false =>
      refine iff_of_true ⟨_, _, rfl, fun hneg ↦ ?_⟩ rfl
      exact absurd hneg (Int.not_lt.mpr (Int.natCast_nonneg _))

/-- When a call of `sys_clone` that fails leaves nothing behind. -/
theorem sysClone_unwinds_iff (h : k.Valid current me) :
    k.Unwinds current me flags f ↔ k.CloneFits me flags f := by
  unfold CloneFits
  cases hpid : k.sys.nextPid with
  | none => exact iff_of_true (fun pid hp ↦ by cases hpid.symm.trans hp) (.inl rfl)
  | some pid =>
    refine Iff.trans ?_ (or_iff_right (Option.some_ne_none _)).symm
    have hself := forgotten_self h.wf h.anchored hpid
    have hnum {pid' : Pid} (hp : k.sys.nextPid = some pid') : pid' = pid :=
      Option.some.inj (hp.symm.trans hpid)
    cases hacc : accepted flags with
    | false =>
      refine iff_of_true (fun pid' hp ↦ ⟨k, einval, ?_, fun _ ↦ ?_⟩) (.inl rfl)
      · rw [sysClone, if_neg (by simp [hacc])]
      · obtain rfl := hnum hp
        have hg : GivenBack k k := ⟨rfl, rfl, .refl _, .refl _, rfl, .refl _, rfl⟩
        exact hg.undone h hself
    | true =>
      refine Iff.trans ?_ (or_iff_right (by decide)).symm
      cases hf : f.task with
      | true =>
        refine iff_of_true (fun pid' hp ↦ ?_) (.inl rfl)
        obtain rfl := hnum hp
        obtain ⟨r, hr⟩ := Option.isSome_iff_exists.mp (isSome_of_runs h.runs)
        refine ⟨k.withSys { k.sys with curPid := pid' }, enomem, ?_, fun _ ↦ ?_⟩
        · rw [sysClone, if_pos hacc, h.pointers, hr]
          dsimp only [Option.bind_eq_bind, Option.bind_some]
          rw [if_pos hf, hpid]
          rfl
        · have hg : GivenBack k (k.withSys { k.sys with curPid := pid' }) :=
            ⟨rfl, rfl, .refl _, .refl _, rfl, .refl _, rfl⟩
          exact hg.undone h ⟨hself.threads, hself.children, hself.pgroup, hself.session, hself.pid⟩
      | false =>
        exact (unwinds_iff_of_created h hpid hacc hf).trans (or_iff_right (by decide)).symm

/-- The first process with its standard descriptors, after `create_stdio`. -/
def boot : State where
  sys := System.init
  pointers := Function.update (fun _ ↦ none) initTask (some ⟨0, 0, 0, 0⟩)
  mems := .ofCounts [1] fun _ ↦ ()
  files :=
    { fds := .ofCounts [2, 3] fun _ ↦ ⟨0⟩
      tables := .ofCounts [1] fun _ ↦ ⟨[some 1, some 1, some 1], fun _ ↦ false⟩
      fsInfos := .ofCounts [1] fun _ ↦ ⟨0o22, 0, 0⟩ }
  sighands := .ofCounts [1] fun _ _ ↦ ⟨0, 0, 0, 0⟩
  ttys := .ofCounts [] fun _ ↦ ()
  tty := fun _ ↦ none

theorem boot_valid : boot.Valid initTask ⟨0, 0, 0, 0⟩ where
  wf := init_wf
  anchored := init_anchored
  runs := rfl
  pointers := rfl
  mem := by decide
  table := by decide
  size := by decide
  opened := by decide
  fs := by decide
  pwd := by decide
  root := by decide
  sighand := by decide
  tty _ hy := by cases hy

def noFailure : Failures := ⟨false, false, false, false, false, false, false⟩

theorem boot_unwinds :
    boot.Unwinds initTask ⟨0, 0, 0, 0⟩ 17 { noFailure with table := true } :=
  (sysClone_unwinds_iff boot_valid).mpr (.inr (.inr (.inr (.inl ⟨by decide, rfl⟩))))

/-- A plain fork that finds no memory for the signal handlers closes the
standard descriptors, one without memory for the directories crashes, and one
with a bad address leaves the group behind. -/
theorem boot_fork_leaves :
    boot.Valid initTask ⟨0, 0, 0, 0⟩ ∧
    ¬boot.Unwinds initTask ⟨0, 0, 0, 0⟩ 17 { noFailure with sighand := true } ∧
    ¬boot.Unwinds initTask ⟨0, 0, 0, 0⟩ 17 { noFailure with fs := true } ∧
    ¬boot.Unwinds initTask ⟨0, 0, 0, 0⟩ (17 ||| cloneChildSettid) { noFailure with ctid := true } := by
  have hpid : boot.sys.nextPid = some 2 := by decide +kernel
  refine ⟨boot_valid, fun hu ↦ ?_, fun hu ↦ ?_, fun hu ↦ ?_⟩
  · exact absurd ((unwinds_iff_of_created boot_valid hpid (by decide) rfl).mp hu) (by decide)
  · exact absurd ((unwinds_iff_of_created boot_valid hpid (by decide) rfl).mp hu) (by decide)
  · exact absurd ((unwinds_iff_of_created boot_valid hpid (by decide) rfl).mp hu) (by decide)

end

end State

end Isl.Kernel.Fork
