import Isl.Lib.Links
import Mathlib.Data.BitVec
import Mathlib.Data.Int.Notation

/-!
Tasks and thread groups: creation, exit, `wait4` and the process group calls
of `kernel/task.c`, `fork.c`, `exit.c` and `group.c`. Objects are numbered in
the order they are allocated, and the number of a freed one is not used again.
A call that follows a null pointer or a pointer to a freed object has no
result.
-/

namespace Isl.Kernel.Process

open Isl.Lib

abbrev TaskId := ℕ
abbrev GroupId := ℕ
abbrev Pid := ℕ
abbrev Dword := BitVec 32

def maxPid : Pid := 1 <<< 10

def eperm : ℤ := -1
def esrch : ℤ := -3
def echild : ℤ := -10
def enomem : ℤ := -12
def efault : ℤ := -14
def einval : ℤ := -22

/-- `running` tells whether the thread that runs the task has not exited. -/
structure Task where
  group : GroupId
  pid : Pid
  parent : Option TaskId
  zombie : Bool
  running : Bool
deriving DecidableEq

structure Group where
  leader : TaskId
  sid : Pid
  pgid : Pid
deriving DecidableEq

/-- The lists are named by the objects their heads are in: the children of a
task, the threads of a group, the groups of a session and of a process group. -/
structure System where
  task : TaskId → Option Task
  nextTask : TaskId
  children : TaskId → List TaskId
  group : GroupId → Option Group
  nextGroup : GroupId
  threads : GroupId → List TaskId
  pidTask : Pid → Option TaskId
  session : Pid → List GroupId
  pgroup : Pid → List GroupId
  curPid : Pid

/-- How `copy_task` ends: an allocation fails before the task is in a group,
or a store to the guest's memory fails after. -/
inductive CopyResult
  | ok
  | noMemory
  | badAddress
deriving DecidableEq

namespace System

def setTask (s : System) (t : TaskId) (r : Option Task) : System :=
  { s with task := Function.update s.task t r }

def setGroup (s : System) (g : GroupId) (r : Option Group) : System :=
  { s with group := Function.update s.group g r }

def runs (s : System) (t : TaskId) : Bool := (s.task t).any Task.running

/-- A group is on one of the lists of the process table. -/
def listed (lists : Pid → List GroupId) (g : GroupId) : Bool :=
  (List.range (maxPid + 1)).any fun p ↦ decide (g ∈ lists p)

/-! The process table. -/

def pidEmpty (s : System) (p : Pid) : Bool :=
  (s.pidTask p).isNone && (s.session p).isEmpty && (s.pgroup p).isEmpty

/-- The check lets one number past the end of the table through: the callers
leave out what reading that slot gives. -/
def pidGet (s : System) (id : Pid) : Option Pid :=
  if id > maxPid + 1 ∨ s.pidEmpty id then none else some id

def pastTable (id : Pid) : Bool := id == maxPid + 1

def pidGetTaskZombie (s : System) (id : Pid) : Option TaskId := (s.pidGet id).bind s.pidTask

def pidGetTask (s : System) (id : Pid) : Option TaskId :=
  (s.pidGetTaskZombie id).filter fun t ↦ !(s.task t).any Task.zombie

/-- The loop of `task_create_`, which does not end when every slot is taken. -/
def nextPid (s : System) : Option Pid :=
  ((List.range (maxPid + 1)).map fun i ↦ (s.curPid + 1 + i) % (maxPid + 1)).find? s.pidEmpty

/-- `task_create_` for a running parent, whose record `r` is copied. -/
def taskCreate (s : System) (parent : TaskId) (r : Task) : Option System :=
  s.nextPid.map fun pid ↦
    { s with
      task := Function.update s.task s.nextTask
        (some { r with pid := pid, parent := some parent, running := false })
      nextTask := s.nextTask + 1
      children := Links.add (Function.update s.children s.nextTask []) parent s.nextTask
      pidTask := Function.update s.pidTask pid (some s.nextTask)
      curPid := pid }

def taskDestroy (s : System) (t : TaskId) : Option System :=
  (s.task t).map fun r ↦
    { s with
      task := Function.update s.task t none
      children := Links.remove s.children t
      pidTask := Function.update s.pidTask r.pid none }

/-! Clone. -/

def csignal : Dword := 0x000000ff
def cloneVm : Dword := 0x00000100
def cloneFs : Dword := 0x00000200
def cloneFiles : Dword := 0x00000400
def cloneSighand : Dword := 0x00000800
def cloneVfork : Dword := 0x00004000
def cloneThread : Dword := 0x00010000
def cloneSysvsem : Dword := 0x00040000
def cloneSettls : Dword := 0x00080000
def cloneParentSettid : Dword := 0x00100000
def cloneChildCleartid : Dword := 0x00200000
def cloneDetached : Dword := 0x00400000
def cloneChildSettid : Dword := 0x01000000

def implementedFlags : Dword :=
  cloneVm ||| cloneFiles ||| cloneFs ||| cloneSighand ||| cloneSysvsem ||| cloneVfork |||
    cloneThread ||| cloneSettls ||| cloneChildSettid ||| cloneParentSettid |||
    cloneChildCleartid ||| cloneDetached

def has (flags bit : Dword) : Bool := flags &&& bit != 0

def accepted (flags : Dword) : Bool :=
  flags &&& ~~~csignal &&& ~~~implementedFlags == 0 &&
    !(has flags cloneSighand && !has flags cloneVm) &&
    !(has flags cloneThread && !has flags cloneSighand)

/-- `tgroup_copy` for the new task `t`. -/
def tgroupCopy (s : System) (t : TaskId) (old : GroupId) : Option System := do
  let group ← s.group old
  if listed s.pgroup old && listed s.session old then
    some { s.setGroup s.nextGroup (some { group with leader := t }) with
      nextGroup := s.nextGroup + 1
      threads := Function.update s.threads s.nextGroup []
      pgroup := Links.addAfter s.pgroup old s.nextGroup
      session := Links.addAfter s.session old s.nextGroup }
  else none

/-- The part of `copy_task` that puts the task `t` into a group. -/
def joinGroup (s : System) (t : TaskId) (flags : Dword) : Option System := do
  let r ← s.task t
  if has flags cloneThread then some { s with threads := Links.add s.threads r.group t }
  else
    let s' ← s.tgroupCopy t r.group
    some { s'.setTask t (some { r with group := s.nextGroup }) with
      threads := Links.add s'.threads s.nextGroup t }

def setRunning (s : System) (t : TaskId) (running : Bool) : System :=
  s.setTask t ((s.task t).map fun r ↦ { r with running := running })

def sysClone (s : System) (current : TaskId) (flags : Dword) (result : CopyResult) :
    Option (System × ℤ) :=
  if accepted flags then do
    let me ← s.task current
    let t := s.nextTask
    let s ← s.taskCreate current me
    match result with
    | .noMemory => (s.taskDestroy t).map (·, enomem)
    | .badAddress =>
      -- the task leaves the table, but not the group
      if has flags (cloneSettls ||| cloneChildSettid ||| cloneParentSettid) then
        ((s.joinGroup t flags).bind (·.taskDestroy t)).map (·, efault)
      else none
    | .ok => (s.joinGroup t flags).map fun s' ↦ (s'.setRunning t true, s.curPid)
  else some (s, einval)

/-! Exit. -/

/-- `exit_tgroup`, with whether the group is dead. -/
def exitTgroup (s : System) (t : TaskId) (g : GroupId) : Option (System × Bool) :=
  let threads := Links.remove s.threads t
  if threads g = [] then
    if listed s.pgroup g && listed s.session g then
      some ({ s with
        threads := threads
        pgroup := Links.remove s.pgroup g
        session := Links.remove s.session g }, true)
    else none
  else some ({ s with threads := threads }, false)

/-- The loop over the children of `do_exit`. It writes the pointer of each and
leaves the list as it is. -/
def reparent (s : System) (t : TaskId) (parent : Option TaskId) : System :=
  { s with
    task := fun c ↦
      if c ∈ s.children t then (s.task c).map fun r ↦ { r with parent := parent } else s.task c }

/-- `halt_system` kills the program when it finds a task to signal. -/
def haltSystem (s : System) : Option System :=
  if (List.range' 2 (maxPid - 2)).any fun p ↦ (s.pidGetTask p).isSome then none else some s

def notifyParent (s : System) (leader : TaskId) : Option System := do
  let r ← s.task leader
  match r.parent with
  | none => s.haltSystem
  | some parent =>
    if (s.task parent).isSome then some (s.setTask leader (some { r with zombie := true }))
    else none

/-- The block of `do_exit` for the last thread of a group. -/
def groupExit (s : System) (current leader : TaskId) (dead : Bool) : Option System :=
  if dead then (s.reparent current (s.pidGetTask 1)).notifyParent leader else some s

def doExit (s : System) (current : TaskId) : Option System := do
  let r ← s.task current
  let group ← s.group r.group
  let (s, dead) ← (s.setRunning current false).exitTgroup current r.group
  let s ← s.groupExit current group.leader dead
  if current = group.leader then some s else s.taskDestroy current

/-! Wait. -/

def isLeader (s : System) (t : TaskId) : Bool :=
  (s.task t).any fun r ↦ (s.group r.group).any fun g ↦ g.leader == t

def isZombie (s : System) (t : TaskId) : Bool := (s.task t).any Task.zombie

/-- The zombie that one look of `wait4` at the children finds. The number is
`-1` or the one waited for. -/
def waitTarget (s : System) (current : TaskId) : Option Pid → Option (Option TaskId)
  | none => some ((s.children current).find? fun c ↦ s.isLeader c && s.isZombie c)
  | some id =>
    if pastTable id then none
    else
      match s.pidGetTaskZombie id with
      | none => some none
      | some t => do
        let me ← s.task current
        let r ← s.task t
        let parent ← r.parent.bind s.task
        if parent.group ≠ me.group then some none
        else do
          let group ← s.group r.group
          some (if s.isZombie group.leader then some group.leader else none)

/-- The end of `reap_if_zombie`. -/
def reap (s : System) (t : TaskId) : Option System := do
  let r ← s.task t
  (s.setGroup r.group none).taskDestroy t

/-- One pass of the loop of `sys_wait4`. A pass that finds no zombie fails or
sleeps; one whose stores to the guest's memory fail reaps nothing. -/
def sysWait4 (s : System) (current : TaskId) (id : Option Pid) (fault : Bool) : Option System := do
  match ← s.waitTarget current id with
  | none => some s
  | some t => if fault then some s else s.reap t

/-! Process groups and sessions. -/

/-- Whether a group may join the process group `pgid`: another one has to have
a member, in the same session. -/
def mayJoin (s : System) (group : Group) (id pgid : Pid) : Option Bool :=
  if id = pgid then some true
  else if pastTable pgid then none
  else if s.pidGet pgid = none ∨ s.pgroup pgid = [] then some false
  else ((s.pgroup pgid).head?.bind s.group).map fun first ↦ group.sid == first.sid

/-- A null number is the caller's. -/
def defaultTo (id default : Pid) : Pid := if id = 0 then default else id

def sysSetpgid (s : System) (current : TaskId) (id pgid : Pid) : Option (System × ℤ) := do
  let me ← s.task current
  let id := defaultTo id me.pid
  let pgid := defaultTo pgid id
  if pastTable id then none
  else do
    let pid ← s.pidGet id
    match s.pidTask pid with
    | none => some (s, esrch)
    | some t => do
      let r ← s.task t
      let group ← s.group r.group
      if !(← s.mayJoin group id pgid) then some (s, eperm)
      else if t ≠ current ∧ r.parent ≠ some current then some (s, esrch)
      else do
        let leader ← s.task group.leader
        if group.sid = leader.pid then some (s, eperm)
        else if group.pgid = pgid then some (s, 0)
        else if listed s.pgroup r.group then
          some ({ s.setGroup r.group (some { group with pgid := pgid }) with
            pgroup := Links.add (Links.remove s.pgroup r.group) pid r.group }, 0)
        else none

def sysSetsid (s : System) (current : TaskId) : Option (System × ℤ) := do
  let me ← s.task current
  let group ← s.group me.group
  let leader ← s.task group.leader
  if group.pgid = leader.pid ∨ group.sid = leader.pid then some (s, eperm)
  else do
    let pid ← s.pidGet me.pid
    some ({ s.setGroup me.group (some { group with sid := leader.pid, pgid := leader.pid }) with
      session := Links.add (Links.remove s.session me.group) pid me.group
      pgroup := Links.add (Links.remove s.pgroup me.group) pid me.group }, leader.pid)

/-- The groups whose leaders `send_group_signal` sends a signal to. -/
def signalled (s : System) (pgid : Pid) : List GroupId :=
  match s.pidGet pgid with
  | none => []
  | some pid => s.pgroup pid

/-- The system before `create_first_process` calls `sys_setsid`. -/
def firstProcess : System where
  task := Function.update (fun _ ↦ none) 0 (some ⟨0, 1, none, false, true⟩)
  nextTask := 1
  children := fun _ ↦ []
  group := Function.update (fun _ ↦ none) 0 (some ⟨0, 0, 0⟩)
  nextGroup := 1
  threads := Function.update (fun _ ↦ []) 0 [0]
  pidTask := Function.update (fun _ ↦ none) 1 (some 0)
  session := fun _ ↦ []
  pgroup := fun _ ↦ []
  curPid := 1

/-- The system after `create_first_process`. -/
def init : System :=
  { firstProcess with
    group := Function.update firstProcess.group 0 (some ⟨0, 1, 1⟩)
    session := Function.update firstProcess.session 1 [0]
    pgroup := Function.update firstProcess.pgroup 1 [0] }

theorem sysSetsid_firstProcess : ∃ s, firstProcess.sysSetsid 0 = some (s, 1) ∧
    s.task = init.task ∧ s.group = init.group ∧ s.session = init.session ∧
    s.pgroup = init.pgroup := by
  refine ⟨_, rfl, rfl, ?_, ?_, ?_⟩ <;> rfl

end System

inductive Action
  | clone (current : TaskId) (flags : Dword) (result : CopyResult)
  | exit (current : TaskId)
  | wait (current : TaskId) (id : Option Pid) (fault : Bool)
  | setpgid (current : TaskId) (id pgid : Pid)
  | setsid (current : TaskId)

def Action.current : Action → TaskId
  | .clone t _ _ | .exit t | .wait t _ _ | .setpgid t _ _ | .setsid t => t

namespace System

def apply (s : System) : Action → Option System
  | .clone t flags result => (s.sysClone t flags result).map Prod.fst
  | .exit t => s.doExit t
  | .wait t id fault => s.sysWait4 t id fault
  | .setpgid t id pgid => (s.sysSetpgid t id pgid).map Prod.fst
  | .setsid t => (s.sysSetsid t).map Prod.fst

/-- The calls are made by tasks that run. -/
def step (s : System) (a : Action) : Option System :=
  if s.runs a.current then s.apply a else none

end System

end Isl.Kernel.Process
