import Isl.Lib.Avoids
import Isl.Kernel.Signal
import Isl.Kernel.Wait

/-!
The tables that the kernel indexes with numbers from the guest's registers:
`syscall_table`, the limits of a group, the actions of a task and `pids`. An
access past the end of a table has no meaning in C and is a fault here.
-/

namespace Isl.Kernel.CallTables

open Isl.Lib Isl.Lib.Layout Isl.Emu Isl.Emu.Memory
open Isl.Kernel.Process hiding Dword

def numSyscalls : ℕ := 400

def rlimitNlimits : ℕ := 16

inductive Table
  | syscalls
  | limits
  | action
  | pids
deriving DecidableEq

def Table.size : Table → ℕ
  | .syscalls => numSyscalls + 1
  | .limits => rlimitNlimits
  | .action => numSigs
  | .pids => maxPid + 1

inductive Fault
  | outside (table : Table) (index : ℤ)
  | nullPointer
deriving DecidableEq

def Fault.isOutside : Fault → Prop
  | .outside _ _ => True
  | .nullPointer => False

abbrev Result := Except Fault

def Table.slot (table : Table) (index : ℤ) : Result (Fin table.size) :=
  if h : 0 ≤ index ∧ index < table.size then .ok ⟨index.toNat, by omega⟩
  else .error (.outside table index)

def deref {α : Type} : Option α → Result α
  | some a => .ok a
  | none => .error .nullPointer

/-- The calls with a number for one of the tables among their arguments. -/
inductive Syscall
  | waitpid
  | kill
  | ioctl
  | setpgid
  | setrlimit
  | getrlimit
  | wait4
  | rtSigaction
  | tkill
  | schedGetaffinity
  | prlimit
  | other
deriving DecidableEq

/-- The other slots of the table that are not empty. -/
def otherSyscalls : List ℕ :=
  [1, 2, 3, 4, 5, 6, 9, 10, 11, 12, 13, 14, 15, 19, 20, 21, 23, 24, 33, 38, 39, 40, 41, 42, 43, 45,
    46, 47, 49, 50, 52, 60, 61, 63, 64, 65, 66, 74, 77, 78, 79, 80, 81, 83, 85, 90, 91, 94, 96, 97,
    102, 103, 104, 116, 118, 120, 122, 125, 132, 133, 140, 142, 143, 145, 146, 147, 148, 150, 158,
    162, 163, 168, 172, 173, 175, 180, 183, 184, 185, 186, 187, 190, 192, 193, 194, 195, 196, 197,
    198, 199, 200, 201, 202, 205, 206, 207, 208, 209, 210, 211, 212, 213, 214, 219, 220, 221, 224,
    239, 240, 243, 252, 254, 255, 256, 258, 264, 265, 266, 268, 269, 272, 274, 295, 296, 298, 300,
    301, 302, 303, 304, 305, 306, 307, 308, 309, 319, 320, 322, 323, 324, 328, 329, 331, 355, 377]

def syscallTable (i : Fin (numSyscalls + 1)) : Option Syscall :=
  match i.val with
  | 7 => some .waitpid
  | 37 => some .kill
  | 54 => some .ioctl
  | 57 => some .setpgid
  | 75 => some .setrlimit
  | 76 => some .getrlimit
  | 114 => some .wait4
  | 174 => some .rtSigaction
  | 238 => some .tkill
  | 242 => some .schedGetaffinity
  | 340 => some .prlimit
  | n => if n ∈ otherSyscalls then some .other else none

structure Rlimit where
  cur : Qword
  max : Qword
deriving DecidableEq

def Rlimit.bytes (l : Rlimit) : List Byte := image [field 8 l.cur, field 8 l.max]

def Rlimit.ofBytes (bs : List Byte) : Rlimit :=
  match values [8, 8] bs with
  | [cur, max] => ⟨cur, max⟩
  | _ => ⟨0, 0⟩

structure Sigaction where
  handler : Addr
  flags : Dword
  restorer : Addr
  mask : SigSet
deriving DecidableEq

def Sigaction.bytes (a : Sigaction) : List Byte :=
  image [field 4 a.handler, field 4 a.flags, field 4 a.restorer, field 8 a.mask]

def Sigaction.ofBytes (bs : List Byte) : Sigaction :=
  match values [4, 4, 4, 8] bs with
  | [handler, flags, restorer, mask] => ⟨handler, flags, restorer, mask⟩
  | _ => ⟨0, 0, 0, 0⟩

structure Tty where
  session : Pid
  fgGroup : Dword

/-- What the current task finds when it enters the kernel. `fdTty` has the
terminals among its open descriptors, `sent` the signals sent so far. -/
structure KernelState where
  sys : System
  current : TaskId
  mem : GuestMem
  limits : Fin rlimitNlimits → Rlimit
  action : Fin numSigs → Sigaction
  fdTty : Dword → Option ℕ
  tty : ℕ → Tty
  groupTty : Option ℕ
  sent : List (TaskId × Dword)

/-- How a call ends: with the value for `eax`, with a signal for a number that
has no call, or asleep in `wait4`. -/
inductive Outcome
  | returns (value : ℤ)
  | missing
  | sleeps (id : Option Pid)

def enotty : ℤ := -25

def sigsys : Dword := 31
def sigwinch : Dword := 28

def tiocspgrp : Dword := 0x5410
def tiocswinsz : Dword := 0x5414

namespace KernelState

def userGet (k : KernelState) (addr : Dword) (size : ℕ) : Option (List Byte) :=
  let r := k.mem.userRead addr (List.replicate size 0)
  if r.2 = 0 then some r.1 else none

def userPut (k : KernelState) (addr : Dword) (bs : List Byte) : KernelState × Bool :=
  let r := k.mem.userWrite addr bs
  ({ k with mem := r.1 }, r.2 == 0)

/-! The process table. -/

def pidGet (k : KernelState) (id : Dword) : Result (Option Pid) := do
  if id.toNat > maxPid + 1 then return none
  let pid ← Table.pids.slot id.toNat
  return if k.sys.pidEmpty pid then none else some pid.val

def pidGetTaskZombie (k : KernelState) (id : Dword) : Result (Option TaskId) := do
  return (← k.pidGet id).bind k.sys.pidTask

def pidGetTask (k : KernelState) (id : Dword) : Result (Option TaskId) := do
  return (← k.pidGetTaskZombie id).filter fun t ↦ !k.sys.isZombie t

def currentGroup (k : KernelState) : Result Group := do
  let me ← deref (k.sys.task k.current)
  deref (k.sys.group me.group)

/-! Signals. -/

/-- The numbers of `SIGKILL` and `SIGSTOP`. -/
def blockable (sig : ℤ) : Bool := sig != 9 && sig != 19

/-- `send_signal`, up to what the task does with the signal. -/
def sendSignal (k : KernelState) (sig : Dword) (t : TaskId) : Result KernelState := do
  if sig = 0 ∨ k.sys.isZombie t then return k
  if blockable sig.toInt then
    let _ ← Table.action.slot sig.toInt
  return { k with sent := k.sent ++ [(t, sig)] }

def sendGroupSignal (k : KernelState) (pgid sig : Dword) : Result (KernelState × ℤ) := do
  match ← k.pidGet pgid with
  | none => return (k, esrch)
  | some pid =>
    let k ← (k.sys.pgroup pid).foldlM (fun k g ↦ do
      let group ← deref (k.sys.group g)
      k.sendSignal sig group.leader) k
    return (k, 0)

/-- The argument of `kill` with zero replaced. -/
def killTarget (k : KernelState) (pid : Dword) : Result Dword := do
  if pid = 0 then return -BitVec.ofNat 32 (← k.currentGroup).pgid
  return pid

def sysKill (k : KernelState) (pid sig : Dword) : Result (KernelState × ℤ) := do
  if sig.toNat ≥ numSigs then return (k, einval)
  let pid ← k.killTarget pid
  if pid.slt 0 then k.sendGroupSignal (-pid) sig
  else
    match ← k.pidGetTask pid with
    | none => return (k, esrch)
    | some t => return (← k.sendSignal sig t, 0)

def doSigaction (k : KernelState) (sig : ℤ) (action : Option Sigaction) (old : Bool) :
    Result (KernelState × ℤ × Sigaction) := do
  if sig ≥ numSigs ∨ !blockable sig then return (k, einval, ⟨0, 0, 0, 0⟩)
  let oldaction ← if old then k.action <$> Table.action.slot sig else pure ⟨0, 0, 0, 0⟩
  match action with
  | none => return (k, 0, oldaction)
  | some a =>
    let i ← Table.action.slot sig
    return ({ k with action := Function.update k.action i a }, 0, oldaction)

def sysRtSigaction (k : KernelState) (signum actionAddr oldactionAddr sigsetSize : Dword) :
    Result (KernelState × ℤ) := do
  if sigsetSize ≠ 8 then return (k, einval)
  if actionAddr ≠ 0 ∧ k.userGet actionAddr 20 = none then return (k, efault)
  let action := if actionAddr = 0 then none else (k.userGet actionAddr 20).map Sigaction.ofBytes
  let (k, err, oldaction) ← k.doSigaction signum.toInt action (oldactionAddr ≠ 0)
  if err < 0 ∨ oldactionAddr = 0 then return (k, err)
  let (k, ok) := k.userPut oldactionAddr oldaction.bytes
  return (k, if ok then err else efault)

/-! Limits. -/

def rlimitGet (k : KernelState) (resource : Dword) : Result Rlimit :=
  k.limits <$> Table.limits.slot resource.toInt

def rlimitSet (k : KernelState) (resource : Dword) (limit : Rlimit) : Result KernelState := do
  let i ← Table.limits.slot resource.toInt
  return { k with limits := Function.update k.limits i limit }

def sysGetrlimit (k : KernelState) (resource rlimAddr : Dword) : Result (KernelState × ℤ) := do
  let rlimit ← k.rlimitGet resource
  let (k, ok) := k.userPut rlimAddr rlimit.bytes
  return (k, if ok then 0 else efault)

def sysSetrlimit (k : KernelState) (resource rlimAddr : Dword) : Result (KernelState × ℤ) := do
  match k.userGet rlimAddr 16 with
  | none => return (k, efault)
  | some bs => return (← k.rlimitSet resource (Rlimit.ofBytes bs), 0)

def sysPrlimit (k : KernelState) (pid resource newAddr oldAddr : Dword) : Result (KernelState × ℤ) := do
  if pid ≠ 0 then return (k, einval)
  let (k, err) ← if oldAddr ≠ 0 then k.sysGetrlimit resource oldAddr else pure (k, 0)
  if err < 0 ∨ newAddr = 0 then return (k, err)
  k.sysSetrlimit resource newAddr

/-! Processes. -/

/-- `sys_setpgid`: what it looks up, and the rest as the process model has it. -/
def sysSetpgid (k : KernelState) (id pgid : Dword) : Result (KernelState × ℤ) := do
  let me ← deref (k.sys.task k.current)
  let id := if id = 0 then BitVec.ofNat 32 me.pid else id
  let pgid := if pgid = 0 then id else pgid
  let pid ← deref (← k.pidGet id)
  if k.sys.pidTask pid = none then return (k, esrch)
  if id ≠ pgid then
    let _ ← k.pidGet pgid
  let (s, err) ← deref (k.sys.sysSetpgid k.current id.toNat pgid.toNat)
  return ({ k with sys := s }, err)

def waitOutcome : WaitPass → Outcome
  | .returned id => .returns ((id.getD 0 : ℕ) : ℤ)
  | .failed err => .returns err
  | .sleeps id => .sleeps id

/-- A pass of the loop of `sys_wait4`, for the value that `id` has. -/
def wait4Pass (k : KernelState) (id : Option Pid) (options : Dword) (fault pending : Bool) :
    Result (KernelState × Outcome) := do
  if let some pid := id then
    let _ ← k.pidGet (BitVec.ofNat 32 pid)
  let (s, w) ← deref (k.sys.waitPass k.current id options fault pending)
  return ({ k with sys := s }, waitOutcome w)

def sysWait4 (k : KernelState) (id options : Dword) (fault pending : Bool) :
    Result (KernelState × Outcome) :=
  k.wait4Pass (if id = -1 then none else some id.toNat) options fault pending

/-! Terminals. -/

/-- A signal to the foreground group of a terminal. -/
def ttySignal (k : KernelState) (n : ℕ) (sig : Dword) : Result KernelState := do
  if (k.tty n).fgGroup = 0 then return k
  let (k, _) ← k.sendGroupSignal (k.tty n).fgGroup sig
  return k

/-- The commands of `tty_ioctl` that have to do with process groups. -/
def ttyIoctl (k : KernelState) (n : ℕ) (cmd arg : Dword) : Result (KernelState × ℤ) := do
  match k.userGet arg (if cmd = tiocspgrp then 4 else 8) with
  | none => return (k, efault)
  | some bs =>
    if cmd = tiocspgrp then
      let group ← k.currentGroup
      if k.groupTty ≠ some n ∨ group.sid ≠ (k.tty n).session then return (k, enotty)
      let tty := { k.tty n with fgGroup := BitVec.ofNat 32 (leNat bs) }
      let (k, ok) := { k with tty := Function.update k.tty n tty }.userPut arg bs
      return (k, if ok then 0 else efault)
    else
      let k ← k.ttySignal n sigwinch
      let (k, ok) := k.userPut arg bs
      return (k, if ok then 0 else efault)

/-! The call. -/

section

-- what the calls do that use none of the tables
variable (rest : KernelState → KernelState × ℤ)

def sysIoctl (k : KernelState) (f cmd arg : Dword) : Result (KernelState × ℤ) :=
  match k.fdTty f with
  | none => .ok (rest k)
  | some n => if cmd = tiocspgrp ∨ cmd = tiocswinsz then k.ttyIoctl n cmd arg else .ok (rest k)

def sysSchedGetaffinity (k : KernelState) (pid : Dword) : Result (KernelState × ℤ) := do
  if pid ≠ 0 then
    if (← k.pidGetTask pid) = none then return (k, esrch)
  return rest k

def returning (r : Result (KernelState × ℤ)) : Result (KernelState × Outcome) :=
  (fun p ↦ (p.1, .returns p.2)) <$> r

def call (k : KernelState) (c : Syscall) (regs : Reg32 → Dword) (fault pending : Bool) :
    Result (KernelState × Outcome) :=
  let ebx := regs .ebx
  let ecx := regs .ecx
  let edx := regs .edx
  let esi := regs .esi
  match c with
  | .waitpid => k.sysWait4 ebx edx fault pending
  | .wait4 => k.sysWait4 ebx edx fault pending
  | .kill => returning (k.sysKill ebx ecx)
  | .tkill => returning (k.sysKill ebx ecx)
  | .ioctl => returning (k.sysIoctl rest ebx ecx edx)
  | .setpgid => returning (k.sysSetpgid ebx ecx)
  | .setrlimit => returning (k.sysSetrlimit ebx ecx)
  | .getrlimit => returning (k.sysGetrlimit ebx ecx)
  | .rtSigaction => returning (k.sysRtSigaction ebx ecx edx esi)
  | .schedGetaffinity => returning (k.sysSchedGetaffinity rest ebx)
  | .prlimit => returning (k.sysPrlimit ebx ecx edx esi)
  | .other => returning (.ok (rest k))

/-- The entry for the number in `eax`, which is compared as signed. -/
def syscallEntry (eax : Dword) : Result (Option Syscall) :=
  let num := eax.toInt
  if num ≥ numSyscalls then .ok none else syscallTable <$> Table.syscalls.slot num

/-- `handle_interrupt` for a system call. With `fault` the stores of `wait4`
fail, with `pending` a signal is pending. -/
def handleInterrupt (k : KernelState) (regs : Reg32 → Dword) (fault pending : Bool) :
    Result (KernelState × Outcome) := do
  match ← syscallEntry (regs .eax) with
  | none => return (← k.sendSignal sigsys k.current, .missing)
  | some c => k.call rest c regs fault pending

end

end KernelState

/-- The accesses that a computation makes are inside of their tables. -/
def Inside {α : Type} (r : Result α) : Prop := Avoids Fault.isOutside r

namespace KernelState

variable {k : KernelState} {id pid sig resource addr : Dword}

@[simp] theorem inside_pure {α : Type} (a : α) : Inside (pure a : Result α) := Avoids.ok a

@[simp] theorem inside_deref {α : Type} (o : Option α) : Inside (deref o) := by
  cases o with
  | none => exact id
  | some a => exact Avoids.ok a

@[simp] theorem inside_slot {table : Table} {i : ℤ} :
    Inside (table.slot i) ↔ 0 ≤ i ∧ i < table.size := by
  unfold Table.slot
  split
  · exact iff_of_true (Avoids.ok _) ‹_›
  · exact iff_of_false (fun h ↦ h trivial) ‹_›

theorem inside_slot_nat {table : Table} {n : ℕ} : Inside (table.slot n) ↔ n < table.size := by
  simp [Nat.cast_lt]

/-- A number from a register, which the kernel takes as signed. -/
theorem inside_slot_toInt {table : Table} {v : Dword} (h : table.size < 2 ^ 31) :
    Inside (table.slot v.toInt) ↔ v.toNat < table.size := by
  rw [inside_slot, BitVec.toInt_eq_toNat_cond]
  split <;> omega

/-! The process table. -/

theorem inside_pidGet : Inside (k.pidGet id) ↔ id.toNat ≠ maxPid + 1 := by
  unfold pidGet
  split
  · exact iff_of_true (inside_pure _) (Nat.ne_of_gt ‹_›)
  · rename_i hle
    refine (Avoids.bind_left_iff fun _ ↦ inside_pure _).trans (inside_slot_nat.trans ?_)
    exact ⟨Nat.ne_of_lt, fun hne ↦ Nat.lt_of_le_of_ne (Nat.not_lt.mp hle) hne⟩

theorem inside_pidGetTaskZombie : Inside (k.pidGetTaskZombie id) ↔ id.toNat ≠ maxPid + 1 :=
  (Avoids.bind_left_iff fun _ ↦ inside_pure _).trans inside_pidGet

theorem inside_pidGetTask : Inside (k.pidGetTask id) ↔ id.toNat ≠ maxPid + 1 :=
  (Avoids.bind_left_iff fun _ ↦ inside_pure _).trans inside_pidGetTaskZombie

theorem pidGet_eq (h : id.toNat ≠ maxPid + 1) : k.pidGet id = .ok (k.sys.pidGet id.toNat) := by
  unfold pidGet
  split
  · rename_i hgt
    rw [System.pidGet, if_pos (.inl hgt)]
    rfl
  · rename_i hle
    have hlt : id.toNat < maxPid + 1 := Nat.lt_of_le_of_ne (Nat.not_lt.mp hle) h
    have hslot : Table.pids.slot id.toNat = .ok ⟨id.toNat, hlt⟩ :=
      dif_pos ⟨Int.natCast_nonneg _, Int.ofNat_lt.mpr hlt⟩
    rw [hslot, System.pidGet]
    simp only [hle, false_or]
    rfl

/-! Signals. -/

theorem inside_sendSignal {t : TaskId} (h : sig.toNat < numSigs) : Inside (k.sendSignal sig t) := by
  unfold sendSignal
  split
  · exact inside_pure _
  · dsimp only
    split
    · exact ((inside_slot_toInt (by decide)).mpr h).bind fun _ _ ↦ inside_pure _
    · exact inside_pure _

theorem inside_sendGroupSignal (h : sig.toNat < numSigs) :
    Inside (k.sendGroupSignal id sig) ↔ id.toNat ≠ maxPid + 1 := by
  refine (Avoids.bind_left_iff fun o ↦ ?_).trans inside_pidGet
  cases o with
  | none => exact inside_pure _
  | some p =>
    refine (Avoids.foldlM (fun k g ↦ ?_) _ _).bind fun _ _ ↦ inside_pure _
    exact (inside_deref _).bind fun _ _ ↦ inside_sendSignal h

/-- Of a number and its negation, the one that is not negative is looked up. -/
theorem lookup_iff (p : Dword) : (if p.slt 0 then -p else p).toNat ≠ maxPid + 1 ↔
    p.toNat ≠ maxPid + 1 ∧ (-p).toNat ≠ maxPid + 1 := by
  have hpast : maxPid + 1 = 1025 := by decide
  have hzero : (0 : Dword).toInt = 0 := rfl
  have hp := p.isLt
  rw [hpast, BitVec.slt_eq_decide, hzero, BitVec.toInt_eq_toNat_cond]
  simp only [decide_eq_true_eq, apply_ite BitVec.toNat, BitVec.toNat_neg]
  split <;> split <;> omega

theorem inside_currentGroup : Inside k.currentGroup :=
  (inside_deref _).bind fun _ _ ↦ inside_deref _

theorem inside_killTarget : Inside (k.killTarget pid) := by
  unfold killTarget
  split
  · exact inside_currentGroup.bind fun _ _ ↦ inside_pure _
  · exact inside_pure _

theorem inside_sysKill : Inside (k.sysKill pid sig) ↔ numSigs ≤ sig.toNat ∨
    ∀ p, k.killTarget pid = .ok p → p.toNat ≠ maxPid + 1 ∧ (-p).toNat ≠ maxPid + 1 := by
  unfold sysKill
  split
  · exact iff_of_true (inside_pure _) (.inl ‹_›)
  · rename_i hsig
    have hlt : sig.toNat < numSigs := Nat.lt_of_not_ge hsig
    refine Iff.trans ?_ (or_iff_right hsig).symm
    refine Avoids.bind_iff.trans ((and_iff_right inside_killTarget).trans ?_)
    refine forall_congr' fun p ↦ imp_congr_right fun _ ↦ Iff.trans ?_ (lookup_iff p)
    split
    · exact inside_sendGroupSignal hlt
    · refine (Avoids.bind_left_iff fun o ↦ ?_).trans inside_pidGetTask
      cases o with
      | none => exact inside_pure _
      | some t => exact (inside_sendSignal hlt).bind fun _ _ ↦ inside_pure _

theorem inside_action {n : ℤ} (h : n < numSigs) : Inside (Table.action.slot n) ↔ 0 ≤ n :=
  inside_slot.trans (and_iff_left h)

/-- A negative number passes the check of `do_sigaction`. -/
theorem inside_doSigaction {n : ℤ} {action : Option Sigaction} {old : Bool} :
    Inside (k.doSigaction n action old) ↔
      (action = none ∧ old = false) ∨ numSigs ≤ n ∨ 0 ≤ n := by
  unfold doSigaction
  split
  · rename_i h
    refine iff_of_true (inside_pure _) (.inr (h.imp id fun h ↦ ?_))
    simp only [blockable, Bool.not_eq_true', Bool.and_eq_false_iff, bne_eq_false_iff_eq] at h
    omega
  · rename_i h
    have hlt : n < numSigs := not_le.mp fun hle ↦ h (.inl hle)
    have hslot := inside_action hlt
    have hstore (x o : Sigaction) : Inside (do
        let i ← Table.action.slot n
        return (({ k with action := Function.update k.action i x } : KernelState), (0 : ℤ), o)) ↔
        0 ≤ n := (Avoids.bind_left_iff fun _ ↦ inside_pure _).trans hslot
    have hneg : ¬numSigs ≤ n := not_le.mpr hlt
    simp only [hneg, false_or]
    cases old with
    | false =>
      cases action with
      | none => exact iff_of_true (inside_pure _) (.inl ⟨rfl, rfl⟩)
      | some x => exact (hstore x _).trans (by simp)
    | true =>
      have hread : Inside (k.action <$> Table.action.slot n) ↔ 0 ≤ n := Avoids.map_iff.trans hslot
      refine Iff.trans (Avoids.bind_iff.trans ⟨fun h ↦ hread.mp h.1, fun h ↦ ⟨hread.mpr h, ?_⟩⟩)
        (by simp)
      intro o _
      cases action with
      | none => exact inside_pure _
      | some x => exact (hstore x o).mpr h

theorem inside_sysRtSigaction {signum actionAddr oldactionAddr sigsetSize : Dword} :
    Inside (k.sysRtSigaction signum actionAddr oldactionAddr sigsetSize) ↔
      sigsetSize ≠ 8 ∨ (actionAddr ≠ 0 ∧ k.userGet actionAddr 20 = none) ∨
      (actionAddr = 0 ∧ oldactionAddr = 0) ∨ numSigs ≤ signum.toInt ∨ 0 ≤ signum.toInt := by
  unfold sysRtSigaction
  split
  · exact iff_of_true (inside_pure _) (.inl ‹_›)
  rename_i hsize
  split
  · exact iff_of_true (inside_pure _) (.inr (.inl ‹_›))
  rename_i hread
  refine Iff.trans ?_ ((or_iff_right hsize).trans (or_iff_right hread)).symm
  refine (Avoids.bind_left_iff fun r ↦ ?_).trans (inside_doSigaction.trans (or_congr_left ?_))
  · dsimp only
    split <;> exact inside_pure _
  · -- an action that was asked for has been read
    refine and_congr ?_ (by simp)
    split
    · exact iff_of_true rfl ‹_›
    · rename_i hne
      exact iff_of_false (fun h ↦ hread ⟨hne, Option.map_eq_none_iff.mp h⟩) hne

/-! Limits. -/

theorem inside_limits : Inside (Table.limits.slot resource.toInt) ↔ resource.toNat < rlimitNlimits :=
  inside_slot_toInt (by decide)

theorem inside_sysGetrlimit :
    Inside (k.sysGetrlimit resource addr) ↔ resource.toNat < rlimitNlimits :=
  (Avoids.bind_left_iff fun _ ↦ inside_pure _).trans (Avoids.map_iff.trans inside_limits)

theorem inside_sysSetrlimit : Inside (k.sysSetrlimit resource addr) ↔
    k.userGet addr 16 = none ∨ resource.toNat < rlimitNlimits := by
  unfold sysSetrlimit
  cases hget : k.userGet addr 16 with
  | none => exact iff_of_true (inside_pure _) (.inl rfl)
  | some bs =>
    refine Iff.trans ?_ (or_iff_right (Option.some_ne_none bs)).symm
    refine (Avoids.bind_left_iff fun _ ↦ inside_pure _).trans ?_
    exact (Avoids.bind_left_iff fun _ ↦ inside_pure _).trans inside_limits

theorem inside_sysPrlimit {newAddr oldAddr : Dword} :
    Inside (k.sysPrlimit pid resource newAddr oldAddr) ↔
      pid ≠ 0 ∨ (oldAddr = 0 ∧ (newAddr = 0 ∨ k.userGet newAddr 16 = none)) ∨
      resource.toNat < rlimitNlimits := by
  unfold sysPrlimit
  split
  · exact iff_of_true (inside_pure _) (.inl ‹_›)
  rename_i hpid
  refine Iff.trans ?_ (or_iff_right hpid).symm
  have hset (k' : KernelState) (err : ℤ) (h : resource.toNat < rlimitNlimits) :
      Inside (if err < 0 ∨ newAddr = 0 then pure (k', err)
        else k'.sysSetrlimit resource newAddr) := by
    split
    · exact inside_pure _
    · exact inside_sysSetrlimit.mpr (.inr h)
  by_cases hold : oldAddr = 0
  · simp only [hold, ne_eq, not_true_eq_false, if_false, pure_bind, true_and]
    split
    · rename_i hnew
      exact iff_of_true (inside_pure _) (.inl (.inl (hnew.resolve_left (lt_irrefl 0))))
    · rename_i hnew
      have hne : ¬newAddr = 0 := fun h ↦ hnew (.inr h)
      exact inside_sysSetrlimit.trans (or_congr_left (or_iff_right hne).symm)
  · simp only [hold, ne_eq, not_false_eq_true, if_true, false_and, false_or]
    refine Avoids.bind_iff.trans ⟨fun h ↦ inside_sysGetrlimit.mp h.1, fun h ↦ ?_⟩
    exact ⟨inside_sysGetrlimit.mpr h, fun r _ ↦ hset r.1 r.2 h⟩

/-! Processes. -/

theorem deref_eq_ok {α : Type} {o : Option α} {a : α} : deref o = .ok a ↔ o = some a := by
  cases o <;> simp [deref]

/-- `setpgid` looks for the second number when the first one is a task's. -/
theorem inside_sysSetpgid {pgid : Dword} : Inside (k.sysSetpgid id pgid) ↔
    ∀ me, k.sys.task k.current = some me →
      let id := if id = 0 then BitVec.ofNat 32 me.pid else id
      let pgid := if pgid = 0 then id else pgid
      id.toNat ≠ maxPid + 1 ∧
      ((k.sys.pidGetTaskZombie id.toNat).isSome → pgid.toNat ≠ maxPid + 1) := by
  unfold sysSetpgid
  refine Avoids.bind_iff.trans ((and_iff_right (inside_deref _)).trans ?_)
  refine forall_congr' fun me ↦ imp_congr deref_eq_ok ?_
  dsimp only
  generalize (if id = 0 then BitVec.ofNat 32 me.pid else id) = i
  generalize (if pgid = 0 then i else pgid) = j
  refine (Avoids.bind_iff.trans (and_congr inside_pidGet Iff.rfl)).trans ?_
  refine and_congr_right fun hi ↦ ?_
  simp only [pidGet_eq hi, Except.ok.injEq, forall_eq', System.pidGetTaskZombie]
  cases k.sys.pidGet i.toNat with
  | none => exact iff_of_true (fun h ↦ h) fun h ↦ absurd h Bool.false_ne_true
  | some p =>
    change Inside (if k.sys.pidTask p = none then _ else _) ↔ ((k.sys.pidTask p).isSome → _)
    split
    · rename_i hnone
      exact iff_of_true (inside_pure _) fun h ↦ by simp [hnone] at h
    · rename_i hsome
      refine Iff.trans ?_ (imp_iff_right (Option.isSome_iff_ne_none.mpr hsome)).symm
      have hrest : Inside (do
          let (s, err) ← deref (k.sys.sysSetpgid k.current i.toNat j.toNat)
          return (({ k with sys := s } : KernelState), err)) :=
        (inside_deref _).bind fun _ _ ↦ inside_pure _
      split
      · exact (Avoids.bind_left_iff fun _ ↦ hrest).trans inside_pidGet
      · rename_i heq
        rw [not_ne_iff] at heq
        exact iff_of_true hrest (heq ▸ hi)

theorem inside_wait4Pass {p : Option Pid} {options : Dword} {fault pending : Bool} :
    Inside (k.wait4Pass p options fault pending) ↔ ∀ q ∈ p, q % 2 ^ 32 ≠ maxPid + 1 := by
  have hrest : Inside (do
      let (s, w) ← deref (k.sys.waitPass k.current p options fault pending)
      return (({ k with sys := s } : KernelState), waitOutcome w)) :=
    (inside_deref _).bind fun _ _ ↦ inside_pure _
  unfold wait4Pass
  cases p with
  | none => exact iff_of_true hrest nofun
  | some q =>
    refine (Avoids.bind_left_iff fun _ ↦ hrest).trans (inside_pidGet.trans ?_)
    simp

theorem inside_sysWait4 {options : Dword} {fault pending : Bool} :
    Inside (k.sysWait4 id options fault pending) ↔ id.toNat ≠ maxPid + 1 := by
  refine inside_wait4Pass.trans ?_
  split
  · rename_i h
    subst h
    exact iff_of_true nofun (by decide)
  · simp [Nat.mod_eq_of_lt id.isLt]

theorem wait4Pass_sleeps {k' : KernelState} {p p' : Option Pid} {options : Dword}
    {fault pending : Bool} (h : k.wait4Pass p options fault pending = .ok (k', .sleeps p')) :
    ∃ s', k.sys.waitPass k.current p options fault pending = some (s', .sleeps p') := by
  have hrest : (do
      let (s, w) ← deref (k.sys.waitPass k.current p options fault pending)
      return (({ k with sys := s } : KernelState), waitOutcome w)) = .ok (k', .sleeps p') := by
    cases p with
    | none => exact h
    | some q =>
      obtain ⟨_, -, h⟩ := Avoids.bind_eq_ok.mp h
      exact h
  obtain ⟨⟨s, w⟩, hs, heq⟩ := Avoids.bind_eq_ok.mp hrest
  obtain ⟨-, hw⟩ := Prod.mk.inj (Except.ok.inj heq)
  rw [deref_eq_ok] at hs
  cases w with
  | sleeps q =>
    cases hw
    exact ⟨s, hs⟩
  | returned q => cases hw
  | failed e => cases hw

/-- A later pass looks for the number of the first, or for a child's. -/
theorem sleeps_inside {k' k₂ : KernelState} {p p' : Option Pid} {options : Dword}
    {fault pending fault' pending' : Bool} (hw : k.sys.Wf)
    (h : k.wait4Pass p options fault pending = .ok (k', .sleeps p')) :
    Inside (k₂.wait4Pass p' options fault' pending') := by
  obtain ⟨s', hs⟩ := wait4Pass_sleeps h
  refine inside_wait4Pass.mpr ?_
  cases p with
  | some q =>
    obtain rfl := (System.waitPass_some_sleeps hs).2
    have hin : Inside (k.wait4Pass (some q) options fault pending) := by
      rw [h]
      exact Avoids.ok _
    exact inside_wait4Pass.mp hin
  | none =>
    intro q hq
    rw [(System.waitPass_sleeps hs).2.2] at hq
    cases hlast : k.sys.lastChild k.current with
    | none => simp [hlast] at hq
    | some y =>
      rw [hlast] at hq
      obtain ⟨r, hr, rfl⟩ := Option.map_eq_some_iff.mp hq
      have hle := hw.pidLe hr
      have hmax : maxPid + 1 < 2 ^ 32 := by decide
      have hlt : r.pid < maxPid + 1 := Nat.lt_succ_of_le hle
      rw [Nat.mod_eq_of_lt (hlt.trans hmax)]
      exact hlt.ne

/-! Terminals. -/

theorem inside_ttySignal {n : ℕ} (h : sig.toNat < numSigs) :
    Inside (k.ttySignal n sig) ↔ (k.tty n).fgGroup.toNat ≠ maxPid + 1 := by
  unfold ttySignal
  split
  · rename_i hzero
    rw [hzero]
    exact iff_of_true (inside_pure _) (by decide)
  · exact (Avoids.bind_left_iff fun _ ↦ inside_pure _).trans (inside_sendGroupSignal h)

theorem inside_ttyIoctl {n : ℕ} {cmd arg : Dword} : Inside (k.ttyIoctl n cmd arg) ↔
    cmd = tiocspgrp ∨ k.userGet arg 8 = none ∨ (k.tty n).fgGroup.toNat ≠ maxPid + 1 := by
  unfold ttyIoctl
  by_cases hcmd : cmd = tiocspgrp
  · simp only [hcmd, if_true, true_or, iff_true]
    cases k.userGet arg 4 with
    | none => exact inside_pure _
    | some bs =>
      refine inside_currentGroup.bind fun group _ ↦ ?_
      split <;> exact inside_pure _
  · simp only [hcmd, if_false, false_or]
    cases k.userGet arg 8 with
    | none => exact iff_of_true (inside_pure _) (.inl rfl)
    | some bs =>
      refine Iff.trans ?_ (or_iff_right (Option.some_ne_none bs)).symm
      exact (Avoids.bind_left_iff fun _ ↦ inside_pure _).trans (inside_ttySignal (by decide))

/-! The calls. -/

/-- The registers of a call whose numbers all fall inside of the tables. -/
def CallWithin (k : KernelState) (c : Syscall) (regs : Reg32 → Dword) : Prop :=
  let ebx := regs .ebx
  let ecx := regs .ecx
  let edx := regs .edx
  let esi := regs .esi
  match c with
  | .waitpid | .wait4 | .schedGetaffinity => ebx.toNat ≠ maxPid + 1
  | .kill | .tkill => numSigs ≤ ecx.toNat ∨
    ∀ p, k.killTarget ebx = .ok p → p.toNat ≠ maxPid + 1 ∧ (-p).toNat ≠ maxPid + 1
  | .setpgid => ∀ me, k.sys.task k.current = some me →
    let id := if ebx = 0 then BitVec.ofNat 32 me.pid else ebx
    let pgid := if ecx = 0 then id else ecx
    id.toNat ≠ maxPid + 1 ∧
    ((k.sys.pidGetTaskZombie id.toNat).isSome → pgid.toNat ≠ maxPid + 1)
  | .ioctl => ∀ n, k.fdTty ebx = some n → ecx = tiocswinsz → k.userGet edx 8 ≠ none →
    (k.tty n).fgGroup.toNat ≠ maxPid + 1
  | .getrlimit => ebx.toNat < rlimitNlimits
  | .setrlimit => k.userGet ecx 16 = none ∨ ebx.toNat < rlimitNlimits
  | .prlimit => ebx ≠ 0 ∨ (esi = 0 ∧ (edx = 0 ∨ k.userGet edx 16 = none)) ∨
    ecx.toNat < rlimitNlimits
  | .rtSigaction => esi ≠ 8 ∨ (ecx ≠ 0 ∧ k.userGet ecx 20 = none) ∨ (ecx = 0 ∧ edx = 0) ∨
    numSigs ≤ ebx.toInt ∨ 0 ≤ ebx.toInt
  | .other => True

/-- The call that a number stands for. -/
def called (eax : Dword) : Option Syscall :=
  if h : eax.toNat < numSyscalls then syscallTable ⟨eax.toNat, Nat.lt_succ_of_lt h⟩ else none

def Within (k : KernelState) (regs : Reg32 → Dword) : Prop :=
  0 ≤ (regs .eax).toInt ∧ ∀ c, called (regs .eax) = some c → k.CallWithin c regs

section

variable {rest : KernelState → KernelState × ℤ}

theorem inside_returning {r : Result (KernelState × ℤ)} : Inside (returning r) ↔ Inside r :=
  Avoids.map_iff

theorem inside_sysIoctl {f cmd arg : Dword} : Inside (k.sysIoctl rest f cmd arg) ↔
    ∀ n, k.fdTty f = some n → cmd = tiocswinsz → k.userGet arg 8 ≠ none →
      (k.tty n).fgGroup.toNat ≠ maxPid + 1 := by
  unfold sysIoctl
  cases k.fdTty f with
  | none => exact iff_of_true (inside_pure _) nofun
  | some n =>
    simp only [Option.some.injEq, forall_eq']
    split
    · rename_i hcmd
      refine inside_ttyIoctl.trans ⟨fun h hw hg ↦ ?_, fun h ↦ ?_⟩
      · refine (h.resolve_left fun hp ↦ ?_).resolve_left hg
        exact absurd (hp.symm.trans hw) (by decide)
      · exact hcmd.imp_right fun hw ↦ or_iff_not_imp_left.mpr (h hw)
    · rename_i hcmd
      exact iff_of_true (inside_pure _) fun hw ↦ absurd (.inr hw) hcmd

theorem inside_sysSchedGetaffinity :
    Inside (k.sysSchedGetaffinity rest pid) ↔ pid.toNat ≠ maxPid + 1 := by
  unfold sysSchedGetaffinity
  split
  · refine (Avoids.bind_left_iff fun o ↦ ?_).trans inside_pidGetTask
    dsimp only
    split <;> exact inside_pure _
  · rename_i hzero
    rw [not_ne_iff] at hzero
    exact iff_of_true (inside_pure _) (hzero ▸ by decide)

theorem inside_call {c : Syscall} {regs : Reg32 → Dword} {fault pending : Bool} :
    Inside (k.call rest c regs fault pending) ↔ k.CallWithin c regs := by
  cases c with
  | waitpid => exact inside_sysWait4
  | wait4 => exact inside_sysWait4
  | kill => exact inside_returning.trans inside_sysKill
  | tkill => exact inside_returning.trans inside_sysKill
  | ioctl => exact inside_returning.trans inside_sysIoctl
  | setpgid => exact inside_returning.trans inside_sysSetpgid
  | setrlimit => exact inside_returning.trans inside_sysSetrlimit
  | getrlimit => exact inside_returning.trans inside_sysGetrlimit
  | rtSigaction => exact inside_returning.trans inside_sysRtSigaction
  | schedGetaffinity => exact inside_returning.trans inside_sysSchedGetaffinity
  | prlimit => exact inside_returning.trans inside_sysPrlimit
  | other => exact iff_of_true (inside_pure _) trivial

end

theorem syscallEntry_eq {eax : Dword} (h : 0 ≤ eax.toInt) : syscallEntry eax = .ok (called eax) := by
  have heq : eax.toInt = eax.toNat := by
    rw [BitVec.toInt_eq_toNat_cond] at h
    rw [BitVec.toInt_eq_toNat_cond]
    split at h <;> split <;> omega
  unfold syscallEntry called
  simp only [heq]
  split
  · rename_i hge
    rw [dif_neg (Nat.not_lt.mpr (Int.ofNat_le.mp hge))]
  · rename_i hlt
    have hlt : eax.toNat < numSyscalls := Int.ofNat_lt.mp (not_le.mp hlt)
    have hslot : Table.syscalls.slot eax.toNat = .ok ⟨eax.toNat, Nat.lt_succ_of_lt hlt⟩ :=
      dif_pos ⟨Int.natCast_nonneg _, Int.ofNat_lt.mpr (Nat.lt_succ_of_lt hlt)⟩
    rw [dif_pos hlt, hslot]
    rfl

/-- A negative number passes the check. -/
theorem inside_syscallEntry {eax : Dword} : Inside (syscallEntry eax) ↔ 0 ≤ eax.toInt := by
  refine ⟨fun h ↦ ?_, fun h ↦ by rw [syscallEntry_eq h]; exact Avoids.ok _⟩
  unfold syscallEntry at h
  dsimp only at h
  split at h
  · rename_i hge
    exact (Int.natCast_nonneg _).trans hge
  · have hslot : Inside (Table.syscalls.slot eax.toInt) := Avoids.map_iff.mp h
    exact (inside_slot.mp hslot).1

/-- The first process, with all of its memory mapped. -/
def boot : KernelState where
  sys := System.init
  current := 0
  mem := ⟨fun _ ↦ .readWrite, fun _ ↦ 0⟩
  limits := fun _ ↦ ⟨0, 0⟩
  action := fun _ ↦ ⟨0, 0, 0, 0⟩
  fdTty := fun _ ↦ none
  tty := fun _ ↦ ⟨0, 0⟩
  groupTty := none
  sent := []

/-- The registers of a call with up to four arguments. -/
def callRegs (eax ebx ecx edx esi : Dword) : Reg32 → Dword
  | .eax => eax
  | .ebx => ebx
  | .ecx => ecx
  | .edx => edx
  | .esi => esi
  | _ => 0

end KernelState

end Isl.Kernel.CallTables
