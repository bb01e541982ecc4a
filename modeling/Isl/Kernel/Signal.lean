import Isl.Emu.CpuState
import Isl.Emu.GuestMem
import Mathlib.Data.Fin.Basic

/-!
Signal delivery and return of `kernel/user-signal.c`. The state of the
interrupted code is kept in a frame on the guest's stack.
-/

namespace Isl.Kernel

open Emu Memory Isl.Lib.Layout

abbrev SigSet := BitVec 64

abbrev numSigs : ℕ := 64

instance : NeZero numSigs := ⟨by decide⟩

abbrev Sig := Fin numSigs

def sigDfl : Addr := 0
def sigIgn : Addr := 1

def sigKill : Sig := 9
def sigChld : Sig := 17
def sigCont : Sig := 18
def sigStop : Sig := 19
def sigUrg : Sig := 23
def sigWinch : Sig := 28
def sigIo : Sig := 29

/-- No store in the program changes these two from zero. -/
def xsaveExtra : Dword := 0
def fxsaveExtra : Dword := 0

/-- The handlers of `action`, and the alternate stack. -/
structure SigHand where
  handler : Sig → Addr
  altstack : Addr
  onAltstack : Bool

structure Task where
  cpu : CpuState
  mem : GuestMem
  vdso : Addr
  blocked : SigSet
  pending : SigSet
  queued : SigSet
  sighand : SigHand

def signalIsBlockable (sig : Sig) : Bool := sig != sigKill && sig != sigStop

inductive SignalAction
  | ignore
  | kill
  | callHandler
deriving DecidableEq

def defaultAction (sig : Sig) : SignalAction :=
  if sig ∈ [sigUrg, sigCont, sigChld, sigIo, sigWinch] then .ignore else .kill

def signalAction (sighand : SigHand) (sig : Sig) : SignalAction :=
  if signalIsBlockable sig then
    if sighand.handler sig = sigIgn then .ignore
    else if sighand.handler sig ≠ sigDfl then .callHandler
    else defaultAction sig
  else defaultAction sig

/-! The frame. Every field of a frame that is not set is zero. -/

structure SigContext where
  gs : Word := 0
  gsh : Word := 0
  fs : Word := 0
  fsh : Word := 0
  es : Word := 0
  esh : Word := 0
  ds : Word := 0
  dsh : Word := 0
  di : Dword := 0
  si : Dword := 0
  bp : Dword := 0
  sp : Dword := 0
  bx : Dword := 0
  dx : Dword := 0
  cx : Dword := 0
  ax : Dword := 0
  trapno : Dword := 0
  err : Dword := 0
  ip : Dword := 0
  cs : Word := 0
  csh : Word := 0
  flags : Dword := 0
  spAtSignal : Dword := 0
  ss : Word := 0
  ssh : Word := 0
  fpstate : Dword := 0
  oldmask : Dword := 0
  cr2 : Dword := 0

def fpstateSize : ℕ := 624

/-- The floating point state is room in the frame that nothing uses. -/
structure SigFrame where
  pretcode : Addr := 0
  sig : Dword := 0
  sc : SigContext := {}
  fpstate : BitVec (8 * fpstateSize) := 0
  extramask : Dword := 0
  popmov : Word := 0
  nrSigreturn : Dword := 0
  int80 : Word := 0

def sigframeSize : ℕ := 732

/-- `offsetof(struct sigframe_, sc)` -/
def scOffset : Dword := 8

/-- A field of `n` bytes. -/
def field (n : ℕ) (v : BitVec (8 * n)) : ℕ × ℕ := (n, v.toNat)

theorem field_lt (n : ℕ) (v : BitVec (8 * n)) : (field n v).2 < 256 ^ (field n v).1 := by
  have h := v.isLt
  rwa [pow_mul] at h

def SigContext.fields (sc : SigContext) : List (ℕ × ℕ) :=
  [field 2 sc.gs, field 2 sc.gsh, field 2 sc.fs, field 2 sc.fsh, field 2 sc.es, field 2 sc.esh,
    field 2 sc.ds, field 2 sc.dsh, field 4 sc.di, field 4 sc.si, field 4 sc.bp, field 4 sc.sp,
    field 4 sc.bx, field 4 sc.dx, field 4 sc.cx, field 4 sc.ax, field 4 sc.trapno, field 4 sc.err,
    field 4 sc.ip, field 2 sc.cs, field 2 sc.csh, field 4 sc.flags, field 4 sc.spAtSignal,
    field 2 sc.ss, field 2 sc.ssh, field 4 sc.fpstate, field 4 sc.oldmask, field 4 sc.cr2]

def SigFrame.fields (frame : SigFrame) : List (ℕ × ℕ) :=
  [field 4 frame.pretcode, field 4 frame.sig] ++ frame.sc.fields ++
    [field fpstateSize frame.fpstate, field 4 frame.extramask, field 2 frame.popmov,
      field 4 frame.nrSigreturn, field 2 frame.int80]

def SigFrame.toBytes (frame : SigFrame) : List Byte := image frame.fields

/-- The frame with the given field values. -/
def SigFrame.ofValues (v : List ℕ) : SigFrame :=
  let w (i : ℕ) : Word := BitVec.ofNat 16 (v.getD i 0)
  let d (i : ℕ) : Dword := BitVec.ofNat 32 (v.getD i 0)
  { pretcode := d 0
    sig := d 1
    sc :=
      { gs := w 2, gsh := w 3, fs := w 4, fsh := w 5, es := w 6, esh := w 7, ds := w 8, dsh := w 9
        di := d 10, si := d 11, bp := d 12, sp := d 13, bx := d 14, dx := d 15, cx := d 16
        ax := d 17, trapno := d 18, err := d 19, ip := d 20, cs := w 21, csh := w 22
        flags := d 23, spAtSignal := d 24, ss := w 25, ssh := w 26, fpstate := d 27
        oldmask := d 28, cr2 := d 29 }
    fpstate := BitVec.ofNat (8 * fpstateSize) (v.getD 30 0)
    extramask := d 31
    popmov := w 32
    nrSigreturn := d 33
    int80 := w 34 }

def SigFrame.ofBytes (bs : List Byte) : SigFrame :=
  .ofValues (values (({} : SigFrame).fields.map Prod.fst) bs)

/-! Delivery. -/

inductive Stop
  | exitGroup (sig : Sig)
  | die

def sigBit (sig : Sig) : SigSet := 1#64 <<< sig.val

def frameSp (sighand : SigHand) (esp : Addr) : Addr :=
  let sp := if sighand.altstack ≠ 0 then sighand.altstack else esp
  let sp :=
    if xsaveExtra ≠ 0 then ((sp - xsaveExtra) &&& ~~~0x3f#32) - fxsaveExtra else sp
  let sp := sp - BitVec.ofNat 32 sigframeSize
  ((sp + 4) &&& ~~~0xf#32) - 4

/-- The frame `receive_signal` builds. `symbol` is the address of
`__kernel_rt_sigreturn` in the vdso. -/
def setupFrame (symbol : Addr) (t : Task) (sig : Sig) : SigFrame :=
  let reg := t.cpu.regs
  { pretcode := t.vdso + symbol
    sig := BitVec.ofNat 32 sig
    sc :=
      { oldmask := t.blocked.setWidth 32
        ax := reg .eax, bx := reg .ebx, cx := reg .ecx, dx := reg .edx
        di := reg .edi, si := reg .esi, bp := reg .ebp
        sp := reg .esp, spAtSignal := reg .esp
        ip := t.cpu.eip
        flags := t.cpu.collapseFlags.eflags
        trapno := t.cpu.trapno }
    extramask := (t.blocked >>> 32).setWidth 32
    popmov := 0xb858
    nrSigreturn := 173
    int80 := 0x80cd }

def callHandler (symbol : Addr) (t : Task) (sig : Sig) : Task :=
  let sp := frameSp t.sighand (t.cpu.regs .esp)
  { t with
    cpu :=
      { t.cpu.collapseFlags with
        regs := Function.update (Function.update t.cpu.regs .eax (BitVec.ofNat 32 sig)) .esp sp
        eip := t.sighand.handler sig }
    sighand :=
      { t.sighand with onAltstack := t.sighand.onAltstack || t.sighand.altstack != 0 }
    blocked := t.blocked ||| sigBit sig
    -- an error of the copy is not looked at
    mem := (t.mem.userWrite sp (setupFrame symbol t sig).toBytes).1 }

def receiveSignal (symbol : Addr) (t : Task) (sig : Sig) : Except Stop Task :=
  let t := { t with pending := t.pending &&& ~~~sigBit sig }
  match signalAction t.sighand sig with
  | .ignore => .ok t
  | .kill => .error (.exitGroup sig)
  | .callHandler => if symbol = 0 then .error .die else .ok (callHandler symbol t sig)

/-- The loop of `receive_signals` over the given signals. -/
def receivePending (symbol : Addr) (t : Task) : List Sig → Except Stop Task
  | [] => .ok t
  | sig :: sigs =>
    if t.pending.getLsbD sig then
      match receiveSignal symbol t sig with
      | .ok t => receivePending symbol t sigs
      | .error e => .error e
    else receivePending symbol t sigs

def receiveSignals (symbol : Addr) (t : Task) : Except Stop Task :=
  if t.pending ≠ 0 then receivePending symbol t (List.finRange numSigs) else .ok t

/-! Return. -/

def sigBlock : Dword := 0
def sigUnblock : Dword := 1
def sigSetmask : Dword := 2

/-- `do_sigprocmask_unlocked`, with the result and the set stored for the
caller. -/
def doSigprocmask (t : Task) (how : Dword) (set : SigSet) : Task × ℤ × Option SigSet :=
  let changed :=
    if how = sigBlock then some (t.blocked ||| set)
    else if how = sigUnblock then some (t.blocked &&& ~~~set)
    else if how = sigSetmask then some set
    else none
  match changed with
  | none => (t, eInval, none)
  | some blocked =>
    let unblocked := t.blocked &&& ~~~blocked
    let pending := t.pending ||| (t.queued &&& unblocked)
    let queued := t.queued &&& ~~~unblocked
    let newly := blocked &&& ~~~t.blocked
    ({ t with
        blocked := blocked
        queued := queued ||| (pending &&& newly)
        pending := pending &&& ~~~newly }, 0, some t.blocked)

def SigContext.regs (sc : SigContext) : Reg32 → Dword
  | .eax => sc.ax
  | .ebx => sc.bx
  | .ecx => sc.cx
  | .edx => sc.dx
  | .edi => sc.di
  | .esi => sc.si
  | .ebp => sc.bp
  | .esp => sc.sp

/-- `sys_rt_sigreturn`. The frame variable is not initialised: the bytes that
can not be read are those of `frame`. -/
def sysRtSigreturn (t : Task) (frame : SigFrame) : Task × Dword :=
  let frame :=
    SigFrame.ofBytes (t.mem.userRead (t.cpu.regs .esp - scOffset) frame.toBytes).1
  let cpu :=
    { t.cpu.collapseFlags with
      regs := frame.sc.regs
      eip := frame.sc.ip
      eflags := frame.sc.flags }
  let oldmask := frame.extramask.setWidth 64 <<< 32 ||| frame.sc.oldmask.setWidth 64
  let t := { t with cpu := cpu, sighand := { t.sighand with onAltstack := false } }
  ((doSigprocmask t sigSetmask oldmask).1, frame.sc.ax)

/-- The system call as `handle_interrupt` makes it: its result goes to `eax`. -/
def sigreturn (t : Task) (frame : SigFrame) : Task :=
  let r := sysRtSigreturn t frame
  { r.1 with cpu := { r.1.cpu with regs := Function.update r.1.cpu.regs .eax r.2 } }

end Isl.Kernel
