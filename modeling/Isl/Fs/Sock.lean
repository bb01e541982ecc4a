import Isl.Fs.InstallSlot
import Isl.Kernel.CopyOut

/-!
Calls that open descriptors of the host and install files for them: `fs/pipe.c` and
`fs/sock.c`.
-/

namespace Isl.Fs.Sock

open Isl.Lib
open Isl.Emu (GuestMem)
open Isl.Emu.Memory (Addr Byte)
open Isl.Fs.Cloexec (FdTable Env oCloexec)
open Isl.Fs.OpenFiles (FdId Dword eBadf eNomem)
open Isl.Kernel.FileCalls (userGet sockaddrWrite)

def eFault : ℤ := -14
def eInval : ℤ := -22

/-- What the calls use of a `struct fd`. -/
structure HostFile where
  realFd : ℕ
  isSocket : Bool

/-- A descriptor that the host has given out, or a call of `close(2)`. -/
inductive HostEvent
  | opened (h : ℕ)
  | closed (h : ℕ)
deriving DecidableEq

structure Sys where
  fds : Pool HostFile
  table : FdTable
  mem : GuestMem
  events : List HostEvent

/-- What the allocations of a file find: there may be no memory for the `struct fd`. -/
structure Limits where
  env : Env
  noFd : Bool

namespace Sys

def opened (s : Sys) (hs : List ℕ) : Sys := { s with events := s.events ++ hs.map .opened }

/-- `close(2)` -/
def close (s : Sys) (h : ℕ) : Sys := { s with events := s.events ++ [.closed h] }

/-- `fd_close`. The operation of these files closes the descriptor of the host. -/
def fdClose (s : Sys) (d : FdId) : Option Sys :=
  (s.fds.release d).map fun fds ↦
    let s := { s with fds := fds }
    if fds.live d then s else s.close (fds.val d).realFd

/-- `f_install_flags`, with the reference that is dropped when it fails. -/
def fInstallFlags (s : Sys) (d : FdId) (flags : Dword) (env : Env) : Option (Sys × ℤ) := do
  let (table, f) ← s.table.fInstallFlags d flags env
  let s := { s with table := table }
  if f < 0 then (s.fdClose d).map fun s ↦ (s, f) else some (s, f)

def fClose (s : Sys) (f : ℤ) (env : Env) : Option (Sys × ℤ) := do
  match ← s.table.fGet (BitVec.ofInt 32 f) with
  | none => some (s, eBadf)
  | some d =>
    let s ← s.fdClose d
    let (table, err) ← s.table.fClose (BitVec.ofInt 32 f) env
    some ({ s with table := table }, err)

/-- A new file for a descriptor of the host. -/
def fdCreate (s : Sys) (file : HostFile) (flags : Dword) (limits : Limits) : Option (Sys × ℤ) :=
  if limits.noFd then some (s, eNomem)
  else
    let (d, fds) := s.fds.alloc file
    { s with fds := fds }.fInstallFlags d flags limits.env

def pipeFCreate (s : Sys) (pipeFd : ℕ) (flags : Dword) (limits : Limits) : Option (Sys × ℤ) :=
  s.fdCreate ⟨pipeFd, false⟩ flags limits

/-- `SOCK_CLOEXEC_` is the bit of `O_CLOEXEC_`. -/
def sockFdCreate (s : Sys) (sockFd : ℕ) (flags : Dword) (limits : Limits) : Option (Sys × ℤ) :=
  s.fdCreate ⟨sockFd, true⟩ flags limits

end Sys

/-- Two descriptors of the host. -/
structure HostPair where
  first : ℕ
  second : ℕ
  ne : first ≠ second

/-- Where `sys_pipe2` and `sys_socketpair` go on with two descriptors of the host. -/
def installPair (create : Sys → ℕ → Limits → Option (Sys × ℤ)) (s : Sys) (p : HostPair)
    (addr : Addr) (limits₀ limits₁ : Limits) : Option (Sys × ℤ) := do
  let (s, f₀) ← create s p.first limits₀
  if f₀ < 0 then some ((s.close p.first).close p.second, f₀)
  else
    let (s, f₁) ← create s p.second limits₁
    if f₁ < 0 then
      let (s, _) ← s.fClose f₀ limits₁.env
      some ((s.close p.first).close p.second, f₁)
    else
      let r := s.mem.userWrite addr (Layout.leBytes 4 f₀.toNat ++ Layout.leBytes 4 f₁.toNat)
      let s := { s with mem := r.1 }
      if r.2 = 0 then some (s, 0)
      else
        let (s, _) ← s.fClose f₁ limits₁.env
        let (s, _) ← s.fClose f₀ limits₁.env
        some ((s.close p.first).close p.second, eFault)

def oNonblock : Dword := 1 <<< 11

/-- The result of `pipe(2)` is returned as it is when it fails. -/
def sysPipe2 (s : Sys) (pipeAddr : Addr) (flags : Dword) (pipe : Option HostPair)
    (limits₀ limits₁ : Limits) : Option (Sys × ℤ) :=
  if flags &&& ~~~(oCloexec ||| oNonblock) ≠ 0 then some (s, eInval)
  else
    match pipe with
    | none => some (s, -1)
    | some p =>
      installPair (fun s pipeFd limits ↦ s.pipeFCreate pipeFd flags limits)
        (s.opened [p.first, p.second]) p pipeAddr limits₀ limits₁

/-- The numbers of the host, or none for `-1`. -/
def sockFamilyToReal (fake : Dword) : Option ℕ :=
  if fake = 1 then some 1 else if fake = 2 then some 2 else if fake = 10 then some 10 else none

def ipprotoIcmp : Dword := 1
def ipprotoTcp : Dword := 6
def ipprotoUdp : Dword := 17
def ipprotoIcmpv6 : Dword := 58
def ipprotoRaw : Dword := 255

def sockStream : ℕ := 1
def sockDgram : ℕ := 2

def sockTypeToReal (type protocol : Dword) : Option ℕ :=
  if type &&& 0xff = 1 then
    if protocol ≠ 0 ∧ protocol ≠ ipprotoTcp then none else some sockStream
  else if type &&& 0xff = 2 then
    if protocol ≠ 0 ∧ protocol ≠ ipprotoUdp then none else some sockDgram
  else if type &&& 0xff = 3 then
    if protocol ≠ ipprotoUdp ∧ protocol ≠ ipprotoIcmp ∧ protocol ≠ ipprotoIcmpv6 ∧
        protocol ≠ ipprotoRaw then none
    else some sockDgram
  else none

/-- The host is asked with the numbers of the guest. -/
def sysSocketpair (s : Sys) (domain type protocol : Dword) (socketsAddr : Addr)
    (socketpair : Dword → Dword → Dword → Except Errno HostPair) (limits₀ limits₁ : Limits) :
    Option (Sys × ℤ) :=
  match sockFamilyToReal domain, sockTypeToReal type protocol with
  | some _, some _ =>
    match socketpair domain type protocol with
    | .error err => some (s, err.code)
    | .ok p =>
      installPair (fun s sockFd limits ↦ s.sockFdCreate sockFd type limits)
        (s.opened [p.first, p.second]) p socketsAddr limits₀ limits₁
  | _, _ => some (s, eInval)

/-- Where `sys_socket` and `sys_accept` go on with a descriptor of the host. -/
def installSocket (s : Sys) (sock : ℕ) (type : Dword) (limits : Limits) : Option (Sys × ℤ) := do
  let (s, f) ← s.sockFdCreate sock type limits
  if f < 0 then some (s.close sock, f) else some (s, f)

def sysSocket (s : Sys) (domain type protocol : Dword)
    (socket : ℕ → ℕ → Dword → Except Errno ℕ) (limits : Limits) : Option (Sys × ℤ) :=
  match sockFamilyToReal domain, sockTypeToReal type protocol with
  | some realDomain, some realType =>
    let protocol := if type = 3 ∧ protocol = ipprotoRaw then ipprotoIcmp else protocol
    match socket realDomain realType protocol with
    | .error err => some (s, err.code)
    | .ok sock => installSocket (s.opened [sock]) sock type limits
  | _, _ => some (s, eInval)

/-- What `accept(2)` gives: the new descriptor, and the address on the stack. -/
structure Accepted where
  client : ℕ
  sockaddrLen : Dword
  sockaddr : ℕ → Byte

def sysAccept (s : Sys) (sockFd : Dword) (sockaddrAddr sockaddrLenAddr : Addr)
    (accept : ℕ → Dword → Except Errno Accepted) (limits : Limits) : Option (Sys × ℤ) := do
  match ← s.table.fGet sockFd with
  | none => some (s, eBadf)
  | some d =>
    if (s.fds.val d).isSocket = false then some (s, eBadf)
    else
      match userGet s.mem sockaddrLenAddr with
      | none => some (s, eFault)
      | some sockaddrLen =>
        match accept (s.fds.val d).realFd sockaddrLen with
        | .error err => some (s, err.code)
        | .ok got =>
          let r := sockaddrWrite s.mem sockaddrAddr got.sockaddr got.sockaddrLen
          let s := { s.opened [got.client] with mem := r.1 }
          -- the number of the host is returned
          if r.2.toInt < 0 then some (s, got.client)
          else
            let w := r.1.userWrite sockaddrLenAddr (Layout.leBytes 4 got.sockaddrLen.toNat)
            let s := { s with mem := w.1 }
            if w.2 ≠ 0 then some (s, eFault) else installSocket s got.client 0 limits

/-! What the calls should do with the descriptors of the host. -/

def openedIn (events : List HostEvent) : List ℕ :=
  events.filterMap fun | .opened h => some h | .closed _ => none

/-- The slots of the guest, and the bits of those that are open. -/
def Unchanged (table table' : FdTable) : Prop :=
  ∀ f, table'.get f = table.get f ∧
    ((table.get f).isSome → Util.bitAt table'.cloexec f = Util.bitAt table.cloexec f)

def Refers (s : Sys) (f h : ℕ) : Prop := ∃ d, s.table.get f = some d ∧ (s.fds.val d).realFd = h

/-- A call that fails has closed each descriptor that it has opened once and left the
table alone, and the numbers that it returns otherwise stand for those descriptors. -/
def CallRight (s : Sys) (returned : Sys → ℤ → List ℕ) (r : Option (Sys × ℤ)) : Prop :=
  ∃ s' ret new, r = some (s', ret) ∧ s'.events = s.events ++ new ∧
    (ret < 0 → (∀ h ∈ openedIn new, new.count (.closed h) = 1) ∧ Unchanged s.table s'.table) ∧
    (0 ≤ ret → List.Forall₂ (Refers s') (returned s' ret) (openedIn new))

/-- The result is a number. -/
def result (_ : Sys) (ret : ℤ) : List ℕ := [ret.toNat]

/-- Two numbers are in the memory of the guest. -/
def pairAt (addr : Addr) (s : Sys) (_ : ℤ) : List ℕ :=
  [addr, addr + 4].filterMap fun a ↦ (userGet s.mem a).map BitVec.toNat

/-! When they do so. -/

/-- A table that has a file in a slot. -/
def taken (table : FdTable) (f : ℕ) : FdTable :=
  { table with files := (table.files ++ List.replicate (f + 1 - table.size) none).set f (some 0) }

/-- There is no memory for the file, or there is a slot for it. -/
def InstallFine (table : FdTable) (limits : Limits) : Prop :=
  limits.noFd = true ∨ ∃ f, Cloexec.TakesSlot table limits.env f

/-- There is no memory for the first file, or there are slots for both, and the guest can
write the numbers of them. -/
def PairFine (s : Sys) (addr : Addr) (limits₀ limits₁ : Limits) : Prop :=
  limits₀.noFd = true ∨ limits₁.noFd = false ∧ s.mem.writable addr 8 ∧
    ∃ f g, Cloexec.TakesSlot s.table limits₀.env f ∧
      Cloexec.TakesSlot (taken s.table f) limits₁.env g ∧ g ≠ f

def Pipe2Fine (s : Sys) (pipeAddr : Addr) (flags : Dword) (pipe : Option HostPair)
    (limits₀ limits₁ : Limits) : Prop :=
  flags &&& ~~~(oCloexec ||| oNonblock) ≠ 0 ∨ pipe = none ∨ PairFine s pipeAddr limits₀ limits₁

def SocketpairFine (s : Sys) (domain type protocol : Dword) (socketsAddr : Addr)
    (socketpair : Dword → Dword → Dword → Except Errno HostPair) (limits₀ limits₁ : Limits) : Prop :=
  sockFamilyToReal domain = none ∨ sockTypeToReal type protocol = none ∨
    (∀ p, socketpair domain type protocol ≠ .ok p) ∨ PairFine s socketsAddr limits₀ limits₁

def SocketFine (s : Sys) (domain type protocol : Dword)
    (socket : ℕ → ℕ → Dword → Except Errno ℕ) (limits : Limits) : Prop :=
  ∀ realDomain realType sock, sockFamilyToReal domain = some realDomain →
    sockTypeToReal type protocol = some realType →
    socket realDomain realType (if type = 3 ∧ protocol = ipprotoRaw then ipprotoIcmp else protocol) =
      .ok sock → InstallFine s.table limits

/-- The address is one of a family that the guest knows, and it can be written. -/
def AddressFine (mem : GuestMem) (sockaddrAddr : Addr) (got : Accepted) : Prop :=
  (Layout.leNat [got.sockaddr 0, got.sockaddr 1] = 2 ∨
    Layout.leNat [got.sockaddr 0, got.sockaddr 1] = 10) ∧
  mem.writable sockaddrAddr got.sockaddrLen.toNat

/-- There is a slot, and the guest takes the address; or else the number of the host is one
that the guest has for this very descriptor. -/
def AcceptFine (s : Sys) (sockFd : Dword) (sockaddrAddr sockaddrLenAddr : Addr)
    (accept : ℕ → Dword → Except Errno Accepted) (limits : Limits) : Prop :=
  ∃ o, s.table.fGet sockFd = some o ∧ ∀ d sockaddrLen got, o = some d →
    (s.fds.val d).isSocket = true → userGet s.mem sockaddrLenAddr = some sockaddrLen →
    accept (s.fds.val d).realFd sockaddrLen = .ok got →
    (¬AddressFine s.mem sockaddrAddr got → Refers s got.client got.client) ∧
    (AddressFine s.mem sockaddrAddr got →
      s.mem.writable sockaddrLenAddr 4 ∧ InstallFine s.table limits)

end Isl.Fs.Sock
