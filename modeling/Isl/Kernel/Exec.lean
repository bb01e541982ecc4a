import Isl.Kernel.FindHole
import Isl.Lib.Layout

/-!
`elf_exec` of `kernel/exec.c`, as a program over the calls it makes: on the files
of the program and of its interpreter, on memory and on the lock of the address
space. The arrays of arguments are lists of strings without their null pointer, and
have fewer than `2 ^ 32` of them.
-/

namespace Isl.Kernel.Exec

open Isl.Lib Isl.Emu.Memory
open Isl.Kernel.Mmap (Dword pageRoundUp badPage)

abbrev Str := List Byte

def eio : ℤ := -5
def enoexec : ℤ := -8
def enomem : ℤ := -12
def efault : ℤ := -14
def einval : ℤ := -22
def elibbad : ℤ := -80

/-! `kernel/elf.h` -/

/-- The fields of `struct elf_header` that are used. -/
structure ElfHeader where
  magic : ℕ
  bitness : ℕ
  endian : ℕ
  elfversion1 : ℕ
  type : ℕ
  machine : ℕ
  entryPoint : Dword
  prgheadOff : Dword
  phentCount : ℕ
deriving DecidableEq

structure PrgHeader where
  type : ℕ
  offset : Dword
  vaddr : Dword
  filesize : Dword
  memsize : Dword
  flags : Dword
deriving DecidableEq

/-- The number in a field of a record. -/
def field (record : List Byte) (offset size : ℕ) : ℕ := Layout.leNat ((record.drop offset).take size)

def dword (record : List Byte) (offset : ℕ) : Dword := BitVec.ofNat 32 (field record offset 4)

def sizeofElfHeader : ℕ := 52
def sizeofPrgHeader : ℕ := 32
def sizeofAuxEnt : ℕ := 8

def ElfHeader.decode (record : List Byte) : ElfHeader where
  magic := field record 0 4
  bitness := field record 4 1
  endian := field record 5 1
  elfversion1 := field record 6 1
  type := field record 16 2
  machine := field record 18 2
  entryPoint := dword record 24
  prgheadOff := dword record 28
  phentCount := field record 44 2

def PrgHeader.decode (record : List Byte) : PrgHeader where
  type := field record 0 4
  offset := dword record 4
  vaddr := dword record 8
  filesize := dword record 16
  memsize := dword record 20
  flags := dword record 24

/-- The bytes `"\177ELF"` as a number. -/
def elfMagic : ℕ := 0x464c457f
def elf32bit : ℕ := 1
def elfLittleendian : ℕ := 1
def elfExecutable : ℕ := 2
def elfDynamic : ℕ := 3
def elfX86 : ℕ := 3

def ptLoad : ℕ := 1
def ptInterp : ℕ := 3

def phW : Dword := 1#32 <<< 1

def ElfHeader.loadable (header : ElfHeader) : Bool :=
  header.magic == elfMagic && (header.type == elfExecutable || header.type == elfDynamic) &&
    header.bitness == elf32bit && header.endian == elfLittleendian && header.elfversion1 == 1 &&
    header.machine == elfX86

/-! The calls. -/

/-- The open file that is executed, and the one that it asks for. -/
inductive File
  | program
  | interp
deriving DecidableEq

/-- What a call of `read` is for. -/
inductive Part
  | header
  | prgHeaders
  | interpName
deriving DecidableEq

/-- What a call of `pt_find_hole` is for. -/
inductive Hole
  | interp
  | vdso
  | vvar
deriving DecidableEq

/-- The memory that `elf_exec` allocates. -/
inductive Alloc
  | ph (file : File)
  | interpName
deriving DecidableEq

inductive ElfOp
  | lseek (file : File) (offset : Dword)
  | read (file : File) (part : Part) (size : ℕ)
  | errno
  | malloc (alloc : Alloc) (size : ℕ)
  | free (alloc : Alloc)
  | genericOpen (name : Str)
  | fdClose
  | memNew
  | writeWrlock
  | writeWrunlock
  | mmap (file : File) (start pages : ℕ) (offset : Dword) (flags : Flags)
  | findHole (hole : Hole) (size : ℕ)
  | mapVdso (start pages : ℕ)
  | mapNothing (start pages : ℕ) (flags : Flags)
  | startBrk
  | setBrk (brk : Addr)
  | setVdso (vdso : Addr)
  | memset (start : Addr) (len : Dword)
  | writeString (addr : Addr) (string : Str)
  | put (addr : Addr) (value : List Byte)
  | strlen (addr : Addr)
  | getRandom
  | uninitialised
  | setCpu (esp eip : Addr)

/-- `read` gives its result with the bytes in the buffer, `malloc` whether there
is memory, and the calls of `kernel/user.c` give zero or not. -/
def ElfOp.Reply : ElfOp → Type
  | .lseek _ _ | .errno | .mmap _ _ _ _ _ | .mapVdso _ _ | .mapNothing _ _ _ | .strlen _ => ℤ
  | .read _ _ _ => ℤ × List Byte
  | .malloc _ _ => Bool
  | .genericOpen _ => Except {err : ℤ // err < 0} Unit
  | .findHole _ _ | .writeString _ _ | .put _ _ => ℕ
  | .startBrk | .uninitialised => Addr
  | .getRandom => {bytes : List Byte // bytes.length = 16}
  | .free _ | .fdClose | .memNew | .writeWrlock | .writeWrunlock | .setBrk _ | .setVdso _
  | .memset _ _ | .setCpu _ _ => Unit

abbrev ElfCall := Prog ElfOp ElfOp.Reply

namespace ElfCall

def lseek (file : File) (offset : Dword) : ElfCall ℤ := Prog.perform (ElfOp.lseek file offset)

def read (file : File) (part : Part) (size : ℕ) : ElfCall (ℤ × List Byte) :=
  Prog.perform (ElfOp.read file part size)

def errno : ElfCall ℤ := Prog.perform ElfOp.errno

def malloc (alloc : Alloc) (size : ℕ) : ElfCall Bool := Prog.perform (ElfOp.malloc alloc size)

def free (alloc : Alloc) : ElfCall Unit := Prog.perform (ElfOp.free alloc)

def genericOpen (name : Str) : ElfCall (Except {err : ℤ // err < 0} Unit) :=
  Prog.perform (ElfOp.genericOpen name)

def fdClose : ElfCall Unit := Prog.perform ElfOp.fdClose

/-- `mem_release` of the old address space, and `mem_new`. -/
def memNew : ElfCall Unit := Prog.perform ElfOp.memNew

def writeWrlock : ElfCall Unit := Prog.perform ElfOp.writeWrlock

def writeWrunlock : ElfCall Unit := Prog.perform ElfOp.writeWrunlock

def mmap (file : File) (start pages : ℕ) (offset : Dword) (flags : Flags) : ElfCall ℤ :=
  Prog.perform (ElfOp.mmap file start pages offset flags)

def findHole (hole : Hole) (size : ℕ) : ElfCall ℕ := Prog.perform (ElfOp.findHole hole size)

/-- `pt_map` of `vdso_data`. -/
def mapVdso (start pages : ℕ) : ElfCall ℤ := Prog.perform (ElfOp.mapVdso start pages)

def mapNothing (start pages : ℕ) (flags : Flags) : ElfCall ℤ :=
  Prog.perform (ElfOp.mapNothing start pages flags)

def startBrk : ElfCall Addr := Prog.perform ElfOp.startBrk

def setBrk (brk : Addr) : ElfCall Unit := Prog.perform (ElfOp.setBrk brk)

def setVdso (vdso : Addr) : ElfCall Unit := Prog.perform (ElfOp.setVdso vdso)

/-- `user_memset` with zeros, whose result is not looked at. -/
def memset (start : Addr) (len : Dword) : ElfCall Unit := Prog.perform (ElfOp.memset start len)

def writeString (addr : Addr) (string : Str) : ElfCall ℕ := Prog.perform (ElfOp.writeString addr string)

def put (addr : Addr) (value : List Byte) : ElfCall ℕ := Prog.perform (ElfOp.put addr value)

def strlen (addr : Addr) : ElfCall ℤ := Prog.perform (ElfOp.strlen addr)

def getRandom : ElfCall {bytes : List Byte // bytes.length = 16} := Prog.perform ElfOp.getRandom

/-- What is in a variable that was never assigned. -/
def uninitialised : ElfCall Addr := Prog.perform ElfOp.uninitialised

def setCpu (esp eip : Addr) : ElfCall Unit := Prog.perform (ElfOp.setCpu esp eip)

end ElfCall

/-! The headers. -/

def readHeader (file : File) : ElfCall (Except ℤ ElfHeader) := do
  if (← ElfCall.lseek file 0) ≠ 0 then return .error eio
  else
    let r ← ElfCall.read file .header sizeofElfHeader
    if r.1 ≠ sizeofElfHeader then return .error (if r.1 < 0 then eio else enoexec)
    else
      let header := ElfHeader.decode r.2
      return if header.loadable then .ok header else .error enoexec

def decodePrgHeaders (count : ℕ) (bytes : List Byte) : List PrgHeader :=
  (List.range count).map fun i ↦ PrgHeader.decode (bytes.drop (i * sizeofPrgHeader))

def readPrgHeaders (file : File) (header : ElfHeader) : ElfCall (Except ℤ (List PrgHeader)) := do
  let phSize := sizeofPrgHeader * header.phentCount
  if !(← ElfCall.malloc (.ph file) phSize) then return .error enomem
  else if (← ElfCall.lseek file header.prgheadOff) < 0 then
    ElfCall.free (.ph file)
    return .error eio
  else
    let r ← ElfCall.read file .prgHeaders phSize
    if r.1 ≠ phSize then
      ElfCall.free (.ph file)
      return .error (if (← ElfCall.errno) ≠ 0 then eio else enoexec)
    else return .ok (decodePrgHeaders header.phentCount r.2)

/-- The variables of the interpreter that are not `NULL`: its name, its file, and
its program headers, which are set in this order. -/
inductive Interp
  | none
  | named
  | opened
  | loaded (header : ElfHeader) (ph : List PrgHeader)

/-- The ways out of `elf_exec`: its three labels, and `return`. -/
inductive Exit
  | outFreeInterp (err : ℤ)
  | outFreePh (err : ℤ)
  | beyondHope (err : ℤ)
  | ret (err : ℤ)

def libbad (err : ℤ) : ℤ := if err = enoexec then elibbad else err

/-- The body of the first loop, for the first `PT_INTERP`. -/
def openInterp (ph : PrgHeader) : ElfCall (Interp × Option Exit) := do
  if !(← ElfCall.malloc .interpName ph.filesize.toNat) then
    return (.none, some (.outFreePh enomem))
  else if (← ElfCall.lseek .program ph.offset) < 0 then
    return (.named, some (.outFreeInterp eio))
  else
    let r ← ElfCall.read .program .interpName ph.filesize.toNat
    if r.1 ≠ ph.filesize.toNat then return (.named, some (.outFreeInterp eio))
    else
      match ← ElfCall.genericOpen r.2 with
      | .error err => return (.named, some (.outFreeInterp err))
      | .ok _ =>
        match ← readHeader .interp with
        | .error err => return (.opened, some (.outFreeInterp (libbad err)))
        | .ok header =>
          match ← readPrgHeaders .interp header with
          | .error err => return (.opened, some (.outFreeInterp (libbad err)))
          | .ok interpPh => return (.loaded header interpPh, none)

/-- The first loop. -/
def findInterp : List PrgHeader → Interp → ElfCall (Interp × Option Exit)
  | [], interp => return (interp, none)
  | ph :: phs, interp =>
    if ph.type ≠ ptInterp then findInterp phs interp
    else
      match interp with
      | .none => do
        let r ← openInterp ph
        match r.2 with
        | some exit => return (r.1, some exit)
        | none => findInterp phs r.1
      -- can't have two interpreters
      | interp => return (interp, some (.outFreeInterp einval))

/-! Mapping the segments. -/

/-- `tail_size`, from the end of the file mapping to the end of its page. -/
def tailSize (fileEnd : Addr) : Dword :=
  let size := BitVec.ofNat 32 pageSize - BitVec.ofNat 32 (pgOffset fileEnd)
  if size = BitVec.ofNat 32 pageSize then 0 else size

def zeroTail (fileEnd : Addr) : ElfCall Unit :=
  if tailSize fileEnd ≠ 0 then ElfCall.memset fileEnd (tailSize fileEnd) else return ()

def loadEntryFlags (ph : PrgHeader) : Flags := if has ph.flags phW then pRead ||| pWrite else pRead

def loadBss (ph : PrgHeader) (addr : Addr) : ElfCall ℤ := do
  let bssSize := ph.memsize - ph.filesize
  let fileEnd := addr + ph.filesize
  zeroTail fileEnd
  let tail := if bssSize < tailSize fileEnd then bssSize else tailSize fileEnd
  if bssSize - tail ≠ 0 then
    let err ← ElfCall.mapNothing (pageRoundUp fileEnd) (pageRoundUp (bssSize - tail))
      (loadEntryFlags ph)
    return if err < 0 then err else 0
  else return 0

def loadEntry (file : File) (ph : PrgHeader) (bias : Addr) : ElfCall ℤ := do
  let addr := ph.vaddr + bias
  let inPage := BitVec.ofNat 32 (pgOffset addr)
  let err ← ElfCall.mmap file (page addr) (pageRoundUp (ph.filesize + inPage))
    (ph.offset - inPage) (loadEntryFlags ph)
  if err < 0 then return err
  else if ph.filesize < ph.memsize then loadBss ph addr
  else return 0

/-- `bias`, and `load_addr` once it is set. -/
structure Loaded where
  bias : Addr
  loadAddr : Option Addr

def bytesRoundUp (bytes : Dword) : Addr := BitVec.ofNat 32 (pageRoundUp bytes) <<< 12

def raiseBrk (brk : Addr) : ElfCall Unit := do
  if (← ElfCall.startBrk) < brk then ElfCall.setBrk (bytesRoundUp brk) else return ()

/-- The second loop. -/
def loadProgram (header : ElfHeader) : List PrgHeader → Loaded → ElfCall (Except ℤ Loaded)
  | [], l => return .ok l
  | ph :: phs, l =>
    if ph.type ≠ ptLoad then loadProgram header phs l
    else do
      let bias := if l.loadAddr.isNone ∧ header.type = elfDynamic then 0x56555000 else l.bias
      let err ← loadEntry .program ph bias
      if err < 0 then return .error err
      else
        raiseBrk (bias + ph.vaddr + ph.memsize)
        loadProgram header phs ⟨bias, some (l.loadAddr.getD (bias + ph.vaddr - ph.offset))⟩

/-- The pages from the first segment of the interpreter to its last. -/
def interpSize (interpPh : List PrgHeader) : ℕ :=
  let loads := interpPh.filter (·.type = ptLoad)
  match loads.head?, loads.getLast? with
  | some first, some last =>
    let a := BitVec.ofNat 32 (pageRoundUp (last.vaddr + last.memsize))
    let b := BitVec.ofNat 32 (page first.vaddr)
    (a - b).toNat
  | _, _ => 0

/-- The fourth loop, over the headers of the interpreter from the last one. -/
def loadInterpEntries (interpAddr : Addr) : List PrgHeader → ElfCall ℤ
  | [] => return 0
  | ph :: phs =>
    if ph.type ≠ ptLoad then loadInterpEntries interpAddr phs
    else do
      let err ← loadEntry .interp ph interpAddr
      if err < 0 then return err else loadInterpEntries interpAddr phs

/-- `interp_addr`, and `entry` where there is an interpreter. -/
def loadInterp (entry : Addr) : Interp → ElfCall (Except ℤ (Addr × Addr))
  | .loaded header interpPh => do
    let hole ← ElfCall.findHole .interp (interpSize interpPh)
    let interpAddr := BitVec.ofNat 32 hole <<< 12
    let err ← loadInterpEntries interpAddr interpPh.reverse
    return if err < 0 then .error err else .ok (interpAddr, interpAddr + header.entryPoint)
  | _ => return .ok (0, entry)

def vdsoPages : ℕ := 2

/-- The vdso and the three pages after it. The variable `err` is the result of `pt_map`
where there is no hole for the second ones. -/
def mapVdsoAndVvar : ElfCall (Except ℤ Addr) := do
  let vdsoPage ← ElfCall.findHole .vdso vdsoPages
  if vdsoPage = badPage then return .error enomem
  else
    let err ← ElfCall.mapVdso vdsoPage vdsoPages
    if err < 0 then return .error err
    else
      let vdso := BitVec.ofNat 32 vdsoPage <<< 12
      ElfCall.setVdso vdso
      let vvarPage ← ElfCall.findHole .vvar 3
      if vvarPage = badPage then return .error err
      else
        let err ← ElfCall.mapNothing vvarPage 3 0
        return if err < 0 then .error err else .ok vdso

/-- One page of stack, which grows down. -/
def mapStack : ElfCall ℤ := ElfCall.mapNothing 0xffffd 1 (pWrite ||| pGrowsdown)

/-- What is known of the new image when all of it is mapped. -/
structure Image where
  bias : Addr
  loadAddr : Option Addr
  interpAddr : Addr
  entry : Addr
  vdso : Addr

/-- Everything below the stack. -/
def mapSegments (header : ElfHeader) (phs : List PrgHeader) (interp : Interp) :
    ElfCall (Except ℤ Image) := do
  match ← loadProgram header phs ⟨0, none⟩ with
  | .error err => return .error err
  | .ok l =>
    match ← loadInterp (l.bias + header.entryPoint) interp with
    | .error err => return .error err
    | .ok (interpAddr, entry) =>
      match ← mapVdsoAndVvar with
      | .error err => return .error err
      | .ok vdso => return .ok ⟨l.bias, l.loadAddr, interpAddr, entry, vdso⟩

def mapImage (header : ElfHeader) (phs : List PrgHeader) (interp : Interp) :
    ElfCall (Except ℤ Image) := do
  match ← mapSegments header phs interp with
  | .error err => return .error err
  | .ok image =>
    let err ← mapStack
    return if err < 0 then .error err else .ok image

/-! The stack. -/

/-- `sp &~ 0xf` -/
def alignStack (sp : Addr) : Addr := sp &&& ~~~0xf

def countArgs (args : List Str) : Dword := BitVec.ofNat 32 args.length

/-- The new stack pointer, or zero. -/
def copyString (sp : Addr) (string : Str) : ElfCall Addr := do
  let sp := sp - BitVec.ofNat 32 (string.length + 1)
  return if (← ElfCall.writeString sp string) ≠ 0 then 0 else sp

/-- The loop of `copy_strings`, over the strings from the last one. -/
def copyStringsLoop : List Str → Addr → ElfCall Addr
  | [], sp => return sp
  | string :: strings, sp => do
    let sp ← copyString sp string
    if sp = 0 then return 0 else copyStringsLoop strings sp

def copyStrings (sp : Addr) (strings : List Str) : ElfCall Addr :=
  copyStringsLoop strings.reverse sp

/-- Where the copies are that the tables point to. -/
structure Copied where
  fileAddr : Addr
  envpAddr : Addr
  argvAddr : Addr
  platformAddr : Addr
  randomAddr : Addr

/-- The string `"i686"`. -/
def platform : Str := [0x69, 0x36, 0x38, 0x36]

/-- The top of the stack below the eight bytes at its bottom. -/
def stackTop : Addr := 0xffffe000 - 8

def copyArguments (file : Str) (argv envp : List Str) : ElfCall (Option Copied) := do
  let fileAddr ← copyString stackTop file
  if fileAddr = 0 then return none
  else
    let envpAddr ← copyStrings fileAddr envp
    if envpAddr = 0 then return none
    else
      let argvAddr ← copyStrings envpAddr argv
      if argvAddr = 0 then return none
      else
        let platformAddr ← copyString (alignStack argvAddr) platform
        if platformAddr = 0 then return none
        else
          let random ← ElfCall.getRandom
          let randomAddr := platformAddr - 16
          if (← ElfCall.put randomAddr random.1) ≠ 0 then return none
          else return some ⟨fileAddr, envpAddr, argvAddr, platformAddr, randomAddr⟩

/-- `aux`, with the types of `kernel/elf.h`. -/
def auxv (header : ElfHeader) (vdsoEntryPoint : Dword) (image : Image) (loadAddr : Addr)
    (copied : Copied) : List (ℕ × Dword) :=
  [(32, image.vdso + vdsoEntryPoint), (33, image.vdso), (16, 0), (6, BitVec.ofNat 32 pageSize),
    (17, 0x64), (3, loadAddr + header.prgheadOff), (4, BitVec.ofNat 32 sizeofPrgHeader),
    (5, BitVec.ofNat 32 header.phentCount), (7, image.interpAddr), (8, 0),
    (9, image.bias + header.entryPoint), (11, 0), (12, 0), (13, 0), (14, 0), (23, 0),
    (25, copied.randomAddr), (26, 0), (31, copied.fileAddr), (15, copied.platformAddr), (0, 0)]

def auxBytes (aux : List (ℕ × Dword)) : List Byte :=
  aux.flatMap fun ent ↦ Layout.leBytes 4 ent.1 ++ Layout.leBytes 4 ent.2.toNat

def sizeofAux : ℕ := 21 * sizeofAuxEnt

def dwordBytes (value : Dword) : List Byte := Layout.leBytes 4 value.toNat

/-- A loop that writes pointers to consecutive strings, and where it ends. -/
def putPointers : ℕ → Addr → Addr → ElfCall (Option Addr)
  | 0, p, _ => return some p
  | n + 1, p, string => do
    if (← ElfCall.put p (dwordBytes string)) ≠ 0 then return none
    else
      let len ← ElfCall.strlen string
      putPointers n (p + 4) (string + (BitVec.ofInt 32 len + 1))

/-- The stack pointer below the tables. -/
def tablesStart (sp : Addr) (argv envp : List Str) : Addr :=
  (sp - ((countArgs argv + 1) + (countArgs envp + 1) + 1) * 4 - BitVec.ofNat 32 sizeofAux) &&& ~~~0xf

def putTables (sp : Addr) (argv envp : List Str) (copied : Copied) (aux : List (ℕ × Dword)) :
    ElfCall (Option Exit) := do
  if (← ElfCall.put sp (dwordBytes (countArgs argv))) ≠ 0 then return some (.ret efault)
  else
    match ← putPointers (countArgs argv).toNat (sp + 4) copied.argvAddr with
    | none => return some (.ret efault)
    | some p =>
      match ← putPointers (countArgs envp).toNat (p + 4) copied.envpAddr with
      | none => return some (.ret efault)
      | some p =>
        if (← ElfCall.put (p + 4) (auxBytes aux)) ≠ 0 then return some (.beyondHope efault)
        else return none

/-- `load_addr`, which no segment may have set. -/
def readLoadAddr (image : Image) : ElfCall Addr :=
  match image.loadAddr with
  | some loadAddr => return loadAddr
  | none => ElfCall.uninitialised

/-- From the copy of the file name on. -/
def startImage (vdsoEntryPoint : Dword) (file : Str) (argv envp : List Str) (header : ElfHeader)
    (image : Image) : ElfCall Exit := do
  match ← copyArguments file argv envp with
  | none => return .beyondHope efault
  | some copied =>
    let loadAddr ← readLoadAddr image
    let sp := tablesStart copied.randomAddr argv envp
    match ← putTables sp argv envp copied (auxv header vdsoEntryPoint image loadAddr copied) with
    | some exit => return exit
    | none =>
      ElfCall.setCpu sp image.entry
      return .outFreeInterp 0

/-! `elf_exec` -/

def load (vdsoEntryPoint : Dword) (file : Str) (argv envp : List Str) (header : ElfHeader)
    (phs : List PrgHeader) (interp : Interp) : ElfCall Exit := do
  ElfCall.memNew
  ElfCall.writeWrlock
  match ← mapImage header phs interp with
  | .error err => return .beyondHope err
  | .ok image =>
    ElfCall.writeWrunlock
    startImage vdsoEntryPoint file argv envp header image

/-- The statements after `out_free_interp`, up to `out_free_ph`. -/
def freeInterp : Interp → ElfCall Unit
  | .none => return ()
  | .named => ElfCall.free .interpName
  | .opened => do
    ElfCall.free .interpName
    ElfCall.fdClose
  | .loaded _ _ => do
    ElfCall.free .interpName
    ElfCall.fdClose
    ElfCall.free (.ph .interp)

def leave (interp : Interp) : Exit → ElfCall ℤ
  | .ret err => return err
  | .outFreePh err => do
    ElfCall.free (.ph .program)
    return err
  | .outFreeInterp err => do
    freeInterp interp
    ElfCall.free (.ph .program)
    return err
  | .beyondHope err => do
    ElfCall.writeWrunlock
    freeInterp interp
    ElfCall.free (.ph .program)
    return err

def elfExec (vdsoEntryPoint : Dword) (file : Str) (argv envp : List Str) : ElfCall ℤ := do
  match ← readHeader .program with
  | .error err => return err
  | .ok header =>
    match ← readPrgHeaders .program header with
    | .error err => return err
    | .ok phs =>
      let r ← findInterp phs .none
      match r.2 with
      | some exit => leave r.1 exit
      | none =>
        let exit ← load vdsoEntryPoint file argv envp header phs r.1
        leave r.1 exit

end Isl.Kernel.Exec
