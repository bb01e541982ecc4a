import Mathlib.Data.BitVec
import Mathlib.Logic.Function.Basic
import Mathlib.Data.Int.Notation

/-!
The address spaces of `emu/memory.c`. A host mapping is a block, and a host
pointer is a block with an offset. Blocks, `struct data` and `struct mem`
objects are numbered in the order they are allocated.
-/

namespace Isl.Emu.Memory

abbrev Addr := BitVec 32
abbrev Byte := BitVec 8
abbrev Flags := BitVec 32

def memPages : ℕ := 1 <<< 20
abbrev pageSize : ℕ := 4096

def page (addr : Addr) : ℕ := addr.toNat / pageSize
def pgOffset (addr : Addr) : ℕ := addr.toNat % pageSize

def pRead : Flags := 1#32 <<< 0
def pWrite : Flags := 1#32 <<< 1
def pExec : Flags := 1#32 <<< 2
def pGrowsdown : Flags := 1#32 <<< 3
def pCow : Flags := 1#32 <<< 4
def pCompiled : Flags := 1#32 <<< 5
def pAnon : Flags := 1#32 <<< 6

/-- The C test `flags & bit`. -/
def has (flags bit : Flags) : Bool := flags &&& bit != 0

def pWritable (flags : Flags) : Bool := has flags pWrite && !has flags pCow

def eInval : ℤ := -22
def eNomem : ℤ := -12

structure Ptr where
  block : ℕ
  off : ℤ
deriving DecidableEq

def Ptr.add (p : Ptr) (n : ℤ) : Ptr := ⟨p.block, p.off + n⟩

/-- The host's `mprotect`: the page to change and whether it becomes writable
give zero or the mapped error. -/
abbrev Mprotect := Ptr → Bool → ℤ

inductive Access
  | read
  | write
deriving DecidableEq

structure Data where
  data : ℕ
  size : ℕ
  refcount : ℕ
deriving DecidableEq

/-- A present entry. A `NULL` data pointer is an absent entry. -/
structure PtEntry where
  data : ℕ
  offset : ℕ
  flags : Flags
deriving DecidableEq

/-- `changes` counts every call of `mem_changed`; the 32-bit counter of the
source is its value modulo `2 ^ 32`. -/
structure Mem where
  refcount : ℕ
  changes : ℕ
  pt : ℕ → Option PtEntry

def Mem.empty : Mem := ⟨1, 0, fun _ ↦ none⟩

structure World where
  mem : ℕ → Mem
  nextMem : ℕ
  data : ℕ → Option Data
  nextData : ℕ
  live : ℕ → Bool
  byte : ℕ → ℤ → Byte
  nextBlock : ℕ

namespace World

def init : World := ⟨fun _ ↦ Mem.empty, 0, fun _ ↦ none, 0, fun _ ↦ false, fun _ _ ↦ 0, 0⟩

/-! Host memory. -/

def hostRead (w : World) (p : Ptr) : Option Byte :=
  if w.live p.block then some (w.byte p.block p.off) else none

def hostWrite (w : World) (p : Ptr) (v : Byte) : World :=
  { w with byte := Function.update w.byte p.block (Function.update (w.byte p.block) p.off v) }

/-- An anonymous or file mapping of `size` bytes: fresh memory with the given
contents, or `MAP_FAILED` for a length of zero. -/
def mmap (w : World) (size : ℕ) (contents : ℤ → Byte) : Option ℕ × World :=
  if size = 0 then (none, w)
  else (some w.nextBlock, { w with
    nextBlock := w.nextBlock + 1
    live := Function.update w.live w.nextBlock true
    byte := Function.update w.byte w.nextBlock contents })

def munmap (w : World) (block size : ℕ) : World :=
  if size = 0 then w else { w with live := Function.update w.live block false }

def memcpyPage (w : World) (dst : ℕ) (src : Ptr) : World :=
  { w with
    byte := Function.update w.byte dst fun i ↦
      if 0 ≤ i ∧ i < pageSize then w.byte src.block (src.off + i) else w.byte dst i }

/-! Page tables. -/

def memPt (w : World) (m page : ℕ) : Option PtEntry := (w.mem m).pt page

def setPt (w : World) (m page : ℕ) (entry : Option PtEntry) : World :=
  { w with
    mem := Function.update w.mem m
      { w.mem m with pt := Function.update (w.mem m).pt page entry } }

def memPtDel (w : World) (m page : ℕ) : World := w.setPt m page none

def memChanged (w : World) (m : ℕ) : World :=
  { w with mem := Function.update w.mem m { w.mem m with changes := (w.mem m).changes + 1 } }

def memNew (w : World) : ℕ × World :=
  (w.nextMem, { w with
    nextMem := w.nextMem + 1
    mem := Function.update w.mem w.nextMem Mem.empty })

def dataRetain (w : World) (d : ℕ) : World :=
  { w with
    data := Function.update w.data d
      ((w.data d).map fun x ↦ { x with refcount := x.refcount + 1 }) }

/-- `if (--data->refcount == 0) { munmap(data->data, data->size); free(data); }` -/
def dataRelease (w : World) (d : ℕ) : World :=
  match w.data d with
  | none => w
  | some x =>
    if x.refcount = 1 then
      { w.munmap x.data x.size with data := Function.update w.data d none }
    else { w with data := Function.update w.data d (some { x with refcount := x.refcount - 1 }) }

def ptUnmapPage (w : World) (m page : ℕ) : World :=
  match w.memPt m page with
  | none => w
  | some pt => (w.memPtDel m page).dataRelease pt.data

def ptUnmap (w : World) (m start pages : ℕ) (force : Bool) : World × ℤ :=
  if !force && (List.range' start pages).any (fun p ↦ (w.memPt m p).isNone) then (w, -1)
  else (((List.range' start pages).foldl (ptUnmapPage · m ·) w).memChanged m, 0)

def dataNew (w : World) (block size : ℕ) : World :=
  { w with
    data := Function.update w.data w.nextData (some ⟨block, size, 0⟩)
    nextData := w.nextData + 1 }

def ptMapPage (m d start : ℕ) (flags : Flags) (w : World) (page : ℕ) : World :=
  let w := if (w.memPt m page).isSome then (w.ptUnmap m page 1 false).1 else w
  (w.dataRetain d).setPt m page (some ⟨d, (page - start) * pageSize, flags⟩)

/-- `memory` is the block to map, or `none` for `MAP_FAILED`. The size is a
32-bit product. -/
def ptMap (w : World) (m start pages : ℕ) (memory : Option ℕ) (flags : Flags) : World × ℤ :=
  match memory with
  | none => (w, eInval)
  | some block =>
    ((List.range' start pages).foldl (ptMapPage m w.nextData start flags)
      (w.dataNew block (pages * pageSize % 2 ^ 32)), 0)

/-- `pt_map` of a host mapping made for it, as `pt_map_nothing` and the files'
`mmap` operations call it. -/
def ptMapFresh (w : World) (m start pages : ℕ) (contents : ℤ → Byte) (flags : Flags) : World × ℤ :=
  let r := w.mmap (pages * pageSize % 2 ^ 32) contents
  r.2.ptMap m start pages r.1 flags

def ptMapNothing (w : World) (m start pages : ℕ) (flags : Flags) : World × ℤ :=
  if pages = 0 then (w, 0)
  else w.ptMapFresh m start pages (fun _ ↦ 0) (flags ||| pAnon)

def entryPtr (w : World) (entry : PtEntry) (off : ℕ) : Ptr :=
  ⟨((w.data entry.data).map Data.data).getD 0, entry.offset + off⟩

def raisesProt (old flags : Flags) : Bool := has (flags &&& ~~~old) (pRead ||| pWrite)

def ptSetFlagsLoop (mprotect : Mprotect) (m : ℕ) (flags : Flags) : World → List ℕ → World × ℤ
  | w, [] => (w.memChanged m, 0)
  | w, page :: pages =>
    match w.memPt m page with
    | none => (w, eNomem)
    | some entry =>
      let w' := w.setPt m page (some { entry with flags := flags })
      let err := mprotect (w.entryPtr entry 0) (has flags pWrite)
      -- an error leaves without mem_changed
      if raisesProt entry.flags flags ∧ err < 0 then (w', err)
      else ptSetFlagsLoop mprotect m flags w' pages

def ptSetFlags (w : World) (mprotect : Mprotect) (m start pages : ℕ) (flags : Flags) : World × ℤ :=
  if (List.range' start pages).any (fun p ↦ (w.memPt m p).isNone) then (w, eNomem)
  else ptSetFlagsLoop mprotect m flags w (List.range' start pages)

def cowFlags (flags : Flags) : Flags := (flags ||| pCow) &&& ~~~pCompiled

def cowPage (src dst : ℕ) (w : World) (srcPage dstPage : ℕ) : World :=
  match w.memPt src srcPage with
  | none => w
  | some entry =>
    let w := (w.ptUnmap dst dstPage 1 true).1
    let entry := { entry with flags := cowFlags entry.flags }
    let w := (w.setPt src srcPage (some entry)).dataRetain entry.data
    w.setPt dst dstPage (some entry)

/-- Between two different address spaces. -/
def ptCopyOnWrite (w : World) (src srcStart dst dstStart pages : ℕ) : World × ℤ :=
  (((List.range pages).foldl (fun w i ↦ cowPage src dst w (srcStart + i) (dstStart + i)) w
    |>.memChanged src).memChanged dst, 0)

def nextMapped (w : World) (m page : ℕ) : Option ℕ :=
  (List.range' page (memPages - page)).find? fun p ↦ (w.memPt m p).isSome

/-- The next mapped region above `page` is willing to grow down over it. -/
def growsTo (w : World) (m page : ℕ) : Bool :=
  match (w.nextMapped m (page + 1)).bind (w.memPt m) with
  | none => false
  | some entry => has entry.flags pGrowsdown

def grow (w : World) (m page : ℕ) : World :=
  if (w.memPt m page).isNone && w.growsTo m page then
    (w.ptMapNothing m page 1 (pWrite ||| pGrowsdown)).1
  else w

/-- Give the page a private copy of its memory. -/
def cowBreak (w : World) (m page : ℕ) (entry : PtEntry) : World :=
  let r := w.mmap pageSize (fun _ ↦ 0)
  let w := r.2.memcpyPage (r.1.getD 0) (r.2.entryPtr entry 0)
  (w.ptMap m page 1 r.1 (entry.flags &&& ~~~pCow)).1

def memPtr (w : World) (m : ℕ) (addr : Addr) (type : Access) : World × Option Ptr :=
  let w := w.grow m (page addr)
  match w.memPt m (page addr) with
  | none => (w, none)
  | some entry =>
    if type = .write ∧ !has entry.flags pWrite then (w, none)
    else
      let w := if type = .write ∧ has entry.flags pCow then w.cowBreak m (page addr) entry else w
      (w, (w.memPt m (page addr)).map (w.entryPtr · (pgOffset addr)))

def setRefcount (w : World) (m refcount : ℕ) : World :=
  { w with mem := Function.update w.mem m { w.mem m with refcount := refcount } }

def memRetain (w : World) (m : ℕ) : World := w.setRefcount m ((w.mem m).refcount + 1)

def memRelease (w : World) (m : ℕ) : World :=
  let w := w.setRefcount m ((w.mem m).refcount - 1)
  if (w.mem m).refcount = 0 then (w.ptUnmap m 0 memPages true).1 else w

/-- A byte load through `mem_ptr(MEM_READ)`. -/
def load (w : World) (m : ℕ) (addr : Addr) : World × Option Byte :=
  let r := w.memPtr m addr .read
  (r.1, r.2.bind r.1.hostRead)

/-- A byte store through `mem_ptr(MEM_WRITE)`. -/
def store (w : World) (m : ℕ) (addr : Addr) (value : Byte) : World :=
  let r := w.memPtr m addr .write
  match r.2 with
  | none => r.1
  | some p => r.1.hostWrite p value

end World

inductive Op
  | new
  | retain (m : ℕ)
  | release (m : ℕ)
  | mapNothing (m start pages : ℕ) (flags : Flags)
  | map (m start pages : ℕ) (contents : ℤ → Byte) (flags : Flags)
  | unmap (m start pages : ℕ) (force : Bool)
  | setFlags (mprotect : Mprotect) (m start pages : ℕ) (flags : Flags)
  | copyOnWrite (src srcStart dst dstStart pages : ℕ)
  | load (m : ℕ) (addr : Addr)
  | store (m : ℕ) (addr : Addr) (value : Byte)

namespace World

def inUse (w : World) (m : ℕ) : Prop := m < w.nextMem ∧ 0 < (w.mem m).refcount

instance (w : World) (m : ℕ) : Decidable (w.inUse m) := inferInstanceAs (Decidable (_ ∧ _))

/-- A range the page directory has room for, or one whose check for unmapped
pages ends before the directory does. -/
def checkedRange (w : World) (m start pages : ℕ) : Prop :=
  start + pages ≤ memPages ∨
    (List.range' start (memPages - start)).any (fun p ↦ (w.memPt m p).isNone)

instance (w : World) (m start pages : ℕ) : Decidable (w.checkedRange m start pages) :=
  inferInstanceAs (Decidable (_ ∨ _))

/-- The calls with a defined effect: on an address space that is in use, and
without an access past the end of a page directory. -/
def Defined (w : World) : Op → Prop
  | .new => True
  | .retain m | .release m | .load m _ | .store m _ _ => w.inUse m
  | .mapNothing m start pages _ | .map m start pages _ _ | .unmap m start pages true =>
    w.inUse m ∧ start + pages ≤ memPages
  | .unmap m start pages false | .setFlags _ m start pages _ =>
    w.inUse m ∧ w.checkedRange m start pages
  | .copyOnWrite src srcStart dst dstStart pages =>
    w.inUse src ∧ w.inUse dst ∧ src ≠ dst ∧
      srcStart + pages ≤ memPages ∧ dstStart + pages ≤ memPages

instance (w : World) (op : Op) : Decidable (w.Defined op) := by
  unfold Defined
  split <;> infer_instance

def apply (w : World) : Op → World
  | .new => w.memNew.2
  | .retain m => w.memRetain m
  | .release m => w.memRelease m
  | .mapNothing m start pages flags => (w.ptMapNothing m start pages flags).1
  | .map m start pages contents flags => (w.ptMapFresh m start pages contents flags).1
  | .unmap m start pages force => (w.ptUnmap m start pages force).1
  | .setFlags mprotect m start pages flags => (w.ptSetFlags mprotect m start pages flags).1
  | .copyOnWrite src srcStart dst dstStart pages =>
    (w.ptCopyOnWrite src srcStart dst dstStart pages).1
  | .load m addr => (w.load m addr).1
  | .store m addr value => w.store m addr value

def step (w : World) (op : Op) : Option World := if w.Defined op then some (w.apply op) else none

end World

end Isl.Emu.Memory
