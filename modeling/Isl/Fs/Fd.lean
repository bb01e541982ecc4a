import Isl.Lib.Pool
import Mathlib.Data.BitVec
import Mathlib.Data.Int.Notation

/-!
Open files, descriptor tables and the directories of a task, with the counts of
their references: `fs/fd.c`, `kernel/fs_info.c` and the calls of `kernel/fs.c`
that change a directory. The table that a call works on is the one that
`current->files` points to.
-/

namespace Isl.Fs.OpenFiles

open Isl.Lib

abbrev FdId := ℕ
abbrev TableId := ℕ
abbrev FsId := ℕ
abbrev Dword := BitVec 32

def eBadf : ℤ := -9
def eNomem : ℤ := -12
def eMfile : ℤ := -24

/-- The limit of `create_first_process` on the number of descriptors. -/
def limitNofile : ℕ := 1024

/-- `close` is what the operation of that name returns, zero without one. -/
structure Fd where
  close : ℤ

/-- The size of the table is the length of the list. -/
structure FdTable where
  files : List (Option FdId)
  cloexec : ℕ → Bool

structure FsInfo where
  umask : BitVec 16
  pwd : FdId
  root : FdId

structure Files where
  fds : Pool Fd
  tables : Pool FdTable
  fsInfos : Pool FsInfo

namespace FdTable

def size (table : FdTable) : ℕ := table.files.length

/-- The descriptor in a slot. A negative number is past the end of the table. -/
def get (table : FdTable) (f : ℕ) : Option FdId := table.files[f]?.join

/-- The files that the descriptors stand for. -/
def opened (table : FdTable) : List FdId := table.files.filterMap fun d ↦ d

def clear (table : FdTable) (f : ℕ) : FdTable :=
  { files := table.files.set f none
    cloexec := Function.update table.cloexec f false }

/-- A store to a slot, which has no result outside of the table. -/
def put (table : FdTable) (f : Dword) (d : FdId) : Option FdTable :=
  if 0 ≤ f.toInt ∧ f.toInt < table.size then
    some { table with files := table.files.set f.toNat (some d) }
  else none

def resize (table : FdTable) (size : ℕ) : FdTable :=
  { table with files := table.files ++ List.replicate (size - table.size) none }

end FdTable

namespace Files

def setTable (s : Files) (t : TableId) (table : FdTable) : Files :=
  { s with tables := s.tables.set t table }

def fdRetain (s : Files) (d : FdId) : Option Files :=
  (s.fds.retain d).map fun fds ↦ { s with fds := fds }

/-- `fd_close`, with what it returns. -/
def fdClose (s : Files) (d : FdId) : Option (Files × ℤ) :=
  (s.fds.release d).map fun fds ↦
    ({ s with fds := fds }, if fds.live d then 0 else (s.fds.val d).close)

/-! Descriptor tables. -/

def fGet (s : Files) (t : TableId) (f : ℕ) : Option (Option FdId) :=
  (s.tables.get t).map (·.get f)

def fClose (s : Files) (t : TableId) (f : ℕ) : Option (Files × ℤ) := do
  let table ← s.tables.get t
  match table.get f with
  | none => some (s, eBadf)
  | some d =>
    let (s, err) ← s.fdClose d
    some (s.setTable t (table.clear f), err)

/-- The loop of `fdtable_release` over the numbers below `n`. -/
def fCloseBelow (s : Files) (t : TableId) (n : ℕ) : Option Files :=
  (List.range n).foldlM (fun s f ↦ (s.fClose t f).map Prod.fst) s

/-- Every number of the table is closed in the caller's. The count is dropped
before the loop, which does not read it. -/
def fdtableRelease (s : Files) (current t : TableId) : Option Files := do
  let table ← s.tables.get t
  let s ← if s.tables.refcount t = 1 then s.fCloseBelow current table.size else some s
  let tables ← s.tables.release t
  some { s with tables := tables }

/-- `fdtable_new`, which asserts that the size is not zero. -/
def fdtableNew (s : Files) (size : ℕ) (noMemory : Bool) : Option (Except ℤ (TableId × Files)) :=
  if noMemory then some (.error eNomem)
  else if size = 0 then none
  else
    let (t, tables) := s.tables.alloc ⟨List.replicate size none, fun _ ↦ false⟩
    some (.ok (t, { s with tables := tables }))

def fdtableCopy (s : Files) (t : TableId) (noMemory : Bool) :
    Option (Except ℤ (TableId × Files)) := do
  let table ← s.tables.get t
  match ← s.fdtableNew table.size noMemory with
  | .error err => some (.error err)
  | .ok (t', s) =>
    let s ← table.opened.foldlM fdRetain (s.setTable t' table)
    some (.ok (t', s))

/-- `fdtable_expand`. The new size is unsigned: that of `-1` is zero. -/
def fdtableExpand (s : Files) (t : TableId) (max : Dword) (noMemory : Bool) :
    Option (Files × ℤ) := do
  let table ← s.tables.get t
  let size := (max + 1).toNat
  if size ≤ table.size then some (s, 0)
  else if limitNofile < size then some (s, eMfile)
  else if noMemory then some (s, eNomem)
  else some (s.setTable t (table.resize size), 0)

/-- The slot at which the loop of `f_install_start` stops. -/
def freeSlot (table : FdTable) (start : Dword) : Dword :=
  let size := min limitNofile table.size
  let free := (List.range' start.toNat (size - start.toNat)).find? fun f ↦ (table.get f).isNone
  BitVec.ofNat 32 (free.getD (max start.toNat size))

def fInstallStart (s : Files) (t : TableId) (d : FdId) (start : Dword) (noMemory : Bool) :
    Option (Files × ℤ) := do
  let table ← s.tables.get t
  let f := freeSlot table start
  let (s, err) ←
    if min limitNofile table.size ≤ f.toNat then s.fdtableExpand t f noMemory else some (s, 0)
  let result := if err < 0 then err else f.toInt
  if 0 ≤ result then
    let table ← s.tables.get t
    let table ← table.put f d
    let table := { table with cloexec := Function.update table.cloexec f.toNat false }
    some (s.setTable t table, result)
  else
    let (s, _) ← s.fdClose d
    some (s, result)

/-- `f_install` of a file that was opened for it. -/
def fInstall (s : Files) (t : TableId) (fd : Fd) (noMemory : Bool) : Option (Files × ℤ) :=
  let (d, fds) := s.fds.alloc fd
  { s with fds := fds }.fInstallStart t d 0 noMemory

def sysClose (s : Files) (t : TableId) (f : Dword) : Option (Files × ℤ) := s.fClose t f.toNat

/-- `F_DUPFD` of `sys_fcntl64`, and `sys_dup` from zero on. -/
def dupFrom (s : Files) (t : TableId) (f start : Dword) (noMemory : Bool) : Option (Files × ℤ) := do
  match ← s.fGet t f.toNat with
  | none => some (s, eBadf)
  | some d =>
    let s ← s.fdRetain d
    s.fInstallStart t d start noMemory

def sysDup (s : Files) (t : TableId) (f : Dword) (noMemory : Bool) : Option (Files × ℤ) :=
  s.dupFrom t f 0 noMemory

def sysDup2 (s : Files) (t : TableId) (f newF : Dword) (noMemory : Bool) : Option (Files × ℤ) := do
  match ← s.fGet t f.toNat with
  | none => some (s, eBadf)
  | some d =>
    let (s, err) ← s.fdtableExpand t newF noMemory
    if err < 0 then some (s, err)
    else
      let (s, _) ← s.fClose t newF.toNat
      let s ← s.fdRetain d
      let table ← s.tables.get t
      let table ← table.put newF d
      some (s.setTable t table, newF.toInt)

/-! Directories. -/

/-- `fs_info_copy`, which stores through the pointer that `malloc` returns. -/
def fsInfoCopy (s : Files) (i : FsId) (noMemory : Bool) : Option (FsId × Files) := do
  let info ← s.fsInfos.get i
  if noMemory then none
  else
    let (i', fsInfos) := s.fsInfos.alloc info
    let s ← { s with fsInfos := fsInfos }.fdRetain info.pwd
    let s ← s.fdRetain info.root
    some (i', s)

def fsInfoRelease (s : Files) (i : FsId) : Option Files := do
  let info ← s.fsInfos.get i
  let s ←
    if s.fsInfos.refcount i = 1 then do
      let (s, _) ← s.fdClose info.pwd
      let (s, _) ← s.fdClose info.root
      some s
    else some s
  let fsInfos ← s.fsInfos.release i
  some { s with fsInfos := fsInfos }

def fsChdir (s : Files) (i : FsId) (d : FdId) : Option Files := do
  let info ← s.fsInfos.get i
  let (s, _) ← s.fdClose info.pwd
  some { s with fsInfos := s.fsInfos.set i { info with pwd := d } }

/-- `sys_chdir` to a directory that `open_dir` has opened. -/
def sysChdir (s : Files) (i : FsId) (fd : Fd) : Option Files :=
  let (d, fds) := s.fds.alloc fd
  { s with fds := fds }.fsChdir i d

def sysFchdir (s : Files) (t : TableId) (i : FsId) (f : Dword) : Option (Files × ℤ) := do
  match ← s.fGet t f.toNat with
  | none => some (s, eBadf)
  | some d =>
    let s ← s.fdRetain d
    let s ← s.fsChdir i d
    some (s, 0)

end Files

/-! What the calls do. -/

section

variable {table : FdTable} {s s' : Files} {t i : ℕ} {d e : FdId} {f g n : ℕ}

namespace FdTable

theorem get_eq_some : table.get f = some d ↔ table.files[f]? = some (some d) :=
  Option.join_eq_some_iff

theorem mem_opened : d ∈ table.opened ↔ ∃ f, table.get f = some d := by
  simp [opened, get_eq_some, ← List.mem_iff_getElem?]

theorem get_of_opened_nil (h : table.opened = []) (f : ℕ) : table.get f = none := by
  by_contra hne
  obtain ⟨d, hd⟩ := Option.ne_none_iff_exists'.mp hne
  have hm := mem_opened.mpr ⟨f, hd⟩
  rw [h] at hm
  cases hm

theorem lt_of_get (h : table.get f = some d) : f < table.size :=
  (List.getElem?_eq_some_iff.mp (get_eq_some.mp h)).1

theorem get_clear (table : FdTable) (f g : ℕ) :
    (table.clear f).get g = if g = f then none else table.get g := by
  by_cases hg : g = f
  · subst hg
    by_cases hlt : g < table.files.length <;> simp [get, clear, hlt]
  · rw [if_neg hg, get, clear, List.getElem?_set_ne (Ne.symm hg)]
    rfl

end FdTable

namespace Files

theorem fdRetain_of_live (h : s.fds.live d) :
    ∃ fds, s.fdRetain d = some { s with fds := fds } ∧ Pool.Retained d s.fds fds := by
  obtain ⟨fds, hfds, hr⟩ := Pool.retain_of_live h
  exact ⟨fds, by rw [fdRetain, hfds]; rfl, hr⟩

theorem fdClose_of_retained {fds : Pool Fd} (h : Pool.Retained d fds s.fds) :
    ∃ err, s.fdClose d = some ({ s with fds := fds }, err) := by
  rw [fdClose, Pool.release_eq_some.mpr h]
  exact ⟨_, rfl⟩

theorem fdRetains_of_live {ds : List FdId} (h : ∀ d ∈ ds, s.fds.live d) :
    ∃ fds, ds.foldlM fdRetain s = some { s with fds := fds } ∧
      (∀ d, s.fds.live d → fds.live d) ∧
      ∀ d, fds.refcount d = s.fds.refcount d + ds.count d := by
  induction ds generalizing s with
  | nil => exact ⟨s.fds, rfl, fun _ hd ↦ hd, fun _ ↦ rfl⟩
  | cons d ds ih =>
    obtain ⟨fds, hfds, hr⟩ := fdRetain_of_live (h d List.mem_cons_self)
    obtain ⟨fds', hfds', hlive, hcount⟩ := @ih { s with fds := fds } fun e he ↦
      hr.live_of_live (h e (List.mem_cons_of_mem _ he))
    refine ⟨fds', ?_, fun e he ↦ hlive e (hr.live_of_live he), fun e ↦ ?_⟩
    · rw [List.foldlM_cons, hfds]
      exact hfds'
    · have he := hr.refcount e
      rw [hcount, List.count_cons]
      simp only [beq_iff_eq, eq_comm (a := d)]
      omega

/-! Releasing a reference to an object that is shared. -/

theorem fdtableRelease_of_shared {tables : Pool FdTable} (ht : tables.live t)
    (hr : Pool.Retained t tables s.tables) (current : TableId) :
    s.fdtableRelease current t = some { s with tables := tables } := by
  have hcount : s.tables.refcount t ≠ 1 := by
    rw [hr.refcount, if_pos rfl]
    exact fun heq ↦ ht (Nat.succ.inj heq)
  rw [fdtableRelease, Pool.get_of_live hr.live]
  dsimp only [Option.bind_eq_bind, Option.bind_some]
  rw [if_neg hcount, Pool.release_eq_some.mpr hr]
  rfl

theorem fsInfoRelease_of_shared {fsInfos : Pool FsInfo} (hi : fsInfos.live i)
    (hr : Pool.Retained i fsInfos s.fsInfos) :
    s.fsInfoRelease i = some { s with fsInfos := fsInfos } := by
  have hcount : s.fsInfos.refcount i ≠ 1 := by
    rw [hr.refcount, if_pos rfl]
    exact fun heq ↦ hi (Nat.succ.inj heq)
  rw [fsInfoRelease, Pool.get_of_live hr.live]
  dsimp only [Option.bind_eq_bind, Option.bind_some]
  rw [if_neg hcount, Pool.release_eq_some.mpr hr]
  rfl

/-! Copies of a table, and their release by the caller of the copy. -/

theorem fdtableCopy_of_live (ht : s.tables.live t) (hsize : (s.tables.val t).size ≠ 0)
    (hopened : ∀ d ∈ (s.tables.val t).opened, s.fds.live d) :
    ∃ fds, s.fdtableCopy t false = some (.ok (s.tables.next,
        { s with fds := fds, tables := (s.tables.alloc (s.tables.val t)).2 })) ∧
      (∀ d, s.fds.live d → fds.live d) ∧ ((s.tables.val t).opened = [] → fds = s.fds) ∧
      ∀ d, fds.refcount d = s.fds.refcount d + (s.tables.val t).opened.count d := by
  have hset : (s.tables.alloc ⟨List.replicate (s.tables.val t).size none, fun _ ↦ false⟩).2.set
      s.tables.next (s.tables.val t) = (s.tables.alloc (s.tables.val t)).2 := by
    simp [Pool.alloc, Pool.set]
  obtain ⟨fds, hfds, hlive, hcount⟩ := @fdRetains_of_live
    { s with tables := (s.tables.alloc (s.tables.val t)).2 } _ hopened
  refine ⟨fds, ?_, hlive, fun hnil ↦ ?_, hcount⟩
  · rw [fdtableCopy, Pool.get_of_live ht, Option.bind_eq_bind, Option.bind_some, fdtableNew,
      if_neg Bool.false_ne_true, if_neg hsize]
    dsimp only [Option.bind_eq_bind, Option.bind_some, setTable]
    rw [show (s.tables.alloc ⟨List.replicate (s.tables.val t).size none, fun _ ↦ false⟩).1 =
      s.tables.next from rfl, hset, hfds]
    rfl
  · rw [hnil] at hfds
    exact congrArg Files.fds (Option.some.inj hfds).symm

theorem fCloseBelow_succ (s : Files) (t n : ℕ) : s.fCloseBelow t (n + 1) =
    (s.fCloseBelow t n).bind fun s ↦ (s.fClose t n).map Prod.fst := by
  rw [fCloseBelow, List.range_succ, List.foldlM_append, fCloseBelow]
  simp

theorem fCloseBelow_of_empty (h : s.tables.get t = some table) (hempty : ∀ f, table.get f = none)
    (n : ℕ) : s.fCloseBelow t n = some s := by
  induction n with
  | zero => rfl
  | succ n ih =>
    rw [fCloseBelow_succ, ih, Option.bind_some, fClose, h]
    simp [hempty]

/-- The loop leaves the caller's table without the descriptors. -/
theorem get_fCloseBelow (h : s.fCloseBelow t n = some s') (hf : f < n) :
    (s'.tables.val t).get f = none := by
  induction n generalizing s' with
  | zero => exact absurd hf (Nat.not_lt_zero _)
  | succ n ih =>
    rw [fCloseBelow_succ] at h
    obtain ⟨s₁, hs₁, hs⟩ := Option.bind_eq_some_iff.mp h
    obtain ⟨⟨s₂, err⟩, hclose, rfl⟩ := Option.map_eq_some_iff.mp hs
    obtain ⟨table, htable, hclose⟩ := Option.bind_eq_some_iff.mp hclose
    obtain ⟨-, rfl⟩ := Pool.get_eq_some.mp htable
    have hold (hne : f ≠ n) : (s₁.tables.val t).get f = none := ih hs₁ (by omega)
    split at hclose
    · rename_i hnone
      cases hclose
      by_cases hne : f = n
      · exact hne ▸ hnone
      · exact hold hne
    · obtain ⟨⟨s₃, err'⟩, hfd, hclose⟩ := Option.bind_eq_some_iff.mp hclose
      cases hclose
      dsimp only [setTable, Pool.set]
      rw [Function.update_self, FdTable.get_clear]
      split
      · rfl
      · exact hold ‹_›

/-- Releasing a copy, which the caller's table is the source of, when nothing
is open. -/
theorem fdtableRelease_copy_of_empty {tables : Pool FdTable}
    (ht : tables.live t) (hopened : (tables.val t).opened = [])
    (htables : s.tables = (tables.alloc (tables.val t)).2) :
    ∃ tables', s.fdtableRelease t tables.next = some { s with tables := tables' } ∧
      Pool.Same tables tables' := by
  have hnew : s.tables.get tables.next = some (tables.val t) := by
    rw [htables, Pool.get_of_live (Pool.live_alloc _ _), Pool.val_alloc, if_pos rfl]
  have hold : s.tables.get t = some (tables.val t) := by
    rw [htables, Pool.get_of_live (Pool.live_alloc_of_live ht _), Pool.val_alloc,
      if_neg (Nat.ne_of_lt ht.lt)]
  have hcount : s.tables.refcount tables.next = 1 := by
    rw [htables, Pool.refcount_alloc, tables.unused _ le_rfl, if_pos rfl]
  obtain ⟨tables', hrelease, hsame⟩ := Pool.acquired_alloc tables (tables.val t)
  refine ⟨tables', ?_, hsame⟩
  rw [← htables] at hrelease
  rw [fdtableRelease, hnew, Option.bind_eq_bind, Option.bind_some, if_pos hcount,
    fCloseBelow_of_empty hold (FdTable.get_of_opened_nil hopened), Option.bind_eq_bind,
    Option.bind_some]
  dsimp only
  rw [hrelease]
  rfl

/-- Releasing a copy closes the caller's descriptors. -/
theorem get_fdtableRelease_copy {tables : Pool FdTable} {files : Files}
    (htables : s.tables = (tables.alloc (tables.val t)).2)
    (h : s.fdtableRelease t tables.next = some files) (hf : f < (tables.val t).size) :
    (files.tables.val t).get f = none := by
  have hnew : s.tables.get tables.next = some (tables.val t) := by
    rw [htables, Pool.get_of_live (Pool.live_alloc _ _), Pool.val_alloc, if_pos rfl]
  have hcount : s.tables.refcount tables.next = 1 := by
    rw [htables, Pool.refcount_alloc, tables.unused _ le_rfl, if_pos rfl]
  rw [fdtableRelease, hnew, Option.bind_eq_bind, Option.bind_some, if_pos hcount] at h
  obtain ⟨s₁, hs₁, h⟩ := Option.bind_eq_some_iff.mp h
  obtain ⟨tables', hrelease, heq⟩ := Option.bind_eq_some_iff.mp h
  cases heq
  have hval := (Pool.release_eq_some.mp hrelease).val
  rw [← hval]
  exact get_fCloseBelow hs₁ hf

/-! Copies of the directories. -/

theorem fsInfoCopy_of_live (hi : s.fsInfos.live i) (hpwd : s.fds.live (s.fsInfos.val i).pwd)
    (hroot : s.fds.live (s.fsInfos.val i).root) :
    ∃ files, s.fsInfoCopy i false = some (s.fsInfos.next, files) ∧ files.tables = s.tables ∧
      (∀ d, s.fds.live d → files.fds.live d) ∧
      ∃ fsInfos, files.fsInfoRelease s.fsInfos.next = some { s with fsInfos := fsInfos } ∧
        Pool.Same s.fsInfos fsInfos := by
  obtain ⟨fds₁, h₁, hr₁⟩ := @fdRetain_of_live
    { s with fsInfos := (s.fsInfos.alloc (s.fsInfos.val i)).2 } _ hpwd
  obtain ⟨fds₂, h₂, hr₂⟩ := @fdRetain_of_live
    { s with fds := fds₁, fsInfos := (s.fsInfos.alloc (s.fsInfos.val i)).2 } _
    (hr₁.live_of_live hroot)
  obtain ⟨fsInfos, hrelease, hsame⟩ := Pool.acquired_alloc s.fsInfos (s.fsInfos.val i)
  refine ⟨{ s with fds := fds₂, fsInfos := (s.fsInfos.alloc (s.fsInfos.val i)).2 }, ?_, rfl,
    fun d hd ↦ hr₂.live_of_live (hr₁.live_of_live hd), fsInfos, ?_, hsame⟩
  · rw [fsInfoCopy, Pool.get_of_live hi, Option.bind_eq_bind, Option.bind_some,
      if_neg Bool.false_ne_true]
    dsimp only
    rw [h₁, Option.bind_eq_bind, Option.bind_some, h₂]
    rfl
  · -- the two references go in the order in which they came
    obtain ⟨fds₃, hr₃, hr₄⟩ := hr₁.comm hr₂
    have hnew : (s.fsInfos.alloc (s.fsInfos.val i)).2.get s.fsInfos.next = some (s.fsInfos.val i) := by
      rw [Pool.get_of_live (Pool.live_alloc _ _), Pool.val_alloc, if_pos rfl]
    have hcount : (s.fsInfos.alloc (s.fsInfos.val i)).2.refcount s.fsInfos.next = 1 := by
      rw [Pool.refcount_alloc, s.fsInfos.unused _ le_rfl, if_pos rfl]
    obtain ⟨err₁, hclose₁⟩ := @fdClose_of_retained
      { s with fds := fds₂, fsInfos := (s.fsInfos.alloc (s.fsInfos.val i)).2 } _ _ hr₄
    obtain ⟨err₂, hclose₂⟩ := @fdClose_of_retained
      { s with fds := fds₃, fsInfos := (s.fsInfos.alloc (s.fsInfos.val i)).2 } _ _ hr₃
    rw [fsInfoRelease, hnew, Option.bind_eq_bind, Option.bind_some, if_pos hcount, hclose₁,
      Option.bind_eq_bind, Option.bind_some]
    dsimp only
    rw [hclose₂, Option.bind_eq_bind, Option.bind_some, Option.bind_some, hrelease]
    rfl

end Files

end

end Isl.Fs.OpenFiles
