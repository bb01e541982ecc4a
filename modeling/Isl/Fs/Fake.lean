import Isl.Fs.Path
import Isl.Lib.FileTree
import Isl.Lib.Sql
import Isl.Lib.Run

/-!
The fake file system of `fs/fake.c`: the files are those of a real directory, and
their modes, owners and devices are kept in a database. Real symlinks are not made:
a link is a file with its target in it. The contents of files are left out.
-/

namespace Isl.Fs.Fake

open Isl.Lib.FileTree
open Isl.Lib.Sql

abbrev Word := BitVec 16
abbrev Dword := BitVec 32
abbrev Ino := BitVec 64

/-- Inode number 0 is reserved. -/
abbrev Inode := {ino : Ino // ino ≠ 0}

theorem one_ne_zero : (1 : Ino) ≠ 0 := by decide
theorem two_ne_zero : (2 : Ino) ≠ 0 := by decide
theorem three_ne_zero : (3 : Ino) ≠ 0 := by decide
theorem four_ne_zero : (4 : Ino) ≠ 0 := by decide

/-- A normalized path as its names. -/
abbrev Path := List Str

def eperm : ℤ := -1
def enoent : ℤ := -2

def oCreat : Dword := 1 <<< 6

def sIfmt : Word := 0o170000
def sIflnk : Word := 0o120000
def sIfreg : Word := 0o100000
def sIfblk : Word := 0o060000
def sIfdir : Word := 0o040000
def sIfchr : Word := 0o020000
def sIfifo : Word := 0o010000

def isReg (mode : Word) : Bool := mode &&& sIfmt = sIfreg
def isBlk (mode : Word) : Bool := mode &&& sIfmt = sIfblk
def isChr (mode : Word) : Bool := mode &&& sIfmt = sIfchr
def isFifo (mode : Word) : Bool := mode &&& sIfmt = sIfifo

/-- The mode of the real file. -/
def realMode (mode : Word) : Word :=
  if isBlk mode ∨ isChr mode then 0o666 ||| sIfreg else 0o666 ||| (mode &&& sIfmt)

structure IshStat where
  mode : Dword
  uid : Dword
  gid : Dword
  rdev : Dword
deriving DecidableEq

inductive Blob
  | path (path : Path)
  | stat (stat : IshStat)
deriving DecidableEq

inductive TableName
  | paths
  | stats
deriving DecidableEq

inductive Column
  | path
  | inode
  | stat
deriving DecidableEq

def TableName.text : TableName → String
  | .paths => "paths"
  | .stats => "stats"

def Column.text : Column → String
  | .path => "path"
  | .inode => "inode"
  | .stat => "stat"

/-- The primary keys, as `fakefs_rebuild` creates the tables. -/
def primaryKey : TableName → Column
  | .paths => .path
  | .stats => .inode

abbrev Database := Db TableName Column Blob primaryKey

/-! The statements that `fakefs_mount` prepares. -/

def readStatStmt : Stmt TableName Column := .select .stat .stats .inode
def writeStatStmt : Stmt TableName Column := .replace .stats [.inode, .stat]
def deleteStatStmt : Stmt TableName Column := .delete .stats .inode
def writePathStmt : Stmt TableName Column := .replace .paths [.path, .inode]
def deletePathStmt : Stmt TableName Column := .delete .paths .inode

example : deletePathStmt.sql TableName.text Column.text = "delete from paths where inode = ?" := rfl

example : writePathStmt.sql TableName.text Column.text =
    "replace into paths (path, inode) values (?, ?)" := rfl

inductive LockCall
  | lock
  | unlock

structure Mount where
  tree : Tree Str Inode
  db : Database
  lockCalls : List LockCall

inductive Syscall
  | openat
  | fstat
  | write
  | close
  | unlinkat
  | linkat
  | mkdirat
  | renameat
  | mkfifo
  | ftruncate
deriving DecidableEq

inductive Attr
  | uid (uid : Dword)
  | gid (gid : Dword)
  | mode (mode : Word)
  | size (size : BitVec 64)

inductive Op
  | open (path : Path) (flags mode : Dword)
  | mkdir (path : Path) (mode : Word)
  | mknod (path : Path) (mode : Word) (dev : Dword)
  | symlink (target : Str) (link : Path)
  | link (src dst : Path)
  | unlink (path : Path)
  | rmdir (path : Path)
  | rename (src dst : Path)
  | setattr (path : Path) (attr : Attr)

/-- What the host answers to an operation: the calls that fail although the tree
allows them, the error, and the inode number of a new file. -/
structure Host where
  fails : Syscall → Bool
  errno : {err : ℤ // err < 0}
  ino : Inode

/-- The task that calls. -/
structure Task where
  euid : Dword
  egid : Dword

namespace Host

/-! The calls of the real file system. -/

/-- `openat` with `O_CREAT` and `O_EXCL`. -/
def openatExcl (h : Host) (tree : Tree Str Inode) (path : Path) : Option (Tree Str Inode) :=
  if h.fails .openat then none else tree.creat path ⟨h.ino, false⟩

def realfsOpen (h : Host) (tree : Tree Str Inode) (path : Path) (flags : Dword) :
    Option (Tree Str Inode) :=
  if h.fails .openat then none
  else
    match tree.node? path with
    | some n => if flags &&& oCreat ≠ 0 ∧ n.dir then none else some tree
    | none => if flags &&& oCreat ≠ 0 then tree.creat path ⟨h.ino, false⟩ else none

def realfsLink (h : Host) (tree : Tree Str Inode) (src dst : Path) : Option (Tree Str Inode) :=
  if h.fails .linkat then none else tree.link src dst

def realfsUnlink (h : Host) (tree : Tree Str Inode) (path : Path) : Option (Tree Str Inode) :=
  if h.fails .unlinkat then none else tree.unlink path

def realfsRmdir (h : Host) (tree : Tree Str Inode) (path : Path) : Option (Tree Str Inode) :=
  if h.fails .unlinkat then none else tree.rmdir path

def realfsRename (h : Host) (tree : Tree Str Inode) (src dst : Path) : Option (Tree Str Inode) :=
  if h.fails .renameat then none else tree.rename src dst

def realfsMkdir (h : Host) (tree : Tree Str Inode) (path : Path) : Option (Tree Str Inode) :=
  if h.fails .mkdirat then none else tree.creat path ⟨h.ino, true⟩

def realfsMkfifo (h : Host) (tree : Tree Str Inode) (path : Path) : Option (Tree Str Inode) :=
  if h.fails .mkfifo then none else tree.creat path ⟨h.ino, false⟩

def realfsMknod (h : Host) (tree : Tree Str Inode) (path : Path) (mode : Word) :
    ℤ × Tree Str Inode :=
  if isFifo mode then
    match h.realfsMkfifo tree path with
    | none => (h.errno, tree)
    | some tree => (0, tree)
  else if isReg mode then
    match h.openatExcl tree path with
    | none => (h.errno, tree)
    | some tree => (if h.fails .close then h.errno else 0, tree)
  else (eperm, tree)

theorem of_ite {b : Bool} {tree : Option (Tree Str Inode)} {t : Tree Str Inode}
    (h : (if b then none else tree) = some t) : tree = some t := by
  cases b with
  | true => cases h
  | false => exact h

def realfsTruncate (h : Host) (tree : Tree Str Inode) (path : Path) : ℤ :=
  if h.fails .openat ∨ h.fails .ftruncate ∨ (tree.node? path).all Node.dir then h.errno else 0

end Host

namespace Mount

/-! The database. -/

def dbExec (m : Mount) (stmt : Stmt TableName Column) (values : List (Value Blob)) : Mount :=
  { m with db := m.db.exec stmt values }

def dbBegin (m : Mount) : Mount :=
  let m : Mount := { m with lockCalls := m.lockCalls ++ [.lock] }
  m.dbExec .begin []

def dbCommit (m : Mount) : Mount :=
  let m := m.dbExec .commit []
  { m with lockCalls := m.lockCalls ++ [.unlock] }

def dbRollback (m : Mount) : Mount :=
  let m := m.dbExec .rollback []
  { m with lockCalls := m.lockCalls ++ [.unlock] }

def inodeForPath (m : Mount) (path : Path) : Ino :=
  match m.tree.node? path with
  | none => 0
  | some n => n.ino

def writePath (m : Mount) (path : Path) : Ino × Mount :=
  let inode := m.inodeForPath path
  (inode, if inode ≠ 0 then m.dbExec writePathStmt [.blob (.path path), .int inode] else m)

def deletePath (m : Mount) (path : Path) : Mount := m.dbExec deletePathStmt [.blob (.path path)]

/-- `qtsql_column_blob` as an `ish_stat`. -/
def columnStat : Value Blob → IshStat
  | .blob (.stat stat) => stat
  | _ => ⟨0, 0, 0, 0⟩

def readStat (m : Mount) (path : Path) : Option IshStat :=
  let inode := m.inodeForPath path
  if inode = 0 then none else (m.db.query readStatStmt [.int inode]).map columnStat

/-- It dies on its assertion when there is no such path. -/
def writeStat (m : Mount) (path : Path) (stat : IshStat) : Option Mount :=
  let (inode, m) := m.writePath path
  if inode ≠ 0 then some (m.dbExec writeStatStmt [.int inode, .blob (.stat stat)]) else none

def deleteInodeStat (m : Mount) (inode : Ino) : Mount := m.dbExec deleteStatStmt [.int inode]

/-! The operations. -/

def fakefsOpen (m : Mount) (h : Host) (task : Task) (path : Path) (flags mode : Dword) :
    Option (ℤ × Mount) :=
  match h.realfsOpen m.tree path flags with
  | none => some (h.errno, m)
  | some tree =>
    let m := { m with tree := tree }
    if flags &&& oCreat ≠ 0 then do
      let m := m.dbBegin
      let m ← (if (m.readStat path).isNone then
          m.writeStat path ⟨mode ||| sIfreg.setWidth 32, task.euid, task.egid, 0⟩
        else some m)
      some (0, m.dbCommit)
    else some (0, m)

def fakefsLink (m : Mount) (h : Host) (src dst : Path) : ℤ × Mount :=
  let m := m.dbBegin
  match h.realfsLink m.tree src dst with
  | none => (h.errno, m.dbRollback)
  | some tree =>
    let m := { m with tree := tree }
    (0, (m.writePath dst).2.dbCommit)

/-- The link count of a directory plays no role: the call fails for it. -/
def fakefsUnlink (m : Mount) (h : Host) (path : Path) : ℤ × Mount :=
  -- find out if this is the last link
  let gone := !h.fails .openat && !h.fails .fstat &&
    (m.tree.node? path).any fun n ↦ m.tree.links n.ino = 1
  let m := m.dbBegin
  let inode := m.inodeForPath path
  match h.realfsUnlink m.tree path with
  | none => (h.errno, m.dbRollback)
  | some tree =>
    let m := { m with tree := tree }.deletePath path
    (0, (if gone then m.deleteInodeStat inode else m).dbCommit)

def fakefsRmdir (m : Mount) (h : Host) (path : Path) : ℤ × Mount :=
  let m := m.dbBegin
  let inode := m.inodeForPath path
  match h.realfsRmdir m.tree path with
  | none => (h.errno, m.dbRollback)
  | some tree =>
    let m := { m with tree := tree }
    (0, ((m.deletePath path).deleteInodeStat inode).dbCommit)

def fakefsRename (m : Mount) (h : Host) (src dst : Path) : ℤ × Mount :=
  let m := m.dbBegin
  let oldDstInode := m.inodeForPath dst
  match h.realfsRename m.tree src dst with
  | none => (h.errno, m.dbRollback)
  | some tree =>
    let m := { m with tree := tree }
    let m := (m.writePath dst).2.deletePath src
    -- if this rename clobbered a file at the dst path, its metadata is deleted
    let clobbered := oldDstInode ≠ 0 ∧ oldDstInode ≠ m.inodeForPath dst
    (0, (if clobbered then m.deleteInodeStat oldDstInode else m).dbCommit)

def fakefsSymlink (m : Mount) (h : Host) (task : Task) (_target : Str) (link : Path) :
    Option (ℤ × Mount) :=
  let m := m.dbBegin
  match h.openatExcl m.tree link with
  | none => some (h.errno, m.dbRollback)
  | some tree =>
    let m := { m with tree := tree }
    if h.fails .write then
      let m := { m with tree := (h.realfsUnlink tree link).getD tree }
      some (h.errno, m.dbRollback)
    else do
      let m ← m.writeStat link ⟨(sIflnk ||| 0o777).setWidth 32, task.euid, task.egid, 0⟩
      some (0, m.dbCommit)

def fakefsMknod (m : Mount) (h : Host) (task : Task) (path : Path) (mode : Word) (dev : Dword) :
    Option (ℤ × Mount) :=
  let m := m.dbBegin
  let (err, tree) := h.realfsMknod m.tree path (realMode mode)
  let m := { m with tree := tree }
  if err < 0 then some (err, m.dbRollback)
  else do
    let rdev := if isBlk mode ∨ isChr mode then dev else 0
    let m ← m.writeStat path ⟨mode.setWidth 32, task.euid, task.egid, rdev⟩
    some (err, m.dbCommit)

def fakefsMkdir (m : Mount) (h : Host) (task : Task) (path : Path) (mode : Word) :
    Option (ℤ × Mount) :=
  let m := m.dbBegin
  match h.realfsMkdir m.tree path with
  | none => some (h.errno, m.dbRollback)
  | some tree => do
    let m := { m with tree := tree }
    let m ← m.writeStat path ⟨mode.setWidth 32 ||| sIfdir.setWidth 32, task.euid, task.egid, 0⟩
    some (0, m.dbCommit)

def fakefsSetattr (m : Mount) (h : Host) (path : Path) (attr : Attr) : Option (ℤ × Mount) :=
  let m := m.dbBegin
  match m.readStat path with
  | none => some (enoent, m.dbRollback)
  | some stat =>
    let write (stat : IshStat) : Option (ℤ × Mount) := do
      let m ← m.writeStat path stat
      some (0, m.dbCommit)
    match attr with
    | .uid uid => write { stat with uid := uid }
    | .gid gid => write { stat with gid := gid }
    | .mode mode =>
      let fmt := sIfmt.setWidth 32
      write { stat with mode := stat.mode &&& fmt ||| mode.setWidth 32 &&& ~~~fmt }
    | .size _ =>
      let m := m.dbCommit
      some (h.realfsTruncate m.tree path, m)

end Mount

structure Event where
  op : Op
  host : Host
  task : Task

namespace Mount

/-- The operation with its result. -/
def call (m : Mount) (e : Event) : Option (ℤ × Mount) :=
  match e.op with
  | .open path flags mode => m.fakefsOpen e.host e.task path flags mode
  | .mkdir path mode => m.fakefsMkdir e.host e.task path mode
  | .mknod path mode dev => m.fakefsMknod e.host e.task path mode dev
  | .symlink target link => m.fakefsSymlink e.host e.task target link
  | .link src dst => some (m.fakefsLink e.host src dst)
  | .unlink path => some (m.fakefsUnlink e.host path)
  | .rmdir path => some (m.fakefsRmdir e.host path)
  | .rename src dst => some (m.fakefsRename e.host src dst)
  | .setattr path attr => m.fakefsSetattr e.host path attr

def step (m : Mount) (e : Event) : Option Mount := (m.call e).map Prod.snd

end Mount

end Isl.Fs.Fake
