import Isl.Fs.Fake
import Isl.Lib.Prog

/-!
The operations of `fs/fake.c` over a host that may answer anything, with their
statements and the calls on the lock of the mount in the order of the source.
-/

namespace Isl.Fs.Fake

open Isl.Lib Isl.Lib.Sql

/-- Of a `struct statbuf`, whose first fields are those of the real file. -/
structure Statbuf where
  inode : Ino
  nlink : Dword
  size : BitVec 64
  mode : Dword
  uid : Dword
  gid : Dword
  rdev : Dword
deriving DecidableEq

/-- The operations of `realfs`, and the calls that `fs/fake.c` makes itself. -/
inductive HostOp
  | realOpen (path : Path) (flags : Dword) (mode : Word)
  | realLink (src dst : Path)
  | realUnlink (path : Path)
  | realRmdir (path : Path)
  | realRename (src dst : Path)
  | realMknod (path : Path) (mode : Word) (dev : Dword)
  | realMkdir (path : Path) (mode : Word)
  | realStat (path : Path) (followLinks : Bool)
  | realReadlink (path : Path) (bufsize : ℕ)
  | realTruncate (path : Path) (size : BitVec 64)
  | getpath (fd : ℤ)
  | openat (path : Path)
  | openatExcl (path : Path) (mode : Word)
  | fstat (fd : ℤ)
  | write (fd : ℤ) (buf : Str)
  | read (fd : ℤ) (bufsize : ℕ)
  | close (fd : ℤ)
  | unlinkat (path : Path)
  | fstatat (path : Path)
  | errnoMap

/-- A number is an error when it is negative. `fstat` gives the link count and
`fstatat` the inode, and neither has one when it fails. -/
def HostOp.Reply : HostOp → Type
  | .realStat _ _ => Except {err : ℤ // err < 0} Statbuf
  | .realReadlink _ _ => Except {err : ℤ // err < 0} Str
  | .getpath _ => Except {err : ℤ // err < 0} Path
  | .read _ _ => Option Str
  | .fstat _ => Option ℕ
  | .fstatat _ => Option Ino
  | .errnoMap => {err : ℤ // err < 0}
  | _ => ℤ

inductive FsOp
  | host (op : HostOp)
  | lock
  | unlock
  | step (stmt : Stmt TableName Column) (values : List (Value Blob))

def FsOp.Reply : FsOp → Type
  | .host op => op.Reply
  | .lock | .unlock => Unit
  | .step _ _ => Option (Value Blob)

/-- What an operation changes of its mount: the database and its lock. -/
structure Metadata where
  db : Database
  lockCalls : List LockCall

def fs {τ : Type} (host : Handler HostOp HostOp.Reply τ) :
    Handler FsOp FsOp.Reply (τ × Metadata)
  | .host op, s => ((host op s.1).1, ((host op s.1).2, s.2))
  | .lock, s => ((), (s.1, { s.2 with lockCalls := s.2.lockCalls ++ [.lock] }))
  | .unlock, s => ((), (s.1, { s.2 with lockCalls := s.2.lockCalls ++ [.unlock] }))
  | .step stmt values, s =>
    (s.2.db.query stmt values, (s.1, { s.2 with db := s.2.db.exec stmt values }))

abbrev FsCall := Prog FsOp FsOp.Reply

namespace FsCall

def host (op : HostOp) : FsCall op.Reply := Prog.perform (FsOp.host op)

def lock : FsCall Unit := Prog.perform FsOp.lock

def unlock : FsCall Unit := Prog.perform FsOp.unlock

def step (stmt : Stmt TableName Column) (values : List (Value Blob)) : FsCall (Option (Value Blob)) :=
  Prog.perform (FsOp.step stmt values)

def exec (stmt : Stmt TableName Column) (values : List (Value Blob)) : FsCall Unit := do
  let _ ← step stmt values
  return ()

/-! The host. -/

def realOpen (path : Path) (flags : Dword) (mode : Word) : FsCall ℤ := host (.realOpen path flags mode)
def realLink (src dst : Path) : FsCall ℤ := host (.realLink src dst)
def realUnlink (path : Path) : FsCall ℤ := host (.realUnlink path)
def realRmdir (path : Path) : FsCall ℤ := host (.realRmdir path)
def realRename (src dst : Path) : FsCall ℤ := host (.realRename src dst)
def realMknod (path : Path) (mode : Word) (dev : Dword) : FsCall ℤ := host (.realMknod path mode dev)
def realMkdir (path : Path) (mode : Word) : FsCall ℤ := host (.realMkdir path mode)
def realTruncate (path : Path) (size : BitVec 64) : FsCall ℤ := host (.realTruncate path size)
def openat (path : Path) : FsCall ℤ := host (.openat path)
def openatExcl (path : Path) (mode : Word) : FsCall ℤ := host (.openatExcl path mode)
def write (fd : ℤ) (buf : Str) : FsCall ℤ := host (.write fd buf)
def close (fd : ℤ) : FsCall ℤ := host (.close fd)
def unlinkat (path : Path) : FsCall ℤ := host (.unlinkat path)
def fstat (fd : ℤ) : FsCall (Option ℕ) := host (.fstat fd)
def fstatat (path : Path) : FsCall (Option Ino) := host (.fstatat path)
def read (fd : ℤ) (bufsize : ℕ) : FsCall (Option Str) := host (.read fd bufsize)
def errnoMap : FsCall {err : ℤ // err < 0} := host .errnoMap

def realStat (path : Path) (followLinks : Bool) : FsCall (Except {err : ℤ // err < 0} Statbuf) :=
  host (.realStat path followLinks)

def realReadlink (path : Path) (bufsize : ℕ) : FsCall (Except {err : ℤ // err < 0} Str) :=
  host (.realReadlink path bufsize)

def getpath (fd : ℤ) : FsCall (Except {err : ℤ // err < 0} Path) := host (.getpath fd)

/-! The database. -/

def dbBegin : FsCall Unit := do
  lock
  exec .begin []

def dbCommit : FsCall Unit := do
  exec .commit []
  unlock

def dbRollback : FsCall Unit := do
  exec .rollback []
  unlock

def inodeForPath (path : Path) : FsCall Ino := do
  let stat ← fstatat path
  return stat.getD 0

def writePath (path : Path) : FsCall Ino := do
  let inode ← inodeForPath path
  if inode ≠ 0 then exec writePathStmt [.blob (.path path), .int inode]
  return inode

def deletePath (path : Path) : FsCall Unit := exec deletePathStmt [.blob (.path path)]

def readStat (path : Path) : FsCall (Option IshStat) := do
  let inode ← inodeForPath path
  if inode = 0 then return none
  let row ← step readStatStmt [.int inode]
  return row.map Mount.columnStat

def writeStat (path : Path) (stat : IshStat) : FsCall Unit := do
  let inode ← writePath path
  -- the assertion
  if inode = 0 then Prog.stuck
  else exec writeStatStmt [.int inode, .blob (.stat stat)]

def deleteInodeStat (inode : Ino) : FsCall Unit := exec deleteStatStmt [.int inode]

/-! The operations. -/

def fakefsOpen (task : Task) (path : Path) (flags mode : Dword) : FsCall ℤ := do
  let fd ← realOpen path flags 0o666
  if fd < 0 then return fd
  if flags &&& oCreat ≠ 0 then
    dbBegin
    if (← readStat path).isNone then
      writeStat path ⟨mode ||| sIfreg.setWidth 32, task.euid, task.egid, 0⟩
    dbCommit
  return fd

def fakefsLink (src dst : Path) : FsCall ℤ := do
  dbBegin
  let err ← realLink src dst
  if err < 0 then
    dbRollback
    return err
  let _ ← writePath dst
  dbCommit
  return 0

/-- Whether this is the last link. -/
def lastLink (path : Path) : FsCall Bool := do
  let fd ← openat path
  if 0 ≤ fd then
    let nlink ← fstat fd
    let _ ← close fd
    return nlink == some 1
  else return false

def fakefsUnlink (path : Path) : FsCall ℤ := do
  let gone ← lastLink path
  dbBegin
  let inode ← inodeForPath path
  let err ← realUnlink path
  if err < 0 then
    dbRollback
    return err
  deletePath path
  if gone then deleteInodeStat inode
  dbCommit
  return 0

def fakefsRmdir (path : Path) : FsCall ℤ := do
  dbBegin
  let inode ← inodeForPath path
  let err ← realRmdir path
  if err < 0 then
    dbRollback
    return err
  deletePath path
  deleteInodeStat inode
  dbCommit
  return 0

def fakefsRename (src dst : Path) : FsCall ℤ := do
  dbBegin
  -- get the inode of the dst path
  let oldDstInode ← inodeForPath dst
  let err ← realRename src dst
  if err < 0 then
    dbRollback
    return err
  let _ ← writePath dst
  deletePath src
  -- the inode is looked up again only when there was a file
  if oldDstInode ≠ 0 then
    let inode ← inodeForPath dst
    if oldDstInode ≠ inode then deleteInodeStat oldDstInode
  dbCommit
  return 0

def fakefsSymlink (task : Task) (target : Str) (link : Path) : FsCall ℤ := do
  dbBegin
  -- create a file containing the target
  let fd ← openatExcl link 0o666
  if fd < 0 then
    dbRollback
    return (← errnoMap).1
  let res ← write fd target
  let _ ← close fd
  if res < 0 then
    let _ ← unlinkat link
    dbRollback
    return (← errnoMap).1
  writeStat link ⟨(sIflnk ||| 0o777).setWidth 32, task.euid, task.egid, 0⟩
  dbCommit
  return 0

def fakefsMknod (task : Task) (path : Path) (mode : Word) (dev : Dword) : FsCall ℤ := do
  dbBegin
  let err ← realMknod path (realMode mode) 0
  if err < 0 then
    dbRollback
    return err
  let rdev := if isBlk mode ∨ isChr mode then dev else 0
  writeStat path ⟨mode.setWidth 32, task.euid, task.egid, rdev⟩
  dbCommit
  return err

def fakefsStat (path : Path) (followLinks : Bool) : FsCall (Except {err : ℤ // err < 0} Statbuf) := do
  dbBegin
  match ← readStat path with
  | none =>
    dbRollback
    return .error ⟨enoent, by decide⟩
  | some ishstat =>
    let stat ← realStat path followLinks
    dbCommit
    match stat with
    | .error err => return .error err
    | .ok stat => return .ok { stat with
        mode := ishstat.mode, uid := ishstat.uid, gid := ishstat.gid, rdev := ishstat.rdev }

def fakefsFstat (fd : ℤ) : FsCall (Except {err : ℤ // err < 0} Statbuf) := do
  match ← getpath fd with
  | .error err => return .error err
  | .ok path => fakefsStat path false

def fakefsSetattr (path : Path) (attr : Attr) : FsCall ℤ := do
  dbBegin
  match ← readStat path with
  | none =>
    dbRollback
    return enoent
  | some stat =>
    let write (stat : IshStat) : FsCall ℤ := do
      writeStat path stat
      dbCommit
      return 0
    match attr with
    | .uid uid => write { stat with uid := uid }
    | .gid gid => write { stat with gid := gid }
    | .mode mode =>
      let fmt := sIfmt.setWidth 32
      write { stat with mode := stat.mode &&& fmt ||| mode.setWidth 32 &&& ~~~fmt }
    | .size size =>
      dbCommit
      realTruncate path size

def fakefsFsetattr (fd : ℤ) (attr : Attr) : FsCall ℤ := do
  match ← getpath fd with
  | .error err => return err.1
  | .ok path => fakefsSetattr path attr

def fakefsMkdir (task : Task) (path : Path) (mode : Word) : FsCall ℤ := do
  dbBegin
  let err ← realMkdir path 0o777
  if err < 0 then
    dbRollback
    return err
  writeStat path ⟨mode.setWidth 32 ||| sIfdir.setWidth 32, task.euid, task.egid, 0⟩
  dbCommit
  return 0

def fileReadlink (path : Path) (bufsize : ℕ) : FsCall (Except {err : ℤ // err < 0} Str) := do
  -- links are files with the target in them
  let fd ← openat path
  if fd < 0 then return .error (← errnoMap)
  let target ← read fd bufsize
  let _ ← close fd
  match target with
  | none => return .error (← errnoMap)
  | some target => return .ok target

def eInval : {err : ℤ // err < 0} := ⟨-22, by decide⟩

def isLnk (mode : Dword) : Bool := mode &&& sIfmt.setWidth 32 = sIflnk.setWidth 32

def fakefsReadlink (path : Path) (bufsize : ℕ) : FsCall (Except {err : ℤ // err < 0} Str) := do
  dbBegin
  match ← readStat path with
  | none =>
    dbRollback
    return .error ⟨enoent, by decide⟩
  | some ishstat =>
    if !isLnk ishstat.mode then
      dbRollback
      return .error eInval
    let err ← realReadlink path bufsize
    let err ← (match err with
      | .error e => if e = eInval then fileReadlink path bufsize else return err
      | .ok _ => return err)
    dbCommit
    return err

/-- The number that an operation with other results returns. -/
def code {α : Type} (size : α → ℕ) : Except {err : ℤ // err < 0} α → ℤ
  | .error err => err
  | .ok a => size a

end FsCall

/-- The operations of `fakefs` that use the database. -/
inductive Request
  | op (op : Op)
  | stat (path : Path) (followLinks : Bool)
  | fstat (fd : ℤ)
  | fsetattr (fd : ℤ) (attr : Attr)
  | readlink (path : Path) (bufsize : ℕ)

def Request.call (task : Task) : Request → FsCall ℤ
  | .op (.open path flags mode) => FsCall.fakefsOpen task path flags mode
  | .op (.mkdir path mode) => FsCall.fakefsMkdir task path mode
  | .op (.mknod path mode dev) => FsCall.fakefsMknod task path mode dev
  | .op (.symlink target link) => FsCall.fakefsSymlink task target link
  | .op (.link src dst) => FsCall.fakefsLink src dst
  | .op (.unlink path) => FsCall.fakefsUnlink path
  | .op (.rmdir path) => FsCall.fakefsRmdir path
  | .op (.rename src dst) => FsCall.fakefsRename src dst
  | .op (.setattr path attr) => FsCall.fakefsSetattr path attr
  | .stat path followLinks => FsCall.code (fun _ ↦ 0) <$> FsCall.fakefsStat path followLinks
  | .fstat fd => FsCall.code (fun _ ↦ 0) <$> FsCall.fakefsFstat fd
  | .fsetattr fd attr => FsCall.fakefsFsetattr fd attr
  | .readlink path bufsize => FsCall.code List.length <$> FsCall.fakefsReadlink path bufsize

end Isl.Fs.Fake
