import Isl.Fs.FakeCalls

/-!
The calls of `fs/fake.c` over a host that is a tree of files: there they are the
operations on a tree, a database and a lock.
-/

namespace Isl.Fs.Fake

open Isl.Lib Isl.Lib.FileTree Isl.Lib.Sql

/-- A tree of files, and the file that was opened last. -/
abbrev Disk := Tree Str Inode × Option (Node Inode)

/-- The change is made, or the call fails. -/
def Host.answer (h : Host) (made : Tree Str Inode → Option (Tree Str Inode)) (disk : Disk) :
    ℤ × Disk :=
  match made disk.1 with
  | none => (h.errno, disk)
  | some tree => (0, (tree, disk.2))

def Host.openFile (h : Host) (path : Path) (disk : Disk) : ℤ × Disk :=
  if h.fails .openat ∨ (disk.1.node? path).isNone then (h.errno, disk)
  else (0, (disk.1, disk.1.node? path))

def treeHost (h : Host) : Handler HostOp HostOp.Reply Disk
  | .realOpen path flags _, d => h.answer (h.realfsOpen · path flags) d
  | .realLink src dst, d => h.answer (h.realfsLink · src dst) d
  | .realUnlink path, d => h.answer (h.realfsUnlink · path) d
  | .realRmdir path, d => h.answer (h.realfsRmdir · path) d
  | .realRename src dst, d => h.answer (h.realfsRename · src dst) d
  | .realMknod path mode _, d =>
    ((h.realfsMknod d.1 path mode).1, ((h.realfsMknod d.1 path mode).2, d.2))
  | .realMkdir path _, d => h.answer (h.realfsMkdir · path) d
  | .realTruncate path _, d => (h.realfsTruncate d.1 path, d)
  | .openat path, d => h.openFile path d
  | .openatExcl path _, d => h.answer (h.openatExcl · path) d
  | .unlinkat path, d => h.answer (h.realfsUnlink · path) d
  | .fstat _, d => (if h.fails .fstat then none else d.2.map fun n ↦ d.1.links n.ino, d)
  | .write _ _, d => ((if h.fails .write then h.errno else 0 : ℤ), d)
  | .close _, d => ((if h.fails .close then h.errno else 0 : ℤ), d)
  | .fstatat path, d => ((d.1.node? path).map fun n ↦ n.ino, d)
  | .errnoMap, d => (h.errno, d)
  -- of the operations below the tree has nothing to say
  | .realStat _ _, d => (.error h.errno, d)
  | .realReadlink _ _, d => (.error h.errno, d)
  | .getpath _, d => (.error h.errno, d)
  | .read _ _, d => (none, d)

/-- The mount with the files and the metadata. -/
def mountOf (s : Disk × Metadata) : Mount := ⟨s.1.1, s.2.db, s.2.lockCalls⟩

/-- The program does what the operation does on the mount. -/
def Does {α : Type} (h : Host) (x : FsCall α) (f : Mount → Option (α × Mount)) : Prop :=
  ∀ s, (x.run (fs (treeHost h)) s).map (fun r ↦ (r.1, mountOf r.2)) = f (mountOf s)

variable {α β : Type} {h : Host} {x : FsCall α} {g : α → FsCall β}
  {f : Mount → Option (α × Mount)} {k : α → Mount → Option (β × Mount)}

theorem Does.pure (a : α) : Does h (Pure.pure a) fun m ↦ some (a, m) := fun _ ↦ rfl

theorem Does.bind (hx : Does h x f) (hg : ∀ a, Does h (g a) (k a)) :
    Does h (x >>= g) fun m ↦ (f m).bind fun r ↦ k r.1 r.2 := by
  intro s
  dsimp only
  rw [Prog.run_bind, ← hx s]
  cases hr : x.run (fs (treeHost h)) s with
  | none => rfl
  | some r => exact hg r.1 r.2

theorem Does.ite {c : Prop} [Decidable c] {y : FsCall α} {f' : Mount → Option (α × Mount)}
    (hx : Does h x f) (hy : Does h y f') :
    Does h (if c then x else y) fun m ↦ if c then f m else f' m := by
  split
  · exact hx
  · exact hy

theorem Does.congr {f' : Mount → Option (α × Mount)} (hx : Does h x f) (hf : ∀ m, f m = f' m) :
    Does h x f' := fun s ↦ (hx s).trans (hf _)

namespace FsCall

variable {made : Tree Str Inode → Option (Tree Str Inode)}

/-- What a call that changes the tree does to the mount. -/
def change (h : Host) (made : Tree Str Inode → Option (Tree Str Inode)) (m : Mount) :
    Option (ℤ × Mount) :=
  match made m.tree with
  | none => some (h.errno, m)
  | some tree => some (0, { m with tree := tree })

theorem answer_mount (made : Tree Str Inode → Option (Tree Str Inode)) (s : Disk × Metadata) :
    some ((h.answer made s.1).1, mountOf ((h.answer made s.1).2, s.2)) =
      change h made (mountOf s) := by
  unfold Host.answer change
  have htree : (mountOf s).tree = s.1.1 := rfl
  rw [htree]
  cases made s.1.1 <;> rfl

theorem dbBegin_does : Does h dbBegin fun m ↦ some ((), m.dbBegin) := fun _ ↦ rfl

theorem dbCommit_does : Does h dbCommit fun m ↦ some ((), m.dbCommit) := fun _ ↦ rfl

theorem dbRollback_does : Does h dbRollback fun m ↦ some ((), m.dbRollback) := fun _ ↦ rfl

theorem inodeForPath_does (path : Path) :
    Does h (inodeForPath path) fun m ↦ some (m.inodeForPath path, m) := by
  intro s
  have hrun : (inodeForPath path).run (fs (treeHost h)) s =
      some (((s.1.1.node? path).map fun n ↦ (n.ino : Ino)).getD 0, s) := rfl
  have htree : (mountOf s).tree = s.1.1 := rfl
  rw [hrun]
  unfold Mount.inodeForPath
  simp only [htree, Option.map_some]
  cases s.1.1.node? path <;> rfl

theorem writePath_does (path : Path) :
    Does h (writePath path) fun m ↦ some (m.writePath path) := by
  refine ((inodeForPath_does path).bind (k := fun inode m ↦ some (inode,
    if inode ≠ 0 then m.dbExec writePathStmt [.blob (.path path), .int inode] else m))
    fun inode ↦ ?_).congr fun m ↦ rfl
  split
  · exact fun _ ↦ rfl
  · exact fun _ ↦ rfl

theorem deletePath_does (path : Path) :
    Does h (deletePath path) fun m ↦ some ((), m.deletePath path) := fun _ ↦ rfl

theorem deleteInodeStat_does (inode : Ino) :
    Does h (deleteInodeStat inode) fun m ↦ some ((), m.deleteInodeStat inode) := fun _ ↦ rfl

theorem readStat_does (path : Path) :
    Does h (readStat path) fun m ↦ some (m.readStat path, m) := by
  refine ((inodeForPath_does path).bind (k := fun inode m ↦ some (if inode = 0 then none else
    (m.db.query readStatStmt [.int inode]).map Mount.columnStat, m)) fun inode ↦ ?_).congr
    fun m ↦ rfl
  split
  · exact fun _ ↦ rfl
  · exact fun _ ↦ rfl

theorem writeStat_does (path : Path) (stat : IshStat) :
    Does h (writeStat path stat) fun m ↦ (m.writeStat path stat).map fun m ↦ ((), m) := by
  refine ((writePath_does path).bind (k := fun inode m ↦ if inode = 0 then none else
    some ((), m.dbExec writeStatStmt [.int inode, .blob (.stat stat)])) fun inode ↦ ?_).congr
    fun m ↦ ?_
  · exact .ite (fun _ ↦ rfl) fun _ ↦ rfl
  · unfold Mount.writeStat
    dsimp only [Option.bind_some]
    by_cases hinode : (m.writePath path).1 = 0
    · rw [if_pos hinode, if_neg (not_not.mpr hinode)]
      rfl
    · rw [if_neg hinode, if_pos hinode]
      rfl

/-! The calls of the host. -/

theorem realOpen_does (path : Path) (flags : Dword) (mode : Word) :
    Does h (realOpen path flags mode) (change h (h.realfsOpen · path flags)) := answer_mount _

theorem realLink_does (src dst : Path) :
    Does h (realLink src dst) (change h (h.realfsLink · src dst)) := answer_mount _

theorem realUnlink_does (path : Path) :
    Does h (realUnlink path) (change h (h.realfsUnlink · path)) := answer_mount _

theorem realRmdir_does (path : Path) :
    Does h (realRmdir path) (change h (h.realfsRmdir · path)) := answer_mount _

theorem realRename_does (src dst : Path) :
    Does h (realRename src dst) (change h (h.realfsRename · src dst)) := answer_mount _

theorem realMkdir_does (path : Path) (mode : Word) :
    Does h (realMkdir path mode) (change h (h.realfsMkdir · path)) := answer_mount _

theorem openatExcl_does (path : Path) (mode : Word) :
    Does h (openatExcl path mode) (change h (h.openatExcl · path)) := answer_mount _

theorem unlinkat_does (path : Path) :
    Does h (unlinkat path) (change h (h.realfsUnlink · path)) := answer_mount _

/-! The operations. -/

theorem errno_neg (h : Host) : h.errno.1 < 0 := h.errno.2

theorem zero_not_neg : ¬(0 : ℤ) < 0 := Int.lt_irrefl 0

theorem fakefsLink_does (src dst : Path) :
    Does h (fakefsLink src dst) fun m ↦ some (m.fakefsLink h src dst) := by
  refine (dbBegin_does.bind fun _ ↦ (realLink_does src dst).bind fun err ↦
    .ite (dbRollback_does.bind fun _ ↦ .pure err)
    ((writePath_does dst).bind fun _ ↦ dbCommit_does.bind fun _ ↦ .pure 0)).congr fun m ↦ ?_
  simp only [Option.bind_some, change, Mount.fakefsLink]
  cases h.realfsLink m.dbBegin.tree src dst with
  | none => simp [errno_neg]
  | some tree => simp

theorem lastLink_does (path : Path) :
    Does h (lastLink path) fun m ↦ some (!h.fails .openat && !h.fails .fstat &&
      (m.tree.node? path).any fun n ↦ m.tree.links n.ino = 1, m) := by
  intro s
  have htree : (mountOf s).tree = s.1.1 := rfl
  have hrun : (lastLink path).run (fs (treeHost h)) s =
      (if 0 ≤ (h.openFile path s.1).1 then
        do
          let nlink ← fstat (h.openFile path s.1).1
          let _ ← close (h.openFile path s.1).1
          return nlink == some 1
      else return false : FsCall Bool).run (fs (treeHost h)) ((h.openFile path s.1).2, s.2) := rfl
  rw [hrun]
  unfold Host.openFile
  by_cases hopen : h.fails .openat ∨ (s.1.1.node? path).isNone
  · have herr : ¬0 ≤ h.errno.1 := Int.not_le.mpr h.errno.2
    rw [if_pos hopen, if_neg herr]
    rcases hopen with hfails | hnode
    · simp [hfails]
    · have hnone : s.1.1.node? path = none := by simpa using hnode
      simp [htree, hnone]
  · rw [if_neg hopen]
    dsimp only
    rw [if_pos (Int.le_refl 0)]
    rw [not_or] at hopen
    have hlast : ((if h.fails .fstat then none else (s.1.1.node? path).map fun n ↦
        s.1.1.links n.ino) == some 1) = (!h.fails .openat && !h.fails .fstat &&
          (s.1.1.node? path).any fun n ↦ s.1.1.links n.ino = 1) := by
      cases hf : h.fails .fstat with
      | true => simp
      | false =>
        cases s.1.1.node? path with
        | none => simp [hopen.1]
        | some n =>
          have hbeq (k : ℕ) : (some k == some 1) = decide (k = 1) := by
            rw [Option.some_beq_some, beq_eq_decide]
          simp [hopen.1, hbeq]
    simp only [htree, ← hlast]
    rfl

theorem fakefsUnlink_does (path : Path) :
    Does h (fakefsUnlink path) fun m ↦ some (m.fakefsUnlink h path) := by
  refine ((lastLink_does path).bind fun gone ↦ dbBegin_does.bind fun _ ↦
    (inodeForPath_does path).bind fun inode ↦ (realUnlink_does path).bind fun err ↦
    .ite (dbRollback_does.bind fun _ ↦ .pure err) ((deletePath_does path).bind fun _ ↦
    .ite ((deleteInodeStat_does inode).bind fun _ ↦ dbCommit_does.bind fun _ ↦ .pure 0)
      (dbCommit_does.bind fun _ ↦ .pure 0))).congr fun m ↦ ?_
  simp only [Option.bind_some, change, Mount.fakefsUnlink]
  cases h.realfsUnlink m.dbBegin.tree path with
  | none => simp [errno_neg]
  | some tree =>
    simp only [Option.bind_some, zero_not_neg, if_false]
    split <;> rfl

theorem fakefsRmdir_does (path : Path) :
    Does h (fakefsRmdir path) fun m ↦ some (m.fakefsRmdir h path) := by
  refine (dbBegin_does.bind fun _ ↦ (inodeForPath_does path).bind fun inode ↦
    (realRmdir_does path).bind fun err ↦ .ite (dbRollback_does.bind fun _ ↦ .pure err)
    ((deletePath_does path).bind fun _ ↦ (deleteInodeStat_does inode).bind fun _ ↦
      dbCommit_does.bind fun _ ↦ .pure 0)).congr fun m ↦ ?_
  simp only [Option.bind_some, change, Mount.fakefsRmdir]
  cases h.realfsRmdir m.dbBegin.tree path with
  | none => simp [errno_neg]
  | some tree => simp

theorem fakefsRename_does (src dst : Path) :
    Does h (fakefsRename src dst) fun m ↦ some (m.fakefsRename h src dst) := by
  refine (dbBegin_does.bind fun _ ↦ (inodeForPath_does dst).bind fun old ↦
    (realRename_does src dst).bind fun err ↦ .ite (dbRollback_does.bind fun _ ↦ .pure err)
    ((writePath_does dst).bind fun _ ↦ (deletePath_does src).bind fun _ ↦
    .ite ((inodeForPath_does dst).bind fun inode ↦
      .ite ((deleteInodeStat_does old).bind fun _ ↦ dbCommit_does.bind fun _ ↦ .pure 0)
        (dbCommit_does.bind fun _ ↦ .pure 0))
      (dbCommit_does.bind fun _ ↦ .pure 0))).congr fun m ↦ ?_
  simp only [Option.bind_some, change, Mount.fakefsRename]
  cases h.realfsRename m.dbBegin.tree src dst with
  | none => simp [errno_neg]
  | some tree =>
    simp only [Option.bind_some, zero_not_neg, if_false]
    by_cases hold : m.dbBegin.inodeForPath dst = 0
    · simp [hold]
    · simp only [ne_eq, hold, not_false_eq_true, if_true, true_and]
      split <;> rfl

theorem fakefsMkdir_does (task : Task) (path : Path) (mode : Word) :
    Does h (fakefsMkdir task path mode) fun m ↦ m.fakefsMkdir h task path mode := by
  refine (dbBegin_does.bind fun _ ↦ (realMkdir_does path _).bind fun err ↦
    .ite (dbRollback_does.bind fun _ ↦ .pure err)
    ((writeStat_does path _).bind fun _ ↦ dbCommit_does.bind fun _ ↦ .pure 0)).congr fun m ↦ ?_
  simp only [Option.bind_some, change, Mount.fakefsMkdir]
  cases h.realfsMkdir m.dbBegin.tree path with
  | none => simp [errno_neg]
  | some tree => simp [Option.bind_map]

theorem fakefsOpen_does (task : Task) (path : Path) (flags mode : Dword) :
    Does h (fakefsOpen task path flags mode) fun m ↦ m.fakefsOpen h task path flags mode := by
  have hwrite (stat : IshStat) (fd : ℤ) : Does h
      (do
        if (← readStat path).isNone then writeStat path stat
        dbCommit
        return fd)
      fun m ↦ (if (m.readStat path).isNone then m.writeStat path stat else some m).map
        fun m ↦ (fd, m.dbCommit) := by
    refine ((readStat_does path).bind (k := fun row m ↦
      (if row.isNone then m.writeStat path stat else some m).map fun m ↦ (fd, m.dbCommit))
      fun row ↦ ?_).congr fun m ↦ rfl
    split
    · refine ((writeStat_does path stat).bind fun _ ↦ dbCommit_does.bind fun _ ↦ .pure fd).congr ?_
      intro m
      cases m.writeStat path stat <;> rfl
    · exact fun _ ↦ rfl
  refine ((realOpen_does path flags _).bind fun fd ↦ .ite (.pure fd)
    (.ite (dbBegin_does.bind fun _ ↦ hwrite _ fd) (.pure fd))).congr fun m ↦ ?_
  simp only [change, Mount.fakefsOpen]
  cases h.realfsOpen m.tree path flags with
  | none => simp [errno_neg]
  | some tree =>
    simp only [Option.bind_some, zero_not_neg, if_false]
    split
    · exact Option.map_eq_bind
    · rfl

theorem realMknod_does (path : Path) (mode : Word) (dev : Dword) : Does h (realMknod path mode dev)
    fun m ↦ some ((h.realfsMknod m.tree path mode).1,
      { m with tree := (h.realfsMknod m.tree path mode).2 }) := fun _ ↦ rfl

theorem fakefsMknod_does (task : Task) (path : Path) (mode : Word) (dev : Dword) :
    Does h (fakefsMknod task path mode dev) fun m ↦ m.fakefsMknod h task path mode dev := by
  refine (dbBegin_does.bind fun _ ↦ (realMknod_does path _ 0).bind fun err ↦
    .ite (dbRollback_does.bind fun _ ↦ .pure err)
    ((writeStat_does path _).bind fun _ ↦ dbCommit_does.bind fun _ ↦ .pure err)).congr fun m ↦ ?_
  simp only [Option.bind_some, Mount.fakefsMknod]
  split
  · rfl
  · simp [Option.bind_map]

theorem fakefsSymlink_does (task : Task) (target : Str) (link : Path) :
    Does h (fakefsSymlink task target link) fun m ↦ m.fakefsSymlink h task target link := by
  have hwrite (fd : ℤ) : Does h (write fd target)
      fun m ↦ some ((if h.fails .write then h.errno else 0 : ℤ), m) := fun _ ↦ rfl
  have hclose (fd : ℤ) : Does h (close fd)
      fun m ↦ some ((if h.fails .close then h.errno else 0 : ℤ), m) := fun _ ↦ rfl
  have herrno : Does h errnoMap fun m ↦ some (h.errno, m) := fun _ ↦ rfl
  have hfail : Does h (do dbRollback; return (← errnoMap).1)
      fun m ↦ some (h.errno.1, m.dbRollback) :=
    dbRollback_does.bind fun _ ↦ herrno.bind fun err ↦ .pure err.1
  refine (dbBegin_does.bind fun _ ↦ (openatExcl_does link _).bind fun fd ↦ .ite hfail
    ((hwrite fd).bind fun res ↦ (hclose fd).bind fun _ ↦
      .ite ((unlinkat_does link).bind fun _ ↦ hfail)
        ((writeStat_does link _).bind fun _ ↦ dbCommit_does.bind fun _ ↦ .pure 0))).congr fun m ↦ ?_
  simp only [Option.bind_some, change, Mount.fakefsSymlink]
  cases h.openatExcl m.dbBegin.tree link with
  | none => simp [errno_neg]
  | some tree =>
    simp only [Option.bind_some, zero_not_neg, if_false]
    by_cases hf : h.fails .write
    · simp only [hf, if_true, errno_neg]
      cases h.realfsUnlink tree link <;> rfl
    · simp [hf, Option.bind_map]

theorem fakefsSetattr_does (path : Path) (attr : Attr) :
    Does h (fakefsSetattr path attr) fun m ↦ m.fakefsSetattr h path attr := by
  have hwrite (stat : IshStat) : Does h (do writeStat path stat; dbCommit; return 0)
      fun m ↦ (m.writeStat path stat).bind fun m ↦ some ((0 : ℤ), m.dbCommit) := by
    refine ((writeStat_does path stat).bind fun _ ↦ dbCommit_does.bind fun _ ↦ .pure 0).congr ?_
    intro m
    cases m.writeStat path stat <;> rfl
  have hset (g : IshStat → IshStat) (rest : Option IshStat → FsCall ℤ)
      (hnone : rest none = do dbRollback; return enoent)
      (hsome : ∀ stat, rest (some stat) = do writeStat path (g stat); dbCommit; return 0)
      (hattr : ∀ (m : Mount) stat, m.dbBegin.readStat path = some stat →
        m.fakefsSetattr h path attr =
          (m.dbBegin.writeStat path (g stat)).bind fun m ↦ some ((0 : ℤ), m.dbCommit)) :
      Does h (dbBegin >>= fun _ ↦ readStat path >>= rest) fun m ↦ m.fakefsSetattr h path attr := by
    refine (dbBegin_does.bind fun _ ↦ (readStat_does path).bind (k := fun row m ↦
      row.elim (some (enoent, m.dbRollback)) fun stat ↦
        (m.writeStat path (g stat)).bind fun m ↦ some (0, m.dbCommit)) fun row ↦ ?_).congr
      fun m ↦ ?_
    · cases row with
      | none =>
        rw [hnone]
        exact dbRollback_does.bind fun _ ↦ .pure enoent
      | some stat =>
        rw [hsome]
        exact hwrite (g stat)
    · simp only [Option.bind_some]
      cases hread : m.dbBegin.readStat path with
      | none => simp [Mount.fakefsSetattr, hread]
      | some stat => exact (hattr m stat hread).symm
  cases attr with
  | uid uid =>
    refine hset (fun stat ↦ { stat with uid := uid }) _ rfl (fun _ ↦ rfl) fun m stat hread ↦ ?_
    simp [Mount.fakefsSetattr, hread]
  | gid gid =>
    refine hset (fun stat ↦ { stat with gid := gid }) _ rfl (fun _ ↦ rfl) fun m stat hread ↦ ?_
    simp [Mount.fakefsSetattr, hread]
  | mode mode =>
    refine hset (fun stat ↦ { stat with
      mode := stat.mode &&& sIfmt.setWidth 32 ||| mode.setWidth 32 &&& ~~~sIfmt.setWidth 32 }) _ rfl
      (fun _ ↦ rfl) fun m stat hread ↦ ?_
    simp [Mount.fakefsSetattr, hread]
  | size size =>
    refine (dbBegin_does.bind fun _ ↦ (readStat_does path).bind (k := fun row m ↦
      row.elim (some (enoent, m.dbRollback)) fun _ ↦
        some (h.realfsTruncate m.dbCommit.tree path, m.dbCommit)) fun row ↦ ?_).congr
      fun m ↦ ?_
    · cases row with
      | none => exact dbRollback_does.bind fun _ ↦ .pure enoent
      | some stat => exact fun _ ↦ rfl
    · cases hrow : m.dbBegin.readStat path with
      | none => simp [Mount.fakefsSetattr, hrow]
      | some stat => simp [Mount.fakefsSetattr, hrow]

end FsCall

/-- Over a tree of files the program of an operation is the operation. -/
theorem call_does (e : Event) : Does e.host ((Request.op e.op).call e.task) fun m ↦ m.call e := by
  obtain ⟨op, h, task⟩ := e
  cases op with
  | «open» path flags mode => exact FsCall.fakefsOpen_does task path flags mode
  | mkdir path mode => exact FsCall.fakefsMkdir_does task path mode
  | mknod path mode dev => exact FsCall.fakefsMknod_does task path mode dev
  | symlink target link => exact FsCall.fakefsSymlink_does task target link
  | link src dst => exact FsCall.fakefsLink_does src dst
  | unlink path => exact FsCall.fakefsUnlink_does path
  | rmdir path => exact FsCall.fakefsRmdir_does path
  | rename src dst => exact FsCall.fakefsRename_does src dst
  | setattr path attr => exact FsCall.fakefsSetattr_does path attr

/-- Operations one after the other, with what each of them returns. -/
def inOrder {σ : Type} (call : σ → Event → Option (ℤ × σ)) : σ → List Event → Option (List ℤ × σ)
  | s, [] => some ([], s)
  | s, e :: es => (call s e).bind fun r ↦ (inOrder call r.2 es).map fun rs ↦ (r.1 :: rs.1, rs.2)

def callProgram (s : Disk × Metadata) (e : Event) : Option (ℤ × Disk × Metadata) :=
  ((Request.op e.op).call e.task).run (fs (treeHost e.host)) s

/-- Whatever is done in order, the programs return what the operations do and leave their mount. -/
theorem programs_refine (s : Disk × Metadata) (events : List Event) :
    (inOrder callProgram s events).map (fun r ↦ (r.1, mountOf r.2)) =
      inOrder Mount.call (mountOf s) events := by
  induction events generalizing s with
  | nil => rfl
  | cons e events ih =>
    have hcall : (callProgram s e).map (fun r ↦ (r.1, mountOf r.2)) = (mountOf s).call e :=
      call_does e s
    rw [inOrder, inOrder, ← hcall]
    cases callProgram s e with
    | none => rfl
    | some r =>
      rw [Option.map_some, Option.bind_some, Option.bind_some, ← ih r.2, Option.map_map,
        Option.map_map]
      rfl

end Isl.Fs.Fake
