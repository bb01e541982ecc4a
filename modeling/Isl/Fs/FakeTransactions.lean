import Isl.Fs.FakeCalls

/-!
Each operation of `fs/fake.c` takes the lock of its mount once or not at all,
ends the transaction it began, and leaves the tables of a failed one as they
were, whatever the host answers. Only the assertion in `write_stat` ends one
early.
-/

namespace Isl.Fs.Fake

open Isl.Lib Isl.Lib.Sql

abbrev Tables := ∀ t, Table Column Blob (primaryKey t)

variable {α β : Type} {P P' : Metadata → Prop} {Q Q' : α → Metadata → Prop}
  {R : β → Metadata → Prop} {T : Tables} {L : List LockCall} {clean : Prop}

/-! Programs against any host. -/

/-- A lookup finds an inode. -/
def Finds {τ : Type} (host : Handler HostOp HostOp.Reply τ) (s : τ × Metadata) : FsOp → Prop
  | .host (.fstatat path) => (host (.fstatat path) s.1).1.getD (0 : Ino) ≠ 0
  | _ => True

/-- From `P`, every run against every host ends in `Q`, and it ends when all of
its lookups find an inode. -/
structure Session (P : Metadata → Prop) (x : FsCall α) (Q : α → Metadata → Prop) : Prop where
  triple {τ : Type} (host : Handler HostOp HostOp.Reply τ) :
    Prog.Triple (fs host) (fun s ↦ P s.2) x fun a s ↦ Q a s.2
  ends {τ : Type} (host : Handler HostOp HostOp.Reply τ) : Prog.Ends (fs host) (Finds host) x

namespace Session

theorem pure {a : α} (h : ∀ m, P m → Q a m) : Session P (Pure.pure a) Q :=
  ⟨fun _ ↦ .pure fun s ↦ h s.2, fun _ ↦ .pure a⟩

theorem perform {op : FsOp} {Q : op.Reply → Metadata → Prop}
    (h : ∀ {τ : Type} (host : Handler HostOp HostOp.Reply τ) s, P s.2 →
      Q (fs host op s).1 (fs host op s).2.2) : Session P (Prog.perform op) Q :=
  ⟨fun host ↦ .perform fun s ↦ h host s, fun _ ↦ .perform op⟩

theorem bind {x : FsCall α} {f : α → FsCall β} (hx : Session P x Q)
    (hf : ∀ a, Session (Q a) (f a) R) : Session P (x >>= f) R :=
  ⟨fun host ↦ (hx.triple host).bind fun a ↦ (hf a).triple host,
    fun host ↦ (hx.ends host).bind fun a ↦ (hf a).ends host⟩

theorem mono {x : FsCall α} (hx : Session P x Q) (h : ∀ a m, Q a m → Q' a m) : Session P x Q' :=
  ⟨fun host ↦ (hx.triple host).mono fun a s ↦ h a s.2, hx.ends⟩

theorem ite {c : Prop} [Decidable c] {x y : FsCall α} (hx : Session P x Q) (hy : Session P y Q) :
    Session P (if c then x else y) Q := by
  split
  · exact hx
  · exact hy

/-- The host does not touch the database. -/
theorem host (op : HostOp) : Session P (FsCall.host op) fun _ ↦ P :=
  .perform fun _ _ h ↦ h

theorem exec {P' : Metadata → Prop} {stmt : Stmt TableName Column} {values : List (Value Blob)}
    (h : ∀ m, P m → P' { m with db := m.db.exec stmt values }) :
    Session P (FsCall.exec stmt values) fun _ ↦ P' := by
  refine .bind (Q := fun _ ↦ P') ?_ fun _ ↦ .pure fun _ ↦ id
  exact .perform fun _ s hs ↦ h s.2 hs

end Session

/-! Transactions. -/

/-- No transaction is open. -/
structure Outside (T : Tables) (L : List LockCall) (m : Metadata) : Prop where
  saved : m.db.saved = none
  tables : m.db.tables = T
  lockCalls : m.lockCalls = L

/-- A transaction is open, with the lock held. -/
structure Inside (T : Tables) (L : List LockCall) (clean : Prop) (m : Metadata) : Prop where
  saved : m.db.saved = some T
  lockCalls : m.lockCalls = L ++ [.lock]
  tables : clean → m.db.tables = T

/-- The transaction is over. -/
structure Closed (T : Tables) (L : List LockCall) (clean : Prop) (m : Metadata) : Prop where
  saved : m.db.saved = none
  lockCalls : m.lockCalls = L ++ [.lock, .unlock]
  tables : clean → m.db.tables = T

/-- What an operation with this result has to leave. -/
structure Settled (T : Tables) (L : List LockCall) (err : ℤ) (m : Metadata) : Prop where
  saved : m.db.saved = none
  lockCalls : m.lockCalls = L ∨ m.lockCalls = L ++ [.lock, .unlock]
  tables : err < 0 → m.db.tables = T

theorem Outside.settled {m : Metadata} {err : ℤ} (h : Outside T L m) : Settled T L err m :=
  ⟨h.saved, .inl h.lockCalls, fun _ ↦ h.tables⟩

theorem Closed.settled {m : Metadata} {err : ℤ} (h : Closed T L clean m) (hc : err < 0 → clean) :
    Settled T L err m :=
  ⟨h.saved, .inr h.lockCalls, fun he ↦ h.tables (hc he)⟩

theorem Inside.dirty {m : Metadata} (h : Inside T L clean m) : Inside T L False m :=
  ⟨h.saved, h.lockCalls, False.elim⟩

namespace FsCall

theorem dbBegin_session : Session (Outside T L) dbBegin fun _ ↦ Inside T L True := by
  refine .bind (Q := fun _ m ↦ m.db.tables = T ∧ m.lockCalls = L ++ [.lock]) ?_ fun _ ↦ .exec ?_
  · refine .perform fun _ s hs ↦ ⟨hs.tables, ?_⟩
    rw [← hs.lockCalls]
    rfl
  · rintro m ⟨rfl, hl⟩
    exact ⟨rfl, hl, fun _ ↦ rfl⟩

theorem unlock_session {m₀ : List LockCall} {P : Database → Prop} :
    Session (fun m ↦ P m.db ∧ m.lockCalls = m₀) unlock
      fun _ m ↦ P m.db ∧ m.lockCalls = m₀ ++ [.unlock] := by
  refine .perform fun _ s hs ↦ ⟨hs.1, ?_⟩
  rw [← hs.2]
  rfl

theorem dbCommit_session : Session (Inside T L clean) dbCommit fun _ ↦ Closed T L clean := by
  refine .bind (Q := fun _ m ↦ (m.db.saved = none ∧ (clean → m.db.tables = T)) ∧
    m.lockCalls = L ++ [.lock]) (.exec ?_) fun _ ↦ ?_
  · intro m hm
    exact ⟨⟨rfl, hm.tables⟩, hm.lockCalls⟩
  · refine (unlock_session (P := fun db ↦ db.saved = none ∧ (clean → db.tables = T))).mono ?_
    rintro _ m ⟨⟨hs, ht⟩, hl⟩
    exact ⟨hs, by simpa using hl, ht⟩

theorem dbRollback_session : Session (Inside T L clean) dbRollback fun _ ↦ Closed T L True := by
  refine .bind (Q := fun _ m ↦ (m.db.saved = none ∧ m.db.tables = T) ∧
    m.lockCalls = L ++ [.lock]) (.exec ?_) fun _ ↦ ?_
  · intro m hm
    refine ⟨⟨rfl, ?_⟩, hm.lockCalls⟩
    simp [Db.exec, hm.saved]
  · refine (unlock_session (P := fun db ↦ db.saved = none ∧ db.tables = T)).mono ?_
    rintro _ m ⟨⟨hs, ht⟩, hl⟩
    exact ⟨hs, by simpa using hl, fun _ ↦ ht⟩

theorem inodeForPath_session (path : Path) : Session P (inodeForPath path) fun _ ↦ P :=
  .bind (.host _) fun _ ↦ .pure fun _ ↦ id

/-- A statement that writes, in a transaction. -/
theorem exec_session {stmt : Stmt TableName Column} {values : List (Value Blob)}
    (h : ∀ db : Database, (db.exec stmt values).saved = db.saved) :
    Session (Inside T L clean) (exec stmt values) fun _ ↦ Inside T L False :=
  .exec fun m hm ↦ ⟨(h m.db).trans hm.saved, hm.lockCalls, False.elim⟩

theorem writePath_session (path : Path) :
    Session (Inside T L clean) (writePath path) fun _ ↦ Inside T L False := by
  refine .bind (inodeForPath_session path) fun inode ↦ ?_
  split
  · exact .bind (exec_session fun _ ↦ rfl) fun _ ↦ .pure fun _ ↦ id
  · exact .pure fun _ ↦ Inside.dirty

theorem deletePath_session (path : Path) :
    Session (Inside T L clean) (deletePath path) fun _ ↦ Inside T L False :=
  exec_session fun _ ↦ rfl

theorem deleteInodeStat_session (inode : Ino) :
    Session (Inside T L clean) (deleteInodeStat inode) fun _ ↦ Inside T L False :=
  exec_session fun _ ↦ rfl

theorem writePath_run {τ : Type} (host : Handler HostOp HostOp.Reply τ) (path : Path)
    (s : τ × Metadata) : ∃ s', (writePath path).run (fs host) s =
      some ((host (.fstatat path) s.1).1.getD (0 : Ino), s') := by
  have hinode : (inodeForPath path).run (fs host) s =
      some ((host (.fstatat path) s.1).1.getD (0 : Ino), ((host (.fstatat path) s.1).2, s.2)) := rfl
  rw [writePath, Prog.run_bind, hinode, Option.bind_some]
  split
  · exact ⟨_, rfl⟩
  · exact ⟨_, rfl⟩

/-- The assertion fails only when the lookup of the path does. -/
theorem writeStat_session (path : Path) (stat : IshStat) :
    Session (Inside T L clean) (writeStat path stat) fun _ ↦ Inside T L False := by
  constructor
  · intro τ host
    refine ((writePath_session path).triple host).bind fun inode ↦ ?_
    split
    · exact .stuck
    · exact (exec_session fun _ ↦ rfl).triple host
  · intro τ host s halways
    have hfound : (host (.fstatat path) s.1).1.getD (0 : Ino) ≠ 0 := halways.1
    obtain ⟨s', hrun⟩ := writePath_run host path s
    rw [writeStat, Prog.run_bind, hrun, Option.bind_some, if_neg hfound]
    rfl

theorem readStat_session (path : Path) : Session P (readStat path) fun _ ↦ P := by
  refine .bind (inodeForPath_session path) fun inode ↦ ?_
  split
  · exact .pure fun _ ↦ id
  · exact .bind (.perform fun _ _ h ↦ h) fun _ ↦ .pure fun _ ↦ id

/-- Two ways to leave: with an error after a rollback, or with all written. -/
theorem rollback_return (err : ℤ) : Session (Inside T L clean)
    (do dbRollback; return err) (Settled T L) :=
  .bind dbRollback_session fun _ ↦ .pure fun _ h ↦ h.settled fun _ ↦ trivial

theorem commit_return {err : ℤ} (h : err < 0 → clean) : Session (Inside T L clean)
    (do dbCommit; return err) (Settled T L) :=
  .bind dbCommit_session fun _ ↦ .pure fun _ hm ↦ hm.settled h

/-- Two last steps of an operation that made all its changes. -/
theorem commit_zero : Session (Inside T L clean) (do dbCommit; return 0) (Settled T L) :=
  commit_return fun h ↦ absurd h (Int.lt_irrefl _)

/-! The operations. -/

theorem fakefsOpen_session (task : Task) (path : Path) (flags mode : Dword) :
    Session (Outside T L) (fakefsOpen task path flags mode) (Settled T L) := by
  refine .bind (.host _) fun fd ↦ ?_
  split
  · exact .pure fun _ ↦ Outside.settled
  · rename_i hfd
    split
    · refine .bind dbBegin_session fun _ ↦ .bind (readStat_session path) fun stat ↦ ?_
      split
      · exact .bind (writeStat_session path _) fun _ ↦ commit_return fun h ↦ absurd h hfd
      · exact commit_return fun h ↦ absurd h hfd
    · exact .pure fun _ ↦ Outside.settled

theorem fakefsLink_session (src dst : Path) :
    Session (Outside T L) (fakefsLink src dst) (Settled T L) := by
  refine .bind dbBegin_session fun _ ↦ .bind (.host _) fun err ↦ ?_
  split
  · exact rollback_return _
  · exact .bind (writePath_session dst) fun _ ↦ commit_zero

theorem lastLink_session (path : Path) : Session P (lastLink path) fun _ ↦ P := by
  refine .bind (.host _) fun fd ↦ ?_
  split
  · exact .bind (.host _) fun _ ↦ .bind (.host _) fun _ ↦ .pure fun _ ↦ id
  · exact .pure fun _ ↦ id

theorem fakefsUnlink_session (path : Path) :
    Session (Outside T L) (fakefsUnlink path) (Settled T L) := by
  refine .bind (lastLink_session path) fun gone ↦ .bind dbBegin_session fun _ ↦
    .bind (inodeForPath_session path) fun inode ↦ .bind (.host _) fun err ↦ ?_
  split
  · exact rollback_return _
  · refine .bind (deletePath_session path) fun _ ↦ ?_
    split
    · exact .bind (deleteInodeStat_session inode) fun _ ↦ commit_zero
    · exact commit_zero

theorem fakefsRmdir_session (path : Path) :
    Session (Outside T L) (fakefsRmdir path) (Settled T L) := by
  refine .bind dbBegin_session fun _ ↦ .bind (inodeForPath_session path) fun inode ↦
    .bind (.host _) fun err ↦ ?_
  split
  · exact rollback_return _
  · exact .bind (deletePath_session path) fun _ ↦ .bind (deleteInodeStat_session inode) fun _ ↦
      commit_zero

theorem fakefsRename_session (src dst : Path) :
    Session (Outside T L) (fakefsRename src dst) (Settled T L) := by
  refine .bind dbBegin_session fun _ ↦ .bind (inodeForPath_session dst) fun oldDstInode ↦
    .bind (.host _) fun err ↦ ?_
  split
  · exact rollback_return _
  · refine .bind (writePath_session dst) fun _ ↦ .bind (deletePath_session src) fun _ ↦ ?_
    split
    · refine .bind (inodeForPath_session dst) fun inode ↦ ?_
      split
      · exact .bind (deleteInodeStat_session _) fun _ ↦ commit_zero
      · exact commit_zero
    · exact commit_zero

theorem fakefsSymlink_session (task : Task) (target : Str) (link : Path) :
    Session (Outside T L) (fakefsSymlink task target link) (Settled T L) := by
  have hfail : Session (Inside T L True) (do dbRollback; return (← errnoMap).1)
      (Settled T L) :=
    .bind dbRollback_session fun _ ↦ .bind (.host _) fun _ ↦
      .pure fun _ hm ↦ hm.settled fun _ ↦ trivial
  refine .bind dbBegin_session fun _ ↦ .bind (.host _) fun fd ↦ ?_
  split
  · exact hfail
  · refine .bind (.host _) fun res ↦ .bind (.host _) fun _ ↦ ?_
    split
    · exact .bind (.host _) fun _ ↦ hfail
    · exact .bind (writeStat_session link _) fun _ ↦ commit_zero

theorem fakefsMknod_session (task : Task) (path : Path) (mode : Word) (dev : Dword) :
    Session (Outside T L) (fakefsMknod task path mode dev) (Settled T L) := by
  refine .bind dbBegin_session fun _ ↦ .bind (.host _) fun err ↦ ?_
  split
  · exact rollback_return _
  · rename_i herr
    exact .bind (writeStat_session path _) fun _ ↦ commit_return fun h ↦ absurd h herr

theorem fakefsMkdir_session (task : Task) (path : Path) (mode : Word) :
    Session (Outside T L) (fakefsMkdir task path mode) (Settled T L) := by
  refine .bind dbBegin_session fun _ ↦ .bind (.host _) fun err ↦ ?_
  split
  · exact rollback_return _
  · exact .bind (writeStat_session path _) fun _ ↦ commit_zero

theorem fakefsSetattr_session (path : Path) (attr : Attr) :
    Session (Outside T L) (fakefsSetattr path attr) (Settled T L) := by
  refine .bind dbBegin_session fun _ ↦ .bind (readStat_session path) fun stat ↦ ?_
  cases stat with
  | none => exact rollback_return _
  | some stat =>
    cases attr with
    | size size =>
      exact .bind dbCommit_session fun _ ↦ .mono (.host _) fun _ _ hm ↦ hm.settled fun _ ↦ trivial
    | _ => exact .bind (writeStat_session path _) fun _ ↦ commit_zero

theorem fakefsFsetattr_session (fd : ℤ) (attr : Attr) :
    Session (Outside T L) (fakefsFsetattr fd attr) (Settled T L) := by
  refine .bind (.host _) fun path ↦ ?_
  cases path with
  | error err => exact .pure fun _ ↦ Outside.settled
  | ok path => exact fakefsSetattr_session path attr

theorem fakefsStat_session (path : Path) (followLinks : Bool) (size : Statbuf → ℕ) :
    Session (Outside T L) (fakefsStat path followLinks) fun r ↦ Settled T L (code size r) := by
  refine .bind dbBegin_session fun _ ↦ .bind (readStat_session path) fun stat ↦ ?_
  cases stat with
  | none => exact .bind dbRollback_session fun _ ↦ .pure fun _ hm ↦ hm.settled fun _ ↦ trivial
  | some ishstat =>
    refine .bind (.host _) fun stat ↦ .bind dbCommit_session fun _ ↦ ?_
    cases stat with
    | error err => exact .pure fun _ hm ↦ hm.settled fun _ ↦ trivial
    | ok stat => exact .pure fun _ hm ↦ hm.settled fun _ ↦ trivial

theorem fakefsFstat_session (fd : ℤ) (size : Statbuf → ℕ) :
    Session (Outside T L) (fakefsFstat fd) fun r ↦ Settled T L (code size r) := by
  refine .bind (.host _) fun path ↦ ?_
  cases path with
  | error err => exact .pure fun _ ↦ Outside.settled
  | ok path => exact fakefsStat_session path false size

theorem fileReadlink_session (path : Path) (bufsize : ℕ) :
    Session P (fileReadlink path bufsize) fun _ ↦ P := by
  refine .bind (.host _) fun fd ↦ ?_
  split
  · exact .bind (.host _) fun _ ↦ .pure fun _ ↦ id
  · refine .bind (.host _) fun target ↦ .bind (.host _) fun _ ↦ ?_
    cases target with
    | none => exact .bind (.host _) fun _ ↦ .pure fun _ ↦ id
    | some target => exact .pure fun _ ↦ id

theorem fakefsReadlink_session (path : Path) (bufsize : ℕ) :
    Session (Outside T L) (fakefsReadlink path bufsize) fun r ↦ Settled T L (code List.length r) := by
  have hclosed {r : Except {err : ℤ // err < 0} Str} : Session (Closed T L True) (pure r : FsCall _)
      fun r ↦ Settled T L (code List.length r) := .pure fun _ hm ↦ hm.settled fun _ ↦ trivial
  refine .bind dbBegin_session fun _ ↦ .bind (readStat_session path) fun stat ↦ ?_
  cases stat with
  | none => exact .bind dbRollback_session fun _ ↦ hclosed
  | some ishstat =>
    dsimp only
    split
    · exact .bind dbRollback_session fun _ ↦ hclosed
    · refine .bind (.host _) fun target ↦ .bind (Q := fun _ ↦ Inside T L True) ?_ fun _ ↦
        .bind dbCommit_session fun _ ↦ hclosed
      cases target with
      | ok target => exact .pure fun _ ↦ id
      | error err => exact .ite (fileReadlink_session path bufsize) (.pure fun _ ↦ id)

end FsCall

theorem Session.map {x : FsCall α} {f : α → β} (hx : Session P x fun a ↦ R (f a)) :
    Session P (f <$> x) R := by
  rw [map_eq_pure_bind]
  exact .bind hx fun _ ↦ .pure fun _ ↦ id

theorem Request.call_session (task : Task) (req : Request) :
    Session (Outside T L) (req.call task) (Settled T L) := by
  cases req with
  | op op =>
    cases op with
    | «open» path flags mode => exact FsCall.fakefsOpen_session task path flags mode
    | mkdir path mode => exact FsCall.fakefsMkdir_session task path mode
    | mknod path mode dev => exact FsCall.fakefsMknod_session task path mode dev
    | symlink target link => exact FsCall.fakefsSymlink_session task target link
    | link src dst => exact FsCall.fakefsLink_session src dst
    | unlink path => exact FsCall.fakefsUnlink_session path
    | rmdir path => exact FsCall.fakefsRmdir_session path
    | rename src dst => exact FsCall.fakefsRename_session src dst
    | setattr path attr => exact FsCall.fakefsSetattr_session path attr
  | stat path followLinks => exact .map (FsCall.fakefsStat_session path followLinks _)
  | fstat fd => exact .map (FsCall.fakefsFstat_session fd _)
  | fsetattr fd attr => exact FsCall.fakefsFsetattr_session fd attr
  | readlink path bufsize => exact .map (FsCall.fakefsReadlink_session path bufsize)

/-- An operation that comes back has taken the lock once or not at all, has no
transaction open, and has changed nothing if it failed. It comes back when all
of its lookups find an inode. -/
theorem fakefs_settled {τ : Type} (host : Handler HostOp HostOp.Reply τ) (task : Task)
    (req : Request) (t : τ) (m : Metadata) (hm : m.db.saved = none) :
    (∀ err t' m', (req.call task).run (fs host) (t, m) = some (err, t', m') →
      Settled m.db.tables m.lockCalls err m') ∧
    ((req.call task).Always (fs host) (Finds host) (t, m) →
      ((req.call task).run (fs host) (t, m)).isSome) := by
  have hsession : Session (Outside m.db.tables m.lockCalls) (req.call task)
      (Settled m.db.tables m.lockCalls) := req.call_session task
  constructor
  · intro err t' m' hrun
    exact hsession.triple host (t, m) ⟨hm, rfl, rfl⟩ err (t', m') hrun
  · exact hsession.ends host (t, m)

/-- A host on which everything succeeds but the lookups that `inode` decides. -/
def lookupHost (inode : Option Ino) : Handler HostOp HostOp.Reply Unit
  | .fstatat _, t => (inode, t)
  | .realStat _ _, t => (.ok ⟨0, 1, 0, 0, 0, 0, 0⟩, t)
  | .realReadlink _ _, t | .read _ _, t => (pure [], t)
  | .getpath _, t => (.ok [], t)
  | .fstat _, t => (some 1, t)
  | .errnoMap, t => (FsCall.eInval, t)
  | .realOpen _ _ _, t | .realLink _ _, t | .realUnlink _, t | .realRmdir _, t
  | .realRename _ _, t | .realMknod _ _ _, t | .realMkdir _ _, t | .realTruncate _ _, t
  | .openat _, t | .openatExcl _ _, t | .write _ _, t | .close _, t | .unlinkat _, t => ((0 : ℤ), t)

theorem nodup_noRows (t : TableName) :
    (([] : List (Row Column Blob)).map (· (primaryKey t))).Nodup :=
  List.nodup_nil

def noMetadata : Metadata := ⟨⟨fun t ↦ ⟨[], nodup_noRows t⟩, none⟩, []⟩

theorem fakefs_settled_mkdir : ∃ err t' m',
    ((Request.op (.mkdir [] 0)).call ⟨0, 0⟩).run (fs (lookupHost (some 7))) ((), noMetadata) =
      some (err, t', m') ∧ Settled noMetadata.db.tables [] err m' := by
  obtain ⟨hsettled, hends⟩ :=
    fakefs_settled (lookupHost (some 7)) ⟨0, 0⟩ (.op (.mkdir [] 0)) () noMetadata rfl
  have hfinds : ((Request.op (.mkdir [] 0)).call ⟨0, 0⟩).Always (fs (lookupHost (some 7)))
      (Finds (lookupHost (some 7))) ((), noMetadata) := by
    have hseven : (7 : Ino) ≠ 0 := by decide
    refine ⟨trivial, trivial, trivial, hseven, trivial, trivial, trivial, trivial, trivial⟩
  obtain ⟨⟨err, t', m'⟩, hrun⟩ := Option.isSome_iff_exists.mp (hends hfinds)
  exact ⟨err, t', m', hrun, hsettled err t' m' hrun⟩

/-- A directory that is made and then not found: the assertion ends the program,
with the lock taken and the transaction open. -/
theorem not_fakefs_settled : ¬∀ (host : Handler HostOp HostOp.Reply Unit) (task : Task)
    (req : Request) (m : Metadata), m.db.saved = none →
    ∃ err t' m', (req.call task).run (fs host) ((), m) = some (err, t', m') ∧
      Settled m.db.tables m.lockCalls err m' := by
  intro h
  obtain ⟨err, t', m', hrun, -⟩ := h (lookupHost none) ⟨0, 0⟩ (.op (.mkdir [] 0)) noMetadata rfl
  cases hrun

end Isl.Fs.Fake
