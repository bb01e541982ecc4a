import Isl.Fs.Fake

/-! What an operation of the fake file system does to the tree and to the two tables. -/

namespace Isl.Fs.Fake

open Isl.Lib.FileTree
open Isl.Lib.Sql

def pathRow (path : Path) (ino : Ino) : Row Column Blob :=
  bindRow [.path, .inode] [.blob (.path path), .int ino]

def statRow (ino : Ino) (stat : IshStat) : Row Column Blob :=
  bindRow [.inode, .stat] [.int ino, .blob (.stat stat)]

structure Files where
  tree : Tree Str Inode
  paths : Table Column Blob .path
  stats : Table Column Blob .inode

namespace Files

def writePath (f : Files) (path : Path) (ino : Ino) : Files :=
  { f with paths := f.paths.replace (pathRow path ino) }

def deletePath (f : Files) (path : Path) : Files :=
  { f with paths := f.paths.delete .inode (.blob (.path path)) }

def writeStat (f : Files) (path : Path) (ino : Ino) (stat : IshStat) : Files :=
  { f.writePath path ino with stats := f.stats.replace (statRow ino stat) }

def deleteStat (f : Files) (ino : Ino) : Files :=
  { f with stats := f.stats.delete .inode (.int ino) }

/-- The file is new, and no row is written. -/
def Left (f : Files) (path : Path) (f' : Files) : Prop :=
  ∃ t n, f.tree.creat path n = some t ∧ f' = { f with tree := t }

/-- The file is new, and its rows are written. -/
def Made (f : Files) (path : Path) (f' : Files) : Prop :=
  ∃ t n stat, f.tree.creat path n = some t ∧
    f' = { f with tree := t }.writeStat path n.ino stat

end Files

/-- The operation fails after it has made a file, and leaves it there. -/
def Host.Strays (h : Host) (tree : Tree Str Inode) : Op → Prop
  | .mknod path mode _ =>
    isReg (realMode mode) ∧ (h.openatExcl tree path).isSome ∧ h.fails .close
  | .symlink _ link =>
    (h.openatExcl tree link).isSome ∧ h.fails .write ∧ h.fails .unlinkat
  | _ => False

namespace Mount

def files (m : Mount) : Files := ⟨m.tree, m.db.tables .paths, m.db.tables .stats⟩

variable {m m' : Mount} {h : Host} {path src dst : Path} {n : Node Inode} {stat : IshStat}
  {t : Tree Str Inode} {err : ℤ}

theorem tree_dbBegin (m : Mount) : m.dbBegin.tree = m.tree := rfl

theorem files_dbBegin (m : Mount) : m.dbBegin.files = m.files := rfl

theorem files_dbCommit (m : Mount) : m.dbCommit.files = m.files := rfl

theorem files_dbRollback (hdb : m'.db = m.dbBegin.db) :
    m'.dbRollback.files = { m.files with tree := m'.tree } := by
  obtain ⟨tree, db, lockCalls⟩ := m'
  obtain rfl : db = _ := hdb
  rfl

theorem inodeForPath_eq (hn : m.tree.node? path = some n) : m.inodeForPath path = n.ino := by
  rw [inodeForPath, hn]

theorem files_writePath (hn : m.tree.node? path = some n) :
    (m.writePath path).2.files = m.files.writePath path n.ino := by
  rw [writePath, inodeForPath_eq hn]
  exact congrArg files (if_pos n.ino.2)

theorem files_deletePath (m : Mount) (path : Path) :
    (m.deletePath path).files = m.files.deletePath path := rfl

theorem writeStat_eq (hn : m.tree.node? path = some n) (stat : IshStat) :
    ∃ m', m.writeStat path stat = some m' ∧ m'.files = m.files.writeStat path n.ino stat := by
  rw [writeStat, writePath, inodeForPath_eq hn]
  dsimp only
  rw [if_pos n.ino.2, if_pos n.ino.2]
  exact ⟨_, rfl, rfl⟩

theorem readStat_eq (hn : m.tree.node? path = some n) :
    m.readStat path = (m.files.stats.get (.int n.ino)).map fun r ↦ columnStat (r .stat) := by
  have hquery : m.db.query readStatStmt [.int n.ino] =
      m.files.stats.select .stat .inode (.int n.ino) := rfl
  rw [readStat, inodeForPath_eq hn, if_neg n.ino.2, hquery, Table.select_key (by simp),
    Option.map_map]
  rfl

theorem node?_creat (ht : m.tree.creat path n = some t) : t.node? path = some n := by
  rw [Tree.node?_eq_some, (Tree.creat_eq_some ht).2.2]
  exact List.mem_append_right _ (List.mem_singleton_self _)

theorem fakefsLink_files (m : Mount) (h : Host) (src dst : Path) :
    (m.fakefsLink h src dst).2.files = m.files ∨
      ∃ t n, (src, n) ∈ m.tree.entries ∧ m.tree.Free dst ∧
        t.entries = m.tree.entries ++ [(dst, n)] ∧
        (m.fakefsLink h src dst).2.files = { m.files with tree := t }.writePath dst n.ino := by
  rw [fakefsLink]
  dsimp only
  rw [tree_dbBegin]
  cases hreal : h.realfsLink m.tree src dst with
  | none => exact .inl (files_dbRollback rfl)
  | some t =>
    obtain ⟨n, hn, -, hfree, hentries⟩ := Tree.link_eq_some (Host.of_ite hreal)
    refine .inr ⟨t, n, hn, hfree, hentries, files_writePath (Tree.node?_eq_some.mpr ?_)⟩
    rw [hentries]
    exact List.mem_append_right _ (List.mem_singleton_self _)

/-- The last link is recognized when the file can be opened. -/
theorem fakefsUnlink_files (m : Mount) (h : Host) (path : Path) :
    h.realfsUnlink m.tree path = none ∧ (m.fakefsUnlink h path).2.files = m.files ∨
      ∃ t n, h.realfsUnlink m.tree path = some t ∧ (path, n) ∈ m.tree.entries ∧
        t.entries = m.tree.entries.filter (·.1 ≠ path) ∧
        (m.fakefsUnlink h path).2.files =
          if (h.fails .openat = false ∧ h.fails .fstat = false) ∧ m.tree.links n.ino = 1 then
            ({ m.files with tree := t }.deletePath path).deleteStat n.ino
          else { m.files with tree := t }.deletePath path := by
  rw [fakefsUnlink]
  dsimp only
  rw [tree_dbBegin]
  cases hreal : h.realfsUnlink m.tree path with
  | none => exact .inl ⟨rfl, files_dbRollback rfl⟩
  | some t =>
    obtain ⟨n, hn, -, hentries⟩ := Tree.unlink_eq_some (Host.of_ite hreal)
    have hnode := Tree.node?_eq_some.mpr hn
    refine .inr ⟨t, n, rfl, hn, hentries, ?_⟩
    rw [hnode, inodeForPath_eq (m := m.dbBegin) hnode]
    dsimp only
    rw [files_dbCommit]
    by_cases hgone : (h.fails .openat = false ∧ h.fails .fstat = false) ∧ m.tree.links n.ino = 1
    · rw [if_pos hgone, if_pos (by simp [hgone])]
      rfl
    · rw [if_neg hgone, if_neg (by simpa [and_assoc] using hgone)]
      rfl

theorem fakefsRmdir_files (m : Mount) (h : Host) (path : Path) :
    h.realfsRmdir m.tree path = none ∧ (m.fakefsRmdir h path).2.files = m.files ∨
      ∃ t n, h.realfsRmdir m.tree path = some t ∧ (path, n) ∈ m.tree.entries ∧ n.dir = true ∧
        t.entries = m.tree.entries.filter (·.1 ≠ path) ∧
        (m.fakefsRmdir h path).2.files =
          ({ m.files with tree := t }.deletePath path).deleteStat n.ino := by
  rw [fakefsRmdir]
  dsimp only
  rw [tree_dbBegin]
  cases hreal : h.realfsRmdir m.tree path with
  | none => exact .inl ⟨rfl, files_dbRollback rfl⟩
  | some t =>
    obtain ⟨n, hn, hd, hentries⟩ := Tree.rmdir_eq_some (Host.of_ite hreal)
    refine .inr ⟨t, n, rfl, hn, hd, hentries, ?_⟩
    rw [inodeForPath_eq (m := m.dbBegin) (Tree.node?_eq_some.mpr hn)]
    rfl

/-- The end of `fakefs_rename`, with the inode number that `dst` had. -/
theorem files_clobber {src : Path} (hnode : m.tree.node? dst = some n) (old : Ino) :
    let m' := (m.writePath dst).2.deletePath src
    (if old ≠ 0 ∧ old ≠ m'.inodeForPath dst then m'.deleteInodeStat old else m').files =
      let f := (m.files.writePath dst n.ino).deletePath src
      if old ≠ 0 ∧ old ≠ n.ino then f.deleteStat old else f := by
  have hsame : ((m.writePath dst).2.deletePath src).inodeForPath dst = m.inodeForPath dst := by
    rw [writePath]
    dsimp only
    split <;> rfl
  have hfiles : ((m.writePath dst).2.deletePath src).files =
      (m.files.writePath dst n.ino).deletePath src := by
    rw [files_deletePath, files_writePath hnode]
  dsimp only
  rw [hsame, inodeForPath_eq hnode, ← hfiles]
  split <;> rfl

/-- The file that is replaced loses its metadata, whether it has other links or not. -/
theorem fakefsRename_files (m : Mount) (h : Host) (src dst : Path) :
    h.realfsRename m.tree src dst = none ∧ (m.fakefsRename h src dst).2.files = m.files ∨
      ∃ t n, h.realfsRename m.tree src dst = some t ∧ (src, n) ∈ m.tree.entries ∧
        (t = m.tree ∧ (∃ k, (dst, k) ∈ m.tree.entries ∧ k.ino = n.ino) ∧
            (m.fakefsRename h src dst).2.files = (m.files.writePath dst n.ino).deletePath src ∨
          (∀ k, (dst, k) ∈ m.tree.entries → k.ino ≠ n.ino) ∧ ¬src <+: dst ∧ m.tree.Bare dst ∧
            t.entries = (m.tree.entries.filter (·.1 ≠ dst)).map
              (fun e ↦ (Tree.rebase src dst e.1, e.2)) ∧
            (m.fakefsRename h src dst).2.files =
              let f := ({ m.files with tree := t }.writePath dst n.ino).deletePath src
              match m.tree.node? dst with
              | none => f
              | some k => f.deleteStat k.ino) := by
  rw [fakefsRename]
  dsimp only
  rw [tree_dbBegin]
  cases hreal : h.realfsRename m.tree src dst with
  | none => exact .inl ⟨rfl, files_dbRollback rfl⟩
  | some t =>
    obtain ⟨n, hn, hcases⟩ := Tree.rename_eq_some (Host.of_ite hreal)
    refine .inr ⟨t, n, rfl, hn, ?_⟩
    dsimp only
    rw [files_dbCommit]
    obtain ⟨rfl, k, hk, hino⟩ | ⟨hne, hsub, hbare, hentries⟩ := hcases
    · have hnode := Tree.node?_eq_some.mpr hk
      refine .inl ⟨rfl, ⟨k, hk, hino⟩, ?_⟩
      rw [inodeForPath_eq (m := m.dbBegin) hnode]
      refine (files_clobber (m := { m.dbBegin with tree := m.tree }) hnode _).trans ?_
      dsimp only
      rw [if_neg fun hc ↦ hc.2 rfl, hino]
      rfl
    · refine .inr ⟨hne, hsub, hbare, hentries, ?_⟩
      have hsrc : src ≠ dst := fun heq ↦ hsub (heq ▸ List.prefix_rfl)
      have hmem : (dst, n) ∈ t.entries := by
        rw [hentries]
        refine List.mem_map.mpr ⟨(src, n), List.mem_filter.mpr ⟨hn, decide_eq_true hsrc⟩, ?_⟩
        have hrebase := rebase_append src dst []
        rw [List.append_nil, List.append_nil] at hrebase
        rw [hrebase]
      have hnode := Tree.node?_eq_some.mpr hmem
      refine (files_clobber (m := { m.dbBegin with tree := t }) hnode _).trans ?_
      dsimp only
      cases hdst : m.tree.node? dst with
      | none =>
        have hzero : m.dbBegin.inodeForPath dst = 0 := by
          rw [inodeForPath, tree_dbBegin, hdst]
        rw [hzero, if_neg fun hc ↦ hc.1 rfl]
        rfl
      | some k =>
        have hino : (k.ino : Ino) ≠ n.ino := fun heq ↦
          hne k (Tree.node?_eq_some.mp hdst) (Subtype.ext heq)
        rw [inodeForPath_eq (m := m.dbBegin) hdst, if_pos ⟨k.ino.2, hino⟩]
        rfl

theorem writeStat_creat {m₁ : Mount} (ht : m.tree.creat path n = some t)
    (hm : { m.dbBegin with tree := t }.writeStat path stat = some m₁) :
    m.files.Made path m₁.dbCommit.files := by
  obtain ⟨m₂, hwrite, hfiles⟩ := writeStat_eq (m := { m.dbBegin with tree := t }) (node?_creat ht)
    stat
  cases hm.symm.trans hwrite
  exact ⟨t, n, stat, ht, hfiles⟩

theorem fakefsMkdir_files {task : Task} {mode : Word}
    (hm : m.fakefsMkdir h task path mode = some (err, m')) :
    m'.files = m.files ∨ m.files.Made path m'.files := by
  rw [fakefsMkdir] at hm
  dsimp only at hm
  rw [tree_dbBegin] at hm
  cases hreal : h.realfsMkdir m.tree path with
  | none =>
    rw [hreal] at hm
    cases hm
    exact .inl (files_dbRollback rfl)
  | some t =>
    rw [hreal] at hm
    obtain ⟨m₁, hwrite, heq⟩ := Option.bind_eq_some_iff.mp hm
    cases heq
    exact .inr (writeStat_creat (Host.of_ite hreal) hwrite)

theorem isFifo_of_isReg {mode : Word} (hmode : isReg mode = true) : isFifo mode = false := by
  rw [isFifo, of_decide_eq_true hmode]
  rfl

theorem fakefsMknod_files {task : Task} {mode : Word} {dev : Dword}
    (hm : m.fakefsMknod h task path mode dev = some (err, m')) :
    ¬h.Strays m.tree (.mknod path mode dev) ∧
        (m'.files = m.files ∨ m.files.Made path m'.files) ∨
      h.Strays m.tree (.mknod path mode dev) ∧ m.files.Left path m'.files := by
  rw [fakefsMknod] at hm
  dsimp only at hm
  rw [tree_dbBegin] at hm
  have hfail {e : ℤ} (he : e < 0) (hreal : h.realfsMknod m.tree path (realMode mode) = (e, m.tree)) :
      m'.files = m.files := by
    rw [hreal] at hm
    dsimp only at hm
    rw [if_pos he] at hm
    cases hm
    exact files_dbRollback rfl
  have hmade {t : Tree Str Inode} (ht : m.tree.creat path ⟨h.ino, false⟩ = some t)
      (hreal : h.realfsMknod m.tree path (realMode mode) = (0, t)) :
      m.files.Made path m'.files := by
    rw [hreal] at hm
    dsimp only at hm
    rw [if_neg (by decide)] at hm
    obtain ⟨m₁, hwrite, heq⟩ := Option.bind_eq_some_iff.mp hm
    cases heq
    exact writeStat_creat ht hwrite
  rw [Host.Strays]
  by_cases hfifo : isFifo (realMode mode) = true
  · have hstray : ¬(isReg (realMode mode) = true ∧ (h.openatExcl m.tree path).isSome = true ∧
        h.fails .close = true) := by
      intro hs
      cases hfifo.symm.trans (isFifo_of_isReg hs.1)
    refine .inl ⟨hstray, ?_⟩
    cases hreal : h.realfsMkfifo m.tree path with
    | none => exact .inl (hfail h.errno.2 (by rw [Host.realfsMknod, if_pos hfifo, hreal]))
    | some t =>
      exact .inr (hmade (Host.of_ite hreal) (by rw [Host.realfsMknod, if_pos hfifo, hreal]))
  · by_cases hreg : isReg (realMode mode) = true
    · cases hreal : h.openatExcl m.tree path with
      | none =>
        refine .inl ⟨fun hs ↦ absurd hs.2.1 Bool.false_ne_true, .inl (hfail h.errno.2 ?_)⟩
        rw [Host.realfsMknod, if_neg hfifo, if_pos hreg, hreal]
      | some t =>
        have hmknod : h.realfsMknod m.tree path (realMode mode) =
            (if h.fails .close then (h.errno : ℤ) else 0, t) := by
          rw [Host.realfsMknod, if_neg hfifo, if_pos hreg, hreal]
        by_cases hclose : h.fails .close = true
        · refine .inr ⟨⟨hreg, rfl, hclose⟩, t, _, Host.of_ite hreal, ?_⟩
          rw [hmknod, if_pos hclose] at hm
          dsimp only at hm
          rw [if_pos h.errno.2] at hm
          cases hm
          exact files_dbRollback rfl
        · rw [if_neg hclose] at hmknod
          exact .inl ⟨fun hs ↦ hclose hs.2.2, .inr (hmade (Host.of_ite hreal) hmknod)⟩
    · refine .inl ⟨fun hs ↦ hreg hs.1, .inl (hfail (e := eperm) (by decide) ?_)⟩
      rw [Host.realfsMknod, if_neg hfifo, if_neg hreg]

theorem fakefsSymlink_files {task : Task} {target : Str} {link : Path}
    (hm : m.fakefsSymlink h task target link = some (err, m')) :
    ¬h.Strays m.tree (.symlink target link) ∧ (m'.files = m.files ∨ m.files.Made link m'.files) ∨
      h.Strays m.tree (.symlink target link) ∧ m.files.Left link m'.files := by
  rw [fakefsSymlink] at hm
  dsimp only at hm
  rw [tree_dbBegin] at hm
  rw [Host.Strays]
  cases hreal : h.openatExcl m.tree link with
  | none =>
    rw [hreal] at hm
    cases hm
    exact .inl ⟨fun hs ↦ absurd hs.1 nofun, .inl (files_dbRollback rfl)⟩
  | some t =>
    have ht := Host.of_ite hreal
    rw [hreal] at hm
    dsimp only at hm
    by_cases hwrite : h.fails .write = true
    · rw [if_pos hwrite] at hm
      cases hm
      by_cases hunlink : h.fails .unlinkat = true
      · have hnone : h.realfsUnlink t link = none := by rw [Host.realfsUnlink, if_pos hunlink]
        rw [hnone]
        exact .inr ⟨⟨rfl, hwrite, hunlink⟩, t, _, ht, files_dbRollback rfl⟩
      · have hback : h.realfsUnlink t link = some m.tree := by
          rw [Host.realfsUnlink, if_neg hunlink, Tree.unlink_creat ht rfl]
        rw [hback]
        exact .inl ⟨fun hs ↦ hunlink hs.2.2, .inl (files_dbRollback rfl)⟩
    · rw [if_neg hwrite] at hm
      obtain ⟨m₁, hstat, heq⟩ := Option.bind_eq_some_iff.mp hm
      cases heq
      exact .inl ⟨fun hs ↦ hwrite hs.2.1, .inr (writeStat_creat ht hstat)⟩

theorem writeStat_missing {m₁ : Mount} (hnode : m.tree.node? path = some n)
    (hm : (if (m.readStat path).isNone then m.writeStat path stat else some m) = some m₁) :
    m.files.stats.get (.int n.ino) ≠ none ∧ m₁.files = m.files ∨
      m.files.stats.get (.int n.ino) = none ∧ m₁.files = m.files.writeStat path n.ino stat := by
  rw [readStat_eq hnode, Option.isNone_map] at hm
  cases hget : m.files.stats.get (.int n.ino) with
  | some r =>
    rw [hget, if_neg (by simp)] at hm
    cases hm
    exact .inl ⟨nofun, rfl⟩
  | none =>
    rw [hget, if_pos Option.isNone_none] at hm
    obtain ⟨m₂, hwrite, hfiles⟩ := writeStat_eq hnode stat
    cases hm.symm.trans hwrite
    exact .inr ⟨rfl, hfiles⟩

/-- The file has a row already, or it gets one. -/
theorem fakefsOpen_files {task : Task} {flags mode : Dword}
    (hm : m.fakefsOpen h task path flags mode = some (err, m')) :
    m'.files = m.files ∨ ∃ t n, (t = m.tree ∧ (path, n) ∈ m.tree.entries ∨
        m.tree.creat path n = some t) ∧
      (m.files.stats.get (.int n.ino) ≠ none ∧ m'.files = { m.files with tree := t } ∨
        m.files.stats.get (.int n.ino) = none ∧
          ∃ stat, m'.files = { m.files with tree := t }.writeStat path n.ino stat) := by
  rw [fakefsOpen] at hm
  cases hreal : h.realfsOpen m.tree path flags with
  | none =>
    rw [hreal] at hm
    cases hm
    exact .inl rfl
  | some t =>
    rw [hreal] at hm
    dsimp only at hm
    rw [Host.realfsOpen] at hreal
    split at hreal
    · cases hreal
    · by_cases hflags : flags &&& oCreat ≠ 0
      · rw [if_pos hflags] at hm
        obtain ⟨n, hnode, hn⟩ : ∃ n, t.node? path = some n ∧
            (t = m.tree ∧ (path, n) ∈ m.tree.entries ∨ m.tree.creat path n = some t) := by
          split at hreal
          · rename_i n hn
            split at hreal
            · cases hreal
            · cases hreal
              exact ⟨n, hn, .inl ⟨rfl, Tree.node?_eq_some.mp hn⟩⟩
          · rw [if_pos hflags] at hreal
            exact ⟨_, node?_creat hreal, .inr hreal⟩
        refine .inr ⟨t, n, hn, ?_⟩
        obtain ⟨m₁, hstat, heq⟩ := Option.bind_eq_some_iff.mp hm
        cases heq
        obtain ⟨hget, hfiles⟩ | ⟨hget, hfiles⟩ := writeStat_missing hnode hstat
        · exact .inl ⟨hget, hfiles⟩
        · exact .inr ⟨hget, _, hfiles⟩
      · rw [if_neg hflags] at hm
        cases hm
        split at hreal
        · split at hreal
          · cases hreal
          · cases hreal
            exact .inl rfl
        · rw [if_neg hflags] at hreal
          cases hreal

theorem fakefsSetattr_files {attr : Attr} (hm : m.fakefsSetattr h path attr = some (err, m')) :
    m'.files = m.files ∨ ∃ n stat, (path, n) ∈ m.tree.entries ∧
      m.files.stats.get (.int n.ino) ≠ none ∧ m'.files = m.files.writeStat path n.ino stat := by
  rw [fakefsSetattr] at hm
  dsimp only at hm
  cases hread : m.dbBegin.readStat path with
  | none =>
    rw [hread] at hm
    cases hm
    exact .inl (files_dbRollback rfl)
  | some old =>
    rw [hread] at hm
    dsimp only at hm
    obtain ⟨n, hnode, hget⟩ : ∃ n, m.tree.node? path = some n ∧
        m.files.stats.get (.int n.ino) ≠ none := by
      cases hnode : m.tree.node? path with
      | none =>
        have hzero : m.dbBegin.inodeForPath path = 0 := by
          rw [inodeForPath, tree_dbBegin, hnode]
        rw [readStat, hzero] at hread
        cases hread
      | some n =>
        refine ⟨n, rfl, fun hget ↦ ?_⟩
        rw [readStat_eq (m := m.dbBegin) hnode, files_dbBegin, hget] at hread
        cases hread
    have hwrite {stat : IshStat} (hs : ((m.dbBegin.writeStat path stat).bind fun m ↦
        some ((0 : ℤ), m.dbCommit)) = some (err, m')) :
        m'.files = m.files.writeStat path n.ino stat := by
      obtain ⟨m₁, hstat, hfiles⟩ := writeStat_eq (m := m.dbBegin) hnode stat
      rw [hstat] at hs
      cases hs
      exact hfiles
    cases attr with
    | uid uid => exact .inr ⟨n, _, Tree.node?_eq_some.mp hnode, hget, hwrite hm⟩
    | gid gid => exact .inr ⟨n, _, Tree.node?_eq_some.mp hnode, hget, hwrite hm⟩
    | mode mode => exact .inr ⟨n, _, Tree.node?_eq_some.mp hnode, hget, hwrite hm⟩
    | size size =>
      cases hm
      exact .inl rfl

end Mount

end Isl.Fs.Fake
