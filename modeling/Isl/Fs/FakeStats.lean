import Isl.Fs.FakeFiles

/-! The stats table has a row for every inode in use, and for no other. -/

namespace Isl.Fs.Fake

open Isl.Lib.FileTree
open Isl.Lib.Sql
open Isl.Lib.Run

namespace Files

def HasStat (f : Files) (ino : Ino) : Prop := f.stats.get (.int ino) ≠ none

/-- The inodes with a row in the stats table are those that a path names. -/
def StatsExact (f : Files) : Prop :=
  ∀ ino, f.HasStat ino ↔ ∃ i : Inode, f.tree.Named i ∧ (i : Ino) = ino

end Files

/-- A file is not left without metadata, the last link of a file is recognized
when it is deleted, and a file that is replaced has no other name. -/
def KeepsStats (m : Mount) (e : Event) : Prop :=
  ¬e.host.Strays m.tree e.op ∧
    match e.op with
    | .unlink path =>
      (e.host.realfsUnlink m.tree path).isSome → ∀ n, m.tree.node? path = some n →
        m.tree.links n.ino = 1 → e.host.fails .openat = false ∧ e.host.fails .fstat = false
    | .rename src dst =>
      (e.host.realfsRename m.tree src dst).isSome → ∀ n k, m.tree.node? src = some n →
        m.tree.node? dst = some k → k.ino ≠ n.ino → m.tree.Only dst k.ino
    | _ => True

namespace Files

variable {f : Files} {t : Tree Str Inode} {paths : Table Column Blob .path} {path : Path}
  {n : Node Inode} {i j : Ino}

theorem hasStat_writeStat (f : Files) (path : Path) (stat : IshStat) :
    (f.writeStat path j stat).HasStat i ↔ i = j ∨ f.HasStat i := by
  rw [HasStat, writeStat, Table.get_replace]
  have hkey : statRow j stat .inode = .int j := rfl
  rw [hkey]
  by_cases hij : i = j
  · simp [hij]
  · rw [if_neg fun h ↦ hij (Value.int.inj h), or_iff_right hij]
    rfl

theorem hasStat_delete (t : Tree Str Inode) (paths : Table Column Blob .path) :
    (⟨t, paths, f.stats.delete .inode (.int j)⟩ : Files).HasStat i ↔ i ≠ j ∧ f.HasStat i := by
  rw [HasStat]
  dsimp only
  rw [Table.get_delete_key (by simp)]
  by_cases hij : i = j
  · simp [hij]
  · rw [if_neg fun h ↦ hij (Value.int.inj h), and_iff_right hij]
    rfl

theorem statsExact_iff :
    f.StatsExact ↔ ¬f.HasStat 0 ∧ ∀ i : Inode, f.HasStat i ↔ f.tree.Named i := by
  constructor
  · intro h
    refine ⟨fun hzero ↦ ?_, fun i ↦ (h i).trans ?_⟩
    · obtain ⟨i, -, hi⟩ := (h 0).mp hzero
      exact i.2 hi
    · constructor
      · intro hex
        obtain ⟨j, hj, hij⟩ := hex
        exact Subtype.ext hij ▸ hj
      · intro hi
        exact ⟨i, hi, rfl⟩
  · intro h ino
    constructor
    · intro hstat
      by_cases hzero : ino = 0
      · exact absurd (hzero ▸ hstat) h.1
      · exact ⟨⟨ino, hzero⟩, (h.2 ⟨ino, hzero⟩).mp hstat, rfl⟩
    · intro hex
      obtain ⟨i, hi, rfl⟩ := hex
      exact (h.2 i).mpr hi

/-- The tree and the stats table alone matter. -/
theorem statsExact_congr (ht : ∀ i, t.Named i ↔ f.tree.Named i) :
    (⟨t, paths, f.stats⟩ : Files).StatsExact ↔ f.StatsExact := by
  rw [statsExact_iff, statsExact_iff]
  simp only [ht]
  rfl

theorem StatsExact.made {f' : Files} (h : f.StatsExact) (hf : f.Made path f') : f'.StatsExact := by
  obtain ⟨t, n, stat, ht, rfl⟩ := hf
  obtain ⟨hzero, hall⟩ := statsExact_iff.mp h
  obtain ⟨-, -, hentries⟩ := Tree.creat_eq_some ht
  have hstat (i : Ino) : ({ f with tree := t }.writeStat path n.ino stat).HasStat i ↔
      i = n.ino ∨ f.HasStat i := hasStat_writeStat _ _ _
  refine statsExact_iff.mpr ⟨fun h0 ↦ ?_, fun i ↦ ?_⟩
  · obtain h0 | h0 := (hstat 0).mp h0
    · exact n.ino.2 h0.symm
    · exact hzero h0
  · have hnamed : t.Named i ↔ f.tree.Named i ∨ n.ino = i := Tree.named_append hentries
    exact (hstat i).trans (Iff.trans
      (by rw [hall i, Subtype.coe_inj, or_comm, eq_comm]) hnamed.symm)

theorem StatsExact.not_left {f' : Files} (h : f.StatsExact) (hf : f.Left path f') :
    ¬f'.StatsExact := by
  obtain ⟨t, n, ht, rfl⟩ := hf
  obtain ⟨-, hnew, hentries⟩ := Tree.creat_eq_some ht
  intro h'
  have hstat : f.HasStat n.ino := ((statsExact_iff.mp h').2 n.ino).mpr
    ((Tree.named_append hentries).mpr (.inr rfl))
  exact hnew (((statsExact_iff.mp h).2 n.ino).mp hstat)

/-- A path is taken away, and the row of its inode with it. -/
theorem StatsExact.removed (h : f.StatsExact) (hn : (path, n) ∈ f.tree.entries)
    (ht : ∀ i, t.Named i ↔ ¬f.tree.Only path i) :
    (⟨t, paths, f.stats.delete .inode (.int n.ino)⟩ : Files).StatsExact ↔
      f.tree.Only path n.ino := by
  obtain ⟨hzero, hall⟩ := statsExact_iff.mp h
  have hother {i : Inode} (hi : i ≠ n.ino) : t.Named i ↔ f.tree.Named i := by
    rw [ht, Tree.only_iff_not_named fun m hm ↦ ?_, not_not]
    rw [f.tree.valid.node_eq hm hn]
    exact hi.symm
  rw [statsExact_iff]
  constructor
  · intro h'
    by_contra honly
    have hstat := (h'.2 n.ino).mpr ((ht n.ino).mpr honly)
    exact ((hasStat_delete _ _).mp hstat).1 rfl
  · intro honly
    refine ⟨fun h0 ↦ hzero ((hasStat_delete _ _).mp h0).2, fun i ↦ ?_⟩
    rw [hasStat_delete, hall i]
    by_cases hi : i = n.ino
    · subst hi
      exact ⟨fun hs ↦ absurd rfl hs.1, fun hs ↦ absurd honly ((ht _).mp hs)⟩
    · rw [hother hi, and_iff_right fun heq ↦ hi (Subtype.ext heq)]

/-- A path is taken away, and the row of its inode stays. -/
theorem StatsExact.kept (h : f.StatsExact) (hn : (path, n) ∈ f.tree.entries)
    (ht : ∀ i, t.Named i ↔ ¬f.tree.Only path i) :
    (⟨t, paths, f.stats⟩ : Files).StatsExact ↔ ¬f.tree.Only path n.ino := by
  constructor
  · intro h'
    have hstat : f.HasStat n.ino := ((statsExact_iff.mp h).2 n.ino).mpr ⟨_, hn, rfl⟩
    exact (ht n.ino).mp (((statsExact_iff.mp h').2 n.ino).mp hstat)
  · intro honly
    refine (statsExact_congr fun i ↦ ?_).mpr h
    by_cases hi : i = n.ino
    · subst hi
      exact ⟨fun _ ↦ ⟨_, hn, rfl⟩, fun _ ↦ (ht _).mpr honly⟩
    · rw [ht, Tree.only_iff_not_named fun m hm ↦ ?_, not_not]
      rw [f.tree.valid.node_eq hm hn]
      exact Ne.symm hi

end Files

namespace Mount

variable {m m' : Mount} {h : Host} {e : Event} {src dst path : Path} {err : ℤ}

theorem fakefsLink_statsExact (hm : m.files.StatsExact) :
    (m.fakefsLink h src dst).2.files.StatsExact := by
  obtain hfiles | ⟨t, n, hn, -, hentries, hfiles⟩ := fakefsLink_files m h src dst
  · exact hfiles ▸ hm
  · rw [hfiles]
    refine (Files.statsExact_congr (f := m.files) fun i ↦ ?_).mpr hm
    rw [Tree.named_append hentries]
    exact or_iff_left_of_imp fun hi ↦ ⟨_, hn, hi⟩

theorem fakefsUnlink_statsExact (hm : m.files.StatsExact) :
    (m.fakefsUnlink h path).2.files.StatsExact ↔
      ((h.realfsUnlink m.tree path).isSome → ∀ n, m.tree.node? path = some n →
        m.tree.links n.ino = 1 → h.fails .openat = false ∧ h.fails .fstat = false) := by
  obtain ⟨hreal, hfiles⟩ | ⟨t, n, hreal, hn, hentries, hfiles⟩ := fakefsUnlink_files m h path
  · rw [hfiles, hreal]
    exact ⟨fun _ ↦ nofun, fun _ ↦ hm⟩
  · have hlinks := Tree.links_eq_one hn
    have hgone (i : Inode) : t.Named i ↔ ¬m.tree.Only path i := Tree.named_filter hentries
    rw [hfiles, hreal]
    have hguard : ((some t).isSome → ∀ k, m.tree.node? path = some k →
        m.tree.links k.ino = 1 → h.fails .openat = false ∧ h.fails .fstat = false) ↔
        (m.tree.Only path n.ino → h.fails .openat = false ∧ h.fails .fstat = false) := by
      rw [← hlinks]
      constructor
      · intro hall
        exact hall rfl n (Tree.node?_eq_some.mpr hn)
      · intro hopen _ k hk
        rw [m.tree.valid.node_eq (Tree.node?_eq_some.mp hk) hn]
        exact hopen
    rw [hguard]
    split
    · rename_i hseen
      have honly := hlinks.mp hseen.2
      exact ⟨fun _ _ ↦ hseen.1, fun _ ↦ (hm.removed hn hgone).mpr honly⟩
    · rename_i hseen
      refine (hm.kept hn hgone).trans ?_
      rw [hlinks] at hseen
      constructor
      · intro hnot honly
        exact absurd honly hnot
      · intro hopen honly
        exact hseen ⟨hopen honly, honly⟩

theorem fakefsRmdir_statsExact (hm : m.files.StatsExact) :
    (m.fakefsRmdir h path).2.files.StatsExact := by
  obtain ⟨-, hfiles⟩ | ⟨t, n, -, hn, hd, hentries, hfiles⟩ := fakefsRmdir_files m h path
  · exact hfiles ▸ hm
  · rw [hfiles]
    exact (hm.removed hn fun i ↦ Tree.named_filter hentries).mpr (Tree.only_of_dir hn hd)

theorem fakefsRename_statsExact (hm : m.files.StatsExact) :
    (m.fakefsRename h src dst).2.files.StatsExact ↔
      ((h.realfsRename m.tree src dst).isSome → ∀ n k, m.tree.node? src = some n →
        m.tree.node? dst = some k → k.ino ≠ n.ino → m.tree.Only dst k.ino) := by
  obtain ⟨hreal, hfiles⟩ | ⟨t, n, hreal, hn, hcases⟩ := fakefsRename_files m h src dst
  · rw [hfiles, hreal]
    exact ⟨fun _ ↦ nofun, fun _ ↦ hm⟩
  · rw [hreal]
    have hsrc := Tree.node?_eq_some.mpr hn
    obtain ⟨rfl, ⟨k, hk, hino⟩, hfiles⟩ | ⟨hne, -, -, hentries, hfiles⟩ := hcases
    · rw [hfiles]
      refine ⟨fun _ _ n' k' hn' hk' hne ↦ absurd ?_ hne, fun _ ↦ hm⟩
      rw [← Option.some.inj (hsrc.symm.trans hn'),
        ← Option.some.inj ((Tree.node?_eq_some.mpr hk).symm.trans hk')]
      exact hino
    · have hnamed (i : Inode) : t.Named i ↔ ¬m.tree.Only dst i := Tree.named_rename hentries
      rw [hfiles]
      cases hdst : m.tree.node? dst with
      | none =>
        refine ⟨fun _ _ n' k' _ hk' ↦ (nomatch hk'), fun _ ↦ ?_⟩
        refine (Files.statsExact_congr (f := m.files) fun i ↦ ?_).mpr hm
        refine (hnamed i).trans ?_
        rw [Tree.only_iff_not_named fun k hk ↦ ?_, not_not]
        · rfl
        · rw [Tree.node?_eq_some.mpr hk] at hdst
          cases hdst
      | some k =>
        have hk := Tree.node?_eq_some.mp hdst
        refine (hm.removed hk hnamed).trans ?_
        constructor
        · intro honly _ n' k' _ hk' _
          exact Option.some.inj hk' ▸ honly
        · intro hall
          exact hall rfl n k hsrc rfl (hne k hk)

theorem fakefsOpen_statsExact {task : Task} {flags mode : Dword} (hm : m.files.StatsExact)
    (ho : m.fakefsOpen h task path flags mode = some (err, m')) : m'.files.StatsExact := by
  have hexact := (Files.statsExact_iff.mp hm).2
  obtain hfiles | ⟨t, n, ht, hrow⟩ := fakefsOpen_files ho
  · exact hfiles ▸ hm
  · obtain ⟨rfl, hn⟩ | ht := ht
    · have hstat : m.files.HasStat n.ino := (hexact n.ino).mpr ⟨_, hn, rfl⟩
      obtain ⟨-, hfiles⟩ | ⟨hnone, -⟩ := hrow
      · exact hfiles ▸ hm
      · exact absurd hnone hstat
    · obtain ⟨hsome, -⟩ | ⟨-, stat, hfiles⟩ := hrow
      · exact absurd ((hexact n.ino).mp hsome) (Tree.creat_eq_some ht).2.1
      · exact hm.made ⟨t, n, stat, ht, hfiles⟩

theorem fakefsSetattr_statsExact {attr : Attr} (hm : m.files.StatsExact)
    (hs : m.fakefsSetattr h path attr = some (err, m')) : m'.files.StatsExact := by
  obtain hfiles | ⟨n, stat, -, hget, hfiles⟩ := fakefsSetattr_files hs
  · exact hfiles ▸ hm
  · rw [hfiles]
    intro ino
    rw [Files.hasStat_writeStat, or_iff_right_of_imp]
    · exact hm ino
    · intro heq
      exact heq ▸ hget

/-- One operation, from a state in which the stats table is right. -/
theorem step_statsExact (hm : m.files.StatsExact) (hs : step m e = some m') :
    m'.files.StatsExact ↔ KeepsStats m e := by
  obtain ⟨⟨err, m₁⟩, hcall, rfl⟩ := Option.map_eq_some_iff.mp hs
  obtain ⟨op, host, task⟩ := e
  rw [KeepsStats]
  cases op with
  | «open» path flags mode =>
    exact ⟨fun _ ↦ ⟨id, trivial⟩, fun _ ↦ fakefsOpen_statsExact hm hcall⟩
  | mkdir path mode =>
    refine ⟨fun _ ↦ ⟨id, trivial⟩, fun _ ↦ ?_⟩
    obtain hfiles | hmade := fakefsMkdir_files hcall
    · exact hfiles ▸ hm
    · exact hm.made hmade
  | mknod path mode dev =>
    obtain ⟨hstray, hfiles⟩ | ⟨hstray, hleft⟩ := fakefsMknod_files hcall
    · refine ⟨fun _ ↦ ⟨hstray, trivial⟩, fun _ ↦ ?_⟩
      exact hfiles.elim (fun hfiles ↦ hfiles ▸ hm) hm.made
    · exact ⟨fun h' ↦ absurd h' (hm.not_left hleft), fun h' ↦ absurd hstray h'.1⟩
  | symlink target link =>
    obtain ⟨hstray, hfiles⟩ | ⟨hstray, hleft⟩ := fakefsSymlink_files hcall
    · refine ⟨fun _ ↦ ⟨hstray, trivial⟩, fun _ ↦ ?_⟩
      exact hfiles.elim (fun hfiles ↦ hfiles ▸ hm) hm.made
    · exact ⟨fun h' ↦ absurd h' (hm.not_left hleft), fun h' ↦ absurd hstray h'.1⟩
  | link src dst =>
    obtain rfl : (m.fakefsLink host src dst).2 = m₁ := congrArg Prod.snd (Option.some.inj hcall)
    exact ⟨fun _ ↦ ⟨id, trivial⟩, fun _ ↦ fakefsLink_statsExact hm⟩
  | unlink path =>
    obtain rfl : (m.fakefsUnlink host path).2 = m₁ := congrArg Prod.snd (Option.some.inj hcall)
    exact (fakefsUnlink_statsExact hm).trans (and_iff_right id).symm
  | rmdir path =>
    obtain rfl : (m.fakefsRmdir host path).2 = m₁ := congrArg Prod.snd (Option.some.inj hcall)
    exact ⟨fun _ ↦ ⟨id, trivial⟩, fun _ ↦ fakefsRmdir_statsExact hm⟩
  | rename src dst =>
    obtain rfl : (m.fakefsRename host src dst).2 = m₁ := congrArg Prod.snd (Option.some.inj hcall)
    exact (fakefsRename_statsExact hm).trans (and_iff_right id).symm
  | setattr path attr =>
    exact ⟨fun _ ↦ ⟨id, trivial⟩, fun _ ↦ fakefsSetattr_statsExact hm hcall⟩

/-- A root directory with its metadata. -/
def empty (root : Inode) (stat : IshStat) : Mount where
  tree := .root root
  db :=
    { tables := fun
        | .paths => ⟨[pathRow [] root], List.nodup_singleton _⟩
        | .stats => ⟨[statRow root stat], List.nodup_singleton _⟩
      saved := none }
  lockCalls := []

variable {root : Inode} {stat : IshStat} {evs : List Event}

theorem empty_statsExact (root : Inode) (stat : IshStat) : (empty root stat).files.StatsExact := by
  refine Files.statsExact_iff.mpr ⟨fun h ↦ ?_, fun i ↦ ?_⟩
  · obtain ⟨r, hr⟩ := Option.ne_none_iff_exists'.mp h
    obtain ⟨hmem, hkey⟩ := Table.get_eq_some.mp hr
    rw [List.mem_singleton.mp hmem] at hkey
    exact root.2 (Value.int.inj hkey)
  · constructor
    · intro h
      obtain ⟨r, hr⟩ := Option.ne_none_iff_exists'.mp h
      obtain ⟨hmem, hkey⟩ := Table.get_eq_some.mp hr
      rw [List.mem_singleton.mp hmem] at hkey
      exact ⟨_, List.mem_singleton_self _, Subtype.ext (Value.int.inj hkey)⟩
    · intro h
      obtain ⟨e, he, rfl⟩ := h
      rw [List.mem_singleton.mp he]
      exact Option.ne_none_iff_exists'.mpr
        ⟨_, Table.get_eq_some.mpr ⟨List.mem_singleton_self _, rfl⟩⟩

/-- In a run from an empty file system the stats table is right all along exactly
if every operation keeps it right. -/
theorem statsExact_iff_guarded (he : exec step (empty root stat) evs = some m) :
    (∀ pre u, pre <+: evs → exec step (empty root stat) pre = some u → u.files.StatsExact) ↔
      Guarded step KeepsStats (empty root stat) evs :=
  forall_prefix_iff_guarded 
    (fun _ _ _ hm _ hs ↦ ⟨step_statsExact hm hs, fun _ ↦ trivial⟩)
    (empty_statsExact root stat) trivial he

/-- An operation of root on a host where nothing fails. -/
def plainly (op : Op) (ino : Inode) : Event where
  op := op
  host := ⟨fun _ ↦ false, ⟨-5, by decide⟩, ino⟩
  task := ⟨0, 0⟩

/-- A file is created, gets a second name and loses the first. -/
def twoNames : List Event :=
  [plainly (.open [['a']] oCreat 0o644) ⟨2, two_ne_zero⟩, plainly (.link [['a']] [['b']]) ⟨3, three_ne_zero⟩,
    plainly (.unlink [['a']]) ⟨3, three_ne_zero⟩]

theorem statsExact_twoNames : ∃ m, exec step (empty ⟨1, by decide⟩ ⟨0, 0, 0, 0⟩) twoNames = some m ∧
    ∀ pre u, pre <+: twoNames → exec step (empty ⟨1, by decide⟩ ⟨0, 0, 0, 0⟩) pre = some u →
      u.files.StatsExact := by
  obtain ⟨m, hm⟩ := Option.isSome_iff_exists.mp (show (exec step
    (empty ⟨1, by decide⟩ ⟨0, 0, 0, 0⟩) twoNames).isSome from rfl)
  refine ⟨m, hm, (statsExact_iff_guarded hm).mpr ⟨⟨id, trivial⟩, fun u hu ↦ ⟨⟨id, trivial⟩,
    fun v hv ↦ ⟨⟨id, fun _ _ _ _ ↦ ⟨rfl, rfl⟩⟩, fun _ _ ↦ trivial⟩⟩⟩⟩

/-- A file with two names, one of which is then replaced. -/
def clobbering : List Event :=
  [plainly (.open [['a']] oCreat 0o644) ⟨2, two_ne_zero⟩, plainly (.link [['a']] [['b']]) ⟨3, three_ne_zero⟩,
    plainly (.open [['c']] oCreat 0o644) ⟨3, three_ne_zero⟩,
    plainly (.rename [['c']] [['b']]) ⟨4, four_ne_zero⟩]

theorem not_statsExact_clobbering : ¬∀ root stat evs m,
    exec step (empty root stat) evs = some m → m.files.StatsExact := by
  intro h
  obtain ⟨m, hm⟩ := Option.isSome_iff_exists.mp (show (exec step
    (empty ⟨1, by decide⟩ ⟨0, 0, 0, 0⟩) clobbering).isSome from rfl)
  obtain ⟨-, hall⟩ := Files.statsExact_iff.mp (h _ _ _ m hm)
  have hnamed : m.tree.Named ⟨2, by decide⟩ := by
    cases hm
    decide
  have hnone : m.files.stats.get (.int 2) = none := by
    cases hm
    rfl
  exact (hall ⟨2, by decide⟩).mpr hnamed hnone

end Mount

end Isl.Fs.Fake
