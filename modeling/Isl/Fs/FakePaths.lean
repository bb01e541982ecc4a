import Isl.Fs.FakeStats

/-! The paths table has every path with its inode, as long as nothing is deleted or moved. -/

namespace Isl.Fs.Fake

open Isl.Lib.FileTree
open Isl.Lib.Sql
open Isl.Lib.Run

namespace Files

/-- The rows of the paths table are the paths with their inodes. -/
def PathsExact (f : Files) : Prop :=
  ∀ k v, (f.paths.get k).map (· .inode) = some v ↔
    ∃ p n, (p, n) ∈ f.tree.entries ∧ k = .blob (.path p) ∧ v = .int n.ino

/-- An inode with a row in the stats table is in use. -/
def StatsNamed (f : Files) : Prop := ∀ i : Inode, f.HasStat i → f.tree.Named i

/-- The inodes in the paths table are numbers. -/
def Typed (f : Files) : Prop := ∀ r ∈ f.paths.rows, ∀ b, r .inode ≠ .blob b

end Files

/-- Nothing is deleted, a rename moves nothing, and no file is left without rows. -/
def KeepsPaths (m : Mount) (e : Event) : Prop :=
  ¬e.host.Strays m.tree e.op ∧
    match e.op with
    | .unlink path => e.host.realfsUnlink m.tree path = none
    | .rmdir path => e.host.realfsRmdir m.tree path = none
    | .rename src dst =>
      (e.host.realfsRename m.tree src dst).isSome →
        (m.tree.node? dst).map Node.ino = (m.tree.node? src).map Node.ino
    | _ => True

namespace Files

variable {f f' : Files} {t : Tree Str Inode} {stats : Table Column Blob .inode} {path : Path}
  {n : Node Inode}

theorem PathsExact.get (h : f.PathsExact) (hn : (path, n) ∈ f.tree.entries) :
    (f.paths.get (.blob (.path path))).map (· .inode) = some (.int n.ino) :=
  (h _ _).mpr ⟨path, n, hn, rfl, rfl⟩

theorem PathsExact.typed (h : f.PathsExact) : f.Typed := by
  intro r hr b hb
  have hget : f.paths.get (r .path) = some r := Table.get_eq_some.mpr ⟨hr, rfl⟩
  obtain ⟨p, n, -, -, hv⟩ := (h (r .path) (r .inode)).mp (by rw [hget]; rfl)
  rw [hb] at hv
  cases hv

theorem Typed.writePath (h : f.Typed) (path : Path) (ino : Ino) : (f.writePath path ino).Typed := by
  intro r hr b hb
  obtain hr | hr := List.mem_append.mp hr
  · exact h r (List.mem_filter.mp hr).1 b hb
  · rw [List.mem_singleton.mp hr] at hb
    cases hb

/-- The statement compares inode numbers with a path, so it deletes no row. -/
theorem Typed.deletePath (h : f.Typed) (path : Path) : f.deletePath path = f := by
  rw [Files.deletePath, Table.delete_eq_self fun r hr ↦ h r hr _]

theorem get_writePath (f : Files) (path : Path) (ino : Ino) (k : Value Blob) :
    (f.writePath path ino).paths.get k =
      if k = .blob (.path path) then some (pathRow path ino) else f.paths.get k :=
  Table.get_replace _ _ _

/-- A path is added or written again. -/
theorem PathsExact.written (h : f.PathsExact) (hn : (path, n) ∈ t.entries)
    (ht : ∀ q k, q ≠ path → ((q, k) ∈ t.entries ↔ (q, k) ∈ f.tree.entries)) :
    (⟨t, (f.writePath path n.ino).paths, stats⟩ : Files).PathsExact := by
  intro k v
  dsimp only
  rw [get_writePath]
  by_cases hk : k = .blob (.path path)
  · rw [if_pos hk]
    constructor
    · intro hv
      exact ⟨path, n, hn, hk, (Option.some.inj hv).symm⟩
    · intro hex
      obtain ⟨q, m, hm, hq, rfl⟩ := hex
      cases hk.symm.trans hq
      rw [t.valid.node_eq hm hn]
      rfl
  · rw [if_neg hk, h k v]
    have hne {q : Path} (hq : k = .blob (.path q)) : q ≠ path := fun heq ↦ hk (heq ▸ hq)
    constructor
    · intro hex
      obtain ⟨q, m, hm, hq, hv⟩ := hex
      exact ⟨q, m, (ht q m (hne hq)).mpr hm, hq, hv⟩
    · intro hex
      obtain ⟨q, m, hm, hq, hv⟩ := hex
      exact ⟨q, m, (ht q m (hne hq)).mp hm, hq, hv⟩

theorem PathsExact.appended (h : f.PathsExact) (ht : t.entries = f.tree.entries ++ [(path, n)]) :
    (⟨t, (f.writePath path n.ino).paths, stats⟩ : Files).PathsExact := by
  apply h.written
  · rw [ht]
    exact List.mem_append_right _ (List.mem_singleton_self _)
  · intro q k hq
    rw [ht, List.mem_append, List.mem_singleton]
    exact or_iff_left fun heq ↦ hq (Prod.mk.inj heq).1

/-- A path that is gone and still has its row. -/
theorem PathsExact.not_gone (h : f.PathsExact) (hn : (path, n) ∈ f.tree.entries)
    (hfree : f'.tree.Free path)
    (hget : f'.paths.get (.blob (.path path)) = f.paths.get (.blob (.path path))) :
    ¬f'.PathsExact := by
  intro h'
  have hrow := h.get hn
  rw [← hget] at hrow
  obtain ⟨q, m, hm, hq, -⟩ := (h' _ _).mp hrow
  cases hq
  exact hfree (List.mem_map.mpr ⟨_, hm, rfl⟩)

theorem PathsExact.not_left (h : f.PathsExact) (hf : f.Left path f') : ¬f'.PathsExact := by
  obtain ⟨t, n, ht, rfl⟩ := hf
  obtain ⟨hfree, -, hentries⟩ := Tree.creat_eq_some ht
  intro h'
  have hmem : (path, n) ∈ t.entries := by
    rw [hentries]
    exact List.mem_append_right _ (List.mem_singleton_self _)
  obtain ⟨q, m, hm, hq, -⟩ := (h _ _).mp (h'.get hmem)
  cases hq
  exact hfree (List.mem_map.mpr ⟨_, hm, rfl⟩)

theorem PathsExact.made (h : f.PathsExact) (hf : f.Made path f') : f'.PathsExact := by
  obtain ⟨t, n, stat, ht, rfl⟩ := hf
  exact h.appended (Tree.creat_eq_some ht).2.2

theorem StatsNamed.made (h : f.StatsNamed) (hf : f.Made path f') : f'.StatsNamed := by
  obtain ⟨t, n, stat, ht, rfl⟩ := hf
  obtain ⟨-, -, hentries⟩ := Tree.creat_eq_some ht
  intro i hi
  refine (Tree.named_append hentries).mpr ?_
  obtain hi | hi := (hasStat_writeStat _ _ _).mp hi
  · exact .inr (Subtype.ext hi.symm)
  · exact .inl (h i hi)

/-- A path that is deleted keeps its row. -/
theorem PathsExact.not_deleted (h : f.PathsExact) (hn : (path, n) ∈ f.tree.entries)
    (ht : f'.tree.entries = f.tree.entries.filter (·.1 ≠ path))
    (hpaths : f'.paths = (f.deletePath path).paths) : ¬f'.PathsExact := by
  apply h.not_gone hn
  · intro hmem
    obtain ⟨e, he, heq⟩ := List.mem_map.mp hmem
    rw [ht] at he
    exact of_decide_eq_true (List.mem_filter.mp he).2 heq
  · rw [hpaths, h.typed.deletePath]

theorem free_rename {src dst : Path} (hn : (src, n) ∈ f.tree.entries) (hsub : ¬src <+: dst)
    (hbare : f.tree.Bare dst)
    (ht : t.entries = (f.tree.entries.filter (·.1 ≠ dst)).map
      fun e ↦ (Tree.rebase src dst e.1, e.2)) : t.Free src := by
  intro hmem
  obtain ⟨e, he, heq⟩ := List.mem_map.mp hmem
  rw [ht] at he
  obtain ⟨e', -, rfl⟩ := List.mem_map.mp he
  dsimp only at heq
  by_cases hpre : src <+: e'.1
  · obtain ⟨r, hr⟩ := hpre
    rw [← hr, rebase_append] at heq
    exact hsub ((hbare _ hn ⟨r, heq⟩) ▸ List.prefix_rfl)
  · rw [rebase_of_not hpre] at heq
    exact hpre (heq ▸ List.prefix_rfl)

end Files

namespace Mount

variable {m m' : Mount} {h : Host} {e : Event} {src dst path : Path} {err : ℤ}

theorem fakefsLink_pathsExact (hm : m.files.PathsExact) (hi : m.files.StatsNamed) :
    (m.fakefsLink h src dst).2.files.PathsExact ∧
      (m.fakefsLink h src dst).2.files.StatsNamed := by
  obtain hfiles | ⟨t, n, -, -, hentries, hfiles⟩ := fakefsLink_files m h src dst
  · rw [hfiles]
    exact ⟨hm, hi⟩
  · rw [hfiles]
    exact ⟨hm.appended hentries, fun i hstat ↦ (Tree.named_append hentries).mpr (.inl (hi i hstat))⟩

theorem fakefsUnlink_pathsExact (hm : m.files.PathsExact) (hi : m.files.StatsNamed) :
    ((m.fakefsUnlink h path).2.files.PathsExact ↔ h.realfsUnlink m.tree path = none) ∧
      (h.realfsUnlink m.tree path = none → (m.fakefsUnlink h path).2.files.StatsNamed) := by
  obtain ⟨hreal, hfiles⟩ | ⟨t, n, hreal, hn, hentries, hfiles⟩ := fakefsUnlink_files m h path
  · rw [hfiles]
    exact ⟨⟨fun _ ↦ hreal, fun _ ↦ hm⟩, fun _ ↦ hi⟩
  · rw [hreal]
    refine ⟨⟨fun hexact ↦ absurd hexact ?_, nofun⟩, nofun⟩
    rw [hfiles]
    split
    · exact hm.not_deleted hn hentries rfl
    · exact hm.not_deleted hn hentries rfl

theorem fakefsRmdir_pathsExact (hm : m.files.PathsExact) (hi : m.files.StatsNamed) :
    ((m.fakefsRmdir h path).2.files.PathsExact ↔ h.realfsRmdir m.tree path = none) ∧
      (h.realfsRmdir m.tree path = none → (m.fakefsRmdir h path).2.files.StatsNamed) := by
  obtain ⟨hreal, hfiles⟩ | ⟨t, n, hreal, hn, -, hentries, hfiles⟩ := fakefsRmdir_files m h path
  · rw [hfiles]
    exact ⟨⟨fun _ ↦ hreal, fun _ ↦ hm⟩, fun _ ↦ hi⟩
  · rw [hreal]
    refine ⟨⟨fun hexact ↦ absurd hexact ?_, nofun⟩, nofun⟩
    rw [hfiles]
    exact hm.not_deleted hn hentries rfl

theorem fakefsRename_pathsExact (hm : m.files.PathsExact) (hi : m.files.StatsNamed) :
    ((m.fakefsRename h src dst).2.files.PathsExact ↔
      ((h.realfsRename m.tree src dst).isSome →
        (m.tree.node? dst).map Node.ino = (m.tree.node? src).map Node.ino)) ∧
      ((m.fakefsRename h src dst).2.files.PathsExact →
        (m.fakefsRename h src dst).2.files.StatsNamed) := by
  obtain ⟨hreal, hfiles⟩ | ⟨t, n, hreal, hn, hcases⟩ := fakefsRename_files m h src dst
  · rw [hfiles, hreal]
    exact ⟨⟨fun _ ↦ nofun, fun _ ↦ hm⟩, fun _ ↦ hi⟩
  · rw [hreal]
    have hsrc := Tree.node?_eq_some.mpr hn
    obtain ⟨rfl, ⟨k, hk, hino⟩, hfiles⟩ | ⟨hne, hsub, hbare, hentries, hfiles⟩ := hcases
    · rw [(hm.typed.writePath dst n.ino).deletePath src] at hfiles
      rw [hfiles]
      refine ⟨⟨fun _ _ ↦ ?_, fun _ ↦ ?_⟩, fun _ ↦ hi⟩
      · rw [hsrc, Tree.node?_eq_some.mpr hk, Option.map_some, Option.map_some, hino]
      · rw [← hino]
        exact hm.written hk fun _ _ _ ↦ Iff.rfl
    · have hfree : t.Free src := Files.free_rename (f := m.files) hn hsub hbare hentries
      have hgone : ¬(m.fakefsRename h src dst).2.files.PathsExact := by
        have hdelete := (hm.typed.writePath dst n.ino).deletePath src
        have hget : ((m.files.writePath dst n.ino).deletePath src).paths.get
            (.blob (.path src)) = m.files.paths.get (.blob (.path src)) := by
          rw [hdelete, Files.get_writePath, if_neg]
          intro heq
          cases heq
          exact hsub List.prefix_rfl
        rw [hfiles]
        dsimp only
        split
        · exact hm.not_gone hn hfree hget
        · exact hm.not_gone hn hfree hget
      refine ⟨⟨fun hexact ↦ absurd hexact hgone, fun hsame ↦ ?_⟩,
        fun hexact ↦ absurd hexact hgone⟩
      obtain ⟨k, hk, hino⟩ := Option.map_eq_some_iff.mp
        ((hsame rfl).trans (congrArg (Option.map Node.ino) hsrc))
      exact absurd hino (hne k (Tree.node?_eq_some.mp hk))

theorem fakefsOpen_pathsExact {task : Task} {flags mode : Dword} (hm : m.files.PathsExact)
    (hi : m.files.StatsNamed) (ho : m.fakefsOpen h task path flags mode = some (err, m')) :
    m'.files.PathsExact ∧ m'.files.StatsNamed := by
  obtain hfiles | ⟨t, n, ht, hrow⟩ := fakefsOpen_files ho
  · rw [hfiles]
    exact ⟨hm, hi⟩
  · obtain ⟨rfl, hn⟩ | ht := ht
    · obtain ⟨-, hfiles⟩ | ⟨-, stat, hfiles⟩ := hrow
      · rw [hfiles]
        exact ⟨hm, hi⟩
      · rw [hfiles]
        refine ⟨hm.written hn fun _ _ _ ↦ Iff.rfl, fun i hstat ↦ ?_⟩
        obtain heq | hstat := (Files.hasStat_writeStat _ _ _).mp hstat
        · exact ⟨_, hn, Subtype.ext heq.symm⟩
        · exact hi i hstat
    · obtain ⟨hsome, -⟩ | ⟨-, stat, hfiles⟩ := hrow
      · exact absurd (hi n.ino hsome) (Tree.creat_eq_some ht).2.1
      · have hmade : m.files.Made path m'.files := ⟨t, n, stat, ht, hfiles⟩
        exact ⟨hm.made hmade, hi.made hmade⟩

theorem fakefsSetattr_pathsExact {attr : Attr} (hm : m.files.PathsExact) (hi : m.files.StatsNamed)
    (hs : m.fakefsSetattr h path attr = some (err, m')) :
    m'.files.PathsExact ∧ m'.files.StatsNamed := by
  obtain hfiles | ⟨n, stat, hn, -, hfiles⟩ := fakefsSetattr_files hs
  · rw [hfiles]
    exact ⟨hm, hi⟩
  · rw [hfiles]
    refine ⟨hm.written hn fun _ _ _ ↦ Iff.rfl, fun i hstat ↦ ?_⟩
    obtain heq | hstat := (Files.hasStat_writeStat _ _ _).mp hstat
    · exact ⟨_, hn, Subtype.ext heq.symm⟩
    · exact hi i hstat

/-- One operation, from a state in which the paths table is right. -/
theorem step_pathsExact (hm : m.files.PathsExact) (hi : m.files.StatsNamed)
    (hs : step m e = some m') : (m'.files.PathsExact ↔ KeepsPaths m e) ∧
      (m'.files.PathsExact → m'.files.StatsNamed) := by
  obtain ⟨⟨err, m₁⟩, hcall, rfl⟩ := Option.map_eq_some_iff.mp hs
  obtain ⟨op, host, task⟩ := e
  have hgood (hgood : m₁.files.PathsExact ∧ m₁.files.StatsNamed)
      (hkeeps : KeepsPaths m ⟨op, host, task⟩) :
      (m₁.files.PathsExact ↔ KeepsPaths m ⟨op, host, task⟩) ∧
        (m₁.files.PathsExact → m₁.files.StatsNamed) :=
    ⟨⟨fun _ ↦ hkeeps, fun _ ↦ hgood.1⟩, fun _ ↦ hgood.2⟩
  have hnone {path : Path} (hfiles : m₁.files = m.files ∨ m.files.Made path m₁.files) :
      m₁.files.PathsExact ∧ m₁.files.StatsNamed := by
    obtain hfiles | hmade := hfiles
    · rw [hfiles]
      exact ⟨hm, hi⟩
    · exact ⟨hm.made hmade, hi.made hmade⟩
  cases op with
  | «open» path flags mode => exact hgood (fakefsOpen_pathsExact hm hi hcall) ⟨id, trivial⟩
  | mkdir path mode => exact hgood (hnone (fakefsMkdir_files hcall)) ⟨id, trivial⟩
  | mknod path mode dev =>
    obtain ⟨hstray, hfiles⟩ | ⟨hstray, hleft⟩ := fakefsMknod_files hcall
    · exact hgood (hnone hfiles) ⟨hstray, trivial⟩
    · have hnot := hm.not_left hleft
      exact ⟨⟨fun h' ↦ absurd h' hnot, fun h' ↦ absurd hstray h'.1⟩, fun h' ↦ absurd h' hnot⟩
  | symlink target link =>
    obtain ⟨hstray, hfiles⟩ | ⟨hstray, hleft⟩ := fakefsSymlink_files hcall
    · exact hgood (hnone hfiles) ⟨hstray, trivial⟩
    · have hnot := hm.not_left hleft
      exact ⟨⟨fun h' ↦ absurd h' hnot, fun h' ↦ absurd hstray h'.1⟩, fun h' ↦ absurd h' hnot⟩
  | link src dst =>
    obtain rfl : (m.fakefsLink host src dst).2 = m₁ := congrArg Prod.snd (Option.some.inj hcall)
    exact hgood (fakefsLink_pathsExact hm hi) ⟨id, trivial⟩
  | unlink path =>
    obtain rfl : (m.fakefsUnlink host path).2 = m₁ := congrArg Prod.snd (Option.some.inj hcall)
    obtain ⟨hiff, hnamed⟩ := fakefsUnlink_pathsExact hm hi (h := host)
    exact ⟨hiff.trans (and_iff_right id).symm, fun h' ↦ hnamed (hiff.mp h')⟩
  | rmdir path =>
    obtain rfl : (m.fakefsRmdir host path).2 = m₁ := congrArg Prod.snd (Option.some.inj hcall)
    obtain ⟨hiff, hnamed⟩ := fakefsRmdir_pathsExact hm hi (h := host)
    exact ⟨hiff.trans (and_iff_right id).symm, fun h' ↦ hnamed (hiff.mp h')⟩
  | rename src dst =>
    obtain rfl : (m.fakefsRename host src dst).2 = m₁ := congrArg Prod.snd (Option.some.inj hcall)
    obtain ⟨hiff, hnamed⟩ := fakefsRename_pathsExact hm hi (h := host)
    exact ⟨hiff.trans (and_iff_right id).symm, hnamed⟩
  | setattr path attr => exact hgood (fakefsSetattr_pathsExact hm hi hcall) ⟨id, trivial⟩

variable {root : Inode} {stat : IshStat} {evs : List Event}

theorem empty_pathsExact (root : Inode) (stat : IshStat) : (empty root stat).files.PathsExact := by
  intro k v
  constructor
  · intro hv
    obtain ⟨r, hr, rfl⟩ := Option.map_eq_some_iff.mp hv
    obtain ⟨hmem, rfl⟩ := Table.get_eq_some.mp hr
    rw [List.mem_singleton.mp hmem]
    exact ⟨[], _, List.mem_singleton_self _, rfl, rfl⟩
  · intro hex
    obtain ⟨p, n, hn, rfl, rfl⟩ := hex
    cases List.mem_singleton.mp hn
    exact Option.map_eq_some_iff.mpr
      ⟨_, Table.get_eq_some.mpr ⟨List.mem_singleton_self _, rfl⟩, rfl⟩

/-- In a run from an empty file system the paths table is right all along exactly
if nothing is deleted or moved and no file is left without rows. -/
theorem pathsExact_iff_guarded (he : exec step (empty root stat) evs = some m) :
    (∀ pre u, pre <+: evs → exec step (empty root stat) pre = some u → u.files.PathsExact) ↔
      Guarded step KeepsPaths (empty root stat) evs :=
  forall_prefix_iff_guarded (fun _ _ _ hm hi hs ↦ step_pathsExact hm hi hs)
    (empty_pathsExact root stat)
    (fun i hi ↦ ((Files.statsExact_iff.mp (empty_statsExact root stat)).2 i).mp hi) he

/-- A file in a new directory, with a second name. -/
def newFiles : List Event :=
  [plainly (.mkdir [['d']] 0o755) ⟨2, two_ne_zero⟩,
    plainly (.open [['d'], ['a']] oCreat 0o644) ⟨3, three_ne_zero⟩,
    plainly (.link [['d'], ['a']] [['b']]) ⟨4, four_ne_zero⟩]

theorem pathsExact_newFiles : ∃ m, exec step (empty ⟨1, by decide⟩ ⟨0, 0, 0, 0⟩) newFiles = some m ∧
    ∀ pre u, pre <+: newFiles → exec step (empty ⟨1, by decide⟩ ⟨0, 0, 0, 0⟩) pre = some u →
      u.files.PathsExact := by
  obtain ⟨m, hm⟩ := Option.isSome_iff_exists.mp (show (exec step
    (empty ⟨1, by decide⟩ ⟨0, 0, 0, 0⟩) newFiles).isSome from rfl)
  exact ⟨m, hm, (pathsExact_iff_guarded hm).mpr ⟨⟨id, trivial⟩, fun _ _ ↦ ⟨⟨id, trivial⟩,
    fun _ _ ↦ ⟨⟨id, trivial⟩, fun _ _ ↦ trivial⟩⟩⟩⟩

/-- A file that is created and deleted keeps its row. -/
theorem not_pathsExact_deleted : ¬∀ root stat evs m,
    exec step (empty root stat) evs = some m → m.files.PathsExact := by
  intro h
  obtain ⟨m, hm⟩ := Option.isSome_iff_exists.mp (show (exec step
    (empty ⟨1, by decide⟩ ⟨0, 0, 0, 0⟩) [plainly (.open [['a']] oCreat 0o644) ⟨2, by decide⟩,
      plainly (.unlink [['a']]) ⟨3, by decide⟩]).isSome from rfl)
  have hrow : (m.files.paths.get (.blob (.path [['a']]))).map (· .inode) = some (.int 2) := by
    cases hm
    rfl
  obtain ⟨p, n, hmem, hp, -⟩ := (h _ _ _ m hm _ _).mp hrow
  have hfree : m.tree.Free [['a']] := by
    cases hm
    decide
  cases hp
  exact hfree (List.mem_map.mpr ⟨_, hmem, rfl⟩)

end Mount

end Isl.Fs.Fake
