import Isl.Fs.Fake

/-!
`fakefs_rebuild` of `fs/fake-rebuild.c`, which makes the tables anew for a tree whose
inode numbers have changed. Real symlinks do not occur, so that `fstatat` gives the
inode of the path itself.
-/

namespace Isl.Fs.Fake

open Isl.Lib.FileTree
open Isl.Lib.Sql
open Isl.Lib.Run

/-- The tables as they are found, with paths and inode numbers in their columns. -/
structure OldTables where
  paths : Table Column Blob .path
  stats : Table Column Blob .inode
  typed : ∀ r ∈ paths.rows, ∃ p i, r .path = .blob (.path p) ∧ r .inode = .int i

structure Entry where
  inode : Ino
  path : Path

def hashSize : ℕ := 2000

/-- The state of the loop over the old paths. -/
structure Rebuild where
  tree : Tree Str Inode
  paths : Table Column Blob .path
  stats : Table Column Blob .inode
  hashtable : ℕ → List Entry

/-- `qtsql_column_text` -/
def columnPath : Value Blob → Path
  | .blob (.path path) => path
  | _ => []

/-- `qtsql_column_int64` -/
def columnIno : Value Blob → Ino
  | .int n => n
  | _ => 0

def readRow (r : Row Column Blob) : Path × Ino := (columnPath (r .path), columnIno (r .inode))

def relink (tree : Tree Str Inode) (src path : Path) : Tree Str Inode :=
  let tree := (tree.unlink path).getD tree
  (tree.link src path).getD tree

namespace Rebuild

def start (tree : Tree Str Inode) : Rebuild :=
  ⟨tree, ⟨[], List.nodup_nil⟩, ⟨[], List.nodup_nil⟩, fun _ ↦ []⟩

def find (s : Rebuild) (inode : Ino) : Option Entry :=
  (s.hashtable (inode.toNat % hashSize)).find? (·.inode = inode)

def add (s : Rebuild) (inode : Ino) (path : Path) : Rebuild :=
  let i := inode.toNat % hashSize
  { s with hashtable := Function.update s.hashtable i (⟨inode, path⟩ :: s.hashtable i) }

def restoreLink (s : Rebuild) (path : Path) (inode : Ino) : Rebuild :=
  match s.find inode with
  | some entry => { s with tree := relink s.tree entry.path path }
  | none => s.add inode path

/-- One turn of the loop. It dies when a path is inserted twice. -/
def turn (statsOld : Table Column Blob .inode) (s : Rebuild) (old : Path × Ino) :
    Option Rebuild :=
  let (path, inode) := old
  -- grab real inode
  match s.tree.node? path with
  | none => some s
  | some n =>
    let s := s.restoreLink path inode
    -- extract the stat so we can copy it
    match statsOld.select .stat .inode (.int inode) with
    | none => some s
    | some stat => do
      let paths ← s.paths.insert (bindRow [.path, .inode] [.blob (.path path), .int n.ino])
      let stats := s.stats.replace (bindRow [.inode, .stat] [.int n.ino, stat])
      some { s with paths := paths, stats := stats }

end Rebuild

def fakefsRebuild (old : OldTables) (tree : Tree Str Inode) : Option Rebuild :=
  exec (Rebuild.turn old.stats) (.start tree) (old.paths.rows.map readRow)

/-- The inode of a path in the old table. -/
def OldTables.Has (old : OldTables) (path : Path) (inode : Ino) : Prop :=
  (old.paths.get (.blob (.path path))).map (· .inode) = some (.int inode)

/-- Two old paths with one inode had one before. -/
def Renumbered (old : OldTables) (tree : Tree Str Inode) : Prop :=
  ∀ p q i j n k, old.Has p i → old.Has q j → tree.node? p = some n → tree.node? q = some k →
    n.ino = k.ino → i = j

/-- What the new tables and the relinked tree are to be. -/
structure Restored (old : OldTables) (tree : Tree Str Inode) (s : Rebuild) : Prop where
  row : ∀ p i, old.Has p i → (tree.node? p).isSome → ∃ n, s.tree.node? p = some n ∧
    (s.paths.get (.blob (.path p))).map (· .inode) = some (.int n.ino) ∧
    (s.stats.get (.int n.ino)).map (· .stat) = (old.stats.get (.int i)).map (· .stat)
  shared : ∀ p q i j n k, old.Has p i → old.Has q j →
    (tree.node? p).isSome → (tree.node? q).isSome →
    s.tree.node? p = some n → s.tree.node? q = some k → (n.ino = k.ino ↔ i = j)

/-- Every old path in the tree had metadata, and the old hard links are hard links still. -/
structure Restorable (old : OldTables) (tree : Tree Str Inode) : Prop where
  stat : ∀ p i, old.Has p i → (tree.node? p).isSome → old.stats.get (.int i) ≠ none
  linked : ∀ p q i n k, old.Has p i → old.Has q i →
    tree.node? p = some n → tree.node? q = some k → n.ino = k.ino

section

variable {tree : Tree Str Inode} {p q e : Path} {n k : Node Inode}

/-! Relinking. -/

theorem relink_of_ne (hq : q ≠ p) : (relink tree e p).node? q = tree.node? q := by
  have hunlink : ((tree.unlink p).getD tree).node? q = tree.node? q := by
    cases hu : tree.unlink p with
    | none => rfl
    | some t =>
      obtain ⟨-, -, -, hentries⟩ := Tree.unlink_eq_some hu
      exact Tree.node?_filter hentries hq
  rw [relink, ← hunlink]
  cases hl : ((tree.unlink p).getD tree).link e p with
  | none => rfl
  | some t =>
    obtain ⟨n, -, -, -, hentries⟩ := Tree.link_eq_some hl
    exact Tree.node?_append hentries hq

/-- A hard link is made again as it was. -/
theorem relink_same (hp : tree.node? p = some n) (he : tree.node? e = some k)
    (hino : k.ino = n.ino) (hne : e ≠ p) : (relink tree e p).node? p = some n := by
  have hpmem := Tree.node?_eq_some.mp hp
  have hemem := Tree.node?_eq_some.mp he
  have hfile : n.dir = false := Bool.eq_false_iff.mpr fun hd ↦
    hne (Tree.only_of_dir hpmem hd _ hemem hino)
  have hfile' : k.dir = false := Bool.eq_false_iff.mpr fun hd ↦
    hne (Tree.only_of_dir hemem hd _ hpmem hino.symm).symm
  obtain rfl : k = n := by
    obtain ⟨ino, dir⟩ := k
    obtain ⟨ino', dir'⟩ := n
    obtain rfl : ino = ino' := hino
    obtain rfl : dir = false := hfile'
    obtain rfl : dir' = false := hfile
    rfl
  obtain ⟨t, ht, hentries⟩ := Tree.unlink_of_file hp hfile
  have hfree : t.Free p := by
    intro hmem
    obtain ⟨f, hf, heq⟩ := List.mem_map.mp hmem
    rw [hentries] at hf
    exact of_decide_eq_true (List.mem_filter.mp hf).2 heq
  have hin : t.InDir p := by
    obtain ⟨hnil, hpar⟩ := Tree.inDir_of_file hpmem hfile hemem hne
    refine ⟨hnil, ?_⟩
    rw [hentries]
    exact inDir_erase ⟨hnil, hpar⟩
  obtain ⟨t', ht', hentries'⟩ := Tree.link_of_file
    ((Tree.node?_filter hentries hne).trans he) hfile hfree hin
  rw [relink, ht, Option.getD_some, ht', Option.getD_some, Tree.node?_eq_some, hentries']
  exact List.mem_append_right _ (List.mem_singleton_self _)

namespace Rebuild

/-! The hash table. -/

variable {s s' : Rebuild} {i j : Ino}

theorem find_add (s : Rebuild) (i : Ino) (p : Path) :
    (s.add i p).find j = if j = i then some ⟨i, p⟩ else s.find j := by
  rw [find, add]
  dsimp only
  by_cases hidx : j.toNat % hashSize = i.toNat % hashSize
  · rw [hidx, Function.update_self, List.find?_cons]
    by_cases hij : j = i
    · simp [hij]
    · rw [if_neg hij, find, hidx]
      simp [Ne.symm hij]
  · rw [Function.update_of_ne hidx, if_neg fun hij : j = i ↦ hidx (hij ▸ rfl)]
    rfl

/-- The tree and the hash table after these paths: an entry is a path with its old
inode, and it has not been relinked. -/
structure Links (tree : Tree Str Inode) (olds : List (Path × Ino)) (s : Rebuild) : Prop where
  found : ∀ i entry, s.find i = some entry → (entry.path, i) ∈ olds ∧
    s.tree.node? entry.path = tree.node? entry.path ∧ (tree.node? entry.path).isSome
  finds : ∀ p i, (p, i) ∈ olds → (tree.node? p).isSome → (s.find i).isSome
  ahead : ∀ q, q ∉ olds.map Prod.fst → s.tree.node? q = tree.node? q
  same : (∀ p q i n k, (p, i) ∈ olds → (q, i) ∈ olds → tree.node? p = some n →
    tree.node? q = some k → n.ino = k.ino) → ∀ q, s.tree.node? q = tree.node? q

/-- The new tables after these paths. -/
structure Rows (tree : Tree Str Inode) (statsOld : Table Column Blob .inode)
    (olds : List (Path × Ino)) (s : Rebuild) : Prop where
  path : ∀ p v, (s.paths.get (.blob (.path p))).map (· .inode) = some v ↔ ∃ i n,
    (p, i) ∈ olds ∧ tree.node? p = some n ∧ statsOld.get (.int i) ≠ none ∧ v = .int n.ino
  stat : (∀ p q i j n k, (p, i) ∈ olds → (q, j) ∈ olds → tree.node? p = some n →
    tree.node? q = some k → n.ino = k.ino → i = j) →
    ∀ p i n r, (p, i) ∈ olds → tree.node? p = some n → statsOld.get (.int i) = some r →
    (s.stats.get (.int n.ino)).map (· .stat) = some (r .stat)

variable {olds : List (Path × Ino)} {statsOld : Table Column Blob .inode}

theorem links_start (tree : Tree Str Inode) : Links tree [] (start tree) :=
  ⟨fun _ _ h ↦ (nomatch h), fun _ _ h ↦ (nomatch h), fun _ _ ↦ rfl, fun _ _ ↦ rfl⟩

theorem rows_start (tree : Tree Str Inode) (statsOld : Table Column Blob .inode) :
    Rows tree statsOld [] (start tree) := by
  refine ⟨fun p v ↦ ⟨nofun, fun hex ↦ ?_⟩, fun _ _ _ _ _ h ↦ (nomatch h)⟩
  obtain ⟨i, n, hmem, -⟩ := hex
  cases hmem

/-- A path that is not in the tree is left out. -/
theorem Links.skip (h : Links tree olds s) (hp : tree.node? p = none) (i : Ino) :
    Links tree (olds ++ [(p, i)]) s := by
  refine ⟨fun j entry hj ↦ ?_, fun q j hmem hq ↦ ?_, fun q hq ↦ h.ahead q fun hmem ↦ hq ?_,
    fun hl ↦ h.same fun q q' j n k hq hq' ↦ ?_⟩
  · obtain ⟨hmem, hrest⟩ := h.found j entry hj
    exact ⟨List.mem_append_left _ hmem, hrest⟩
  · obtain hmem | hmem := List.mem_append.mp hmem
    · exact h.finds q j hmem hq
    · cases List.mem_singleton.mp hmem
      rw [hp] at hq
      cases hq
  · rw [List.map_append]
    exact List.mem_append_left _ hmem
  · exact hl q q' j n k (List.mem_append_left _ hq) (List.mem_append_left _ hq')

theorem Rows.skip (h : Rows tree statsOld olds s)
    (hp : tree.node? p = none ∨ statsOld.get (.int i) = none) :
    Rows tree statsOld (olds ++ [(p, i)]) s := by
  refine ⟨fun q v ↦ (h.path q v).trans ?_, fun hren q j n r hmem hq hr ↦ ?_⟩
  · constructor
    · intro hex
      obtain ⟨j, n, hmem, hrest⟩ := hex
      exact ⟨j, n, List.mem_append_left _ hmem, hrest⟩
    · intro hex
      obtain ⟨j, n, hmem, hq, hget, hv⟩ := hex
      obtain hmem | hmem := List.mem_append.mp hmem
      · exact ⟨j, n, hmem, hq, hget, hv⟩
      · cases List.mem_singleton.mp hmem
        obtain hp | hp := hp
        · cases hp.symm.trans hq
        · exact absurd hp hget
  · obtain hmem | hmem := List.mem_append.mp hmem
    · refine h.stat (fun q q' j j' n k hq hq' ↦ ?_) q j n r hmem hq hr
      exact hren q q' j j' n k (List.mem_append_left _ hq) (List.mem_append_left _ hq')
    · cases List.mem_singleton.mp hmem
      obtain hp | hp := hp
      · cases hp.symm.trans hq
      · cases hp.symm.trans hr

theorem Links.restoreLink (h : Links tree olds s) (hnew : p ∉ olds.map Prod.fst)
    (hp : tree.node? p = some n) (i : Ino) :
    Links tree (olds ++ [(p, i)]) (s.restoreLink p i) := by
  have hahead (q : Path) (hq : q ∉ (olds ++ [(p, i)]).map Prod.fst) :
      q ≠ p ∧ s.tree.node? q = tree.node? q := by
    rw [List.map_append, List.mem_append, not_or] at hq
    exact ⟨fun heq ↦ hq.2 (heq ▸ List.mem_singleton_self _), h.ahead q hq.1⟩
  have hold (hl : ∀ q q' j n k, (q, j) ∈ olds ++ [(p, i)] → (q', j) ∈ olds ++ [(p, i)] →
      tree.node? q = some n → tree.node? q' = some k → n.ino = k.ino) (q : Path) :
      s.tree.node? q = tree.node? q :=
    h.same (fun q q' j n k hq hq' ↦
      hl q q' j n k (List.mem_append_left _ hq) (List.mem_append_left _ hq')) q
  rw [Rebuild.restoreLink]
  cases hfind : s.find i with
  | some entry =>
    obtain ⟨hmem, hentry, hsome⟩ := h.found i entry hfind
    have hne {q : Path} {j : Ino} (hq : (q, j) ∈ olds) : q ≠ p := by
      rintro rfl
      exact hnew (List.mem_map.mpr ⟨_, hq, rfl⟩)
    refine ⟨fun j entry' hj ↦ ?_, fun q j hq hsome ↦ ?_, fun q hq ↦ ?_, fun hl q ↦ ?_⟩
    · obtain ⟨hmem', hentry', hsome'⟩ := h.found j entry' hj
      exact ⟨List.mem_append_left _ hmem', (relink_of_ne (hne hmem')).trans hentry', hsome'⟩
    · obtain hq | hq := List.mem_append.mp hq
      · exact h.finds q j hq hsome
      · cases List.mem_singleton.mp hq
        exact Option.isSome_iff_exists.mpr ⟨entry, hfind⟩
    · obtain ⟨hqp, hq⟩ := hahead q hq
      exact (relink_of_ne hqp).trans hq
    · by_cases hqp : q = p
      · subst hqp
        obtain ⟨k, hk⟩ := Option.isSome_iff_exists.mp hsome
        have hino : k.ino = n.ino := hl entry.path q i k n (List.mem_append_left _ hmem)
          (List.mem_append_right _ (List.mem_singleton_self _)) hk hp
        rw [hp]
        exact relink_same ((hold hl q).trans hp) (hentry.trans hk) hino (hne hmem)
      · exact (relink_of_ne hqp).trans (hold hl q)
  | none =>
    refine ⟨fun j entry hj ↦ ?_, fun q j hq hsome ↦ ?_, fun q hq ↦ (hahead q hq).2, hold⟩
    · rw [find_add] at hj
      split at hj
      · rename_i hij
        subst hij
        cases hj
        refine ⟨List.mem_append_right _ (List.mem_singleton_self _), h.ahead p hnew, ?_⟩
        rw [hp]
        rfl
      · obtain ⟨hmem, hrest⟩ := h.found j entry hj
        exact ⟨List.mem_append_left _ hmem, hrest⟩
    · rw [find_add]
      split
      · rfl
      · rename_i hij
        obtain hq | hq := List.mem_append.mp hq
        · exact h.finds q j hq hsome
        · exact absurd (Prod.mk.inj (List.mem_singleton.mp hq)).2 hij

theorem Rows.written {r : Row Column Blob} (h : Rows tree statsOld olds s)
    (hnew : p ∉ olds.map Prod.fst) (hp : tree.node? p = some n)
    (hr : statsOld.get (.int i) = some r) :
    ∃ paths, s.paths.insert (bindRow [.path, .inode] [.blob (.path p), .int n.ino]) = some paths ∧
      Rows tree statsOld (olds ++ [(p, i)]) { s with
        paths := paths
        stats := s.stats.replace (bindRow [.inode, .stat] [.int n.ino, r .stat]) } := by
  have hfree : s.paths.get (.blob (.path p)) = none := by
    cases hget : s.paths.get (.blob (.path p)) with
    | none => rfl
    | some r' =>
      obtain ⟨j, k, hmem, -⟩ := (h.path p (r' .inode)).mp (by rw [hget]; rfl)
      exact absurd (List.mem_map.mpr ⟨_, hmem, rfl⟩) hnew
  refine ⟨_, if_pos (Option.isNone_iff_eq_none.mpr hfree), fun q v ↦ ?_,
    fun hren q j k r' hmem hq hr' ↦ ?_⟩
  · have hkey : bindRow [Column.path, .inode] [Value.blob (Blob.path p), .int n.ino] .path =
        .blob (.path p) := rfl
    dsimp only
    rw [Table.get_replace, hkey]
    by_cases hqp : q = p
    · subst hqp
      rw [if_pos rfl]
      constructor
      · intro hv
        refine ⟨i, n, List.mem_append_right _ (List.mem_singleton_self _), hp, ?_,
          (Option.some.inj hv).symm⟩
        rw [hr]
        exact nofun
      · intro hex
        obtain ⟨j, k, -, hk, -, rfl⟩ := hex
        cases hp.symm.trans hk
        rfl
    · rw [if_neg fun heq ↦ hqp (Blob.path.inj (Value.blob.inj heq)), h.path q v]
      constructor
      · intro hex
        obtain ⟨j, k, hmem, hrest⟩ := hex
        exact ⟨j, k, List.mem_append_left _ hmem, hrest⟩
      · intro hex
        obtain ⟨j, k, hmem, hrest⟩ := hex
        obtain hmem | hmem := List.mem_append.mp hmem
        · exact ⟨j, k, hmem, hrest⟩
        · exact absurd (Prod.mk.inj (List.mem_singleton.mp hmem)).1 hqp
  · have hkey : bindRow [Column.inode, .stat] [Value.int n.ino, r .stat] .inode =
        .int n.ino := rfl
    dsimp only
    rw [Table.get_replace, hkey]
    have hpi : (p, i) ∈ olds ++ [(p, i)] := List.mem_append_right _ (List.mem_singleton_self _)
    by_cases hkn : k.ino = n.ino
    · obtain rfl : j = i := hren q p j i k n hmem hpi hq hp hkn
      rw [hkn, if_pos rfl, Option.some.inj (hr'.symm.trans hr)]
      rfl
    · rw [if_neg fun heq ↦ hkn (Subtype.ext (Value.int.inj heq))]
      obtain hmem | hmem := List.mem_append.mp hmem
      · refine h.stat (fun q q' j j' n k hq hq' ↦ ?_) q j k r' hmem hq hr'
        exact hren q q' j j' n k (List.mem_append_left _ hq) (List.mem_append_left _ hq')
      · cases List.mem_singleton.mp hmem
        cases hp.symm.trans hq
        exact absurd rfl hkn

/-- One turn keeps both invariants, and it does not die. -/
theorem turn_spec (hl : Links tree olds s) (hr : Rows tree statsOld olds s)
    (hnew : p ∉ olds.map Prod.fst) : ∃ s', turn statsOld s (p, i) = some s' ∧
      Links tree (olds ++ [(p, i)]) s' ∧ Rows tree statsOld (olds ++ [(p, i)]) s' := by
  rw [turn]
  dsimp only
  rw [hl.ahead p hnew]
  cases hp : tree.node? p with
  | none => exact ⟨s, rfl, hl.skip hp i, hr.skip (.inl hp)⟩
  | some n =>
    have hl' := hl.restoreLink hnew hp i
    have hr' : Rows tree statsOld olds (s.restoreLink p i) := by
      rw [restoreLink]
      split
      · exact ⟨hr.path, hr.stat⟩
      · exact ⟨hr.path, hr.stat⟩
    dsimp only
    rw [Table.select_key (by simp)]
    cases hget : statsOld.get (.int i) with
    | none => exact ⟨_, rfl, hl', hr'.skip (.inr hget)⟩
    | some r =>
      obtain ⟨paths, hpaths, hrows⟩ := hr'.written hnew hp hget
      rw [Option.map_some]
      dsimp only
      rw [hpaths]
      exact ⟨_, rfl, ⟨hl'.found, hl'.finds, hl'.ahead, hl'.same⟩, hrows⟩

end Rebuild

end

section

variable {old : OldTables} {tree : Tree Str Inode}

theorem OldTables.has_iff {p : Path} {i : Ino} :
    old.Has p i ↔ (p, i) ∈ old.paths.rows.map readRow := by
  rw [OldTables.Has, List.mem_map]
  constructor
  · intro h
    obtain ⟨r, hr, hi⟩ := Option.map_eq_some_iff.mp h
    obtain ⟨hmem, hp⟩ := Table.get_eq_some.mp hr
    refine ⟨r, hmem, ?_⟩
    rw [readRow, hp, hi]
    rfl
  · intro h
    obtain ⟨r, hmem, heq⟩ := h
    obtain ⟨q, j, hq, hj⟩ := old.typed r hmem
    rw [readRow, hq, hj] at heq
    cases heq
    exact Option.map_eq_some_iff.mpr ⟨r, Table.get_eq_some.mpr ⟨hmem, hq⟩, hj⟩

theorem OldTables.nodup (old : OldTables) : ((old.paths.rows.map readRow).map Prod.fst).Nodup := by
  have hkeys : (old.paths.rows.map readRow).map Prod.fst =
      (old.paths.rows.map (· .path)).map columnPath := by
    rw [List.map_map, List.map_map]
    rfl
  rw [hkeys]
  refine old.paths.nodup.map_on fun v hv w hw heq ↦ ?_
  obtain ⟨r, hr, rfl⟩ := List.mem_map.mp hv
  obtain ⟨r', hr', rfl⟩ := List.mem_map.mp hw
  obtain ⟨p, i, hp, -⟩ := old.typed r hr
  obtain ⟨q, j, hq, -⟩ := old.typed r' hr'
  rw [hp, hq] at heq ⊢
  exact congrArg (fun p ↦ Value.blob (Blob.path p)) heq

theorem fakefsRebuild_spec (old : OldTables) (tree : Tree Str Inode) :
    ∃ s, fakefsRebuild old tree = some s ∧
      Rebuild.Links tree (old.paths.rows.map readRow) s ∧
      Rebuild.Rows tree old.stats (old.paths.rows.map readRow) s := by
  refine exec_invariant (P := fun olds s ↦ Rebuild.Links tree olds s ∧
    Rebuild.Rows tree old.stats olds s) (fun pre a s hpre hs ↦ ?_)
    ⟨Rebuild.links_start tree, Rebuild.rows_start tree old.stats⟩
  obtain ⟨p, i⟩ := a
  refine Rebuild.turn_spec hs.1 hs.2 fun hmem ↦ ?_
  have hnodup := old.nodup.sublist (hpre.sublist.map Prod.fst)
  rw [List.map_append] at hnodup
  exact List.disjoint_of_nodup_append hnodup hmem (List.mem_singleton_self _)

/-- The rebuild ends, and it is right exactly if no hard link was broken and no
path was without metadata. -/
theorem restored_iff_restorable (h : Renumbered old tree) : ∃ s, fakefsRebuild old tree = some s ∧
    (Restored old tree s ↔ Restorable old tree) := by
  obtain ⟨s, hs, hlinks, hrows⟩ := fakefsRebuild_spec old tree
  refine ⟨s, hs, fun hres ↦ ⟨fun p i hp hsome hnone ↦ ?_, fun p q i n k hp hq hn hk ↦ ?_⟩,
    fun hok ↦ ?_⟩
  · obtain ⟨n, -, hrow, -⟩ := hres.row p i hp hsome
    obtain ⟨j, k, hmem, -, hget, -⟩ := (hrows.path p _).mp hrow
    cases hp.symm.trans (OldTables.has_iff.mpr hmem)
    exact hget hnone
  · -- the first path with the old inode keeps its new one, and the others' rows have theirs
    obtain ⟨entry, hentry⟩ := Option.isSome_iff_exists.mp
      (hlinks.finds p i (OldTables.has_iff.mp hp) (by rw [hn]; rfl))
    obtain ⟨hmem, hkept, hsome⟩ := hlinks.found i entry hentry
    obtain ⟨m, hm⟩ := Option.isSome_iff_exists.mp hsome
    have hfirst {p : Path} {n : Node Inode} (hp : old.Has p i) (hn : tree.node? p = some n) :
        n.ino = m.ino := by
      have hpsome : (tree.node? p).isSome := by rw [hn]; rfl
      obtain ⟨n', hn', hrow, -⟩ := hres.row p i hp hpsome
      obtain ⟨j, n'', -, hn'', -, hino⟩ := (hrows.path p _).mp hrow
      cases hn.symm.trans hn''
      rw [← Subtype.ext (Value.int.inj hino)]
      exact (hres.shared p entry.path i i n' m hp (OldTables.has_iff.mpr hmem) hpsome hsome hn'
        (hkept.trans hm)).mpr rfl
    exact (hfirst hp hn).trans (hfirst hq hk).symm
  · have hsame := hlinks.same fun p q i n k hp hq hn hk ↦
      hok.linked p q i n k (OldTables.has_iff.mpr hp) (OldTables.has_iff.mpr hq) hn hk
    refine ⟨fun p i hp hsome ↦ ?_, fun p q i j n k hp hq _ _ hn hk ↦ ?_⟩
    · obtain ⟨n, hn⟩ := Option.isSome_iff_exists.mp hsome
      obtain ⟨r, hr⟩ := Option.ne_none_iff_exists'.mp (hok.stat p i hp hsome)
      refine ⟨n, (hsame p).trans hn, (hrows.path p _).mpr
        ⟨i, n, OldTables.has_iff.mp hp, hn, hok.stat p i hp hsome, rfl⟩, ?_⟩
      rw [hr]
      exact hrows.stat (fun p q i j n k hp hq ↦
        h p q i j n k (OldTables.has_iff.mpr hp) (OldTables.has_iff.mpr hq))
        p i n r (OldTables.has_iff.mp hp) hn hr
    · rw [hsame] at hn hk
      constructor
      · intro hino
        exact h p q i j n k hp hq hn hk hino
      · intro hij
        exact hok.linked p q i n k hp (hij ▸ hq) hn hk

theorem renumbered_of_rows
    (h : ∀ a ∈ old.paths.rows.map readRow, ∀ b ∈ old.paths.rows.map readRow,
      (tree.node? a.1).map Node.ino = (tree.node? b.1).map Node.ino → a.2 = b.2) :
    Renumbered old tree := by
  intro p q i j n k hp hq hn hk hino
  refine h (p, i) (OldTables.has_iff.mp hp) (q, j) (OldTables.has_iff.mp hq) ?_
  dsimp only
  rw [hn, hk, Option.map_some, Option.map_some, hino]

theorem restorable_of_rows
    (hstat : ∀ a ∈ old.paths.rows.map readRow, (tree.node? a.1).isSome →
      (old.stats.get (.int a.2)).isSome)
    (hlinked : ∀ a ∈ old.paths.rows.map readRow, ∀ b ∈ old.paths.rows.map readRow, a.2 = b.2 →
      (tree.node? a.1).isSome → (tree.node? b.1).isSome →
      (tree.node? a.1).map Node.ino = (tree.node? b.1).map Node.ino) :
    Restorable old tree := by
  refine ⟨fun p i hp hsome ↦ ?_, fun p q i n k hp hq hn hk ↦ ?_⟩
  · exact Option.isSome_iff_ne_none.mp (hstat (p, i) (OldTables.has_iff.mp hp) hsome)
  · have hino := hlinked (p, i) (OldTables.has_iff.mp hp) (q, i) (OldTables.has_iff.mp hq) rfl
      (by rw [hn]; rfl) (by rw [hk]; rfl)
    dsimp only at hino
    rw [hn, hk] at hino
    exact Option.some.inj hino

/-- The root and two names of one file. -/
def twoLinks : OldTables where
  paths := ⟨[bindRow [.path, .inode] [.blob (.path []), .int 10],
    bindRow [.path, .inode] [.blob (.path [['a']]), .int 11],
    bindRow [.path, .inode] [.blob (.path [['b']]), .int 11]], by decide⟩
  stats := ⟨[bindRow [.inode, .stat] [.int 10, .blob (.stat ⟨0, 0, 0, 0⟩)],
    bindRow [.inode, .stat] [.int 11, .blob (.stat ⟨1, 0, 0, 0⟩)]], by decide⟩
  typed := by
    intro r hr
    simp only [List.mem_cons, List.not_mem_nil, or_false] at hr
    obtain rfl | rfl | rfl := hr
    · exact ⟨_, _, rfl, rfl⟩
    · exact ⟨_, _, rfl, rfl⟩
    · exact ⟨_, _, rfl, rfl⟩

/-- A root with one file. -/
def oneFile : Option (Tree Str Inode) :=
  (Tree.root ⟨1, one_ne_zero⟩).creat [['a']] ⟨⟨2, two_ne_zero⟩, false⟩

theorem restored_linked : ∃ tree, oneFile.bind (·.link [['a']] [['b']]) = some tree ∧
    ∃ s, fakefsRebuild twoLinks tree = some s ∧ Restored twoLinks tree s := by
  obtain ⟨tree, htree⟩ := Option.isSome_iff_exists.mp
    (show (oneFile.bind (·.link [['a']] [['b']])).isSome from rfl)
  have hren : Renumbered twoLinks tree := by
    apply renumbered_of_rows
    cases htree
    decide
  have hok : Restorable twoLinks tree := by
    cases htree
    apply restorable_of_rows
    · decide
    · decide
  obtain ⟨s, hs, hiff⟩ := restored_iff_restorable hren
  exact ⟨tree, htree, s, hs, hiff.mpr hok⟩

/-- The two names have become two files: the second is linked again, and its row
has the inode number from before that. -/
theorem not_restored_split : ¬∀ old tree, Renumbered old tree →
    ∃ s, fakefsRebuild old tree = some s ∧ Restored old tree s := by
  intro h
  obtain ⟨tree, htree⟩ := Option.isSome_iff_exists.mp
    (show (oneFile.bind (·.creat [['b']] ⟨⟨3, by decide⟩, false⟩)).isSome from rfl)
  have hren : Renumbered twoLinks tree := by
    apply renumbered_of_rows
    cases htree
    decide
  obtain ⟨s, hs, hres⟩ := h twoLinks tree hren
  obtain ⟨n, hn, hrow, -⟩ := hres.row [['b']] 11 rfl (by cases htree; rfl)
  cases htree
  cases hs
  cases hn
  cases hrow

end

end Isl.Fs.Fake
