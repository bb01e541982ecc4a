import Mathlib.Data.List.Infix
import Mathlib.Data.List.Nodup
import Mathlib.Data.List.Perm.Subperm

/-! A tree of files as a map from paths to inodes, and the calls that change it. -/

namespace Isl.Lib.FileTree

structure Node (ι : Type*) where
  ino : ι
  dir : Bool
deriving DecidableEq

variable {α ι : Type*}

/-- Every path has one node, the parent of a path is a directory, and a
directory has no other path. -/
structure Valid (l : List (List α × Node ι)) : Prop where
  nodup : (l.map Prod.fst).Nodup
  parent : ∀ p a n, (p ++ [a], n) ∈ l → ∃ i, (p, ⟨i, true⟩) ∈ l
  dirs : ∀ e ∈ l, ∀ f ∈ l, e.2.ino = f.2.ino → e.2.dir = true → e = f

/-- A path is the list of its names, the root the empty one. -/
structure Tree (α ι : Type*) where
  entries : List (List α × Node ι)
  valid : Valid entries

theorem Valid.root (i : ι) : Valid [(([] : List α), (⟨i, true⟩ : Node ι))] := by
  refine ⟨List.nodup_singleton _, fun p a n h ↦ ?_, fun e he f hf _ _ ↦ ?_⟩
  · obtain ⟨h, -⟩ := Prod.mk.inj (List.mem_singleton.mp h)
    exact absurd h (by simp)
  · rw [List.mem_singleton.mp he, List.mem_singleton.mp hf]

section

variable {l : List (List α × Node ι)} {p r : List α} {n m : Node ι}

theorem Valid.node_eq (h : Valid l) (hn : (p, n) ∈ l) (hm : (p, m) ∈ l) : n = m :=
  congrArg Prod.snd (List.inj_on_of_nodup_map h.nodup hn hm rfl)

theorem Valid.entries_nodup (h : Valid l) : l.Nodup := h.nodup.of_map _

/-- All that a path goes through are directories. -/
theorem Valid.ancestor (h : Valid l) (hr : r ≠ []) (hmem : (p ++ r, n) ∈ l) :
    ∃ i, (p, ⟨i, true⟩) ∈ l := by
  induction r using List.reverseRecOn generalizing n with
  | nil => exact absurd rfl hr
  | append_singleton r a ih =>
    rw [← List.append_assoc] at hmem
    obtain ⟨i, hi⟩ := h.parent _ _ _ hmem
    by_cases hnil : r = []
    · rw [hnil, List.append_nil] at hi
      exact ⟨i, hi⟩
    · exact ih hnil hi

end

namespace Tree

/-- A directory without anything in it. -/
def root (i : ι) : Tree α ι := ⟨_, .root i⟩

def Free (t : Tree α ι) (p : List α) : Prop := p ∉ t.entries.map Prod.fst

/-- The path could be a name in a directory. -/
def InDir (t : Tree α ι) (p : List α) : Prop :=
  p ≠ [] ∧ ∃ e ∈ t.entries, e.1 = p.dropLast ∧ e.2.dir = true

/-- There is nothing below the path. -/
def Bare (t : Tree α ι) (p : List α) : Prop := ∀ e ∈ t.entries, p <+: e.1 → e.1 = p

/-- A path has this inode. -/
def Named (t : Tree α ι) (i : ι) : Prop := ∃ e ∈ t.entries, e.2.ino = i

/-- No other path has this inode. -/
def Only (t : Tree α ι) (p : List α) (i : ι) : Prop := ∀ e ∈ t.entries, e.2.ino = i → e.1 = p

/-- A file is in a directory if there is anything else. -/
theorem inDir_of_file {t : Tree α ι} {p q : List α} {n m : Node ι} (h : (p, n) ∈ t.entries) (hn : n.dir = false)
    (hq : (q, m) ∈ t.entries) (hne : q ≠ p) : t.InDir p := by
  obtain rfl | ⟨r, a, rfl⟩ := List.eq_nil_or_concat p
  · obtain ⟨i, hi⟩ := t.valid.ancestor (p := []) hne hq
    rw [t.valid.node_eq h hi] at hn
    cases hn
  · rw [List.concat_eq_append] at h ⊢
    obtain ⟨i, hi⟩ := t.valid.parent r a n h
    refine ⟨by simp, _, hi, ?_, rfl⟩
    rw [List.dropLast_concat]

/-- A path after `src` has become `dst`. -/
def rebase [DecidableEq α] (src dst p : List α) : List α :=
  if src <+: p then dst ++ p.drop src.length else p

section

variable {t t' : Tree α ι} {p src dst : List α} {n : Node ι} {i : ι}

theorem only_of_dir (h : (p, n) ∈ t.entries) (hn : n.dir = true) : t.Only p n.ino :=
  fun e he hino ↦ (congrArg Prod.fst (t.valid.dirs _ h e he hino.symm hn)).symm

theorem only_iff_not_named (h : ∀ n, (p, n) ∈ t.entries → n.ino ≠ i) :
    t.Only p i ↔ ¬t.Named i := by
  constructor
  · intro honly hnamed
    obtain ⟨⟨q, n⟩, he, hino⟩ := hnamed
    obtain rfl : q = p := honly _ he hino
    exact h n he hino
  · intro hnot e he hino
    exact absurd ⟨e, he, hino⟩ hnot

theorem not_only_iff : ¬t.Only p i ↔ ∃ e ∈ t.entries, e.1 ≠ p ∧ e.2.ino = i := by
  constructor
  · intro h
    by_contra hnone
    refine h fun e he hino ↦ ?_
    by_contra hne
    exact hnone ⟨e, he, hne, hino⟩
  · intro h honly
    obtain ⟨e, he, hne, hino⟩ := h
    exact hne (honly e he hino)

/-! The inodes after a change of the paths. -/

theorem named_append (h : t'.entries = t.entries ++ [(p, n)]) :
    t'.Named i ↔ t.Named i ∨ n.ino = i := by
  rw [Named, h]
  simp only [List.mem_append, List.mem_singleton, or_and_right, exists_or, exists_eq_left]
  rfl

theorem named_filter [DecidableEq α] (h : t'.entries = t.entries.filter (·.1 ≠ p)) :
    t'.Named i ↔ ¬t.Only p i := by
  rw [Named, h, not_only_iff]
  simp only [List.mem_filter, decide_eq_true_eq, and_assoc]

theorem named_rename [DecidableEq α]
    (h : t'.entries = (t.entries.filter (·.1 ≠ dst)).map fun e ↦ (rebase src dst e.1, e.2)) :
    t'.Named i ↔ ¬t.Only dst i := by
  rw [Named, h, not_only_iff]
  simp only [List.mem_map, List.mem_filter, decide_eq_true_eq, and_assoc]
  constructor
  · intro hex
    obtain ⟨_, ⟨e, he, hne, rfl⟩, hino⟩ := hex
    exact ⟨e, he, hne, hino⟩
  · intro hex
    obtain ⟨e, he, hne, hino⟩ := hex
    exact ⟨_, ⟨e, he, hne, rfl⟩, hino⟩

end

variable [DecidableEq α]

instance (t : Tree α ι) (p : List α) : Decidable (t.Free p) := inferInstanceAs (Decidable (p ∉ _))

instance (t : Tree α ι) (p : List α) : Decidable (t.InDir p) :=
  inferInstanceAs (Decidable (_ ∧ ∃ e ∈ t.entries, _))

instance (t : Tree α ι) (p : List α) : Decidable (t.Bare p) :=
  inferInstanceAs (Decidable (∀ e ∈ t.entries, _))

def node? (t : Tree α ι) (p : List α) : Option (Node ι) :=
  (t.entries.find? (·.1 = p)).map Prod.snd

end Tree

section

variable {l : List (List α × Node ι)} {p src dst : List α} {n : Node ι}

theorem Valid.insert (h : Valid l) (hfree : p ∉ l.map Prod.fst)
    (hin : ∃ e ∈ l, e.1 = p.dropLast ∧ e.2.dir = true)
    (hino : ∀ e ∈ l, e.2.ino = n.ino → e.2.dir = false ∧ n.dir = false) :
    Valid (l ++ [(p, n)]) := by
  refine ⟨?_, fun q a m hm ↦ ?_, fun e he f hf hef hd ↦ ?_⟩
  · rw [List.map_append, List.map_singleton, ← List.concat_eq_append]
    exact h.nodup.concat hfree
  · obtain hm | hm := List.mem_append.mp hm
    · obtain ⟨i, hi⟩ := h.parent q a m hm
      exact ⟨i, List.mem_append_left _ hi⟩
    · obtain ⟨rfl, rfl⟩ := Prod.mk.inj (List.mem_singleton.mp hm)
      obtain ⟨⟨q', i, d⟩, he, hq, hd⟩ := hin
      rw [List.dropLast_concat] at hq
      obtain rfl : q' = q := hq
      obtain rfl : d = true := hd
      exact ⟨i, List.mem_append_left _ he⟩
  · obtain he | he := List.mem_append.mp he
    · obtain hf | hf := List.mem_append.mp hf
      · exact h.dirs e he f hf hef hd
      · rw [List.mem_singleton.mp hf] at hef
        exact absurd (hd.symm.trans (hino e he hef).1) nofun
    · rw [List.mem_singleton.mp he] at hef hd ⊢
      obtain hf | hf := List.mem_append.mp hf
      · exact absurd (hd.symm.trans (hino f hf hef.symm).2) nofun
      · exact (List.mem_singleton.mp hf).symm

variable [DecidableEq α]

theorem Valid.erase (h : Valid l) (hbare : ∀ e ∈ l, p <+: e.1 → e.1 = p) :
    Valid (l.filter (·.1 ≠ p)) := by
  refine ⟨?_, fun q a m hm ↦ ?_, fun e he f hf ↦ ?_⟩
  · exact h.nodup.sublist (List.filter_sublist.map _)
  · obtain ⟨hm, hne⟩ := List.mem_filter.mp hm
    obtain ⟨i, hi⟩ := h.parent q a m hm
    refine ⟨i, List.mem_filter.mpr ⟨hi, decide_eq_true fun hq ↦ ?_⟩⟩
    exact of_decide_eq_true hne (hbare _ hm ⟨[a], by rw [← hq]⟩)
  · exact h.dirs e (List.mem_filter.mp he).1 f (List.mem_filter.mp hf).1

theorem inDir_erase (h : p ≠ [] ∧ ∃ e ∈ l, e.1 = p.dropLast ∧ e.2.dir = true) :
    ∃ e ∈ l.filter (·.1 ≠ p), e.1 = p.dropLast ∧ e.2.dir = true := by
  obtain ⟨hp, e, he, hpar, hd⟩ := h
  refine ⟨e, List.mem_filter.mpr ⟨he, decide_eq_true fun heq ↦ ?_⟩, hpar, hd⟩
  have hlen := congrArg List.length (heq.symm.trans hpar)
  rw [List.length_dropLast] at hlen
  have hpos := List.length_pos_of_ne_nil hp
  omega

theorem not_prefix_erase (h : ∀ e ∈ l, p <+: e.1 → e.1 = p) :
    ∀ e ∈ l.filter (·.1 ≠ p), ¬p <+: e.1 := by
  intro e he hpre
  obtain ⟨he, hne⟩ := List.mem_filter.mp he
  exact of_decide_eq_true hne (h e he hpre)

theorem rebase_append (src dst p : List α) : Tree.rebase src dst (src ++ p) = dst ++ p := by
  rw [Tree.rebase, if_pos (List.prefix_append _ _), List.drop_left]

theorem rebase_of_not (h : ¬src <+: p) : Tree.rebase src dst p = p := if_neg h

theorem Valid.move (h : Valid l) (hfree : ∀ e ∈ l, ¬dst <+: e.1) (hsub : ¬src <+: dst)
    (hin : ∃ e ∈ l, e.1 = dst.dropLast ∧ e.2.dir = true) :
    Valid (l.map fun e ↦ (Tree.rebase src dst e.1, e.2)) := by
  refine ⟨?_, fun q a m hm ↦ ?_, fun e he f hf hef hd ↦ ?_⟩
  · have hkeys : (l.map fun e ↦ (Tree.rebase src dst e.1, e.2)).map Prod.fst =
        (l.map Prod.fst).map (Tree.rebase src dst) := by
      rw [List.map_map, List.map_map]
      rfl
    rw [hkeys]
    refine h.nodup.map_on fun p hp q hq hpq ↦ ?_
    obtain ⟨e, he, rfl⟩ := List.mem_map.mp hp
    obtain ⟨f, hf, rfl⟩ := List.mem_map.mp hq
    by_cases hpe : src <+: e.1
    · obtain ⟨r, hr⟩ := hpe
      by_cases hpf : src <+: f.1
      · obtain ⟨r', hr'⟩ := hpf
        rw [← hr, ← hr', rebase_append, rebase_append] at hpq
        rw [← hr, ← hr', List.append_cancel_left hpq]
      · rw [← hr, rebase_append, rebase_of_not hpf] at hpq
        exact absurd ⟨r, hpq⟩ (hfree f hf)
    · rw [rebase_of_not hpe] at hpq
      by_cases hpf : src <+: f.1
      · obtain ⟨r', hr'⟩ := hpf
        rw [← hr', rebase_append] at hpq
        exact absurd ⟨r', hpq.symm⟩ (hfree e he)
      · rwa [rebase_of_not hpf] at hpq
  · obtain ⟨⟨p, m⟩, hmem, heq⟩ := List.mem_map.mp hm
    obtain ⟨hq, rfl⟩ := Prod.mk.inj heq
    by_cases hp : src <+: p
    · obtain ⟨r, rfl⟩ := hp
      rw [rebase_append] at hq
      obtain rfl | ⟨r, b, rfl⟩ := List.eq_nil_or_concat r
      · rw [List.append_nil] at hq
        obtain ⟨⟨q', i, d⟩, he, hq', hd⟩ := hin
        rw [hq, List.dropLast_concat] at hq'
        obtain rfl : q' = q := hq'
        obtain rfl : d = true := hd
        refine ⟨i, List.mem_map.mpr ⟨_, he, ?_⟩⟩
        rw [rebase_of_not fun hsrc ↦ hsub (hsrc.trans ⟨[a], hq.symm⟩)]
      · rw [List.concat_eq_append, ← List.append_assoc] at hq hmem
        obtain ⟨rfl, -⟩ := List.append_inj' hq rfl
        obtain ⟨i, hi⟩ := h.parent _ _ _ hmem
        exact ⟨i, List.mem_map.mpr ⟨_, hi, by rw [rebase_append]⟩⟩
    · rw [rebase_of_not hp] at hq
      obtain ⟨i, hi⟩ := h.parent q a m (hq ▸ hmem)
      refine ⟨i, List.mem_map.mpr ⟨_, hi, ?_⟩⟩
      rw [rebase_of_not fun hsrc ↦ hp (hsrc.trans ⟨[a], hq.symm⟩)]
  · obtain ⟨e', he', rfl⟩ := List.mem_map.mp he
    obtain ⟨f', hf', rfl⟩ := List.mem_map.mp hf
    rw [h.dirs e' he' f' hf' hef hd]

end

namespace Tree

section

variable [DecidableEq α] {t t' : Tree α ι} {p src dst : List α} {n : Node ι}

theorem node?_eq_some : t.node? p = some n ↔ (p, n) ∈ t.entries := by
  rw [node?, Option.map_eq_some_iff]
  constructor
  · intro h
    obtain ⟨⟨q, m⟩, hfind, rfl⟩ := h
    have hkey := List.find?_some hfind
    obtain rfl : q = p := of_decide_eq_true hkey
    exact List.mem_of_find?_eq_some hfind
  · intro h
    cases hfind : t.entries.find? (·.1 = p) with
    | none => exact absurd rfl (of_decide_eq_false (Bool.eq_false_iff.mpr
        (List.find?_eq_none.mp hfind _ h)))
    | some e =>
      obtain ⟨q, m⟩ := e
      have hkey := List.find?_some hfind
      obtain rfl : q = p := of_decide_eq_true hkey
      exact ⟨_, rfl, t.valid.node_eq (List.mem_of_find?_eq_some hfind) h⟩

theorem bare_of_file (h : t.node? p = some n) (hn : n.dir = false) : t.Bare p := by
  intro e he hpre
  obtain ⟨q, m⟩ := e
  obtain ⟨r, rfl⟩ := hpre
  by_cases hr : r = []
  · exact (congrArg (p ++ ·) hr).trans (List.append_nil p)
  · obtain ⟨i, hi⟩ := t.valid.ancestor hr he
    rw [t.valid.node_eq (node?_eq_some.mp h) hi] at hn
    cases hn

def link (t : Tree α ι) (src dst : List α) : Option (Tree α ι) :=
  match h : t.node? src with
  | none => none
  | some n =>
    if h' : n.dir = false ∧ t.Free dst ∧ t.InDir dst then
      some ⟨_, t.valid.insert (n := n) h'.2.1 h'.2.2.2 fun e he hino ↦ by
        refine ⟨Bool.eq_false_iff.mpr fun hd ↦ ?_, h'.1⟩
        have heq := t.valid.dirs e he _ (node?_eq_some.mp h) hino hd
        rw [heq] at hd
        exact absurd (hd.symm.trans h'.1) nofun⟩
    else none

def erase (t : Tree α ι) (p : List α) (h : t.Bare p) : Tree α ι := ⟨_, t.valid.erase h⟩

def unlink (t : Tree α ι) (p : List α) : Option (Tree α ι) :=
  match h : t.node? p with
  | none => none
  | some n => if h' : n.dir = false then some (t.erase p (bare_of_file h h')) else none

def rmdir (t : Tree α ι) (p : List α) : Option (Tree α ι) :=
  if h : (t.node? p).any Node.dir ∧ p ≠ [] ∧ t.Bare p then some (t.erase p h.2.2) else none

theorem link_eq_some (h : t.link src dst = some t') : ∃ n, (src, n) ∈ t.entries ∧
    n.dir = false ∧ t.Free dst ∧ t'.entries = t.entries ++ [(dst, n)] := by
  rw [link] at h
  split at h
  · cases h
  · rename_i n hn
    split at h
    · rename_i hc
      cases h
      exact ⟨n, node?_eq_some.mp hn, hc.1, hc.2.1, rfl⟩
    · cases h

theorem unlink_eq_some (h : t.unlink p = some t') : ∃ n, (p, n) ∈ t.entries ∧
    n.dir = false ∧ t'.entries = t.entries.filter (·.1 ≠ p) := by
  rw [unlink] at h
  split at h
  · cases h
  · rename_i n hn
    split at h
    · rename_i hd
      cases h
      exact ⟨n, node?_eq_some.mp hn, hd, rfl⟩
    · cases h

theorem rmdir_eq_some (h : t.rmdir p = some t') : ∃ n, (p, n) ∈ t.entries ∧
    n.dir = true ∧ t'.entries = t.entries.filter (·.1 ≠ p) := by
  rw [rmdir] at h
  split at h
  · rename_i hc
    cases h
    obtain ⟨n, hn, hd⟩ := (Option.any_eq_true _ _).mp hc.1
    exact ⟨n, node?_eq_some.mp hn, hd, rfl⟩
  · cases h

/-! Paths that a change leaves alone. -/

theorem node?_append {q : List α} (h : t'.entries = t.entries ++ [(p, n)]) (hq : q ≠ p) :
    t'.node? q = t.node? q := by
  apply Option.ext
  intro m
  rw [node?_eq_some, node?_eq_some, h, List.mem_append, List.mem_singleton]
  exact or_iff_left fun heq ↦ hq (Prod.mk.inj heq).1

theorem node?_filter {q : List α} (h : t'.entries = t.entries.filter (·.1 ≠ p)) (hq : q ≠ p) :
    t'.node? q = t.node? q := by
  apply Option.ext
  intro m
  rw [node?_eq_some, node?_eq_some, h, List.mem_filter]
  exact and_iff_left (decide_eq_true hq)

/-! Calls that succeed. -/

theorem unlink_of_file (h : t.node? p = some n) (hn : n.dir = false) :
    ∃ t', t.unlink p = some t' ∧ t'.entries = t.entries.filter (·.1 ≠ p) := by
  rw [unlink]
  split
  · rename_i hnone
    rw [h] at hnone
    cases hnone
  · rename_i m hm
    obtain rfl : n = m := Option.some.inj (h.symm.trans hm)
    rw [dif_pos hn]
    exact ⟨_, rfl, rfl⟩

theorem link_of_file (h : t.node? src = some n) (hn : n.dir = false) (hfree : t.Free dst)
    (hin : t.InDir dst) :
    ∃ t', t.link src dst = some t' ∧ t'.entries = t.entries ++ [(dst, n)] := by
  rw [link]
  split
  · rename_i hnone
    rw [h] at hnone
    cases hnone
  · rename_i m hm
    obtain rfl : n = m := Option.some.inj (h.symm.trans hm)
    rw [dif_pos ⟨hn, hfree, hin⟩]
    exact ⟨_, rfl, rfl⟩

end

variable [DecidableEq ι]

instance (t : Tree α ι) (i : ι) : Decidable (t.Named i) :=
  inferInstanceAs (Decidable (∃ e ∈ t.entries, _))

/-- The number of paths with this inode. -/
def links (t : Tree α ι) (i : ι) : ℕ := (t.entries.filter (·.2.ino = i)).length

variable {t t' : Tree α ι} {p q src dst : List α} {n m : Node ι} {i : ι}

theorem links_eq_one (h : (p, n) ∈ t.entries) : t.links n.ino = 1 ↔ t.Only p n.ino := by
  have hp : (p, n) ∈ t.entries.filter (·.2.ino = n.ino) :=
    List.mem_filter.mpr ⟨h, decide_eq_true rfl⟩
  rw [links, List.length_eq_one_iff]
  constructor
  · intro hone e he hino
    obtain ⟨a, ha⟩ := hone
    have hmem : e ∈ t.entries.filter (·.2.ino = n.ino) :=
      List.mem_filter.mpr ⟨he, decide_eq_true hino⟩
    rw [ha] at hp hmem
    rw [List.mem_singleton.mp hmem, ← List.mem_singleton.mp hp]
  · intro hall
    have hle : (t.entries.filter (·.2.ino = n.ino)).length ≤ [(p, n)].length := by
      refine (List.subperm_of_subset (t.valid.entries_nodup.filter _) fun e he ↦ ?_).length_le
      obtain ⟨he, hino⟩ := List.mem_filter.mp he
      obtain ⟨q, m⟩ := e
      obtain rfl : q = p := hall _ he (of_decide_eq_true hino)
      rw [t.valid.node_eq he h]
      exact List.mem_singleton_self _
    exact List.length_eq_one_iff.mp (le_antisymm hle (List.length_pos_of_mem hp))

variable [DecidableEq α]

/-- `open` with `O_CREAT`, `mkdir` and `mkfifo` for a path that is not there. The
inode must not be in use. -/
def creat (t : Tree α ι) (p : List α) (n : Node ι) : Option (Tree α ι) :=
  if h : t.Free p ∧ t.InDir p ∧ ¬t.Named n.ino then
    some ⟨_, t.valid.insert (n := n) h.1 h.2.1.2 fun e he hino ↦ absurd ⟨e, he, hino⟩ h.2.2⟩
  else none

theorem creat_eq_some (h : t.creat p n = some t') :
    t.Free p ∧ ¬t.Named n.ino ∧ t'.entries = t.entries ++ [(p, n)] := by
  rw [creat] at h
  split at h
  · rename_i hc
    cases h
    exact ⟨hc.1, hc.2.2, rfl⟩
  · cases h

/-- A file that is made and deleted again. -/
theorem unlink_creat (h : t.creat p n = some t') (hn : n.dir = false) : t'.unlink p = some t := by
  obtain ⟨hfree, -, hentries⟩ := creat_eq_some h
  have hnode : t'.node? p = some n := by
    rw [node?_eq_some, hentries]
    exact List.mem_append_right _ (List.mem_singleton_self _)
  have hfilter : t'.entries.filter (·.1 ≠ p) = t.entries := by
    rw [hentries, List.filter_append, List.filter_eq_self.mpr]
    · simp
    · intro e he
      exact decide_eq_true fun heq ↦ hfree (List.mem_map.mpr ⟨e, he, heq⟩)
  obtain ⟨t₁, ht₁, hentries₁⟩ := unlink_of_file hnode hn
  rw [ht₁, Option.some.injEq]
  obtain ⟨entries, valid⟩ := t
  obtain ⟨entries₁, valid₁⟩ := t₁
  rw [Tree.mk.injEq]
  exact hentries₁.trans hfilter

/-- `rename`. It does nothing for two paths with one inode. -/
def rename (t : Tree α ι) (src dst : List α) : Option (Tree α ι) :=
  if src = [] ∨ dst = [] then none
  else (t.node? src).bind fun n ↦
    if (t.node? dst).map Node.ino = some n.ino then some t
    else if h : (∀ m ∈ t.node? dst, m.dir = n.dir) ∧ ¬src <+: dst ∧ t.Bare dst ∧ t.InDir dst then
      some ⟨_, (t.valid.erase h.2.2.1).move (not_prefix_erase h.2.2.1) h.2.1
        (inDir_erase h.2.2.2)⟩
    else none

theorem rename_eq_some (h : t.rename src dst = some t') : ∃ n, (src, n) ∈ t.entries ∧
    ((t' = t ∧ ∃ m, (dst, m) ∈ t.entries ∧ m.ino = n.ino) ∨
      ((∀ m, (dst, m) ∈ t.entries → m.ino ≠ n.ino) ∧ ¬src <+: dst ∧ t.Bare dst ∧
        t'.entries = (t.entries.filter (·.1 ≠ dst)).map fun e ↦ (rebase src dst e.1, e.2))) := by
  rw [rename] at h
  split at h
  · cases h
  · obtain ⟨n, hn, h⟩ := Option.bind_eq_some_iff.mp h
    refine ⟨n, node?_eq_some.mp hn, ?_⟩
    split at h
    · rename_i hsame
      cases h
      obtain ⟨m, hm, hino⟩ := Option.map_eq_some_iff.mp hsame
      exact .inl ⟨rfl, m, node?_eq_some.mp hm, hino⟩
    · rename_i hne
      split at h
      · rename_i hc
        cases h
        refine .inr ⟨fun m hm hino ↦ hne ?_, hc.2.1, hc.2.2.1, rfl⟩
        rw [node?_eq_some.mpr hm, ← hino]
        rfl
      · cases h

end Tree

end Isl.Lib.FileTree
