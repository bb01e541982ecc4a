import Isl.Lib.Links
import Mathlib.Data.List.Chain
import Mathlib.Data.Set.Basic

/-!
Rings of cells that point at each other, in a memory where a cell may not be
allocated. A family of intrusive lists is one ring for each head.
-/

namespace Isl.Lib.Rings

structure Cell (α : Type*) where
  next : Option α
  prev : Option α

abbrev Heap (α : Type*) := α → Option (Cell α)

variable {α : Type*}

namespace Heap

def next (m : Heap α) (a : α) : Option α := (m a).bind Cell.next

def prev (m : Heap α) (a : α) : Option α := (m a).bind Cell.prev

variable [DecidableEq α]

def setNext (m : Heap α) (a : α) (b : Option α) : Option (Heap α) :=
  (m a).map fun c ↦ Function.update m a (some { c with next := b })

def setPrev (m : Heap α) (a : α) (b : Option α) : Option (Heap α) :=
  (m a).map fun c ↦ Function.update m a (some { c with prev := b })

def link (m : Heap α) (a b : α) : Option (Heap α) := do
  let m ← m.setNext a (some b)
  m.setPrev b (some a)

end Heap

structure Rewired (m m' : Heap α) (next prev : α → Option α) : Prop where
  next_eq : m'.next = next
  prev_eq : m'.prev = prev
  isSome_eq : ∀ a, (m' a).isSome = (m a).isSome

structure Frame (s : Set α) (m m' : Heap α) : Prop where
  links : ∀ a ∉ s, m'.next a = m.next a ∧ m'.prev a = m.prev a
  isSome_eq : ∀ a, (m' a).isSome = (m a).isSome

section Edits

variable {m m' : Heap α}

theorem Frame.refl (s : Set α) (m : Heap α) : Frame s m m := ⟨fun _ _ ↦ ⟨rfl, rfl⟩, fun _ ↦ rfl⟩

theorem Frame.trans {s : Set α} {m'' : Heap α} (h : Frame s m m') (h' : Frame s m' m'') :
    Frame s m m'' where
  links a ha := ⟨(h'.links a ha).1.trans (h.links a ha).1, (h'.links a ha).2.trans (h.links a ha).2⟩
  isSome_eq a := (h'.isSome_eq a).trans (h.isSome_eq a)

theorem Frame.mono {s s' : Set α} (h : Frame s m m') (hs : s ⊆ s') : Frame s' m m' :=
  ⟨fun a ha ↦ h.links a fun h ↦ ha (hs h), h.isSome_eq⟩

theorem Frame.cell_eq {s : Set α} (h : Frame s m m') {a : α} (ha : a ∉ s) : m' a = m a := by
  obtain ⟨hn, hv⟩ := h.links a ha
  have hs := h.isSome_eq a
  rw [Heap.next, Heap.next] at hn
  rw [Heap.prev, Heap.prev] at hv
  cases hm : m a with
  | none =>
    rw [hm] at hs
    exact Option.not_isSome_iff_eq_none.mp (by simp [hs])
  | some c =>
    obtain ⟨c', hc'⟩ := Option.isSome_iff_exists.mp (hs.trans (by rw [hm]; rfl))
    rw [hm, hc', Option.bind_some, Option.bind_some] at hn hv
    obtain ⟨n, v⟩ := c
    obtain ⟨n', v'⟩ := c'
    cases hn
    cases hv
    exact hc'

variable [DecidableEq α] {a b : α} {v : Option α}

section

variable {f g : α → Option α} {x y : α} {u : Option α}

theorem Rewired.next_of_ne (h : Rewired m m' (Function.update (Function.update f x u) y v) g)
    (hx : a ≠ x) (hy : a ≠ y) : m'.next a = f a := by
  rw [h.next_eq, Function.update_of_ne hy, Function.update_of_ne hx]

theorem Rewired.prev_of_ne (h : Rewired m m' g (Function.update (Function.update f x u) y v))
    (hx : a ≠ x) (hy : a ≠ y) : m'.prev a = f a := by
  rw [h.prev_eq, Function.update_of_ne hy, Function.update_of_ne hx]

end

theorem rewired_update {c : Cell α} (ha : (m a).isSome) : Rewired m (Function.update m a (some c))
    (Function.update m.next a c.next) (Function.update m.prev a c.prev) := by
  refine ⟨?_, ?_, ?_⟩
  · funext x
    by_cases hx : x = a
    · subst hx
      simp [Heap.next]
    · simp [Heap.next, hx]
  · funext x
    by_cases hx : x = a
    · subst hx
      simp [Heap.prev]
    · simp [Heap.prev, hx]
  · intro x
    by_cases hx : x = a
    · subst hx
      simp [ha]
    · simp [hx]

theorem exists_setNext (ha : (m a).isSome) :
    ∃ m', m.setNext a v = some m' ∧ Rewired m m' (Function.update m.next a v) m.prev := by
  obtain ⟨c, hc⟩ := Option.isSome_iff_exists.mp ha
  have hprev : m.prev a = c.prev := by rw [Heap.prev, hc, Option.bind_some]
  have hrew := rewired_update (c := ⟨v, m.prev a⟩) ha
  rw [Function.update_eq_self, hprev] at hrew
  exact ⟨_, by rw [Heap.setNext, hc, Option.map_some], hrew⟩

theorem exists_setPrev (ha : (m a).isSome) :
    ∃ m', m.setPrev a v = some m' ∧ Rewired m m' m.next (Function.update m.prev a v) := by
  obtain ⟨c, hc⟩ := Option.isSome_iff_exists.mp ha
  have hnext : m.next a = c.next := by rw [Heap.next, hc, Option.bind_some]
  have hrew := rewired_update (c := ⟨m.next a, v⟩) ha
  rw [Function.update_eq_self, hnext] at hrew
  exact ⟨_, by rw [Heap.setPrev, hc, Option.map_some], hrew⟩

theorem exists_link (ha : (m a).isSome) (hb : (m b).isSome) : ∃ m', m.link a b = some m' ∧
    Rewired m m' (Function.update m.next a (some b)) (Function.update m.prev b (some a)) := by
  obtain ⟨m₁, h₁, hr₁⟩ := exists_setNext (v := some b) ha
  obtain ⟨m₂, h₂, hr₂⟩ := exists_setPrev (m := m₁) (v := some a) ((hr₁.isSome_eq b).trans hb)
  refine ⟨m₂, ?_, ⟨hr₂.next_eq.trans hr₁.next_eq, ?_, fun c ↦ ?_⟩⟩
  · rw [Heap.link, h₁]
    exact h₂
  · rw [hr₂.prev_eq, hr₁.prev_eq]
  · rw [hr₂.isSome_eq, hr₁.isSome_eq]

end Edits

/-! Chains. -/

def Linked (m : Heap α) : List α → Prop :=
  List.IsChain fun a b ↦ m.next a = some b ∧ m.prev b = some a

variable {m m' : Heap α} {h p q x y : α} {xs ys zs as bs : List α}

theorem Linked.congr (hl : Linked m xs) (hn : ∀ a ∈ xs.dropLast, m'.next a = m.next a)
    (hp : ∀ b ∈ xs.tail, m'.prev b = m.prev b) : Linked m' xs := by
  induction xs with
  | nil => exact List.isChain_nil
  | cons a xs ih =>
    cases xs with
    | nil => exact List.isChain_singleton a
    | cons b xs =>
      obtain ⟨hab, hl⟩ := List.isChain_cons_cons.mp hl
      refine List.isChain_cons_cons.mpr ⟨⟨?_, ?_⟩, ih hl ?_ ?_⟩
      · rw [hn a List.mem_cons_self, hab.1]
      · rw [hp b List.mem_cons_self, hab.2]
      · intro c hc
        exact hn c (List.mem_cons_of_mem a hc)
      · intro c hc
        exact hp c (List.mem_cons_of_mem b hc)

theorem linked_append : Linked m (xs ++ x :: ys) ↔ Linked m (xs ++ [x]) ∧ Linked m (x :: ys) :=
  List.isChain_split

theorem linked_cons_cons : Linked m (x :: y :: ys) ↔
    (m.next x = some y ∧ m.prev y = some x) ∧ Linked m (y :: ys) := List.isChain_cons_cons

theorem isSome_of_next (ha : m.next x = some y) : (m x).isSome := by
  obtain ⟨c, hc, -⟩ := Option.bind_eq_some_iff.mp ha
  exact Option.isSome_iff_exists.mpr ⟨c, hc⟩

theorem Linked.insert (hl : Linked m (as ++ p :: q :: bs))
    (hp : m'.next p = some x ∧ m'.prev x = some p) (hq : m'.next x = some q ∧ m'.prev q = some x)
    (has : Linked m (as ++ [p]) → Linked m' (as ++ [p]))
    (hbs : Linked m (q :: bs) → Linked m' (q :: bs)) : Linked m' (as ++ p :: x :: q :: bs) := by
  obtain ⟨hleft, hright⟩ := linked_append.mp hl
  obtain ⟨-, hright⟩ := linked_cons_cons.mp hright
  have htail := linked_cons_cons.mpr ⟨hq, hbs hright⟩
  exact linked_append.mpr ⟨has hleft, linked_cons_cons.mpr ⟨hp, htail⟩⟩

theorem Linked.erase (hl : Linked m (as ++ p :: x :: q :: bs))
    (hpq : m'.next p = some q ∧ m'.prev q = some p)
    (has : Linked m (as ++ [p]) → Linked m' (as ++ [p]))
    (hbs : Linked m (q :: bs) → Linked m' (q :: bs)) : Linked m' (as ++ p :: q :: bs) := by
  obtain ⟨hleft, hright⟩ := linked_append.mp hl
  obtain ⟨-, hright⟩ := linked_cons_cons.mp hright
  obtain ⟨-, hright⟩ := linked_cons_cons.mp hright
  exact linked_append.mpr ⟨has hleft, linked_cons_cons.mpr ⟨hpq, hbs hright⟩⟩

/-! Rings. -/

/-- The cells of a list, from its head round to it. -/
def Circular (m : Heap α) (h : α) (xs : List α) : Prop := Linked m (h :: (xs ++ [h]))

theorem ring_nil : Circular m h [] ↔ m.next h = some h ∧ m.prev h = some h := by
  refine List.isChain_cons_cons.trans (and_iff_left (List.isChain_singleton h))

theorem Circular.congr (hr : Circular m h xs)
    (hm : ∀ a ∈ h :: xs, m'.next a = m.next a ∧ m'.prev a = m.prev a) : Circular m' h xs := by
  refine Linked.congr hr (fun a ha ↦ ?_) fun b hb ↦ ?_
  · rw [← List.cons_append, List.dropLast_concat] at ha
    exact (hm a ha).1
  · refine (hm b ?_).2
    rcases List.mem_append.mp hb with hb | hb
    · exact List.mem_cons_of_mem h hb
    · exact List.mem_singleton.mp hb ▸ List.mem_cons_self

/-- The cells before and after a place of a ring. -/
structure Gap (h : α) (ys zs : List α) (p q : α) : Prop where
  before : ∃ as, h :: ys = as ++ [p]
  after : ∃ bs, zs ++ [h] = q :: bs

theorem exists_before (h : α) (ys : List α) : ∃ p as, h :: ys = as ++ [p] :=
  ⟨_, _, (List.dropLast_append_getLast (List.cons_ne_nil h ys)).symm⟩

theorem exists_after (h : α) (zs : List α) : ∃ q bs, zs ++ [h] = q :: bs := by
  cases zs with
  | nil => exact ⟨h, [], rfl⟩
  | cons z zs => exact ⟨z, zs ++ [h], rfl⟩

theorem exists_gap (h : α) (ys zs : List α) : ∃ p q, Gap h ys zs p q := by
  obtain ⟨p, hp⟩ := exists_before h ys
  obtain ⟨q, hq⟩ := exists_after h zs
  exact ⟨p, q, hp, hq⟩

theorem exists_gap_first (h : α) (zs : List α) : ∃ q, Gap h [] zs h q := by
  obtain ⟨q, hq⟩ := exists_after h zs
  exact ⟨q, ⟨[], rfl⟩, hq⟩

theorem exists_gap_last (h : α) (ys : List α) : ∃ p, Gap h ys [] p h := by
  obtain ⟨p, hp⟩ := exists_before h ys
  exact ⟨p, hp, ⟨[], rfl⟩⟩

theorem exists_gap_behind (h : α) (ys : List α) (y : α) (zs : List α) :
    ∃ q, Gap h (ys ++ [y]) zs y q := by
  obtain ⟨q, hq⟩ := exists_after h zs
  exact ⟨q, ⟨h :: ys, rfl⟩, hq⟩

theorem exists_gap_ahead (h : α) (ys : List α) (z : α) (zs : List α) :
    ∃ p, Gap h ys (z :: zs) p z := by
  obtain ⟨p, hp⟩ := exists_before h ys
  exact ⟨p, hp, ⟨zs ++ [h], rfl⟩⟩

theorem Gap.mem_before (hg : Gap h ys zs p q) : p ∈ h :: ys := by
  obtain ⟨as, has⟩ := hg.before
  rw [has]
  exact List.mem_append_right as List.mem_cons_self

theorem Gap.mem_after (hg : Gap h ys zs p q) : q ∈ h :: zs := by
  obtain ⟨bs, hbs⟩ := hg.after
  have hq : q ∈ zs ++ [h] := by rw [hbs]; exact List.mem_cons_self
  exact List.mem_cons.mpr ((List.mem_append.mp hq).symm.imp_left List.mem_singleton.mp)

/-- What a ring is made of on both sides of a place, where the links of the
neighbours there and of a cell that is not on it are all that changes. -/
theorem Gap.sides (hg : Gap h ys zs p q) (hnd : (h :: (ys ++ zs)).Nodup)
    (hx : x ∉ h :: (ys ++ zs)) (hn : ∀ a, a ≠ p → a ≠ x → m'.next a = m.next a)
    (hv : ∀ b, b ≠ q → b ≠ x → m'.prev b = m.prev b) : ∃ as bs, h :: ys = as ++ [p] ∧
      zs ++ [h] = q :: bs ∧ (Linked m (as ++ [p]) → Linked m' (as ++ [p])) ∧
      (Linked m (q :: bs) → Linked m' (q :: bs)) := by
  obtain ⟨as, has⟩ := hg.before
  obtain ⟨bs, hbs⟩ := hg.after
  have hleft : (as ++ [p]).Nodup := has ▸ hnd.sublist ((List.sublist_append_left ys zs).cons_cons h)
  have hright : (q :: bs).Nodup := by
    rw [← hbs]
    have hperm : (zs ++ [h]).Perm (h :: zs) := List.perm_append_singleton h zs
    exact hperm.nodup_iff.mpr (hnd.sublist ((List.sublist_append_right ys zs).cons_cons h))
  have hpz : p ∉ zs := by
    intro hp
    have hdisj := List.disjoint_of_nodup_append (List.cons_append ▸ hnd : (h :: ys ++ zs).Nodup)
    exact hdisj hg.mem_before hp
  have hqy : q ∉ ys := by
    intro hq
    rcases List.mem_cons.mp hg.mem_after with rfl | hz
    · exact (List.nodup_cons.mp hnd).1 (List.mem_append_left zs hq)
    · exact List.disjoint_of_nodup_append (List.nodup_cons.mp hnd).2 hq hz
  have hxy (a : α) (ha : a ∈ h :: (ys ++ zs)) : a ≠ x := ne_of_mem_of_not_mem ha hx
  have hsub : ∀ a ∈ as ++ [p], a ∈ h :: (ys ++ zs) := by
    intro a ha
    rw [← has] at ha
    exact List.cons_subset_cons h (List.subset_append_left ys zs) ha
  have hsub' : ∀ b ∈ q :: bs, b ∈ h :: (ys ++ zs) := by
    intro b hb
    rw [← hbs] at hb
    rcases List.mem_append.mp hb with hb | hb
    · exact List.mem_cons_of_mem h (List.mem_append_right ys hb)
    · exact List.mem_singleton.mp hb ▸ List.mem_cons_self
  refine ⟨as, bs, has, hbs, fun hl ↦ hl.congr ?_ ?_, fun hl ↦ hl.congr ?_ ?_⟩
  · intro a ha
    rw [List.dropLast_concat] at ha
    have hap : a ≠ p := by
      rintro rfl
      exact List.disjoint_of_nodup_append hleft ha List.mem_cons_self
    exact hn a hap (hxy a (hsub a (List.mem_append_left _ ha)))
  · intro b hb
    have hb' : b ∈ ys := by rwa [← has] at hb
    exact hv b (ne_of_mem_of_not_mem hb' hqy) (hxy b (hsub b (List.mem_of_mem_tail hb)))
  · intro a ha
    have ha' : a ∈ zs := by rwa [← hbs, List.dropLast_concat] at ha
    exact hn a (ne_of_mem_of_not_mem ha' hpz) (hxy a (hsub' a (List.dropLast_subset _ ha)))
  · intro b hb
    have hbq : b ≠ q := ne_of_mem_of_not_mem hb (List.nodup_cons.mp hright).1
    exact hv b hbq (hxy b (hsub' b (List.mem_of_mem_tail hb)))

theorem Gap.ne (hg : Gap h ys zs p q) (hx : x ∉ h :: (ys ++ zs)) : p ≠ x ∧ q ≠ x := by
  constructor
  · rintro rfl
    exact hx (List.cons_subset_cons h (List.subset_append_left ys zs) hg.mem_before)
  · rintro rfl
    exact hx (List.cons_subset_cons h (List.subset_append_right ys zs) hg.mem_after)

/-- A ring is a row of cells from the one before a place to the one behind it. -/
theorem circular_iff_linked {c : List α} (has : h :: ys = as ++ [p]) (hbs : zs ++ [h] = q :: bs) :
    Circular m h (ys ++ (c ++ zs)) ↔ Linked m (as ++ p :: (c ++ q :: bs)) := by
  rw [← hbs, List.append_cons, ← has]
  simp only [Circular, List.cons_append, List.append_assoc]

theorem Gap.neighbours (hg : Gap h ys zs p q) (hr : Circular m h (ys ++ zs)) :
    m.next p = some q ∧ m.prev q = some p := by
  obtain ⟨as, has⟩ := hg.before
  obtain ⟨bs, hbs⟩ := hg.after
  have hl : Linked m (as ++ p :: q :: bs) := (circular_iff_linked (c := []) has hbs).mp hr
  exact (linked_cons_cons.mp (linked_append.mp hl).2).1

theorem Gap.links (hg : Gap h ys zs p q) (hr : Circular m h (ys ++ x :: zs)) :
    m.prev x = some p ∧ m.next x = some q := by
  obtain ⟨as, has⟩ := hg.before
  obtain ⟨bs, hbs⟩ := hg.after
  have hl : Linked m (as ++ p :: x :: q :: bs) := (circular_iff_linked (c := [x]) has hbs).mp hr
  obtain ⟨hpx, htail⟩ := linked_cons_cons.mp (linked_append.mp hl).2
  exact ⟨hpx.2, (linked_cons_cons.mp htail).1.1⟩

theorem Circular.next (hr : Circular m h (xs ++ x :: ys)) :
    m.next x = (ys ++ [h]).head? := by
  obtain ⟨p, q, hg⟩ := exists_gap h xs ys
  obtain ⟨bs, hbs⟩ := hg.after
  rw [(hg.links hr).2, hbs]
  rfl

theorem Circular.next_head (hr : Circular m h xs) : m.next h = (xs ++ [h]).head? := by
  cases xs with
  | nil => exact (ring_nil.mp hr).1
  | cons x xs => exact (linked_cons_cons.mp hr).1.1

section

variable [DecidableEq α]

theorem Circular.insert (hr : Circular m h (ys ++ zs)) (hg : Gap h ys zs p q)
    (hnd : (h :: (ys ++ zs)).Nodup) (hx : x ∉ h :: (ys ++ zs))
    (hm : Rewired m m' (Function.update (Function.update m.next p (some x)) x (some q))
      (Function.update (Function.update m.prev x (some p)) q (some x))) :
    Circular m' h (ys ++ x :: zs) := by
  obtain ⟨hpx, hqx⟩ := hg.ne hx
  obtain ⟨as, bs, has, hbs, hleft, hright⟩ := hg.sides hnd hx
    (fun a hap hax ↦ hm.next_of_ne hap hax) (fun b hbq hbx ↦ hm.prev_of_ne hbx hbq)
  have hl : Linked m (as ++ p :: q :: bs) := (circular_iff_linked (c := []) has hbs).mp hr
  have hl' : Linked m' (as ++ p :: x :: q :: bs) := by
    refine hl.insert ⟨?_, ?_⟩ ⟨?_, ?_⟩ hleft hright
    · rw [hm.next_eq, Function.update_of_ne hpx, Function.update_self]
    · rw [hm.prev_eq, Function.update_of_ne hqx.symm, Function.update_self]
    · rw [hm.next_eq, Function.update_self]
    · rw [hm.prev_eq, Function.update_self]
  exact (circular_iff_linked (c := [x]) has hbs).mpr hl'

theorem Circular.erase (hr : Circular m h (ys ++ x :: zs)) (hg : Gap h ys zs p q)
    (hnd : (h :: (ys ++ zs)).Nodup) (hx : x ∉ h :: (ys ++ zs))
    (hm : Rewired m m' (Function.update (Function.update m.next p (some q)) x none)
      (Function.update (Function.update m.prev q (some p)) x none)) : Circular m' h (ys ++ zs) := by
  obtain ⟨hpx, hqx⟩ := hg.ne hx
  obtain ⟨as, bs, has, hbs, hleft, hright⟩ := hg.sides hnd hx
    (fun a hap hax ↦ hm.next_of_ne hap hax) (fun b hbq hbx ↦ hm.prev_of_ne hbq hbx)
  have hl : Linked m (as ++ p :: x :: q :: bs) := (circular_iff_linked (c := [x]) has hbs).mp hr
  have hl' : Linked m' (as ++ p :: q :: bs) := by
    refine hl.erase ⟨?_, ?_⟩ hleft hright
    · rw [hm.next_eq, Function.update_of_ne hpx, Function.update_self]
    · rw [hm.prev_eq, Function.update_of_ne hqx, Function.update_self]
  exact (circular_iff_linked (c := []) has hbs).mpr hl'

end

/-! Families of lists. -/

section Family

variable {κ ι : Type*}

/-- The cells of the heads and of the items are all different. -/
structure Places (head : κ → α) (node : ι → α) : Prop where
  head_injective : Function.Injective head
  node_injective : Function.Injective node
  head_ne_node : ∀ k i, head k ≠ node i

/-- Every item is on one list at most, and there once. -/
structure Apart (l : κ → List ι) : Prop where
  nodup : Links.Nodup l
  unique : ∀ k k' i, i ∈ l k → i ∈ l k' → k = k'

/-- There is a ring for each live head. -/
def Represents (m : Heap α) (head : κ → α) (node : ι → α) (live : κ → Prop) (l : κ → List ι) :
    Prop := ∀ k, live k → Circular m (head k) ((l k).map node)

variable {head : κ → α} {node : ι → α} {live : κ → Prop} {l : κ → List ι} {k k' : κ} {i j : ι}
  {is js : List ι}

theorem Represents.congr (hr : Represents m head node live l)
    (hm : ∀ k, live k → ∀ a ∈ head k :: (l k).map node, m'.next a = m.next a ∧ m'.prev a = m.prev a) :
    Represents m' head node live l := fun k hk ↦ (hr k hk).congr (hm k hk)

theorem Places.notMem (hpl : Places head node) (hi : i ∉ is) : node i ∉ head k :: is.map node := by
  intro hmem
  rcases List.mem_cons.mp hmem with h | h
  · exact hpl.head_ne_node k i h.symm
  · exact hi ((List.mem_map_of_injective hpl.node_injective).mp h)

theorem Places.nodup (hpl : Places head node) (h : is.Nodup) : (head k :: is.map node).Nodup := by
  refine List.nodup_cons.mpr ⟨fun hmem ↦ ?_, h.map hpl.node_injective⟩
  obtain ⟨i, -, hi⟩ := List.mem_map.mp hmem
  exact hpl.head_ne_node k i hi.symm

theorem Places.disjoint (hpl : Places head node) (hl : ∀ i, i ∈ l k → i ∉ l k') (hk : k ≠ k') :
    List.Disjoint (head k :: (l k).map node) (head k' :: (l k').map node) := by
  intro a ha hb
  rcases List.mem_cons.mp ha with rfl | ha
  · rcases List.mem_cons.mp hb with hb | hb
    · exact hk (hpl.head_injective hb)
    · obtain ⟨i, -, hi⟩ := List.mem_map.mp hb
      exact hpl.head_ne_node k i hi.symm
  · obtain ⟨i, hi, rfl⟩ := List.mem_map.mp ha
    exact hpl.notMem (hl i hi) hb

theorem Gap.mem_cells (hg : Gap (head k) (is.map node) (js.map node) p q) :
    p ∈ head k :: (is ++ js).map node ∧ q ∈ head k :: (is ++ js).map node := by
  rw [List.map_append]
  constructor
  · exact List.cons_subset_cons _ (List.subset_append_left _ _) hg.mem_before
  · exact List.cons_subset_cons _ (List.subset_append_right _ _) hg.mem_after

/-- An edit of one ring, of cells on it and one on none, leaves the others alone. -/
theorem Represents.edit [DecidableEq κ] {is' : List ι} (hr : Represents m head node live l)
    (hpl : Places head node) (hl : Apart l)
    (hp : p ∈ head k :: (l k).map node) (hq : q ∈ head k :: (l k).map node)
    (hi : ∀ k', k' ≠ k → i ∉ l k') (hk : live k → Circular m' (head k) (is'.map node))
    (hm : ∀ a, a ≠ p → a ≠ q → a ≠ node i → m'.next a = m.next a ∧ m'.prev a = m.prev a) :
    Represents m' head node live (Function.update l k is') := by
  intro k' hk'
  by_cases hkk : k' = k
  · subst hkk
    rw [Function.update_self]
    exact hk hk'
  · rw [Function.update_of_ne hkk]
    refine (hr k' hk').congr fun a ha ↦ hm a ?_ ?_ ?_
    · rintro rfl
      exact hpl.disjoint (fun i hi hi' ↦ hkk (hl.unique k' k i hi hi')) hkk ha hp
    · rintro rfl
      exact hpl.disjoint (fun i hi hi' ↦ hkk (hl.unique k' k i hi hi')) hkk ha hq
    · rintro rfl
      exact hpl.notMem (hi k' hkk) ha

theorem Frame.of_edit (hg : Gap (head k) (is.map node) (js.map node) p q)
    (hm : ∀ a, a ≠ p → a ≠ q → a ≠ node i → m'.next a = m.next a ∧ m'.prev a = m.prev a)
    (hs : ∀ a, (m' a).isSome = (m a).isSome) :
    Frame {a | a ∈ node i :: head k :: (is ++ js).map node} m m' where
  links a ha := by
    obtain ⟨hai, ha⟩ := not_or.mp (mt List.mem_cons.mpr ha)
    have hcell (b : α) (hb : b ∈ head k :: (is ++ js).map node) : a ≠ b :=
      (ne_of_mem_of_not_mem hb ha).symm
    exact hm a (hcell p hg.mem_cells.1) (hcell q hg.mem_cells.2) hai
  isSome_eq := hs

variable [DecidableEq α] [DecidableEq κ]

theorem Represents.insert (hr : Represents m head node live l) (hpl : Places head node)
    (hl : Apart l) (hlk : l k = is ++ js) (hi : ∀ k', i ∉ l k')
    (hg : Gap (head k) (is.map node) (js.map node) p q)
    (hm : Rewired m m' (Function.update (Function.update m.next p (some (node i))) (node i) (some q))
      (Function.update (Function.update m.prev (node i) (some p)) q (some (node i)))) :
    Represents m' head node live (Function.update l k (is ++ i :: js)) ∧
      Frame {a | a ∈ node i :: head k :: (is ++ js).map node} m m' := by
  have hik : i ∉ is ++ js := hlk ▸ hi k
  have hsame (a : α) (hap : a ≠ p) (haq : a ≠ q) (hai : a ≠ node i) :
      m'.next a = m.next a ∧ m'.prev a = m.prev a :=
    ⟨hm.next_of_ne hap hai, hm.prev_of_ne hai haq⟩
  refine ⟨hr.edit hpl hl ?_ ?_ (fun k' _ ↦ hi k') (fun hk ↦ ?_) hsame,
    .of_edit hg hsame hm.isSome_eq⟩
  · exact hlk ▸ hg.mem_cells.1
  · exact hlk ▸ hg.mem_cells.2
  · have hring := hr k hk
    rw [hlk, List.map_append] at hring
    rw [List.map_append, List.map_cons]
    refine hring.insert hg ?_ ?_ hm
    · rw [← List.map_append]
      exact hpl.nodup (hlk ▸ hl.nodup k)
    · rw [← List.map_append]
      exact hpl.notMem hik

theorem Represents.erase (hr : Represents m head node live l) (hpl : Places head node)
    (hl : Apart l) (hlk : l k = is ++ i :: js)
    (hg : Gap (head k) (is.map node) (js.map node) p q)
    (hm : Rewired m m' (Function.update (Function.update m.next p (some q)) (node i) none)
      (Function.update (Function.update m.prev q (some p)) (node i) none)) :
    Represents m' head node live (Function.update l k (is ++ js)) ∧
      Frame {a | a ∈ node i :: head k :: (is ++ js).map node} m m' := by
  have hnd : (is ++ i :: js).Nodup := hlk ▸ hl.nodup k
  obtain ⟨hik, hnd'⟩ := List.nodup_cons.mp (List.nodup_middle.mp hnd)
  have hsub : is ++ js ⊆ l k := by
    rw [hlk]
    exact ((List.sublist_cons_self i js).append_left is).subset
  have hcells := List.cons_subset_cons (head k) (List.map_subset node hsub)
  have hsame (a : α) (hap : a ≠ p) (haq : a ≠ q) (hai : a ≠ node i) :
      m'.next a = m.next a ∧ m'.prev a = m.prev a :=
    ⟨hm.next_of_ne hap hai, hm.prev_of_ne haq hai⟩
  refine ⟨hr.edit hpl hl (hcells hg.mem_cells.1) (hcells hg.mem_cells.2) (fun k' hk' hi ↦ ?_)
    (fun hk ↦ ?_) hsame, .of_edit hg hsame hm.isSome_eq⟩
  · exact hk' (hl.unique k' k i hi (hlk ▸ List.mem_append_right is List.mem_cons_self))
  · have hring := hr k hk
    rw [hlk, List.map_append, List.map_cons] at hring
    rw [List.map_append]
    refine hring.erase hg ?_ ?_ hm
    · rw [← List.map_append]
      exact hpl.nodup hnd'
    · rw [← List.map_append]
      exact hpl.notMem hik

theorem Apart.insert (hl : Apart l) (hlk : l k = is ++ js) (hi : ∀ k', i ∉ l k') :
    Apart (Function.update l k (is ++ i :: js)) := by
  have hmem (k' : κ) (x : ι) (hx : x ∈ Function.update l k (is ++ i :: js) k') :
      x = i ∧ k' = k ∨ x ∈ l k' := by
    by_cases hk : k' = k
    · subst hk
      rw [Function.update_self] at hx
      rw [hlk]
      simpa [or_left_comm, or_comm] using hx
    · rw [Function.update_of_ne hk] at hx
      exact .inr hx
  refine ⟨fun k' ↦ ?_, fun k₁ k₂ x h₁ h₂ ↦ ?_⟩
  · by_cases hk : k' = k
    · subst hk
      rw [Function.update_self]
      exact List.nodup_middle.mpr (List.nodup_cons.mpr ⟨hlk ▸ hi k', hlk ▸ hl.nodup k'⟩)
    · rw [Function.update_of_ne hk]
      exact hl.nodup k'
  · rcases hmem k₁ x h₁ with ⟨rfl, rfl⟩ | hx₁
    · rcases hmem k₂ x h₂ with ⟨-, rfl⟩ | hx₂
      · rfl
      · exact absurd hx₂ (hi k₂)
    · rcases hmem k₂ x h₂ with ⟨rfl, -⟩ | hx₂
      · exact absurd hx₁ (hi k₁)
      · exact hl.unique k₁ k₂ x hx₁ hx₂

omit [DecidableEq κ] in
theorem Apart.remove [DecidableEq ι] (hl : Apart l) (i : ι) : Apart (Links.remove l i) where
  nodup := hl.nodup.remove i
  unique k k' x hx hx' := hl.unique k k' x (Links.mem_remove.mp hx).1 (Links.mem_remove.mp hx').1

/-! The lists that an edit leaves, as `Links` has them. -/

variable [DecidableEq ι]

def insertBefore (i j : ι) : List ι → List ι
  | [] => []
  | x :: xs => if x = i then j :: x :: xs else x :: insertBefore i j xs

/-- Link `j` in front of `i`, on the list that `i` is on. -/
def addBefore (l : κ → List ι) (i j : ι) : κ → List ι := fun k ↦ insertBefore i j (l k)

theorem insertBefore_of_notMem (hi : i ∉ is) : insertBefore i j is = is := by
  induction is with
  | nil => rfl
  | cons x is ih =>
    obtain ⟨hx, hi⟩ := not_or.mp (mt List.mem_cons.mpr hi)
    rw [insertBefore, if_neg (Ne.symm hx), ih hi]

theorem insertBefore_append (hi : i ∉ is) :
    insertBefore i j (is ++ i :: js) = is ++ j :: i :: js := by
  induction is with
  | nil => rw [List.nil_append, insertBefore, if_pos rfl, List.nil_append]
  | cons x is ih =>
    obtain ⟨hx, hi⟩ := not_or.mp (mt List.mem_cons.mpr hi)
    rw [List.cons_append, insertBefore, if_neg (Ne.symm hx), ih hi, List.cons_append]

theorem insertAfter_of_notMem (hi : i ∉ is) : Links.insertAfter i j is = is := by
  induction is with
  | nil => rfl
  | cons x is ih =>
    obtain ⟨hx, hi⟩ := not_or.mp (mt List.mem_cons.mpr hi)
    rw [Links.insertAfter, if_neg (Ne.symm hx), ih hi]

theorem insertAfter_append (hi : i ∉ is) :
    Links.insertAfter i j (is ++ i :: js) = is ++ i :: j :: js := by
  induction is with
  | nil => rw [List.nil_append, Links.insertAfter, if_pos rfl, List.nil_append]
  | cons x is ih =>
    obtain ⟨hx, hi⟩ := not_or.mp (mt List.mem_cons.mpr hi)
    rw [List.cons_append, Links.insertAfter, if_neg (Ne.symm hx), ih hi, List.cons_append]

omit [DecidableEq ι] in
/-- A change of each list that leaves those alone where `i` is not is one of a single list. -/
theorem Apart.map_eq (hl : Apart l) {f : List ι → List ι} (hf : ∀ is, i ∉ is → f is = is)
    (hik : i ∈ l k) : (fun k ↦ f (l k)) = Function.update l k (f (l k)) := by
  funext k'
  by_cases hk : k' = k
  · subst hk
    rw [Function.update_self]
  · rw [Function.update_of_ne hk]
    exact hf _ fun hi ↦ hk (hl.unique k' k i hi hik)

theorem addAfter_eq (hl : Apart l) (hlk : l k = is ++ i :: js) :
    Links.addAfter l i j = Function.update l k (is ++ [i] ++ j :: js) := by
  have hi : i ∉ is := by
    intro hi
    exact List.disjoint_of_nodup_append (hlk ▸ hl.nodup k) hi List.mem_cons_self
  have hik : i ∈ l k := hlk ▸ List.mem_append_right is List.mem_cons_self
  refine (hl.map_eq (fun is hi ↦ insertAfter_of_notMem hi) hik).trans ?_
  rw [hlk, insertAfter_append hi, List.append_cons]

theorem addBefore_eq (hl : Apart l) (hlk : l k = is ++ i :: js) :
    addBefore l i j = Function.update l k (is ++ j :: i :: js) := by
  have hi : i ∉ is := by
    intro hi
    exact List.disjoint_of_nodup_append (hlk ▸ hl.nodup k) hi List.mem_cons_self
  have hik : i ∈ l k := hlk ▸ List.mem_append_right is List.mem_cons_self
  refine (hl.map_eq (fun is hi ↦ insertBefore_of_notMem hi) hik).trans ?_
  rw [hlk, insertBefore_append hi]

theorem remove_eq (hl : Apart l) (hlk : l k = is ++ i :: js) :
    Links.remove l i = Function.update l k (is ++ js) := by
  have hf (is : List ι) (hi : i ∉ is) : is.filter (· ≠ i) = is :=
    List.filter_eq_self.mpr fun a ha ↦ by simpa using ne_of_mem_of_not_mem ha hi
  refine (hl.map_eq (k := k) hf ?_).trans ?_
  · exact hlk ▸ List.mem_append_right is List.mem_cons_self
  · have hnd := List.nodup_middle.mp (hlk ▸ hl.nodup k)
    obtain ⟨hi, -⟩ := List.nodup_cons.mp hnd
    obtain ⟨hi, hi'⟩ := not_or.mp (mt List.mem_append.mpr hi)
    rw [hlk, List.filter_append, List.filter_cons_of_neg (by simp), hf is hi, hf js hi']

end Family

end Isl.Lib.Rings
