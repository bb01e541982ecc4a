import Isl.Lib.Loop
import Isl.Lib.Rings
import Isl.Lib.Run

/-!
The lists of `util/list.h`. A `struct list` is a cell, be it a list's head or
part of an item, and an operation is `none` where it follows a null pointer or
one to memory that has been freed.
-/

namespace Isl.Util

open Isl.Lib Isl.Lib.Rings

variable {α : Type} [DecidableEq α]

def listInit (m : Heap α) (list : α) : Option (Heap α) := do
  let m ← m.setNext list (some list)
  m.setPrev list (some list)

def listNull (m : Heap α) (list : α) : Option Bool :=
  (m list).map fun c ↦ c.next.isNone && c.prev.isNone

def listEmpty (m : Heap α) (list : α) : Option Bool := do
  let c ← m list
  if c.next = some list then some true else listNull m list

def listAddBetween (m : Heap α) (prev next : Option α) (item : α) : Option (Heap α) := do
  let p ← prev
  let m ← m.setNext p (some item)
  let m ← m.setPrev item prev
  let m ← m.setNext item next
  let n ← next
  m.setPrev n (some item)

def listAddBefore (m : Heap α) (list item : α) : Option (Heap α) := do
  let c ← m list
  listAddBetween m c.prev (some list) item

def listAdd (m : Heap α) (list item : α) : Option (Heap α) := do
  let c ← m list
  listAddBetween m (some list) c.next item

def listInitAdd (m : Heap α) (list item : α) : Option (Heap α) := do
  let null ← listNull m list
  let m ← if null then listInit m list else some m
  listAdd m list item

def listRemove (m : Heap α) (item : α) : Option (Heap α) := do
  let c ← m item
  let p ← c.prev
  let m ← m.setNext p c.next
  let c ← m item
  let n ← c.next
  let m ← m.setPrev n c.prev
  let m ← m.setPrev item none
  m.setNext item none

def listRemoveSafe (m : Heap α) (item : α) : Option (Heap α) := do
  let null ← listNull m item
  if null then some m else listRemove m item

section Loops

variable {σ ρ : Type} (links : σ → Heap α) (list : α) (body : σ → α → Option (σ ⊕ ρ)) (done : σ → ρ)

/-- A turn of `list_for_each`, the body of which may return. -/
def forEachTurn : σ × Option α → (σ × Option α) ⊕ Option ρ
  | (_, none) => .inr none
  | (s, some item) =>
    if item = list then .inr (some (done s))
    else
      match body s item with
      | none => .inr none
      | some (.inr r) => .inr (some r)
      | some (.inl s) => .inl (s, (links s).next item)

def forEachStart (s : σ) : σ × Option α := (s, (links s).next list)

/-- A turn of `list_for_each_safe`, with the item after this one read ahead. -/
def forEachSafeTurn : σ × Option α × Option α → (σ × Option α × Option α) ⊕ Option ρ
  | (_, none, _) => .inr none
  | (s, some item, tmp) =>
    if item = list then .inr (some (done s))
    else
      match body s item with
      | none => .inr none
      | some (.inr r) => .inr (some r)
      | some (.inl s) => .inl (s, tmp, tmp.bind (links s).next)

def forEachSafeStart (s : σ) : σ × Option α × Option α :=
  (s, (links s).next list, ((links s).next list).bind (links s).next)

end Loops

def listSize (m : Heap α) (list : α) (fuel : ℕ) : Option (Option ℕ) :=
  Loop.run (forEachTurn (fun _ : ℕ ↦ m) list (fun count _ ↦ some (.inl (count + 1))) id) fuel
    (forEachStart (fun _ : ℕ ↦ m) list 0)

section Loops

variable {σ ρ : Type} {links : σ → Heap α} {list : α} {body : σ → α → Option (σ ⊕ ρ)}
  {done : σ → ρ} {s : σ} {xs : List α}

theorem forEach_returns {P : List α → σ → Prop} (hx : list ∉ xs)
    (hring : ∀ as s, P as s → Circular (links s) list xs)
    (hbody : ∀ as x bs s, xs = as ++ x :: bs → P as s →
      ∃ t, body s x = some (.inl t) ∧ P (as ++ [x]) t) (hs : P [] s) :
    ∃ t, P xs t ∧ Loop.Returns (forEachTurn links list body done) (forEachStart links list s)
      (some (done t)) := by
  suffices h : ∀ as bs s, xs = as ++ bs → P as s → ∃ t, P xs t ∧
      Loop.Returns (forEachTurn links list body done) (s, (bs ++ [list]).head?)
        (some (done t)) by
    obtain ⟨t, ht, hret⟩ := h [] xs s rfl hs
    refine ⟨t, ht, ?_⟩
    rw [forEachStart, Circular.next_head (hring [] s hs)]
    exact hret
  intro as bs
  induction bs generalizing as with
  | nil =>
    intro s hxs hs
    rw [List.append_nil] at hxs
    subst hxs
    exact ⟨s, hs, .done (if_pos rfl)⟩
  | cons x bs ih =>
    intro s hxs hs
    have hne : x ≠ list := by
      rintro rfl
      exact hx (hxs ▸ List.mem_append_right as List.mem_cons_self)
    obtain ⟨t, ht, hpt⟩ := hbody as x bs s hxs hs
    have hnext := Circular.next (hxs ▸ hring _ _ hpt)
    obtain ⟨u, hu, hret⟩ := ih (as ++ [x]) t (by rw [hxs, List.append_assoc]; rfl) hpt
    refine ⟨u, hu, .next ?_ hret⟩
    rw [List.cons_append, List.head?_cons, forEachTurn, if_neg hne, ht, ← hnext]

/-- A safe loop over a list, the body of which takes the item off it. -/
theorem forEachSafe_returns {P : List α → σ → Prop} (hx : list ∉ xs)
    (hring : ∀ xs s, P xs s → Circular (links s) list xs)
    (hbody : ∀ x xs s, P (x :: xs) s → ∃ t, body s x = some (.inl t) ∧ P xs t) (hs : P xs s) :
    ∃ t, P [] t ∧ Loop.Returns (forEachSafeTurn links list body done)
      (forEachSafeStart links list s) (some (done t)) := by
  induction xs generalizing s with
  | nil =>
    refine ⟨s, hs, .done ?_⟩
    rw [forEachSafeStart, Circular.next_head (hring _ _ hs)]
    exact if_pos rfl
  | cons x xs ih =>
    obtain ⟨hne, hx⟩ := not_or.mp (mt List.mem_cons.mpr hx)
    obtain ⟨t, ht, hpt⟩ := hbody x xs s hs
    obtain ⟨u, hu, hret⟩ := ih hx hpt
    refine ⟨u, hu, .next ?_ hret⟩
    have hr := hring _ _ hs
    rw [forEachSafeStart, Circular.next_head hr, List.cons_append, List.head?_cons, Option.bind_some,
      Circular.next (List.nil_append (x :: xs) ▸ hr), forEachSafeTurn, if_neg (Ne.symm hne), ht,
      forEachSafeStart, Circular.next_head (hring _ _ hpt)]

/-- A safe loop that looks for an item and returns what it makes of it. -/
theorem forEachSafe_find {m : Heap α} {body : Unit → α → Option (Unit ⊕ ρ)} {g : α → Option ρ} {r : ρ}
    (hx : list ∉ xs) (hr : Circular m list xs)
    (hbody : ∀ x ∈ xs, body () x = some ((g x).elim (.inl ()) .inr)) :
    Loop.Returns (forEachSafeTurn (fun _ ↦ m) list body fun _ ↦ r)
      (forEachSafeStart (fun _ ↦ m) list ()) (some ((xs.findSome? g).getD r)) := by
  suffices h : ∀ as bs, xs = as ++ bs →
      Loop.Returns (forEachSafeTurn (fun _ ↦ m) list body fun _ ↦ r)
        ((), (bs ++ [list]).head?, (bs ++ [list]).head?.bind m.next)
        (some ((bs.findSome? g).getD r)) by
    have hret := h [] xs rfl
    rwa [← hr.next_head] at hret
  intro as bs
  induction bs generalizing as with
  | nil => exact fun _ ↦ .done (if_pos rfl)
  | cons x bs ih =>
    intro hxs
    have hmem : x ∈ xs := hxs ▸ List.mem_append_right as List.mem_cons_self
    have hne : x ≠ list := ne_of_mem_of_not_mem hmem hx
    rw [List.cons_append, List.head?_cons, Option.bind_some, List.findSome?_cons]
    cases hg : g x with
    | some r' =>
      refine .done ?_
      rw [forEachSafeTurn, if_neg hne, hbody x hmem, hg]
      rfl
    | none =>
      have hnext := Circular.next (hxs ▸ hr)
      refine .next ?_ (ih (as ++ [x]) (by rw [hxs, List.append_assoc]; rfl))
      rw [forEachSafeTurn, if_neg hne, hbody x hmem, hg, hnext]
      rfl

end Loops

/-! What the operations do to the links. -/

section Edits

variable {m : Heap α} {p q x h : α} {xs : List α}

theorem exists_listAddBetween (hp : (m p).isSome) (hx : (m x).isSome) (hq : (m q).isSome) :
    ∃ m', listAddBetween m (some p) (some q) x = some m' ∧
      Rewired m m' (Function.update (Function.update m.next p (some x)) x (some q))
        (Function.update (Function.update m.prev x (some p)) q (some x)) := by
  obtain ⟨m₁, h₁, r₁⟩ := exists_link hp hx
  have hx₁ : (m₁ x).isSome := (r₁.isSome_eq x).trans hx
  have hq₁ : (m₁ q).isSome := (r₁.isSome_eq q).trans hq
  obtain ⟨m₂, h₂, r₂⟩ := exists_link hx₁ hq₁
  refine ⟨m₂, ?_, ⟨?_, ?_, fun a ↦ (r₂.isSome_eq a).trans (r₁.isSome_eq a)⟩⟩
  · have heq : listAddBetween m (some p) (some q) x = (m.link p x).bind fun m ↦ m.link x q :=
      (Option.bind_assoc _ _ _).symm
    rw [heq, h₁]
    exact h₂
  · rw [r₂.next_eq, r₁.next_eq]
  · rw [r₂.prev_eq, r₁.prev_eq]

omit [DecidableEq α] in
theorem exists_cell (hn : m.next x = some q) (hp : m.prev x = some p) :
    m x = some ⟨some q, some p⟩ := by
  obtain ⟨c, hc, hcn⟩ := Option.bind_eq_some_iff.mp hn
  rw [Heap.prev, hc, Option.bind_some] at hp
  rw [hc, ← hcn, ← hp]

theorem exists_listRemove (hn : m.next x = some q) (hv : m.prev x = some p) (hpx : p ≠ x)
    (hp : (m p).isSome) (hq : (m q).isSome) : ∃ m', listRemove m x = some m' ∧
      Rewired m m' (Function.update (Function.update m.next p (some q)) x none)
        (Function.update (Function.update m.prev q (some p)) x none) := by
  have hc := exists_cell hn hv
  obtain ⟨m₁, h₁, r₁⟩ := exists_setNext (v := some q) hp
  have hc₁ : m₁ x = some ⟨some q, some p⟩ := by
    refine exists_cell ?_ ?_
    · rw [r₁.next_eq, Function.update_of_ne (Ne.symm hpx), hn]
    · rw [r₁.prev_eq, hv]
  obtain ⟨m₂, h₂, r₂⟩ := exists_setPrev (m := m₁) (v := some p) ((r₁.isSome_eq q).trans hq)
  have hx₂ : (m₂ x).isSome := by
    rw [r₂.isSome_eq, hc₁]
    rfl
  obtain ⟨m₃, h₃, r₃⟩ := exists_setPrev (v := none) hx₂
  obtain ⟨m₄, h₄, r₄⟩ := exists_setNext (m := m₃) (v := none) ((r₃.isSome_eq x).trans hx₂)
  refine ⟨m₄, ?_, ⟨?_, ?_, fun a ↦ ?_⟩⟩
  · simp only [listRemove, hc, hc₁, h₁, h₂, h₃, Option.bind_eq_bind, Option.bind_some]
    exact h₄
  · rw [r₄.next_eq, r₃.next_eq, r₂.next_eq, r₁.next_eq]
  · rw [r₄.prev_eq, r₃.prev_eq, r₂.prev_eq, r₁.prev_eq]
  · rw [r₄.isSome_eq, r₃.isSome_eq, r₂.isSome_eq, r₁.isSome_eq]

theorem listEmpty_ring (hr : Circular m h xs) (hh : h ∉ xs) : listEmpty m h = some xs.isEmpty := by
  cases xs with
  | nil =>
    obtain ⟨c, hc, hn⟩ := Option.bind_eq_some_iff.mp hr.next_head
    simp only [listEmpty, hc, Option.bind_eq_bind, Option.bind_some, if_pos hn, List.isEmpty_nil]
  | cons x xs =>
    obtain ⟨c, hc, hn⟩ := Option.bind_eq_some_iff.mp hr.next_head
    have hne : c.next ≠ some h := by
      rw [hn]
      intro heq
      exact hh (Option.some.inj heq ▸ List.mem_cons_self)
    simp only [listEmpty, listNull, hc, Option.bind_eq_bind, Option.bind_some, if_neg hne,
      Option.map_some, List.isEmpty_cons]
    rw [hn]
    rfl

theorem listSize_ring (hr : Circular m h xs) (hh : h ∉ xs) :
    Loop.Returns (forEachTurn (fun _ : ℕ ↦ m) h (fun count _ ↦ some (.inl (count + 1))) id)
      (forEachStart (fun _ : ℕ ↦ m) h 0) (some xs.length) := by
  obtain ⟨t, rfl, ht⟩ := @forEach_returns α _ ℕ ℕ (fun _ ↦ m) h
    (fun count _ ↦ some (.inl (count + 1))) id 0 xs (fun as n ↦ n = as.length) hh (fun _ _ _ ↦ hr)
    (fun as x bs n _ hn ↦ ⟨n + 1, rfl, by rw [hn, List.length_append]; rfl⟩) rfl
  exact ht

end Edits

/-! What they do to the lists. -/

section Lists

variable {κ ι : Type} [DecidableEq κ] {m : Heap α} {head : κ → α} {node : ι → α} {live : κ → Prop}
  {l : κ → List ι} {k : κ} {i j : ι} {is js : List ι} {p q : α}

omit [DecidableEq α] [DecidableEq κ] in
theorem isSome_of_ring (hr : Represents m head node live l) (hk : live k)
    (hp : p ∈ head k :: (l k).map node) : (m p).isSome := by
  obtain ⟨as, bs, hxs⟩ := List.append_of_mem hp
  have hl : Linked m (as ++ p :: (bs ++ [head k])) := by
    have hring := hr k hk
    rwa [Circular, ← List.cons_append, hxs, List.append_assoc] at hring
  have hl := (linked_append.mp hl).2
  cases bs with
  | nil => exact isSome_of_next (linked_cons_cons.mp hl).1.1
  | cons b bs => exact isSome_of_next (linked_cons_cons.mp hl).1.1

omit [DecidableEq α] [DecidableEq κ] in
theorem gap_neighbours (hr : Represents m head node live l) (hk : live k)
    (hlk : l k = is ++ js) (hg : Gap (head k) (is.map node) (js.map node) p q) :
    m.next p = some q ∧ m.prev q = some p := by
  have hring := hr k hk
  rw [hlk, List.map_append] at hring
  exact hg.neighbours hring

/-- What each way to add an item comes to, at a place of a list. -/
theorem listAddBetween_represents (hr : Represents m head node live l) (hpl : Places head node)
    (hl : Apart l) (hk : live k) (hlk : l k = is ++ js) (hi : ∀ k', i ∉ l k')
    (hm : (m (node i)).isSome) (hg : Gap (head k) (is.map node) (js.map node) p q) :
    ∃ m', listAddBetween m (some p) (some q) (node i) = some m' ∧
      Represents m' head node live (Function.update l k (is ++ i :: js)) ∧
      Frame {a | a ∈ node i :: head k :: (l k).map node} m m' := by
  have hp := isSome_of_ring hr hk (hlk ▸ hg.mem_cells.1)
  have hq := isSome_of_ring hr hk (hlk ▸ hg.mem_cells.2)
  obtain ⟨m', h', hrew⟩ := exists_listAddBetween hp hm hq
  rw [hlk]
  exact ⟨m', h', hr.insert hpl hl hlk hi hg hrew⟩

theorem listAdd_eq (hn : m.next p = some q) (x : α) :
    listAdd m p x = listAddBetween m (some p) (some q) x := by
  obtain ⟨c, hc, hcn⟩ := Option.bind_eq_some_iff.mp hn
  rw [listAdd, hc, ← hcn]
  rfl

theorem listAddBefore_eq (hv : m.prev q = some p) (x : α) :
    listAddBefore m q x = listAddBetween m (some p) (some q) x := by
  obtain ⟨c, hc, hcp⟩ := Option.bind_eq_some_iff.mp hv
  rw [listAddBefore, hc, ← hcp]
  rfl

theorem listAdd_head (hr : Represents m head node live l) (hpl : Places head node) (hl : Apart l)
    (hk : live k) (hi : ∀ k', i ∉ l k') (hm : (m (node i)).isSome) :
    ∃ m', listAdd m (head k) (node i) = some m' ∧
      Represents m' head node live (Links.add l k i) ∧
      Frame {a | a ∈ node i :: head k :: (l k).map node} m m' := by
  obtain ⟨q, hg⟩ := exists_gap_first (head k) ((l k).map node)
  rw [listAdd_eq (gap_neighbours hr hk (List.nil_append (l k)).symm hg).1]
  exact listAddBetween_represents hr hpl hl hk (List.nil_append (l k)).symm hi hm hg

theorem listAddBefore_head (hr : Represents m head node live l) (hpl : Places head node)
    (hl : Apart l) (hk : live k) (hi : ∀ k', i ∉ l k') (hm : (m (node i)).isSome) :
    ∃ m', listAddBefore m (head k) (node i) = some m' ∧
      Represents m' head node live (Function.update l k (l k ++ [i])) ∧
      Frame {a | a ∈ node i :: head k :: (l k).map node} m m' := by
  obtain ⟨p, hg⟩ := exists_gap_last (head k) ((l k).map node)
  have hlk : l k = l k ++ [] := (List.append_nil _).symm
  rw [listAddBefore_eq (gap_neighbours hr hk hlk hg).2]
  exact listAddBetween_represents hr hpl hl hk hlk hi hm hg

variable [DecidableEq ι]

theorem listAdd_node (hr : Represents m head node live l) (hpl : Places head node) (hl : Apart l)
    (hk : live k) (hik : i ∈ l k) (hj : ∀ k', j ∉ l k') (hm : (m (node j)).isSome) :
    ∃ m', listAdd m (node i) (node j) = some m' ∧
      Represents m' head node live (Links.addAfter l i j) ∧
      Frame {a | a ∈ node j :: head k :: (l k).map node} m m' := by
  obtain ⟨is, js, hlk⟩ := List.append_of_mem hik
  have hlk' : l k = (is ++ [i]) ++ js := by rw [hlk, List.append_cons]
  obtain ⟨q, hg⟩ := exists_gap_behind (head k) (is.map node) (node i) (js.map node)
  rw [← List.map_singleton, ← List.map_append] at hg
  rw [listAdd_eq (gap_neighbours hr hk hlk' hg).1, addAfter_eq hl hlk]
  exact listAddBetween_represents hr hpl hl hk hlk' hj hm hg

theorem listAddBefore_node (hr : Represents m head node live l) (hpl : Places head node)
    (hl : Apart l) (hk : live k) (hik : i ∈ l k) (hj : ∀ k', j ∉ l k') (hm : (m (node j)).isSome) :
    ∃ m', listAddBefore m (node i) (node j) = some m' ∧
      Represents m' head node live (addBefore l i j) ∧
      Frame {a | a ∈ node j :: head k :: (l k).map node} m m' := by
  obtain ⟨is, js, hlk⟩ := List.append_of_mem hik
  obtain ⟨p, hg⟩ := exists_gap_ahead (head k) (is.map node) (node i) (js.map node)
  rw [← List.map_cons] at hg
  rw [listAddBefore_eq (gap_neighbours hr hk hlk hg).2, addBefore_eq hl hlk]
  exact listAddBetween_represents hr hpl hl hk hlk hj hm hg

theorem listRemove_node (hr : Represents m head node live l) (hpl : Places head node)
    (hl : Apart l) (hk : live k) (hik : i ∈ l k) : ∃ m', listRemove m (node i) = some m' ∧
      Represents m' head node live (Links.remove l i) ∧
      Frame {a | a ∈ node i :: head k :: (l k).map node} m m' ∧
      m' (node i) = some ⟨none, none⟩ := by
  obtain ⟨is, js, hlk⟩ := List.append_of_mem hik
  obtain ⟨hi, hnd⟩ := List.nodup_cons.mp (List.nodup_middle.mp (hlk ▸ hl.nodup k))
  have hsub : is ++ js ⊆ l k := by
    rw [hlk]
    exact ((List.sublist_cons_self i js).append_left is).subset
  obtain ⟨p, q, hg⟩ := exists_gap (head k) (is.map node) (js.map node)
  have hring := hr k hk
  rw [hlk, List.map_append, List.map_cons] at hring
  have hlinks := hg.links hring
  have hne (a : α) (ha : a ∈ head k :: (is ++ js).map node) : a ≠ node i :=
    ne_of_mem_of_not_mem ha (hpl.notMem hi)
  have hsome (a : α) (ha : a ∈ head k :: (is ++ js).map node) : (m a).isSome :=
    isSome_of_ring hr hk (List.cons_subset_cons _ (List.map_subset node hsub) ha)
  obtain ⟨m', h', hrew⟩ := exists_listRemove hlinks.2 hlinks.1 (hne p hg.mem_cells.1)
    (hsome p hg.mem_cells.1) (hsome q hg.mem_cells.2)
  obtain ⟨hrep, hframe⟩ := hr.erase hpl hl hlk hg hrew
  have hcells := List.cons_subset_cons (node i)
    (List.cons_subset_cons (head k) (List.map_subset node hsub))
  refine ⟨m', h', remove_eq hl hlk ▸ hrep, hframe.mono hcells, ?_⟩
  obtain ⟨⟨n, v⟩, hc⟩ := Option.isSome_iff_exists.mp
    ((hframe.isSome_eq (node i)).trans (isSome_of_next hlinks.2))
  have hn := congrFun hrew.next_eq (node i)
  have hv := congrFun hrew.prev_eq (node i)
  rw [Function.update_self, Heap.next, hc] at hn
  rw [Function.update_self, Heap.prev, hc] at hv
  cases hn
  cases hv
  exact hc

/-! Runs. -/

inductive ListOp (κ ι : Type)
  | add (k : κ) (i : ι)
  | addBefore (k : κ) (i : ι)
  | addBehindItem (i j : ι)
  | addBeforeItem (i j : ι)
  | remove (i : ι)
  | removeSafe (i : ι)

namespace ListOp

def exec (head : κ → α) (node : ι → α) (m : Heap α) : ListOp κ ι → Option (Heap α)
  | add k i => listAdd m (head k) (node i)
  | addBefore k i => listAddBefore m (head k) (node i)
  | addBehindItem i j => listAdd m (node i) (node j)
  | addBeforeItem i j => listAddBefore m (node i) (node j)
  | remove i => listRemove m (node i)
  | removeSafe i => listRemoveSafe m (node i)

def apply (l : κ → List ι) : ListOp κ ι → κ → List ι
  | add k i => Links.add l k i
  | addBefore k i => Function.update l k (l k ++ [i])
  | addBehindItem i j => Links.addAfter l i j
  | addBeforeItem i j => Rings.addBefore l i j
  | remove i | removeSafe i => Links.remove l i

/-- What the callers see to: only an item on no list is added, and only one on a list removed. -/
def Allowed (l : κ → List ι) : ListOp κ ι → Prop
  | add _ i | addBefore _ i => ∀ k, i ∉ l k
  | addBehindItem i j | addBeforeItem i j => (∃ k, i ∈ l k) ∧ ∀ k, j ∉ l k
  | remove i => ∃ k, i ∈ l k
  | removeSafe _ => True

end ListOp

/-- A memory with the lists, in which the items on none of them have no links. -/
structure Holds (m : Heap α) (head : κ → α) (node : ι → α) (l : κ → List ι) : Prop where
  apart : Apart l
  represents : Represents m head node (fun _ ↦ True) l
  cleared : ∀ i, (∀ k, i ∉ l k) → m (node i) = some ⟨none, none⟩

section Steps

omit [DecidableEq α] [DecidableEq κ] [DecidableEq ι]

theorem Holds.isSome (h : Holds m head node l) (i : ι) : (m (node i)).isSome := by
  by_cases hi : ∃ k, i ∈ l k
  · obtain ⟨k, hk⟩ := hi
    refine isSome_of_ring h.represents (k := k) trivial ?_
    exact List.mem_cons_of_mem _ (List.mem_map_of_mem hk)
  · rw [h.cleared i (not_exists.mp hi)]
    rfl

/-- The items that an operation neither adds nor finds on a list. -/
theorem Holds.keeps_cleared {m' : Heap α} (h : Holds m head node l) (hpl : Places head node)
    (hf : Frame {a | a ∈ node i :: head k :: (l k).map node} m m') (hji : j ≠ i)
    (hj : ∀ k, j ∉ l k) : m' (node j) = some ⟨none, none⟩ := by
  rw [hf.cell_eq, h.cleared j hj]
  intro hmem
  rcases List.mem_cons.mp hmem with hmem | hmem
  · exact hji (hpl.node_injective hmem)
  · exact hpl.notMem (hj k) hmem

theorem cells_subset :
    {a | a ∈ node i :: head k :: (l k).map node} ⊆ Set.range head ∪ Set.range node := by
  intro a ha
  rcases List.mem_cons.mp ha with rfl | ha
  · exact .inr ⟨i, rfl⟩
  rcases List.mem_cons.mp ha with rfl | ha
  · exact .inl ⟨k, rfl⟩
  · obtain ⟨j, -, rfl⟩ := List.mem_map.mp ha
    exact .inr ⟨j, rfl⟩

end Steps

omit [DecidableEq α] [DecidableEq ι] in
theorem Holds.insert {m' : Heap α} (h : Holds m head node l) (hpl : Places head node)
    (hlk : l k = is ++ js) (hi : ∀ k, i ∉ l k)
    (hr : Represents m' head node (fun _ ↦ True) (Function.update l k (is ++ i :: js)))
    (hf : Frame {a | a ∈ node i :: head k :: (l k).map node} m m') :
    Holds m' head node (Function.update l k (is ++ i :: js)) := by
  refine ⟨h.apart.insert hlk hi, hr, fun j hj ↦ ?_⟩
  have hji : j ≠ i := by
    rintro rfl
    apply hj k
    rw [Function.update_self]
    exact List.mem_append_right is List.mem_cons_self
  refine h.keeps_cleared hpl hf hji fun k' hj' ↦ hj k' ?_
  by_cases hk : k' = k
  · subst hk
    rw [Function.update_self]
    exact ((List.sublist_cons_self i js).append_left is).subset (hlk ▸ hj')
  · rwa [Function.update_of_ne hk]

theorem Holds.remove (h : Holds m head node l) (hpl : Places head node) (hik : i ∈ l k) :
    ∃ m', listRemove m (node i) = some m' ∧ Holds m' head node (Links.remove l i) ∧
      Frame (Set.range head ∪ Set.range node) m m' := by
  obtain ⟨m', h', hrep, hf, hi⟩ := listRemove_node h.represents hpl h.apart trivial hik
  refine ⟨m', h', ⟨h.apart.remove i, hrep, fun j hj ↦ ?_⟩, hf.mono cells_subset⟩
  by_cases hji : j = i
  · rw [hji, hi]
  · refine h.keeps_cleared hpl hf hji fun k' hj' ↦ hj k' ?_
    exact Links.mem_remove.mpr ⟨hj', hji⟩

theorem Holds.removeSafe (h : Holds m head node l) (hpl : Places head node) (i : ι) :
    ∃ m', listRemoveSafe m (node i) = some m' ∧ Holds m' head node (Links.remove l i) ∧
      Frame (Set.range head ∪ Set.range node) m m' := by
  by_cases hi : ∃ k, i ∈ l k
  · obtain ⟨k, hik⟩ := hi
    obtain ⟨m', h', hres⟩ := h.remove hpl hik
    refine ⟨m', ?_, hres⟩
    obtain ⟨is, js, hlk⟩ := List.append_of_mem hik
    have hring := h.represents k trivial
    rw [hlk, List.map_append, List.map_cons] at hring
    obtain ⟨p, q, hg⟩ := exists_gap (head k) (is.map node) (js.map node)
    have hc := exists_cell (hg.links hring).2 (hg.links hring).1
    rw [listRemoveSafe, listNull, hc]
    exact h'
  · have hoff := not_exists.mp hi
    refine ⟨m, ?_, ?_, .refl _ m⟩
    · simp only [listRemoveSafe, listNull, h.cleared i hoff]
      rfl
    · have heq : Links.remove l i = l := by
        funext k
        exact List.filter_eq_self.mpr fun a ha ↦ by simpa using ne_of_mem_of_not_mem ha (hoff k)
      rwa [heq]

theorem Holds.step (h : Holds m head node l) (hpl : Places head node) {op : ListOp κ ι}
    (hop : op.Allowed l) : ∃ m', op.exec head node m = some m' ∧ Holds m' head node (op.apply l) ∧
      Frame (Set.range head ∪ Set.range node) m m' := by
  cases op with
  | add k i =>
    obtain ⟨m', h', hr, hf⟩ := listAdd_head h.represents hpl h.apart trivial hop (h.isSome i)
    exact ⟨m', h', h.insert hpl (List.nil_append (l k)).symm hop hr hf, hf.mono cells_subset⟩
  | addBefore k i =>
    obtain ⟨m', h', hr, hf⟩ := listAddBefore_head h.represents hpl h.apart trivial hop (h.isSome i)
    exact ⟨m', h', h.insert hpl (List.append_nil _).symm hop hr hf, hf.mono cells_subset⟩
  | addBehindItem i j =>
    obtain ⟨⟨k, hik⟩, hj⟩ := hop
    obtain ⟨m', h', hr, hf⟩ := listAdd_node h.represents hpl h.apart trivial hik hj (h.isSome j)
    obtain ⟨is, js, hlk⟩ := List.append_of_mem hik
    refine ⟨m', h', ?_, hf.mono cells_subset⟩
    rw [addAfter_eq h.apart hlk] at hr
    rw [ListOp.apply, addAfter_eq h.apart hlk]
    exact h.insert hpl (hlk.trans (List.append_cons is i js)) hj hr hf
  | addBeforeItem i j =>
    obtain ⟨⟨k, hik⟩, hj⟩ := hop
    obtain ⟨m', h', hr, hf⟩ :=
      listAddBefore_node h.represents hpl h.apart trivial hik hj (h.isSome j)
    obtain ⟨is, js, hlk⟩ := List.append_of_mem hik
    refine ⟨m', h', ?_, hf.mono cells_subset⟩
    rw [addBefore_eq h.apart hlk] at hr
    rw [ListOp.apply, addBefore_eq h.apart hlk]
    exact h.insert hpl hlk hj hr hf
  | remove i =>
    obtain ⟨k, hik⟩ := hop
    exact h.remove hpl hik
  | removeSafe i => exact h.removeSafe hpl i

theorem Holds.exec (h : Holds m head node l) (hpl : Places head node) {ops : List (ListOp κ ι)}
    (hops : Run.Guarded (fun l op ↦ some (op.apply l)) (fun l op ↦ op.Allowed l) l ops) :
    ∃ m', Run.exec (ListOp.exec head node) m ops = some m' ∧
      Holds m' head node (ops.foldl ListOp.apply l) ∧
      Frame (Set.range head ∪ Set.range node) m m' := by
  induction ops generalizing m l with
  | nil => exact ⟨m, rfl, h, .refl _ m⟩
  | cons op ops ih =>
    obtain ⟨m₁, h₁, hold₁, hf₁⟩ := h.step hpl hops.1
    obtain ⟨m₂, h₂, hold₂, hf₂⟩ := ih hold₁ (hops.2 _ rfl)
    exact ⟨m₂, by rw [Run.exec, h₁, Option.bind_some, h₂], hold₂, hf₁.trans hf₂⟩

omit [DecidableEq κ] [DecidableEq ι] in
theorem Holds.listEmpty (h : Holds m head node l) (hpl : Places head node) (k : κ) :
    listEmpty m (head k) = some (l k).isEmpty := by
  have hk : head k ∉ (l k).map node := (List.nodup_cons.mp (hpl.nodup (h.apart.nodup k))).1
  rw [listEmpty_ring (h.represents k trivial) hk, List.isEmpty_map]

omit [DecidableEq κ] [DecidableEq ι] in
theorem Holds.listSize (h : Holds m head node l) (hpl : Places head node) (k : κ) :
    ∃ fuel, listSize m (head k) fuel = some (some (l k).length) := by
  have hk : head k ∉ (l k).map node := (List.nodup_cons.mp (hpl.nodup (h.apart.nodup k))).1
  have hret := listSize_ring (h.represents k trivial) hk
  rw [List.length_map] at hret
  exact Loop.returns_iff_run.mp hret

/-- Intrusive lists are lists: whatever is done to them in order, no operation
follows a null pointer or one to freed memory, the links stay those of the lists
that the same operations make of lists of items, a list tells whether it is
empty and how many items it has, and no other memory changes. -/
theorem list_ops_refine (hpl : Places head node) (h : Holds m head node l)
    (ops : List (ListOp κ ι))
    (hops : Run.Guarded (fun l op ↦ some (op.apply l)) (fun l op ↦ op.Allowed l) l ops) :
    ∃ m', Run.exec (ListOp.exec head node) m ops = some m' ∧
      Holds m' head node (ops.foldl ListOp.apply l) ∧
      (∀ k, Util.listEmpty m' (head k) = some (ops.foldl ListOp.apply l k).isEmpty ∧
        ∃ fuel, Util.listSize m' (head k) fuel = some (some (ops.foldl ListOp.apply l k).length)) ∧
      ∀ a, a ∉ Set.range head ∪ Set.range node → m' a = m a := by
  obtain ⟨m', h', hold, hf⟩ := h.exec hpl hops
  exact ⟨m', h', hold, fun k ↦ ⟨hold.listEmpty hpl k, hold.listSize hpl k⟩, fun a ↦ hf.cell_eq⟩

end Lists

theorem list_ops_refine_new :
    let m : Heap ℕ := fun a ↦ if a = 0 then some ⟨some 0, some 0⟩ else some ⟨none, none⟩
    ∃ m', Run.exec (ListOp.exec (fun _ : Unit ↦ 0) Nat.succ) m
        [.add () 3, .addBefore () 5, .addBeforeItem 5 4, .removeSafe 3, .removeSafe 3] = some m' ∧
      ∃ fuel, listSize m' 0 fuel = some (some 2) := by
  intro m
  have hpl : Places (fun _ : Unit ↦ 0) Nat.succ :=
    ⟨fun _ _ _ ↦ rfl, Nat.succ_injective, fun _ i ↦ (Nat.succ_ne_zero i).symm⟩
  have h : Holds m (fun _ : Unit ↦ 0) Nat.succ fun _ ↦ [] :=
    ⟨⟨fun _ ↦ List.nodup_nil, fun _ _ _ h ↦ absurd h List.not_mem_nil⟩,
      fun _ _ ↦ ring_nil.mpr ⟨rfl, rfl⟩, fun _ _ ↦ rfl⟩
  obtain ⟨m', h', -, hk, -⟩ := list_ops_refine hpl h
    [.add () 3, .addBefore () 5, .addBeforeItem 5 4, .removeSafe 3, .removeSafe 3]
    (by simp [Run.Guarded, ListOp.Allowed, ListOp.apply, Links.add])
  exact ⟨m', h', (hk ()).2⟩

end Isl.Util
