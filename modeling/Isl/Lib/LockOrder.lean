import Isl.Lib.Run
import Mathlib.Algebra.Order.BigOperators.Group.Finset
import Mathlib.Data.Fintype.Basic
import Mathlib.Data.List.Nodup

/-!
Threads that take and release locks. When every thread takes its locks in the order of one
rank, some thread can always go on.
-/

namespace Isl.Lib.LockOrder

open Run

/-- `acquire` takes all of the locks at once, when they are free. -/
inductive Op (κ : Type*)
  | acquire (ls : List κ)
  | release (l : κ)

/-- What the threads are still to do, and who holds each lock. -/
structure State (ι κ : Type*) where
  rest : ι → List (Op κ)
  held : κ → Option ι

variable {ι κ : Type*} [DecidableEq κ]

def start (prog : ι → List (Op κ)) : State ι κ := ⟨prog, fun _ ↦ none⟩

/-- With the locks of the list, the operations take locks in the order of their rank, release
only those they have, and leave none. -/
def Ordered (rank : κ → ℕ) : List κ → List (Op κ) → Prop
  | held, [] => held = []
  | held, .acquire ls :: ops =>
    (∀ l ∈ ls, ∀ l' ∈ held, rank l' < rank l) ∧ Ordered rank (ls ++ held) ops
  | held, .release l :: ops => l ∈ held ∧ Ordered rank (held.filter (· ≠ l)) ops

/-- Every thread has the locks that it is said to hold, and goes on in order. -/
def Wf (rank : κ → ℕ) (s : State ι κ) : Prop :=
  ∀ i, ∃ held, (∀ l, l ∈ held ↔ s.held l = some i) ∧ Ordered rank held (s.rest i)

variable {rank : κ → ℕ} {s t : State ι κ} {i j : ι} {l : κ} {ls held : List κ}
  {ops prog prog' : List (Op κ)} {r r' n : ℕ}

theorem start_wf {prog : ι → List (Op κ)} (h : ∀ i, Ordered rank [] (prog i)) :
    Wf rank (start prog) := by
  intro i
  refine ⟨[], ?_, h i⟩
  intro l
  simp [start]

variable [DecidableEq ι]

/-- The next operation of a thread. Only the holder of a lock can release it. -/
def step (s : State ι κ) (i : ι) : Option (State ι κ) :=
  match s.rest i with
  | [] => none
  | .acquire ls :: ops =>
    if ls.all fun l ↦ (s.held l).isNone then
      some ⟨Function.update s.rest i ops, fun l ↦ if l ∈ ls then some i else s.held l⟩
    else none
  | .release l :: ops =>
    if s.held l = some i then some ⟨Function.update s.rest i ops, Function.update s.held l none⟩
    else none

theorem step_acquire (hr : s.rest i = .acquire ls :: ops) : step s i = some t ↔
    (∀ l ∈ ls, s.held l = none) ∧
      t = ⟨Function.update s.rest i ops, fun l ↦ if l ∈ ls then some i else s.held l⟩ := by
  simp only [step, hr, List.all_eq_true, Option.isNone_iff_eq_none, Option.ite_none_right_eq_some,
    Option.some.injEq]
  exact and_congr_right fun _ ↦ eq_comm

theorem step_release (hr : s.rest i = .release l :: ops) : step s i = some t ↔
    s.held l = some i ∧
      t = ⟨Function.update s.rest i ops, Function.update s.held l none⟩ := by
  simp only [step, hr, Option.ite_none_right_eq_some, Option.some.injEq]
  exact and_congr_right fun _ ↦ eq_comm

theorem Wf.step (h : Wf rank s) (hs : step s i = some t) : Wf rank t := by
  intro j
  obtain ⟨held, hheld, hord⟩ := h j
  cases hr : s.rest i with
  | nil =>
    simp only [LockOrder.step, hr] at hs
    cases hs
  | cons op ops =>
    cases op with
    | acquire ls =>
      obtain ⟨hfree, rfl⟩ := (step_acquire hr).mp hs
      by_cases hj : j = i
      · subst hj
        rw [hr] at hord
        refine ⟨ls ++ held, ?_, ?_⟩
        · intro l
          by_cases hl : l ∈ ls
          · simp [hl]
          · simp [hl, hheld]
        · simpa using hord.2
      · refine ⟨held, ?_, ?_⟩
        · intro l
          by_cases hl : l ∈ ls
          · simp [hl, hheld, hfree l hl, Ne.symm hj]
          · simp [hl, hheld]
        · simpa [Function.update_of_ne hj] using hord
    | release l =>
      obtain ⟨hown, rfl⟩ := (step_release hr).mp hs
      by_cases hj : j = i
      · subst hj
        rw [hr] at hord
        refine ⟨held.filter (· ≠ l), ?_, ?_⟩
        · intro l'
          by_cases hl : l' = l
          · simp [hl]
          · simp [hl, hheld]
        · simpa using hord.2
      · refine ⟨held, ?_, ?_⟩
        · intro l'
          by_cases hl : l' = l
          · subst hl
            simp [hheld, hown, Ne.symm hj]
          · simp [hl, hheld]
        · simpa [Function.update_of_ne hj] using hord

/-- In a state without a step every lock is free: the holder of one would wait for another of
a higher rank. -/
theorem Wf.free (h : Wf rank s) (hbound : ∀ l, rank l < n) (hstuck : ∀ i, LockOrder.step s i = none)
    (l : κ) : s.held l = none := by
  induction hk : n - rank l using Nat.strong_induction_on generalizing l with
  | h k ih =>
    cases hl : s.held l with
    | none => rfl
    | some j =>
      obtain ⟨held, hheld, hord⟩ := h j
      have hmem : l ∈ held := (hheld l).mpr hl
      have hj := hstuck j
      cases hr : s.rest j with
      | nil =>
        rw [hr] at hord
        rw [hord] at hmem
        cases hmem
      | cons op ops =>
        rw [hr] at hord
        cases op with
        | acquire ls =>
          have hwait : ∃ l' ∈ ls, s.held l' ≠ none := by
            by_contra hall
            push Not at hall
            have hgo := (step_acquire hr).mpr ⟨hall, rfl⟩
            rw [hj] at hgo
            cases hgo
          obtain ⟨l', hl', htaken⟩ := hwait
          have hup := hord.1 l' hl' l hmem
          have hlt := hbound l'
          exact absurd (ih (n - rank l') (by omega) l' rfl) htaken
        | release l' =>
          have hown := (hheld l').mp hord.1
          have hgo := (step_release hr).mpr ⟨hown, rfl⟩
          rw [hj] at hgo
          cases hgo

/-- So some thread can go on, as long as one is not done. -/
theorem Wf.progress (h : Wf rank s) (hbound : ∀ l, rank l < n) (hrest : ∃ i, s.rest i ≠ []) :
    ∃ i, (LockOrder.step s i).isSome := by
  by_contra hall
  have hstuck : ∀ i, LockOrder.step s i = none := by
    intro i
    by_contra hne
    exact hall ⟨i, Option.isSome_iff_ne_none.mpr hne⟩
  have hfree := h.free hbound hstuck
  obtain ⟨i, hi⟩ := hrest
  obtain ⟨held, hheld, hord⟩ := h i
  have hi' := hstuck i
  cases hr : s.rest i with
  | nil => exact hi hr
  | cons op ops =>
    rw [hr] at hord
    cases op with
    | acquire ls =>
      have hgo := (step_acquire hr).mpr ⟨fun l _ ↦ hfree l, rfl⟩
      rw [hi'] at hgo
      cases hgo
    | release l =>
      have hown := (hheld l).mp hord.1
      rw [hfree l] at hown
      cases hown

theorem rest_of_step (hs : step s i = some t) :
    (t.rest i).length < (s.rest i).length ∧ ∀ j ≠ i, t.rest j = s.rest j := by
  cases hr : s.rest i with
  | nil =>
    simp only [LockOrder.step, hr] at hs
    cases hs
  | cons op ops =>
    cases op with
    | acquire ls =>
      obtain ⟨-, rfl⟩ := (step_acquire hr).mp hs
      exact ⟨by simp, fun j hj ↦ Function.update_of_ne hj ..⟩
    | release l =>
      obtain ⟨-, rfl⟩ := (step_release hr).mp hs
      exact ⟨by simp, fun j hj ↦ Function.update_of_ne hj ..⟩

/-- Wherever a run has come to, all threads can get to their ends. -/
theorem Wf.completes [Fintype ι] (h : Wf rank s) (hbound : ∀ l, rank l < n) :
    ∃ t, Reaches LockOrder.step (fun _ _ ↦ True) s t ∧ ∀ i, t.rest i = [] := by
  induction hk : ∑ i, (s.rest i).length using Nat.strong_induction_on generalizing s with
  | h k ih =>
    by_cases hrest : ∃ i, s.rest i ≠ []
    · obtain ⟨i, hi⟩ := h.progress hbound hrest
      obtain ⟨t, ht⟩ := Option.isSome_iff_exists.mp hi
      obtain ⟨hlt, hsame⟩ := rest_of_step ht
      have hless : ∑ j, (t.rest j).length < ∑ j, (s.rest j).length := by
        apply Finset.sum_lt_sum
        · intro j _
          by_cases hj : j = i
          · rw [hj]
            exact hlt.le
          · rw [hsame j hj]
        · exact ⟨i, Finset.mem_univ i, hlt⟩
      obtain ⟨u, hu, hend⟩ := ih _ (hk ▸ hless) (h.step ht) rfl
      exact ⟨u, (Reaches.start.next trivial ht).trans hu, hend⟩
    · push Not at hrest
      exact ⟨s, .start, hrest⟩

theorem wf_of_reaches {prog : ι → List (Op κ)} (hord : ∀ i, Ordered rank [] (prog i))
    (hrun : Reaches LockOrder.step (fun _ _ ↦ True) (start prog) s) : Wf rank s :=
  hrun.invariant (start_wf hord) fun _ _ _ h _ hs ↦ h.step hs

/-! Programs made of sections. -/

def lockedAll (ls : List κ) (body : List (Op κ)) : List (Op κ) :=
  .acquire ls :: (body ++ ls.map .release)

def locked (l : κ) (body : List (Op κ)) : List (Op κ) := lockedAll [l] body

/-- In order wherever all locks held are of a rank below `r`. -/
def Above (rank : κ → ℕ) (r : ℕ) (prog : List (Op κ)) : Prop :=
  ∀ held ops, (∀ l ∈ held, rank l < r) → Ordered rank held ops → Ordered rank held (prog ++ ops)

theorem Above.ordered (h : Above rank r prog) : Ordered rank [] prog := by
  have hnone : ∀ l ∈ ([] : List κ), rank l < r := fun l hl ↦ absurd hl List.not_mem_nil
  have hall := h [] [] hnone rfl
  rwa [List.append_nil] at hall

@[simp]
theorem above_nil : Above rank r [] := fun _ _ _ h ↦ h

theorem Above.append (h : Above rank r prog) (h' : Above rank r prog') :
    Above rank r (prog ++ prog') := by
  intro held ops hlow hops
  rw [List.append_assoc]
  exact h held _ hlow (h' held ops hlow hops)

theorem Above.mono (h : Above rank r' prog) (hr : r ≤ r') : Above rank r prog := by
  intro held ops hlow hops
  exact h held ops (fun l hl ↦ Nat.lt_of_lt_of_le (hlow l hl) hr) hops

theorem above_flatMap {α : Type*} {as : List α} {f : α → List (Op κ)}
    (h : ∀ a ∈ as, Above rank r (f a)) : Above rank r (as.flatMap f) := by
  induction as with
  | nil => exact above_nil
  | cons a as ih =>
    rw [List.flatMap_cons]
    exact (h a List.mem_cons_self).append (ih fun b hb ↦ h b (List.mem_cons_of_mem a hb))

theorem ordered_releases (hnodup : ls.Nodup) (hls : ∀ l ∈ ls, l ∉ held)
    (hops : Ordered rank held ops) : Ordered rank (ls ++ held) (ls.map .release ++ ops) := by
  induction ls with
  | nil => exact hops
  | cons l ls ih =>
    obtain ⟨hl, hnodup⟩ := List.nodup_cons.mp hnodup
    have hrest : (l :: ls ++ held).filter (· ≠ l) = ls ++ held := by
      rw [List.cons_append, List.filter_cons_of_neg (by simp), List.filter_eq_self]
      intro l' hl'
      rw [decide_eq_true_iff]
      rintro rfl
      rcases List.mem_append.mp hl' with hin | hin
      · exact hl hin
      · exact hls l' List.mem_cons_self hin
    refine ⟨List.mem_cons_self, ?_⟩
    rw [hrest]
    exact ih hnodup fun l' hl' ↦ hls l' (List.mem_cons_of_mem l hl')

theorem Above.lockedAll (h : Above rank r' prog) (hnodup : ls.Nodup)
    (hls : ∀ l ∈ ls, r ≤ rank l ∧ rank l < r') (hr : r ≤ r') :
    Above rank r (LockOrder.lockedAll ls prog) := by
  intro held ops hlow hops
  refine ⟨?_, ?_⟩
  · intro l hl l' hl'
    exact Nat.lt_of_lt_of_le (hlow l' hl') (hls l hl).1
  · have happ : (prog ++ ls.map Op.release).append ops = prog ++ (ls.map Op.release ++ ops) :=
      List.append_assoc ..
    rw [happ]
    apply h
    · intro l hl
      rcases List.mem_append.mp hl with hl | hl
      · exact (hls l hl).2
      · exact Nat.lt_of_lt_of_le (hlow l hl) hr
    · refine ordered_releases hnodup ?_ hops
      intro l hl hheld
      exact absurd (hlow l hheld) (Nat.not_lt.mpr (hls l hl).1)

theorem Above.locked (h : Above rank (rank l + 1) prog) (hr : r ≤ rank l) :
    Above rank r (LockOrder.locked l prog) := by
  refine h.lockedAll (List.nodup_singleton l) ?_ (Nat.le_succ_of_le hr)
  intro l' hl'
  rw [List.mem_singleton.mp hl']
  exact ⟨hr, Nat.lt_succ_self _⟩

end Isl.Lib.LockOrder
