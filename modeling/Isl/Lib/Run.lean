import Mathlib.Logic.Function.Basic

namespace Isl.Lib.Run

variable {σ α : Type*}

/-- The states a guarded system reaches: every action taken satisfies `ok` in
the state it is taken from. A step to `none` has no successor state. -/
inductive Reaches (step : σ → α → Option σ) (ok : σ → α → Prop) (s : σ) : σ → Prop
  | start : Reaches step ok s s
  | next {t u : σ} {a : α} :
      Reaches step ok s t → ok t a → step t a = some u → Reaches step ok s u

variable {step : σ → α → Option σ} {ok ok' : σ → α → Prop} {s t u : σ}

theorem Reaches.trans (h : Reaches step ok s t) (h' : Reaches step ok t u) :
    Reaches step ok s u := by
  induction h' with
  | start => exact h
  | next _ hok hs ih => exact ih.next hok hs

theorem Reaches.mono (h : Reaches step ok s t) (hok : ∀ t a, ok t a → ok' t a) :
    Reaches step ok' s t := by
  induction h with
  | start => exact .start
  | next _ ho hs ih => exact ih.next (hok _ _ ho) hs

/-- An invariant that every guarded step preserves holds in every state of a
guarded run. -/
theorem Reaches.invariant {P : σ → Prop} (h : Reaches step ok s t) (hs : P s)
    (hstep : ∀ t u a, P t → ok t a → step t a = some u → P u) : P t := by
  induction h with
  | start => exact hs
  | next _ hok hu ih => exact hstep _ _ _ ih hok hu

/-- The run of a list of actions, `none` as soon as one has no successor. -/
def exec (step : σ → α → Option σ) : σ → List α → Option σ
  | s, [] => some s
  | s, a :: as => (step s a).bind (exec step · as)

theorem exec_append (s : σ) (as bs : List α) :
    exec step s (as ++ bs) = (exec step s as).bind (exec step · bs) := by
  induction as generalizing s with
  | nil => rfl
  | cons a as ih =>
    rw [List.cons_append, exec, exec, Option.bind_assoc]
    congr 1
    funext u
    exact ih u

theorem exec_concat_eq_some {as : List α} {a : α} : exec step s (as ++ [a]) = some u ↔
    ∃ t, exec step s as = some t ∧ step t a = some u := by
  rw [exec_append, Option.bind_eq_some_iff]
  refine exists_congr fun t ↦ and_congr_right fun _ ↦ ?_
  rw [exec]
  cases step t a <;> rfl

/-- Every state of the run of a list of actions, the first and the last included. -/
def AllAlong (step : σ → α → Option σ) (Q : σ → Prop) (s : σ) (as : List α) : Prop :=
  ∀ pre u, pre <+: as → exec step s pre = some u → Q u

section

variable {P Q : σ → Prop} {a : α} {as bs : List α}

theorem AllAlong.nil (h : Q s) : AllAlong step Q s [] := by
  intro pre u hpre hu
  rw [List.prefix_nil.mp hpre] at hu
  cases hu
  exact h

theorem AllAlong.cons (h : Q s) (ht : ∀ t, step s a = some t → AllAlong step Q t as) :
    AllAlong step Q s (a :: as) := by
  intro pre u hpre hu
  cases pre with
  | nil =>
    cases hu
    exact h
  | cons b pre =>
    obtain ⟨rfl, hpre'⟩ := List.cons_prefix_cons.mp hpre
    obtain ⟨t, hbt, htu⟩ := Option.bind_eq_some_iff.mp hu
    exact ht t hbt pre u hpre' htu

theorem AllAlong.head (h : AllAlong step Q s as) : Q s := h [] s List.nil_prefix rfl

theorem AllAlong.left (h : AllAlong step Q s (as ++ bs)) : AllAlong step Q s as :=
  fun pre u hpre hu ↦ h pre u (hpre.trans (List.prefix_append as bs)) hu

theorem AllAlong.right (h : AllAlong step Q s (as ++ bs)) (ht : exec step s as = some t) :
    AllAlong step Q t bs := by
  intro pre u hpre hu
  refine h (as ++ pre) u ((List.prefix_append_right_inj as).mpr hpre) ?_
  rw [exec_append, ht]
  exact hu

theorem AllAlong.tail (h : AllAlong step Q s (a :: as)) (ht : step s a = some t) :
    AllAlong step Q t as := by
  intro pre u hpre hu
  refine h (a :: pre) u (List.cons_prefix_cons.mpr ⟨rfl, hpre⟩) ?_
  rw [exec, ht]
  exact hu

/-- A property that each step of a run keeps, where `Q` holds of all its states. -/
theorem AllAlong.keeps (h : AllAlong step Q s as)
    (hstep : ∀ s a t, P s → Q s → step s a = some t → P t) (hs : P s)
    (he : exec step s as = some t) : P t := by
  induction as generalizing s with
  | nil =>
    cases he
    exact hs
  | cons a as ih =>
    obtain ⟨u, hu, ht⟩ := Option.bind_eq_some_iff.mp he
    exact ih (h.tail hu) (hstep s a u hs h.head hu) ht

end

/-- A list of actions all of which meet the guard where they are taken. -/
def Guarded (step : σ → α → Option σ) (ok : σ → α → Prop) : σ → List α → Prop
  | _, [] => True
  | s, a :: as => ok s a ∧ ∀ t, step s a = some t → Guarded step ok t as

theorem guarded_iff {as : List α} : Guarded step ok s as ↔
    ∀ pre a u, pre ++ [a] <+: as → exec step s pre = some u → ok u a := by
  induction as generalizing s with
  | nil =>
    refine ⟨fun _ pre a u hpre ↦ ?_, fun _ ↦ trivial⟩
    exact absurd (List.prefix_nil.mp hpre) (by simp)
  | cons b as ih =>
    constructor
    · rintro ⟨hb, hg⟩ pre a u hpre hu
      cases pre with
      | nil =>
        cases hu
        exact (List.cons_prefix_cons.mp hpre).1 ▸ hb
      | cons c pre =>
        obtain ⟨rfl, hpre'⟩ := List.cons_prefix_cons.mp hpre
        obtain ⟨t, ht, hu'⟩ := Option.bind_eq_some_iff.mp hu
        exact ih.mp (hg t ht) pre a u hpre' hu'
    · intro hall
      refine ⟨hall [] b s ⟨as, rfl⟩ rfl, fun t ht ↦ ih.mpr fun pre a u hpre hu ↦ ?_⟩
      refine hall (b :: pre) a u (List.cons_prefix_cons.mpr ⟨rfl, hpre⟩) ?_
      exact Option.bind_eq_some_iff.mpr ⟨t, ht, hu⟩

/-- An invariant that knows the actions taken. Every action can be taken where it
holds. -/
theorem exec_invariant {P : List α → σ → Prop} {as : List α}
    (hstep : ∀ pre a s, (pre ++ [a]) <+: as → P pre s → ∃ t, step s a = some t ∧ P (pre ++ [a]) t)
    (hs : P [] s) : ∃ t, exec step s as = some t ∧ P as t := by
  induction as generalizing s P with
  | nil => exact ⟨s, rfl, hs⟩
  | cons a as ih =>
    obtain ⟨u, hu, hpu⟩ := hstep [] a s ⟨as, rfl⟩ hs
    obtain ⟨t, ht, hpt⟩ := ih (P := fun pre s ↦ P (a :: pre) s)
      (fun pre b s hpre hp ↦ hstep (a :: pre) b s (List.cons_prefix_cons.mpr ⟨rfl, hpre⟩) hp) hpu
    exact ⟨t, Option.bind_eq_some_iff.mpr ⟨u, hu, ht⟩, hpt⟩

theorem Reaches.of_exec {as : List α} (hg : Guarded step ok s as)
    (he : exec step s as = some t) : Reaches step ok s t := by
  induction as generalizing s with
  | nil =>
    cases he
    exact .start
  | cons a as ih =>
    obtain ⟨u, hu, ht⟩ := Option.bind_eq_some_iff.mp he
    exact (Reaches.start.next hg.1 hu).trans (ih (hg.2 u hu) ht)

/-- A property that a step keeps exactly when it meets the guard, and that does
not come back, holds at the end of a run exactly if all steps met the guard.
`inv` holds on the way, for actions of the domain. -/
theorem exec_iff_guarded {inv prop : σ → Prop} {dom : α → Prop} {as : List α}
    (hstep : ∀ s a t, inv s → dom a → step s a = some t → inv t ∧ (prop t ↔ prop s ∧ ok s a))
    (hs : inv s) (hdom : ∀ a ∈ as, dom a) (he : exec step s as = some t) :
    inv t ∧ (prop t ↔ prop s ∧ Guarded step ok s as) := by
  induction as generalizing s with
  | nil =>
    cases he
    exact ⟨hs, (and_iff_left trivial).symm⟩
  | cons a as ih =>
    obtain ⟨u, hu, ht⟩ := Option.bind_eq_some_iff.mp he
    obtain ⟨hinv, hprop⟩ := hstep s a u hs (hdom a List.mem_cons_self) hu
    obtain ⟨hinv', hprop'⟩ := ih hinv (fun b hb ↦ hdom b (List.mem_cons_of_mem a hb)) ht
    refine ⟨hinv', hprop'.trans ?_⟩
    rw [hprop, and_assoc]
    refine and_congr_right fun _ ↦ and_congr_right fun _ ↦ ?_
    constructor
    · intro hg u' hu'
      exact Option.some.inj (hu.symm.trans hu') ▸ hg
    · intro hg
      exact hg u hu

/-- A property that a step keeps exactly when it meets the guard holds all along
a run exactly if all steps meet the guard. It implies `inv` on the way. -/
theorem forall_prefix_iff_guarded {inv prop : σ → Prop} {as : List α}
    (hstep : ∀ s a t, prop s → inv s → step s a = some t → (prop t ↔ ok s a) ∧ (prop t → inv t))
    (hs : prop s) (hi : inv s) (he : exec step s as = some t) :
    (∀ pre u, pre <+: as → exec step s pre = some u → prop u) ↔ Guarded step ok s as := by
  induction as generalizing s with
  | nil =>
    refine ⟨fun _ ↦ trivial, fun _ pre u hpre hu ↦ ?_⟩
    rw [List.prefix_nil.mp hpre] at hu
    cases hu
    exact hs
  | cons a as ih =>
    obtain ⟨u, hu, ht⟩ := Option.bind_eq_some_iff.mp he
    obtain ⟨hok, hinv⟩ := hstep s a u hs hi hu
    have hcons (pre : List α) : exec step s (a :: pre) = exec step u pre := by
      rw [exec, hu]
      rfl
    constructor
    · intro hall
      have hprop : prop u := hall [a] u ⟨as, rfl⟩ (hcons [])
      refine ⟨hok.mp hprop, fun u' hu' ↦ ?_⟩
      obtain rfl : u = u' := Option.some.inj (hu.symm.trans hu')
      refine (ih hprop (hinv hprop) ht).mp fun pre v hpre hv ↦ hall (a :: pre) v ?_ ?_
      · exact List.cons_prefix_cons.mpr ⟨rfl, hpre⟩
      · exact (hcons pre).trans hv
    · intro hg pre v hpre hv
      have hprop := hok.mpr hg.1
      cases pre with
      | nil =>
        cases hv
        exact hs
      | cons b pre =>
        obtain ⟨rfl, hpre'⟩ := List.cons_prefix_cons.mp hpre
        exact (ih hprop (hinv hprop) ht).mpr (hg.2 u hu) pre v hpre' ((hcons pre).symm.trans hv)

end Isl.Lib.Run
