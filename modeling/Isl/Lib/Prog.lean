import Mathlib.Data.Option.Basic

/-!
Programs over operations whose effect on a state is given apart, and what holds
before every operation that a run of a program performs.
-/

namespace Isl.Lib

/-- `stuck` is a step without a defined effect. -/
inductive Prog (Op : Type) (Reply : Op → Type) (α : Type)
  | ret (a : α)
  | stuck
  | call (op : Op) (next : Reply op → Prog Op Reply α)

/-- What an operation answers, and the state after it. -/
abbrev Handler (Op : Type) (Reply : Op → Type) (σ : Type) := (op : Op) → σ → Reply op × σ

namespace Prog

variable {Op : Type} {Reply : Op → Type} {α β σ : Type}

def bind : Prog Op Reply α → (α → Prog Op Reply β) → Prog Op Reply β
  | .ret a, f => f a
  | .stuck, _ => .stuck
  | .call op next, f => .call op fun r ↦ (next r).bind f

instance : Monad (Prog Op Reply) where
  pure := .ret
  bind := .bind

theorem bind_ret (x : Prog Op Reply α) : x.bind .ret = x := by
  induction x with
  | ret a => rfl
  | stuck => rfl
  | call op next ih => exact congrArg (Prog.call op) (funext ih)

theorem bind_assoc {γ : Type} (x : Prog Op Reply α) (f : α → Prog Op Reply β)
    (g : β → Prog Op Reply γ) : (x.bind f).bind g = x.bind fun a ↦ (f a).bind g := by
  induction x with
  | ret a => rfl
  | stuck => rfl
  | call op next ih => exact congrArg (Prog.call op) (funext ih)

instance : LawfulMonad (Prog Op Reply) :=
  LawfulMonad.mk' _ bind_ret (fun _ _ ↦ rfl) bind_assoc

def perform (op : Op) : Prog Op Reply (Reply op) := .call op .ret

def run (h : Handler Op Reply σ) : Prog Op Reply α → σ → Option (α × σ)
  | .ret a, s => some (a, s)
  | .stuck, _ => none
  | .call op next, s => (next (h op s).1).run h (h op s).2

def Always (h : Handler Op Reply σ) (P : σ → Op → Prop) : Prog Op Reply α → σ → Prop
  | .ret _, _ => True
  | .stuck, _ => True
  | .call op next, s => P s op ∧ (next (h op s).1).Always h P (h op s).2

variable {h : Handler Op Reply σ} {P : σ → Op → Prop} {s : σ} {x : Prog Op Reply α}
  {f : α → Prog Op Reply β} {op : Op}

@[simp] theorem run_pure (a : α) : run h (pure a : Prog Op Reply α) s = some (a, s) := rfl

@[simp] theorem run_perform_bind {f : Reply op → Prog Op Reply α} :
    run h (perform op >>= f) s = run h (f (h op s).1) (h op s).2 := rfl

@[simp] theorem always_pure (a : α) : Always h P (pure a : Prog Op Reply α) s := trivial

@[simp] theorem always_perform : Always h P (perform op) s ↔ P s op := and_iff_left trivial

@[simp] theorem always_perform_bind {f : Reply op → Prog Op Reply α} :
    Always h P (perform op >>= f) s ↔ P s op ∧ Always h P (f (h op s).1) (h op s).2 := Iff.rfl

theorem run_bind : run h (x >>= f) s = (run h x s).bind fun r ↦ run h (f r.1) r.2 := by
  induction x generalizing s with
  | ret a => rfl
  | stuck => rfl
  | call op next ih => exact ih (h op s).1

theorem always_bind : Always h P (x >>= f) s ↔
    Always h P x s ∧ ∀ a s', run h x s = some (a, s') → Always h P (f a) s' := by
  induction x generalizing s with
  | ret a =>
    refine ⟨fun hf ↦ ⟨trivial, fun b s' hr ↦ ?_⟩, fun hf ↦ hf.2 a s rfl⟩
    cases hr
    exact hf
  | stuck => exact iff_of_true trivial ⟨trivial, nofun⟩
  | call op next ih =>
    have hop : Always h P (Prog.bind (next (h op s).1) f) (h op s).2 ↔ _ := @ih (h op s).1 (h op s).2
    exact (and_congr_right fun _ ↦ hop).trans and_assoc.symm

/-! What holds after a run, and that there is one. -/

section Triple

variable {Q Q' R : σ → Prop} {S S' : α → σ → Prop} {T : β → σ → Prop}

/-- From `Q`, the result of a run and its state meet `S`. -/
def Triple (h : Handler Op Reply σ) (Q : σ → Prop) (x : Prog Op Reply α) (S : α → σ → Prop) : Prop :=
  ∀ s, Q s → ∀ a s', run h x s = some (a, s') → S a s'

theorem Triple.pure {a : α} (hs : ∀ s, Q s → S a s) :
    Triple h Q (Pure.pure a : Prog Op Reply α) S := by
  intro s hq b s' hr
  cases hr
  exact hs s hq

theorem Triple.stuck : Triple h Q (.stuck : Prog Op Reply α) S := by
  intro s _ a s' hr
  cases hr

theorem Triple.perform {S : Reply op → σ → Prop} (hs : ∀ s, Q s → S (h op s).1 (h op s).2) :
    Triple h Q (Prog.perform op) S := by
  intro s hq b s' hr
  cases hr
  exact hs s hq

theorem Triple.bind (hx : Triple h Q x S) (hf : ∀ a, Triple h (S a) (f a) T) :
    Triple h Q (x >>= f) T := by
  intro s hq b s' hr
  rw [run_bind] at hr
  obtain ⟨⟨a, t⟩, hxa, hfa⟩ := Option.bind_eq_some_iff.mp hr
  exact hf a t (hx s hq a t hxa) b s' hfa

theorem Triple.mono (hx : Triple h Q x S) (hs : ∀ a s, S a s → S' a s) : Triple h Q x S' :=
  fun s hq a s' hr ↦ hs a s' (hx s hq a s' hr)

theorem Triple.of_imp (hx : Triple h Q x S) (hq : ∀ s, Q' s → Q s) : Triple h Q' x S :=
  fun s hs ↦ hx s (hq s hs)

/-- A run that performs only operations that are allowed comes to a result. -/
def Ends (h : Handler Op Reply σ) (P : σ → Op → Prop) (x : Prog Op Reply α) : Prop :=
  ∀ s, Always h P x s → (run h x s).isSome

theorem Ends.pure (a : α) : Ends h P (Pure.pure a : Prog Op Reply α) := fun _ _ ↦ rfl

theorem Ends.perform (op : Op) : Ends h P (Prog.perform op) := fun _ _ ↦ rfl

theorem Ends.bind (hx : Ends h P x) (hf : ∀ a, Ends h P (f a)) : Ends h P (x >>= f) := by
  intro s halways
  obtain ⟨hxs, hrest⟩ := always_bind.mp halways
  obtain ⟨⟨a, t⟩, hrun⟩ := Option.isSome_iff_exists.mp (hx s hxs)
  rw [run_bind, hrun]
  exact hf a t (hrest a t hrun)

end Triple

/-! A run that comes to a result, and what holds of it. -/

section Total

variable {S S' : α → σ → Prop} {T : β → σ → Prop}

def Total (h : Handler Op Reply σ) (x : Prog Op Reply α) (s : σ) (S : α → σ → Prop) : Prop :=
  ∃ a s', run h x s = some (a, s') ∧ S a s'

theorem Total.pure {a : α} (hs : S a s) : Total h (Pure.pure a : Prog Op Reply α) s S :=
  ⟨a, s, rfl, hs⟩

theorem Total.perform {S : Reply op → σ → Prop} (hs : S (h op s).1 (h op s).2) :
    Total h (Prog.perform op) s S :=
  ⟨(h op s).1, (h op s).2, rfl, hs⟩

theorem Total.bind (hx : Total h x s S) (hf : ∀ a t, S a t → Total h (f a) t T) :
    Total h (x >>= f) s T := by
  obtain ⟨a, t, hrun, hs⟩ := hx
  obtain ⟨b, u, hrest, ht⟩ := hf a t hs
  refine ⟨b, u, ?_, ht⟩
  rw [run_bind, hrun]
  exact hrest

theorem Total.mono (hx : Total h x s S) (hs : ∀ a t, S a t → S' a t) : Total h x s S' := by
  obtain ⟨a, t, hrun, ha⟩ := hx
  exact ⟨a, t, hrun, hs a t ha⟩

end Total

/-! Programs that perform only some operations. -/

section Only

variable {allowed : Op → Prop} {I : σ → Prop}

inductive Only (allowed : Op → Prop) : Prog Op Reply α → Prop
  | ret (a : α) : Only allowed (.ret a)
  | stuck : Only allowed .stuck
  | call {op : Op} {next : Reply op → Prog Op Reply α} (hop : allowed op)
    (hnext : ∀ r, Only allowed (next r)) : Only allowed (.call op next)

theorem Only.pure (a : α) : Only allowed (Pure.pure a : Prog Op Reply α) := .ret a

theorem Only.perform (h : allowed op) : Only allowed (Prog.perform op : Prog Op Reply _) :=
  .call h fun r ↦ .ret r

theorem Only.bind (hx : Only allowed x) (hf : ∀ a, Only allowed (f a)) : Only allowed (x >>= f) := by
  induction hx with
  | ret a => exact hf a
  | stuck => exact .stuck
  | call hop _ ih => exact .call hop ih

theorem Only.ite {c : Prop} [Decidable c] {x y : Prog Op Reply α} (hx : Only allowed x)
    (hy : Only allowed y) : Only allowed (if c then x else y) := by
  split
  · exact hx
  · exact hy

/-- What every allowed operation keeps, a run keeps. -/
theorem Only.invariant (hx : Only allowed x) (hop : ∀ op s, allowed op → I s → I (h op s).2)
    {a : α} {s' : σ} (hs : I s) (hrun : run h x s = some (a, s')) : I s' := by
  induction hx generalizing s with
  | ret a =>
    cases hrun
    exact hs
  | stuck => cases hrun
  | @call op next hallowed _ ih => exact ih (h op s).1 (hop op s hallowed hs) hrun

end Only

end Prog

end Isl.Lib
