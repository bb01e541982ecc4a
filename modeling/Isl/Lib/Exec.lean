import Mathlib.Data.Nat.Notation
import Mathlib.Logic.Basic

/-!
Computations on a state that may be stopped on the way, or come to a step that
has no defined effect, with the properties of the state that they keep and the
states that they cannot tell apart.
-/

namespace Isl.Lib

/-- How a computation ends: with a result, stopped for a reason `i`, or in a step
without a defined effect. -/
inductive Outcome (ι ε σ α : Type)
  | ok (a : α) (s : σ)
  | stop (i : ι) (s : σ)
  | wrong (e : ε)

def Exec (ι ε σ α : Type) := σ → Outcome ι ε σ α

variable {ι ε σ α β : Type}

namespace Outcome

/-- The state, if there is one, meets `P`. -/
def All (P : σ → Prop) : Outcome ι ε σ α → Prop
  | .ok _ s => P s
  | .stop _ s => P s
  | .wrong _ => True

def map (f : σ → σ) : Outcome ι ε σ α → Outcome ι ε σ α
  | .ok a s => .ok a (f s)
  | .stop i s => .stop i (f s)
  | .wrong e => .wrong e

/-- The state of a computation that has not gone wrong. -/
def state? : Outcome ι ε σ α → Option σ
  | .ok _ s => some s
  | .stop _ s => some s
  | .wrong _ => none

def isOk : Outcome ι ε σ α → Bool
  | .ok _ _ => true
  | _ => false

/-- What has gone wrong. -/
def wrong? : Outcome ι ε σ α → Option ε
  | .wrong e => some e
  | _ => none

theorem All.imp {P Q : σ → Prop} {o : Outcome ι ε σ α} (h : o.All P) (hPQ : ∀ s, P s → Q s) :
    o.All Q := by
  cases o with
  | wrong e => trivial
  | _ => exact hPQ _ h

theorem All.state? {P : σ → Prop} {o : Outcome ι ε σ α} (h : o.All P) {s : σ}
    (hs : o.state? = some s) : P s := by
  cases o with
  | wrong e => cases hs
  | _ =>
    cases hs
    exact h

/-- The same end in related states, where reasons to stop are related as well. -/
def Agree (I : ι → ι → Prop) (R : σ → σ → Prop) : Outcome ι ε σ α → Outcome ι ε σ α → Prop
  | .ok a s, .ok b t => a = b ∧ R s t
  | .stop i s, .stop j t => I i j ∧ R s t
  | .wrong e, .wrong f => e = f
  | _, _ => False

end Outcome

namespace Exec

def bind (x : Exec ι ε σ α) (f : α → Exec ι ε σ β) : Exec ι ε σ β := fun s ↦
  match x s with
  | .ok a s => f a s
  | .stop i s => .stop i s
  | .wrong e => .wrong e

instance : Monad (Exec ι ε σ) where
  pure a := fun s ↦ .ok a s
  bind := bind

def get : Exec ι ε σ σ := fun s ↦ .ok s s

def modify (f : σ → σ) : Exec ι ε σ Unit := fun s ↦ .ok () (f s)

def stop (i : ι) : Exec ι ε σ α := fun s ↦ .stop i s

def wrong (e : ε) : Exec ι ε σ α := fun _ ↦ .wrong e

def ofOption (e : ε) : Option α → Exec ι ε σ α
  | some a => pure a
  | none => wrong e

/-- `n` times the same. -/
def times (x : Exec ι ε σ Unit) : ℕ → Exec ι ε σ Unit
  | 0 => pure ()
  | n + 1 => x >>= fun _ ↦ times x n

variable {x : Exec ι ε σ α} {f : α → Exec ι ε σ β} {s t : σ} {a : α}

@[simp] theorem pure_apply (a : α) (s : σ) : (pure a : Exec ι ε σ α) s = .ok a s := rfl

@[simp] theorem get_apply (s : σ) : (get : Exec ι ε σ σ) s = .ok s s := rfl

@[simp] theorem modify_apply (g : σ → σ) (s : σ) : (modify g : Exec ι ε σ Unit) s = .ok () (g s) :=
  rfl

@[simp] theorem stop_apply (i : ι) (s : σ) : (stop i : Exec ι ε σ α) s = .stop i s := rfl

@[simp] theorem wrong_apply (e : ε) (s : σ) : (wrong e : Exec ι ε σ α) s = .wrong e := rfl

@[simp] theorem ofOption_some (e : ε) (a : α) : (ofOption e (some a) : Exec ι ε σ α) = pure a := rfl

theorem bind_apply (x : Exec ι ε σ α) (f : α → Exec ι ε σ β) (s : σ) : (x >>= f) s =
    match x s with
    | .ok a s => f a s
    | .stop i s => .stop i s
    | .wrong e => .wrong e := rfl

theorem bind_ok (h : x s = .ok a t) (f : α → Exec ι ε σ β) : (x >>= f) s = f a t := by
  rw [bind_apply, h]

theorem bind_eq {o : Outcome ι ε σ β} (h : x s = .ok a t) (ho : f a t = o) : (x >>= f) s = o :=
  (bind_ok h f).trans ho

theorem bind_stop {i : ι} (h : x s = .stop i t) (f : α → Exec ι ε σ β) :
    (x >>= f) s = .stop i t := by
  rw [bind_apply, h]

theorem bind_eq_ok {b : β} {u : σ} : (x >>= f) s = .ok b u ↔
    ∃ a t, x s = .ok a t ∧ f a t = .ok b u := by
  constructor
  · intro h
    rw [bind_apply] at h
    split at h
    · exact ⟨_, _, ‹_›, h⟩
    · cases h
    · cases h
  · rintro ⟨a, t, hx, hf⟩
    exact bind_eq hx hf

theorem bind_assoc {γ : Type} (x : Exec ι ε σ α) (f : α → Exec ι ε σ β)
    (g : β → Exec ι ε σ γ) : x >>= f >>= g = x >>= fun a ↦ f a >>= g := by
  funext s
  rw [bind_apply, bind_apply, bind_apply]
  cases x s <;> rfl

@[simp] theorem pure_bind_apply (a : α) (f : α → Exec ι ε σ β) : (pure a >>= f) s = f a s := rfl

@[simp] theorem get_bind_apply (f : σ → Exec ι ε σ β) : (get >>= f) s = f s s := rfl

@[simp] theorem modify_bind_apply (g : σ → σ) (f : Unit → Exec ι ε σ β) :
    (modify g >>= f) s = f () (g s) := rfl

/-! Properties that are kept. -/

section Keeps

variable {P : σ → Prop}

/-- Whatever the end, `P` holds there if it held before. -/
def Keeps (P : σ → Prop) (x : Exec ι ε σ α) : Prop := ∀ s, P s → (x s).All P

theorem Keeps.pure (a : α) : Keeps P (Pure.pure a : Exec ι ε σ α) := fun _ h ↦ h

theorem Keeps.bind (hx : Keeps P x) (hf : ∀ a, Keeps P (f a)) : Keeps P (x >>= f) := by
  intro s hs
  have h := hx s hs
  rw [bind_apply]
  cases hr : x s with
  | ok a t =>
    rw [hr] at h
    exact hf a t h
  | stop i t =>
    rw [hr] at h
    exact h
  | wrong e => trivial

/-- `P` is kept, and a result meets `Q`. -/
def Returns (P : σ → Prop) (Q : α → Prop) (x : Exec ι ε σ α) : Prop :=
  Keeps P x ∧ ∀ s a t, P s → x s = .ok a t → Q a

theorem Returns.bind {Q : α → Prop} (hx : Returns P Q x) (hf : ∀ a, Q a → Keeps P (f a)) :
    Keeps P (x >>= f) := by
  intro s hs
  have h := hx.1 s hs
  have hq := hx.2 s
  rw [bind_apply]
  cases hr : x s with
  | ok a t =>
    rw [hr] at h
    exact hf a (hq a t hs hr) t h
  | stop i t =>
    rw [hr] at h
    exact h
  | wrong e => trivial

theorem Returns.get : Returns P P (Exec.get : Exec ι ε σ σ) := by
  refine ⟨fun _ h ↦ h, fun s a t hs h ↦ ?_⟩
  cases h
  exact hs

theorem Keeps.get : Keeps P (Exec.get : Exec ι ε σ σ) := fun _ h ↦ h

theorem Keeps.modify {g : σ → σ} (h : ∀ s, P s → P (g s)) :
    Keeps P (Exec.modify g : Exec ι ε σ Unit) := h

theorem Keeps.stop (i : ι) : Keeps P (Exec.stop i : Exec ι ε σ α) := fun _ h ↦ h

theorem Keeps.wrong (e : ε) : Keeps P (Exec.wrong e : Exec ι ε σ α) := fun _ _ ↦ trivial

theorem Keeps.ofOption (e : ε) (o : Option α) : Keeps P (Exec.ofOption e o : Exec ι ε σ α) := by
  cases o with
  | none => exact .wrong e
  | some a => exact .pure a

theorem Keeps.ite {c : Prop} [Decidable c] {y : Exec ι ε σ α} (hx : Keeps P x) (hy : Keeps P y) :
    Keeps P (if c then x else y) := by
  split
  · exact hx
  · exact hy

theorem Keeps.times {x : Exec ι ε σ Unit} (hx : Keeps P x) (n : ℕ) : Keeps P (x.times n) := by
  induction n with
  | zero => exact .pure ()
  | succ n ih => exact hx.bind fun _ ↦ ih

end Keeps

/-! Pre- and postconditions. -/

section Triple

variable {P P' S : σ → Prop} {Q Q' : α → σ → Prop} {T : β → σ → Prop} {W : ε → Prop}

/-- From `P`, a result and its state meet `Q`, the state of an early stop `S`, and what
goes wrong is among `W`. -/
def Triple (P : σ → Prop) (x : Exec ι ε σ α) (Q : α → σ → Prop) (S : σ → Prop) (W : ε → Prop) :
    Prop :=
  ∀ s, P s → match x s with
    | .ok a t => Q a t
    | .stop _ t => S t
    | .wrong e => W e

namespace Triple

theorem pure (a : α) (h : ∀ s, P s → Q a s) :
    Triple P (Pure.pure a : Exec ι ε σ α) Q S W := h

theorem bind {R : α → σ → Prop} (hx : Triple P x R S W) (hf : ∀ a, Triple (R a) (f a) T S W) :
    Triple P (x >>= f) T S W := by
  intro s hs
  have h := hx s hs
  rw [bind_apply]
  cases hr : x s with
  | ok a t =>
    rw [hr] at h
    exact hf a t h
  | _ =>
    rw [hr] at h
    exact h

theorem mono (h : Triple P x Q S W) (hQ : ∀ a s, Q a s → Q' a s) : Triple P x Q' S W := by
  intro s hs
  have hx := h s hs
  revert hx
  cases x s with
  | ok a t => exact hQ a t
  | _ => exact id

theorem get_bind {f : σ → Exec ι ε σ α} (h : ∀ s, P s → Triple P (f s) Q S W) :
    Triple P (Exec.get >>= f) Q S W := fun s hs ↦ h s hs s hs

theorem modify {g : σ → σ} {Q : Unit → σ → Prop} (h : ∀ s, P s → Q () (g s)) :
    Triple P (Exec.modify g : Exec ι ε σ Unit) Q S W := h

/-- What keeps a property may end in it early. -/
theorem of_keeps (h : Keeps P x) (hw : ∀ s e, P s → x s = .wrong e → W e) :
    Triple P x (fun _ ↦ P) P W := by
  intro s hs
  have hx := h s hs
  have he := hw s
  revert hx he
  cases x s with
  | wrong e => exact fun _ he ↦ he e hs rfl
  | _ => exact fun hx _ ↦ hx

theorem ok {s t : σ} {a : α} (h : Triple P x Q S W) (hs : P s) (hx : x s = .ok a t) : Q a t := by
  have hq := h s hs
  rwa [hx] at hq

theorem stop {s t : σ} {i : ι} (h : Triple P x Q S W) (hs : P s) (hx : x s = .stop i t) : S t := by
  have hq := h s hs
  rwa [hx] at hq

theorem wrong {s : σ} {e : ε} (h : Triple P x Q S W) (hs : P s) (hx : x s = .wrong e) : W e := by
  have hq := h s hs
  rwa [hx] at hq

end Triple

end Triple

/-! Computations that cannot be told apart from related states. -/

section Agree

variable {I : ι → ι → Prop} {R : σ → σ → Prop} {y : Exec ι ε σ α} {g : α → Exec ι ε σ β}

def Agree (I : ι → ι → Prop) (R : σ → σ → Prop) (x y : Exec ι ε σ α) : Prop :=
  ∀ s t, R s t → (x s).Agree I R (y t)

theorem Agree.pure (a : α) : Agree I R (Pure.pure a : Exec ι ε σ α) (Pure.pure a) :=
  fun _ _ h ↦ ⟨rfl, h⟩

theorem Agree.bind (hx : Agree I R x y) (hf : ∀ a, Agree I R (f a) (g a)) :
    Agree I R (x >>= f) (y >>= g) := by
  intro s t h
  have hxy := hx s t h
  rw [bind_apply, bind_apply]
  revert hxy
  cases x s <;> cases y t
  case ok.ok a u b v =>
    rintro ⟨rfl, huv⟩
    exact hf a u v huv
  all_goals first | exact id | exact False.elim

/-- What is read of the state is the same. -/
theorem Agree.get_bind {f g : σ → Exec ι ε σ α}
    (h : ∀ s t, R s t → (f s s).Agree I R (g t t)) :
    Agree I R (Exec.get >>= f) (Exec.get >>= g) := h

theorem Agree.modify {f g : σ → σ} (h : ∀ s t, R s t → R (f s) (g t)) :
    Agree I R (Exec.modify f : Exec ι ε σ Unit) (Exec.modify g) := fun s t hst ↦ ⟨rfl, h s t hst⟩

theorem Agree.ite {c : Prop} [Decidable c] {x' y' : Exec ι ε σ α} (hx : Agree I R x y)
    (hx' : Agree I R x' y') : Agree I R (if c then x else x') (if c then y else y') := by
  split
  · exact hx
  · exact hx'

end Agree

end Exec

end Isl.Lib
