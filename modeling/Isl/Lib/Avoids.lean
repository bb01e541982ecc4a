import Mathlib.Data.List.Basic

/-!
Fallible computations that do not end in an error of a given kind.
-/

namespace Isl.Lib

universe u v

variable {ε : Type u} {α β : Type v} {bad : ε → Prop}

def Avoids (bad : ε → Prop) : Except ε α → Prop
  | .ok _ => True
  | .error e => ¬bad e

namespace Avoids

@[simp] theorem ok (a : α) : Avoids bad (.ok a : Except ε α) := trivial

@[simp] theorem error_iff {e : ε} : Avoids bad (.error e : Except ε α) ↔ ¬bad e := Iff.rfl

theorem bind_iff {x : Except ε α} {f : α → Except ε β} :
    Avoids bad (x >>= f) ↔ Avoids bad x ∧ ∀ a, x = .ok a → Avoids bad (f a) := by
  cases x with
  | ok a =>
    refine ⟨fun h ↦ ⟨trivial, fun b hb ↦ ?_⟩, fun h ↦ h.2 a rfl⟩
    cases hb
    exact h
  | error e => exact ⟨fun h ↦ ⟨h, nofun⟩, fun h ↦ h.1⟩

theorem bind_eq_ok {x : Except ε α} {f : α → Except ε β} {b : β} :
    x >>= f = .ok b ↔ ∃ a, x = .ok a ∧ f a = .ok b := by
  cases x with
  | ok a => exact ⟨fun h ↦ ⟨a, rfl, h⟩, fun ⟨_, ha, h⟩ ↦ Except.ok.inj ha ▸ h⟩
  | error e => exact iff_of_false nofun fun h ↦ nomatch h.choose_spec.1

theorem bind {x : Except ε α} {f : α → Except ε β} (h : Avoids bad x)
    (hf : ∀ a, x = .ok a → Avoids bad (f a)) : Avoids bad (x >>= f) := bind_iff.mpr ⟨h, hf⟩

/-- What follows a computation that succeeds when it avoids the error. -/
theorem bind_left_iff {x : Except ε α} {f : α → Except ε β} (hf : ∀ a, Avoids bad (f a)) :
    Avoids bad (x >>= f) ↔ Avoids bad x :=
  bind_iff.trans (and_iff_left fun a _ ↦ hf a)

theorem map_iff {x : Except ε α} {f : α → β} : Avoids bad (f <$> x) ↔ Avoids bad x := by
  cases x <;> rfl

/-- A loop every turn of which avoids the error. -/
theorem foldlM {f : β → α → Except ε β} (h : ∀ b a, Avoids bad (f b a)) (l : List α) (b : β) :
    Avoids bad (l.foldlM f b) := by
  induction l generalizing b with
  | nil => exact ok b
  | cons a l ih =>
    rw [List.foldlM_cons]
    exact (h b a).bind fun b' _ ↦ ih b'

end Avoids

end Isl.Lib
