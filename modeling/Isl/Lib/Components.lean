import Mathlib.Data.List.TakeWhile
import Mathlib.Data.List.Basic

/-! Strings over a separator, and the components they are made of. -/

namespace Isl.Lib.Components

variable {α : Type*}

/-- Every component with a separator before it. -/
def render (sep : α) (cs : List (List α)) : List α := cs.flatMap (sep :: ·)

/-- The string is at the end of a component. -/
def AtEnd (sep : α) (p : List α) : Prop := p = [] ∨ p.head? = some sep

variable {sep a : α} {p q c : List α} {cs ds : List (List α)}

@[simp] theorem render_nil : render sep ([] : List (List α)) = [] := rfl

theorem render_append : render sep (cs ++ ds) = render sep cs ++ render sep ds :=
  List.flatMap_append

theorem render_cons : render sep (c :: cs) = sep :: c ++ render sep cs := rfl

theorem render_concat : render sep (cs ++ [c]) = render sep cs ++ sep :: c := by
  simp [render]

theorem length_render_concat (sep : α) (cs : List (List α)) (c : List α) :
    (render sep (cs ++ [c])).length = (render sep cs).length + 1 + c.length := by
  rw [render_concat, List.length_append, List.length_cons]
  omega

theorem atEnd_render : AtEnd sep (render sep cs) := by
  cases cs with
  | nil => exact .inl rfl
  | cons c cs => exact .inr rfl

theorem AtEnd.append (h : AtEnd sep p) (hq : AtEnd sep q) : AtEnd sep (p ++ q) := by
  rcases h with rfl | h
  · exact hq
  · cases p with
    | nil => cases h
    | cons a p => exact .inr h

variable [DecidableEq α]

/-- The nonempty pieces between separators. -/
def comps (sep : α) : List α → List (List α)
  | [] => []
  | a :: p =>
    if a = sep then comps sep p
    else match p with
      | [] => [[a]]
      | b :: _ => if b = sep then [a] :: comps sep p
        else match comps sep p with
          | [] => [[a]]
          | c :: cs => (a :: c) :: cs

/-- What the separators of a string divide, empty pieces included. -/
def pieces (sep : α) : List α → List (List α)
  | [] => [[]]
  | a :: p =>
    if a = sep then [] :: pieces sep p
    else match pieces sep p with
      | [] => [[a]]
      | c :: cs => (a :: c) :: cs

/-- The string without its leading separators. -/
def skip (sep : α) (p : List α) : List α := p.dropWhile (· = sep)

def headComp (sep : α) (p : List α) : List α := p.takeWhile (· ≠ sep)

def tailComps (sep : α) (p : List α) : List α := skip sep (p.dropWhile (· ≠ sep))

theorem render_pieces (p : List α) : render sep (pieces sep p) = sep :: p := by
  induction p with
  | nil => rfl
  | cons a p ih =>
    rw [pieces]
    split
    · rename_i h
      rw [render_cons, ih, h]
      rfl
    · split <;> rename_i h <;> rw [h] at ih
      · cases ih
      · rename_i c cs _
        rw [render_cons] at ih ⊢
        rw [List.cons_append] at ih
        rw [List.cons_append, List.cons_append, (List.cons.inj ih).2]

theorem sep_notMem_pieces (h : c ∈ pieces sep p) : sep ∉ c := by
  induction p generalizing c with
  | nil =>
    rw [List.mem_singleton.mp h]
    simp
  | cons a p ih =>
    rw [pieces] at h
    split at h
    · rcases List.mem_cons.mp h with rfl | h
      · simp
      · exact ih h
    · rename_i ha
      split at h
      · rw [List.mem_singleton.mp h]
        simpa using Ne.symm ha
      · rename_i d ds heq
        rw [heq] at ih
        rcases List.mem_cons.mp h with rfl | h
        · exact fun hm ↦ (List.mem_cons.mp hm).elim (Ne.symm ha) (ih List.mem_cons_self)
        · exact ih (List.mem_cons_of_mem d h)

theorem pieces_of_notMem (hc : sep ∉ c) : pieces sep c = [c] := by
  induction c with
  | nil => rfl
  | cons a c ih =>
    obtain ⟨ha, hc⟩ := not_or.mp (mt List.mem_cons.mpr hc)
    rw [pieces, if_neg (Ne.symm ha), ih hc]

theorem pieces_append_sep (hc : sep ∉ c) : pieces sep (c ++ sep :: p) = c :: pieces sep p := by
  induction c with
  | nil => simp [pieces]
  | cons a c ih =>
    obtain ⟨ha, hc⟩ := not_or.mp (mt List.mem_cons.mpr hc)
    rw [List.cons_append, pieces, if_neg (Ne.symm ha), ih hc]

theorem pieces_append (hc : sep ∉ c) (hcs : ∀ d ∈ cs, sep ∉ d) :
    pieces sep (c ++ render sep cs) = c :: cs := by
  induction cs generalizing c with
  | nil => rw [render_nil, List.append_nil, pieces_of_notMem hc]
  | cons d ds ih =>
    rw [render_cons, List.cons_append, pieces_append_sep hc, ih (hcs d List.mem_cons_self)
      (fun e he ↦ hcs e (List.mem_cons_of_mem d he))]

theorem comps_sep : comps sep (sep :: p) = comps sep p := by
  simp [comps]

theorem comps_skip : comps sep (skip sep p) = comps sep p := by
  induction p with
  | nil => rfl
  | cons a p ih =>
    by_cases h : a = sep
    · subst h
      rw [comps_sep, ← ih]
      simp [skip]
    · simp [skip, h]

theorem comps_append (hc : c ≠ []) (hs : sep ∉ c) (hp : AtEnd sep p) :
    comps sep (c ++ p) = c :: comps sep p := by
  induction c with
  | nil => exact absurd rfl hc
  | cons a c ih =>
    obtain ⟨ha, hs⟩ := not_or.mp (mt List.mem_cons.mpr hs)
    cases c with
    | nil =>
      rcases hp with rfl | hp
      · simp [comps, Ne.symm ha]
      · cases p with
        | nil => cases hp
        | cons b p =>
          cases hp
          simp [comps, Ne.symm ha]
    | cons b c =>
      have hb : b ≠ sep := fun h ↦ hs (h ▸ List.mem_cons_self)
      have ih := ih (List.cons_ne_nil b c) hs
      rw [List.cons_append] at ih
      rw [List.cons_append, List.cons_append, comps.eq_def]
      simp only [if_neg (Ne.symm ha), if_neg hb, ih]

theorem comps_render_append (hcs : ∀ c ∈ cs, c ≠ [] ∧ sep ∉ c) (hp : AtEnd sep p) :
    comps sep (render sep cs ++ p) = cs ++ comps sep p := by
  induction cs with
  | nil => rfl
  | cons c cs ih =>
    obtain ⟨hc, hs⟩ := hcs c List.mem_cons_self
    rw [render_cons, List.cons_append, List.cons_append, List.append_assoc, comps_sep,
      comps_append hc hs (atEnd_render.append hp),
      ih (fun d hd ↦ hcs d (List.mem_cons_of_mem c hd)), List.cons_append]

theorem comps_render (hcs : ∀ c ∈ cs, c ≠ [] ∧ sep ∉ c) : comps sep (render sep cs) = cs := by
  have h := comps_render_append (p := []) hcs (.inl rfl)
  simpa [comps] using h

theorem sep_notMem_headComp : sep ∉ headComp sep p := by
  intro h
  have hm := List.mem_takeWhile_imp h
  simp at hm

theorem headComp_append_drop (sep : α) (p : List α) :
    headComp sep p ++ p.dropWhile (· ≠ sep) = p :=
  List.takeWhile_append_dropWhile

theorem atEnd_drop (sep : α) (p : List α) : AtEnd sep (p.dropWhile (· ≠ sep)) := by
  induction p with
  | nil => exact .inl rfl
  | cons a p ih =>
    by_cases h : a = sep
    · subst h
      exact .inr (by simp)
    · simpa [h] using ih

theorem drop_append (hc : sep ∉ c) (hp : AtEnd sep p) : (c ++ p).dropWhile (· ≠ sep) = p := by
  induction c with
  | nil =>
    cases p with
    | nil => rfl
    | cons a p =>
      rcases hp with hp | hp
      · cases hp
      · cases hp
        simp
  | cons a c ih =>
    obtain ⟨ha, hc⟩ := not_or.mp (mt List.mem_cons.mpr hc)
    simpa [Ne.symm ha] using ih hc

theorem tailComps_append (hc : sep ∉ c) (hp : AtEnd sep p) : tailComps sep (c ++ p) = skip sep p := by
  rw [tailComps, drop_append hc hp]

theorem headComp_append (hc : sep ∉ c) (hp : AtEnd sep p) : headComp sep (c ++ p) = c := by
  have h := headComp_append_drop sep (c ++ p)
  rw [drop_append hc hp] at h
  exact List.append_cancel_right h

/-- The string starts with a component. -/
def Starts (sep : α) (p : List α) : Prop := ∀ a ∈ p.head?, a ≠ sep

theorem starts_skip : Starts sep (skip sep p) := by
  induction p with
  | nil => exact fun a ha ↦ by cases ha
  | cons a p ih =>
    by_cases h : a = sep
    · subst h
      simpa [skip] using ih
    · intro b hb
      simp only [skip, h, decide_false, Bool.false_eq_true, not_false_eq_true,
        List.dropWhile_cons_of_neg, List.head?_cons, Option.mem_def, Option.some.injEq] at hb
      exact hb ▸ h

theorem headComp_ne_nil (hp : Starts sep p) (hne : p ≠ []) : headComp sep p ≠ [] := by
  cases p with
  | nil => exact absurd rfl hne
  | cons a p =>
    have ha : a ≠ sep := hp a rfl
    simp [headComp, ha]

theorem comps_eq_cons (hp : Starts sep p) (hne : p ≠ []) :
    comps sep p = headComp sep p :: comps sep (tailComps sep p) := by
  conv_lhs => rw [← headComp_append_drop sep p]
  rw [comps_append (headComp_ne_nil hp hne) sep_notMem_headComp (atEnd_drop sep p), tailComps, comps_skip]

theorem length_tailComps_lt (hp : Starts sep p) (hne : p ≠ []) :
    (tailComps sep p).length < p.length := by
  have hle : (skip sep (p.dropWhile (· ≠ sep))).length ≤ (p.dropWhile (· ≠ sep)).length :=
    (List.dropWhile_suffix _).length_le
  have hpos : 0 < (headComp sep p).length := List.length_pos_of_ne_nil (headComp_ne_nil hp hne)
  have hlen := congrArg List.length (headComp_append_drop sep p)
  rw [List.length_append] at hlen
  unfold tailComps
  omega

theorem starts_tailComps : Starts sep (tailComps sep p) := starts_skip

theorem comps_mem (h : c ∈ comps sep p) : c ≠ [] ∧ sep ∉ c := by
  induction hn : p.length using Nat.strong_induction_on generalizing p with
  | h n ih =>
    subst hn
    rw [← comps_skip] at h
    have hs : Starts sep (skip sep p) := starts_skip
    by_cases hne : skip sep p = []
    · rw [hne] at h
      cases h
    · rw [comps_eq_cons hs hne] at h
      have hlt := length_tailComps_lt hs hne
      have hle : (skip sep p).length ≤ p.length := (List.dropWhile_suffix _).length_le
      rcases List.mem_cons.mp h with rfl | h
      · exact ⟨headComp_ne_nil hs hne, sep_notMem_headComp⟩
      · exact ih _ (hlt.trans_le hle) h rfl

end Isl.Lib.Components
