import Mathlib.Data.List.Basic
import Mathlib.Data.Nat.Notation

/-! Text that is edited and cut into lines, and reads that are given the lines. -/

namespace Isl.Lib.Lines

variable {α : Type*}

/-- What a key does to the line that is being written. -/
inductive Edit (α : Type*)
  | skip
  | char (a : α)
  | erase
  | kill
  | close
  | closeWith (a : α)

/-- The finished lines and the one that is being written. -/
structure Page (α : Type*) where
  done : List (List α)
  line : List α

namespace Page

def empty : Page α := ⟨[], []⟩

def apply (p : Page α) : Edit α → Page α
  | .skip => p
  | .char a => ⟨p.done, p.line ++ [a]⟩
  | .erase => ⟨p.done, p.line.dropLast⟩
  | .kill => ⟨p.done, []⟩
  | .close => ⟨p.done ++ [p.line], []⟩
  | .closeWith a => ⟨p.done ++ [p.line ++ [a]], []⟩

/-- The page after some keys. -/
def typed (edits : List (Edit α)) : Page α := edits.foldl apply empty

theorem typed_append (edits : List (Edit α)) (e : Edit α) :
    typed (edits ++ [e]) = (typed edits).apply e := List.foldl_append

end Page

/-- Reads of these sizes with these results are given the lines in their order,
each at most the rest of one line, and leave what is last. An empty line is
given to one read. -/
inductive Delivers (lines : List (List α)) : List (ℕ × List α) → List (List α) → Prop
  | start : Delivers lines [] lines
  | part {reads rest : List _} {line : List α} {n : ℕ} :
      Delivers lines reads (line :: rest) → 0 < n → n < line.length →
      Delivers lines (reads ++ [(n, line.take n)]) (line.drop n :: rest)
  | whole {reads rest : List _} {line : List α} {n : ℕ} :
      Delivers lines reads (line :: rest) → 0 < n → line.length ≤ n →
      Delivers lines (reads ++ [(n, line)]) rest

/-- More lines do not change what the reads were given. -/
theorem Delivers.more {lines rest : List (List α)} {reads : List (ℕ × List α)}
    (h : Delivers lines reads rest) (more : List (List α)) :
    Delivers (lines ++ more) reads (rest ++ more) := by
  induction h with
  | start => exact .start
  | part _ hn hlt ih => exact .part ih hn hlt
  | whole _ hn hle ih => exact .whole ih hn hle

/-- No line is left out. -/
theorem Delivers.length_le {lines rest : List (List α)} {reads : List (ℕ × List α)}
    (h : Delivers lines reads rest) : lines.length ≤ reads.length + rest.length := by
  induction h with
  | start => exact Nat.le_add_left _ _
  | part _ _ _ ih =>
    rw [List.length_append, List.length_singleton]
    rw [List.length_cons] at ih ⊢
    omega
  | whole _ _ _ ih =>
    rw [List.length_append, List.length_singleton]
    rw [List.length_cons] at ih
    omega

/-! Text cut at a separator. -/

section

variable [DecidableEq α] {sep : α} {xs ys : List α}

/-- The pieces that end in a separator, and what is left after the last of them. -/
def cut (sep : α) : List α → List (List α) × List α
  | [] => ([], [])
  | x :: xs =>
    if x = sep then ([] :: (cut sep xs).1, (cut sep xs).2)
    else
      match (cut sep xs).1 with
      | [] => ([], x :: (cut sep xs).2)
      | piece :: pieces => ((x :: piece) :: pieces, (cut sep xs).2)

theorem cut_of_notMem (h : sep ∉ xs) : cut sep xs = ([], xs) := by
  induction xs with
  | nil => rfl
  | cons x xs ih =>
    obtain ⟨hx, hxs⟩ := not_or.mp (mt List.mem_cons.mpr h)
    rw [cut, if_neg (Ne.symm hx), ih hxs]

theorem cut_append (h : sep ∉ xs) :
    cut sep (xs ++ sep :: ys) = (xs :: (cut sep ys).1, (cut sep ys).2) := by
  induction xs with
  | nil => rw [List.nil_append, cut, if_pos rfl]
  | cons x xs ih =>
    obtain ⟨hx, hxs⟩ := not_or.mp (mt List.mem_cons.mpr h)
    rw [List.cons_append, cut, if_neg (Ne.symm hx), ih hxs]

/-- The separator is in none of the pieces, nor is anything lost. -/
theorem cut_spec (sep : α) (xs : List α) :
    (cut sep xs).1.flatMap (· ++ [sep]) ++ (cut sep xs).2 = xs ∧
      (∀ piece ∈ (cut sep xs).1, sep ∉ piece) ∧ sep ∉ (cut sep xs).2 := by
  by_cases h : sep ∈ xs
  · obtain ⟨pre, post, hxs, hpre⟩ := List.eq_append_cons_of_mem h
    have hlt : post.length < xs.length := by
      rw [hxs, List.length_append, List.length_cons]
      omega
    obtain ⟨hjoin, hpieces, hrest⟩ := cut_spec sep post
    rw [hxs, cut_append hpre]
    refine ⟨?_, ?_, hrest⟩
    · rw [List.flatMap_cons, List.append_assoc, List.append_assoc, hjoin]
      rfl
    · intro piece hpiece
      obtain rfl | hpiece := List.mem_cons.mp hpiece
      · exact hpre
      · exact hpieces piece hpiece
  · rw [cut_of_notMem h]
    exact ⟨rfl, fun _ hpiece ↦ absurd hpiece List.not_mem_nil, h⟩
termination_by xs.length

end

end Isl.Lib.Lines
