import Mathlib.Data.List.DropRight

/-!
Loops that walk over the elements of a buffer, and texts with a terminator in
one. A walk that comes to the last element has no result.
-/

namespace Isl.Lib.CString

variable {α : Type*}

/-- The index of the first element at which a walk stops. -/
def scan (stop : α → Bool) : List α → ℕ → Option ℕ
  | [], _ => none
  | a :: as, p => if stop a then some p else scan stop as (p + 1)

/-- A walk from the index `p`. -/
def scanFrom (stop : α → Bool) (buf : List α) (p : ℕ) : Option ℕ := scan stop (buf.drop p) p

/-- A walk backwards from an index that replaces the elements it passes. -/
def replaceBack (pass : α → Bool) (a : α) : ℕ → List α → Option (List α)
  | 0, buf => do
    let b ← buf[0]?
    if pass b then none else some buf
  | p + 1, buf => do
    let b ← buf[p + 1]?
    if pass b then replaceBack pass a p (buf.set (p + 1) a) else some buf

/-- The elements from `p` up to the terminator. -/
def text (stop : α → Bool) (buf : List α) (p : ℕ) : Option (List α) :=
  (scanFrom stop buf p).map fun q ↦ (buf.drop p).take (q - p)

variable {stop pass : α → Bool} {buf pre mid post : List α} {a b : α} {p n : ℕ}

/-- The first element at which a walk stops. -/
theorem exists_stop (h : ∃ x ∈ buf, stop x) :
    ∃ mid b post, buf = mid ++ b :: post ∧ (∀ x ∈ mid, stop x = false) ∧ stop b := by
  induction buf with
  | nil =>
    obtain ⟨x, hx, -⟩ := h
    cases hx
  | cons a as ih =>
    by_cases ha : stop a
    · exact ⟨[], a, as, rfl, nofun, ha⟩
    · have hrest : ∃ x ∈ as, stop x := by
        obtain ⟨x, hx, hstop⟩ := h
        obtain rfl | hx := List.mem_cons.mp hx
        · exact absurd hstop ha
        · exact ⟨x, hx, hstop⟩
      obtain ⟨mid, b, post, rfl, hmid, hb⟩ := ih hrest
      refine ⟨a :: mid, b, post, rfl, fun x hx ↦ ?_, hb⟩
      obtain rfl | hx := List.mem_cons.mp hx
      · exact Bool.eq_false_iff.mpr ha
      · exact hmid x hx

theorem scan_append (hmid : ∀ x ∈ mid, stop x = false) (hb : stop b) (p : ℕ) :
    scan stop (mid ++ b :: post) p = some (p + mid.length) := by
  induction mid generalizing p with
  | nil => exact if_pos hb
  | cons x mid ih =>
    rw [List.cons_append, scan, hmid x List.mem_cons_self, if_neg Bool.false_ne_true,
      ih (fun y hy ↦ hmid y (List.mem_cons_of_mem x hy)), List.length_cons, Nat.add_right_comm,
      Nat.add_assoc]

theorem scan_eq_none (h : ∀ x ∈ buf, stop x = false) (p : ℕ) : scan stop buf p = none := by
  induction buf generalizing p with
  | nil => rfl
  | cons x buf ih =>
    rw [scan, h x List.mem_cons_self, if_neg Bool.false_ne_true]
    exact ih (fun y hy ↦ h y (List.mem_cons_of_mem x hy)) (p + 1)

theorem scanFrom_append (hmid : ∀ x ∈ mid, stop x = false) (hb : stop b) :
    scanFrom stop (pre ++ (mid ++ b :: post)) pre.length = some (pre.length + mid.length) := by
  rw [scanFrom, List.drop_left]
  exact scan_append hmid hb pre.length

theorem text_append (hmid : ∀ x ∈ mid, stop x = false) (hb : stop b) :
    text stop (pre ++ (mid ++ b :: post)) pre.length = some mid := by
  rw [text, scanFrom_append hmid hb, Option.map_some, List.drop_left, Nat.add_sub_cancel_left,
    List.take_left]

/-- A text ends at the first terminator. -/
theorem text_eq_some (h : text stop buf 0 = some mid) :
    ∃ b post, buf = mid ++ b :: post ∧ (∀ x ∈ mid, stop x = false) ∧ stop b := by
  by_cases hex : ∃ x ∈ buf, stop x
  · obtain ⟨mid', b, post, rfl, hmid, hb⟩ := exists_stop hex
    have htext : text stop ([] ++ (mid' ++ b :: post)) 0 = some mid' := text_append hmid hb
    cases htext.symm.trans h
    exact ⟨b, post, rfl, hmid, hb⟩
  · have hnone : scan stop buf 0 = none := by
      apply scan_eq_none
      intro x hx
      exact Bool.eq_false_iff.mpr fun hstop ↦ hex ⟨x, hx, hstop⟩
    rw [text, scanFrom, List.drop_zero, hnone] at h
    cases h

theorem getElem?_length (pre post : List α) (b : α) : (pre ++ b :: post)[pre.length]? = some b := by
  rw [List.getElem?_append_right le_rfl, Nat.sub_self]
  rfl

theorem set_length (pre post : List α) (a b : α) :
    (pre ++ b :: post).set pre.length a = pre ++ a :: post := by
  rw [List.set_append_right _ _ le_rfl, Nat.sub_self]
  rfl

/-- A walk backwards that stops at once. -/
theorem replaceBack_stop (h : buf[p]? = some b) (hb : pass b = false) :
    replaceBack pass a p buf = some buf := by
  cases p with
  | zero => rw [replaceBack, h, Option.bind_eq_bind, Option.bind_some, hb, if_neg Bool.false_ne_true]
  | succ p => rw [replaceBack, h, Option.bind_eq_bind, Option.bind_some, hb, if_neg Bool.false_ne_true]

/-- The walk backwards over the elements after `pre`. -/
theorem replaceBack_append (hb : pass b = false) (n : ℕ) (hlen : mid.length = n)
    (hpass : ∀ x ∈ mid, pass x) :
    replaceBack pass a (pre.length + n) (pre ++ b :: (mid ++ post)) =
      some (pre ++ b :: (List.replicate n a ++ post)) := by
  induction n generalizing mid post with
  | zero =>
    rw [List.length_eq_zero_iff.mp hlen]
    exact replaceBack_stop (getElem?_length pre _ b) hb
  | succ n ih =>
    obtain ⟨mid, x, rfl⟩ := (List.eq_nil_or_concat' mid).resolve_left
      (List.ne_nil_of_length_eq_add_one hlen)
    have hlen : mid.length = n := by simpa using hlen
    have hend : pre.length + n + 1 = (pre ++ b :: mid).length := by
      rw [List.length_append, List.length_cons, hlen]
      rfl
    have hbuf : pre ++ b :: (mid ++ [x] ++ post) = (pre ++ b :: mid) ++ x :: post := by simp
    have hset : (pre ++ b :: mid) ++ a :: post = pre ++ b :: (mid ++ a :: post) := by simp
    rw [← Nat.add_assoc, replaceBack, hbuf, hend, getElem?_length, Option.bind_eq_bind,
      Option.bind_some, if_pos (hpass x (by simp)), set_length, hset,
      ih hlen fun y hy ↦ hpass y (List.mem_append_left _ hy), List.replicate_succ']
    simp

end Isl.Lib.CString
