import Isl.Fs.Path

/-!
`path_normalize` as a walk over components: the current directory is a list of
names, and the cursor machine agrees with the walk until one of them ends.
-/

namespace Isl.Fs

open Isl.Lib.Loop Isl.Lib.Components

def IsName (c : Str) : Prop := c ≠ ['.'] ∧ c ≠ ['.', '.']

instance (c : Str) : Decidable (IsName c) := inferInstanceAs (Decidable (_ ∧ _))

structure Place where
  dirs : List Str
  p : Str
deriving DecidableEq

/-- The length of the path of a directory, without the null. -/
def pathLen (dirs : List Str) : ℕ := (render '/' dirs).length

def walkStep (links : Links) (followLinks : Bool) (s : Place) : Place ⊕ Outcome :=
  if s.p = [] then .inr (.path (render '/' s.dirs))
  else
    let name := headComp '/' s.p
    let rest := tailComps '/' s.p
    if name = ['.'] then .inl ⟨s.dirs, rest⟩
    else if name = ['.', '.'] then
      if s.dirs = [] then .inr .fault else .inl ⟨s.dirs.dropLast, rest⟩
    else if maxPath - 2 ≤ pathLen s.dirs then .inr .fault
    else if maxPath - 2 < pathLen (s.dirs ++ [name]) then .inr (.error eNametoolong)
    else if followLinks ∨ rest ≠ [] then
      match links (render '/' (s.dirs ++ [name])) with
      | none => .inl ⟨s.dirs ++ [name], rest⟩
      | some target =>
        match expandLink (render '/' s.dirs ++ ['/']) target rest with
        | none => .inr .fault
        | some expanded => .inl ⟨[], eatSlashes expanded⟩
    else .inl ⟨s.dirs ++ [name], rest⟩

/-! The pieces of one step. -/

variable {links : Links} {followLinks : Bool} {p o c r : Str} {n : ℤ} {dirs : List Str}

theorem walkStep_nil : walkStep links followLinks ⟨dirs, []⟩ = .inr (.path (render '/' dirs)) := rfl

theorem walkStep_dot (hname : headComp '/' p = ['.']) :
    walkStep links followLinks ⟨dirs, p⟩ = .inl ⟨dirs, tailComps '/' p⟩ := by
  have hne : p ≠ [] := by
    rintro rfl
    cases hname
  simp [walkStep, hne, hname]

theorem walkStep_up (hname : headComp '/' p = ['.', '.']) :
    walkStep links followLinks ⟨dirs, p⟩ =
      if dirs = [] then .inr .fault else .inl ⟨dirs.dropLast, tailComps '/' p⟩ := by
  have hne : p ≠ [] := by
    rintro rfl
    cases hname
  simp [walkStep, hne, hname]

theorem walkStep_full (hne : p ≠ []) (hname : IsName (headComp '/' p))
    (hfull : maxPath - 2 ≤ pathLen dirs) : walkStep links followLinks ⟨dirs, p⟩ = .inr .fault := by
  simp only [walkStep, hne, hname.1, hname.2, hfull, if_false, if_true]

theorem walkStep_tooLong (hne : p ≠ []) (hname : IsName (headComp '/' p))
    (hfull : ¬maxPath - 2 ≤ pathLen dirs)
    (hlong : maxPath - 2 < pathLen (dirs ++ [headComp '/' p])) :
    walkStep links followLinks ⟨dirs, p⟩ = .inr (.error eNametoolong) := by
  simp only [walkStep, hne, hname.1, hname.2, hfull, hlong, if_false, if_true]

theorem walkStep_name (hne : p ≠ []) (hname : IsName (headComp '/' p))
    (hfull : ¬maxPath - 2 ≤ pathLen dirs)
    (hlong : ¬maxPath - 2 < pathLen (dirs ++ [headComp '/' p])) :
    walkStep links followLinks ⟨dirs, p⟩ =
      if followLinks ∨ tailComps '/' p ≠ [] then
        match links (render '/' (dirs ++ [headComp '/' p])) with
        | none => .inl ⟨dirs ++ [headComp '/' p], tailComps '/' p⟩
        | some target =>
          match expandLink (render '/' dirs ++ ['/']) target (tailComps '/' p) with
          | none => .inr .fault
          | some expanded => .inl ⟨[], eatSlashes expanded⟩
      else .inl ⟨dirs ++ [headComp '/' p], tailComps '/' p⟩ := by
  simp only [walkStep, hne, hname.1, hname.2, hfull, hlong, if_false]

theorem drop_headComp (p : Str) : p.drop (headComp '/' p).length = p.dropWhile (· ≠ '/') := by
  conv_lhs => rw [← headComp_append_drop '/' p]
  rw [List.drop_append_of_le_length (by simp [headComp])]
  simp [headComp]

theorem eatSlashes_drop (p : Str) : eatSlashes (p.drop (headComp '/' p).length) = tailComps '/' p := by
  rw [drop_headComp]
  rfl

theorem takeWhile_eq_nil_iff : p.takeWhile (· ≠ '/') = [] ↔ (p.isEmpty || p.head? = some '/') := by
  cases p with
  | nil => simp
  | cons a p => simp [List.takeWhile_cons]

theorem isDot_iff : isDot p ↔ headComp '/' p = ['.'] := by
  cases p with
  | nil => simp [isDot, headComp]
  | cons a p =>
    by_cases ha : a = '.'
    · subst ha
      have h := takeWhile_eq_nil_iff (p := p)
      simp only [isDot, headComp]
      rw [← h]
      simp
    · have hd : isDot (a :: p) = false := by simp [isDot, ha]
      rw [hd]
      by_cases hs : a = '/'
      · simp [headComp, hs]
      · simp [headComp, hs, ha]

theorem isDotDot_iff : isDotDot p ↔ headComp '/' p = ['.', '.'] := by
  cases p with
  | nil => simp [isDotDot, headComp]
  | cons a p =>
    cases p with
    | nil => simp [isDotDot, headComp, List.takeWhile_cons]; split <;> simp
    | cons b p =>
      by_cases ha : a = '.' ∧ b = '.'
      · obtain ⟨rfl, rfl⟩ := ha
        have h := takeWhile_eq_nil_iff (p := p)
        simp only [isDotDot, headComp]
        rw [← h]
        simp
      · have hd : isDotDot (a :: b :: p) = false := by
          unfold isDotDot
          split
          · rename_i h
            cases h
            exact absurd ⟨rfl, rfl⟩ ha
          · rfl
        rw [hd]
        refine iff_of_false Bool.false_ne_true (fun h ↦ ha ?_)
        by_cases hsa : a = '/'
        · simp [headComp, hsa] at h
        · by_cases hsb : b = '/'
          · simp [headComp, hsa, hsb] at h
          · simp [headComp, hsa, hsb] at h
            exact ⟨h.1, h.2.1⟩

theorem backUp_append (hc : '/' ∉ c) :
    backUp (c ++ '/' :: o) n = some (o, n + c.length + 1) := by
  induction c generalizing n with
  | nil => simp [backUp]
  | cons a c ih =>
    obtain ⟨ha, hc⟩ := not_or.mp (mt List.mem_cons.mpr hc)
    rw [List.cons_append, backUp, if_neg (Ne.symm ha), ih hc, List.length_cons]
    congr 2
    push_cast
    omega

/-- The component fits and is copied. -/
theorem copyComponent_fits (hc : '/' ∉ c) (hr : AtEnd '/' r) (hn : (c.length : ℤ) < n)
    (ho : o.length + c.length ≤ maxPath) :
    copyComponent (c ++ r) o n = some (r, c.reverse ++ o, n - c.length) := by
  induction c generalizing o n with
  | nil =>
    rcases hr with rfl | hr
    · simp [copyComponent]
    · cases r with
      | nil => cases hr
      | cons b r =>
        cases hr
        simp [copyComponent]
  | cons a c ih =>
    obtain ⟨ha, hc⟩ := not_or.mp (mt List.mem_cons.mpr hc)
    rw [List.length_cons] at hn ho
    push_cast at hn
    rw [List.cons_append, copyComponent, if_neg (Ne.symm ha), if_pos (by omega), if_pos (by omega),
      ih hc (by omega) (by rw [List.length_cons]; omega)]
    rw [List.reverse_cons, List.append_assoc, List.length_cons]
    congr 3
    push_cast
    omega

/-- The counter runs out inside the component. -/
theorem copyComponent_tooLong (hc : '/' ∉ c) (hn : 0 < n) (hle : n ≤ c.length)
    (ho : o.length + n ≤ maxPath + 1) :
    ∃ p' o', copyComponent (c ++ r) o n = some (p', o', 0) := by
  induction c generalizing o n with
  | nil =>
    have h0 : (([] : Str).length : ℤ) = 0 := rfl
    omega
  | cons a c ih =>
    obtain ⟨ha, hc⟩ := not_or.mp (mt List.mem_cons.mpr hc)
    rw [List.length_cons] at hle
    push_cast at hle
    rw [List.cons_append, copyComponent, if_neg (Ne.symm ha)]
    by_cases h1 : n - 1 > 0
    · rw [if_pos h1, if_pos (by omega)]
      exact ih hc h1 (by omega) (by rw [List.length_cons]; push_cast; omega)
    · rw [if_neg h1]
      exact ⟨a :: (c ++ r), o, by congr 3; omega⟩

/-- Past the end of the buffer the counter is below zero, and nothing is copied. -/
theorem copyComponent_past {a : Char} (ha : a ≠ '/') (hn : n ≤ 0) :
    copyComponent (a :: p) o n = some (a :: p, o, n - 1) := by
  rw [copyComponent, if_neg ha, if_neg (by omega)]

/-! The output buffer is full. -/

variable {s : Cursor} {t : Place}

theorem expandLink_full {dir target : Str} (h : dir.length + 1 = maxPath) :
    expandLink dir target p = none := by
  unfold expandLink
  dsimp only
  split
  · rename_i hlt
    have hnil : target.take (maxPath - dir.length) = [] :=
      List.eq_nil_of_length_eq_zero (by omega)
    have hlong : ¬(dir ++ '/' :: p).length < maxPath := by
      rw [List.length_append, List.length_cons]
      omega
    simp only [hnil, List.head?_nil, reduceCtorEq, if_false, List.append_nil, if_neg hlong]
  · rfl

/-- With no room for a slash and a null, another component either faults at
once or leaves a slash and is tried again. -/
theorem normalizeStep_past (hp : Starts '/' s.p) (hne : s.p ≠ []) (hd : ¬isDot s.p)
    (hdd : ¬isDotDot s.p) (hn : s.n ≤ 1) (hl : maxPath ≤ s.o.length + 2) :
    normalizeStep links followLinks s = .inr .fault ∨
    (s.o.length + 2 = maxPath ∧
      normalizeStep links followLinks s = .inl ⟨s.p, '/' :: s.o, s.n - 2⟩) := by
  obtain ⟨p, o, n⟩ := s
  dsimp only at *
  cases p with
  | nil => exact absurd rfl hne
  | cons a p =>
    have ha : a ≠ '/' := hp a rfl
    have hcopy : copyComponent (a :: p) ('/' :: o) (n - 1) = some (a :: p, '/' :: o, n - 2) := by
      rw [copyComponent_past ha (by omega)]
      congr 3
      omega
    have heat : eatSlashes (a :: p) = a :: p := by simp [eatSlashes, ha]
    have hn2 : n - 2 ≠ 0 := by omega
    simp only [normalizeStep, hne, if_false, hd, hdd, hcopy, heat, hn2, ne_eq, not_false_eq_true,
      or_true, if_true, Bool.false_eq_true]
    by_cases hfull : maxPath ≤ o.length
    · exact .inl (if_pos hfull)
    · rw [if_neg hfull]
      by_cases hfull' : maxPath ≤ ('/' :: o).length
      · exact .inl (if_pos hfull')
      · rw [if_neg hfull']
        rw [List.length_cons] at hfull'
        split
        · exact .inr ⟨by omega, rfl⟩
        · rw [expandLink_full (by rw [List.length_reverse, List.length_cons]; omega)]
          exact .inl rfl

theorem returns_fault_past (hp : Starts '/' s.p) (hne : s.p ≠ []) (hd : ¬isDot s.p)
    (hdd : ¬isDotDot s.p) (hn : s.n ≤ 1) (hl : maxPath ≤ s.o.length + 2) :
    Returns (normalizeStep links followLinks) s .fault := by
  obtain h | ⟨hlen, h⟩ := @normalizeStep_past links followLinks s hp hne hd hdd hn hl
  · exact .done h
  · refine .next h ?_
    obtain h' | ⟨hlen', -⟩ := @normalizeStep_past links followLinks
      ⟨s.p, '/' :: s.o, s.n - 2⟩ hp hne hd hdd (by dsimp only; omega)
      (by rw [List.length_cons]; omega)
    · exact .done h'
    · rw [List.length_cons] at hlen'
      omega

/-! The simulation. -/

/-- The output holds the path of the current directory, and the counter the
room after it. -/
structure Agrees (s : Cursor) (t : Place) : Prop where
  p : s.p = t.p
  o : s.o = (render '/' t.dirs).reverse
  n : s.n = maxPath - 1 - pathLen t.dirs
  names : ∀ d ∈ t.dirs, '/' ∉ d
  starts : Starts '/' t.p
  len : pathLen t.dirs < maxPath

theorem Agrees.length (h : Agrees s t) : s.o.length = pathLen t.dirs := by
  rw [h.o, List.length_reverse, pathLen]

theorem agrees_restart (path : Str) : Agrees (restart path) ⟨[], eatSlashes path⟩ :=
  ⟨rfl, rfl, rfl, by simp, starts_skip, Nat.zero_lt_succ _⟩

theorem Agrees.push (h : Agrees s t) (hc : '/' ∉ c) (hr : Starts '/' r)
    (hl : pathLen (t.dirs ++ [c]) < maxPath) :
    Agrees ⟨r, c.reverse ++ '/' :: s.o, s.n - 1 - c.length⟩ ⟨t.dirs ++ [c], r⟩ := by
  have hlen := length_render_concat '/' t.dirs c
  refine ⟨rfl, ?_, ?_, fun d hd ↦ ?_, hr, hl⟩
  · rw [render_concat, List.reverse_append, List.reverse_cons, List.append_assoc, h.o]
    rfl
  · have hn := h.n
    dsimp only
    unfold pathLen at *
    omega
  · rcases List.mem_append.mp hd with hd | hd
    · exact h.names d hd
    · rw [List.mem_singleton.mp hd]
      exact hc

theorem Agrees.up (h : Agrees s t) (hr : Starts '/' r) (hne : t.dirs ≠ []) :
    ∃ o n, backUp s.o s.n = some (o, n) ∧ Agrees ⟨r, o, n⟩ ⟨t.dirs.dropLast, r⟩ := by
  obtain ⟨ds, d, hds⟩ := List.eq_nil_or_concat' t.dirs |>.resolve_left hne
  have hd : '/' ∉ d.reverse := by
    rw [List.mem_reverse]
    exact h.names d (by rw [hds]; exact List.mem_concat_self)
  have hn := h.n
  have hlen := length_render_concat '/' ds d
  have hl := h.len
  have hp : pathLen ds = (render '/' ds).length := rfl
  unfold pathLen at hn hl
  rw [hds] at hn hl
  refine ⟨(render '/' ds).reverse, s.n + d.reverse.length + 1, ?_, rfl, ?_, ?_, ?_, hr, ?_⟩
  · rw [h.o, hds, render_concat, List.reverse_append, List.reverse_cons, List.append_assoc]
    exact backUp_append hd
  · rw [hds, List.dropLast_concat]
  · rw [hds, List.dropLast_concat, List.length_reverse]
    dsimp only
    omega
  · intro e he
    exact h.names e ((List.dropLast_sublist t.dirs).subset he)
  · rw [hds, List.dropLast_concat]
    dsimp only
    omega

theorem Agrees.reverse_o (h : Agrees ⟨p, o, n⟩ ⟨dirs, p⟩) : o.reverse = render '/' dirs := by
  have ho : o = (render '/' dirs).reverse := h.o
  rw [ho, List.reverse_reverse]

/-- A step of the code on a name that fits. -/
theorem normalizeStep_name (h : Agrees ⟨p, o, n⟩ ⟨dirs, p⟩) (hne : p ≠ [])
    (hname : IsName (headComp '/' p)) (hfull : ¬maxPath - 2 ≤ pathLen dirs)
    (hlong : ¬maxPath - 2 < pathLen (dirs ++ [headComp '/' p])) :
    Agrees ⟨tailComps '/' p, (headComp '/' p).reverse ++ '/' :: o, n - 1 - (headComp '/' p).length⟩
      ⟨dirs ++ [headComp '/' p], tailComps '/' p⟩ ∧
    normalizeStep links followLinks ⟨p, o, n⟩ =
      if followLinks ∨ tailComps '/' p ≠ [] then
        match links (render '/' (dirs ++ [headComp '/' p])) with
        | none => .inl ⟨tailComps '/' p, (headComp '/' p).reverse ++ '/' :: o,
            n - 1 - (headComp '/' p).length⟩
        | some target =>
          match expandLink (render '/' dirs ++ ['/']) target (tailComps '/' p) with
          | none => .inr .fault
          | some expanded => .inl (restart expanded)
      else .inl ⟨tailComps '/' p, (headComp '/' p).reverse ++ '/' :: o,
          n - 1 - (headComp '/' p).length⟩ := by
  have hstart : Starts '/' p := h.starts
  have hlen : o.length = pathLen dirs := h.length
  have hn : n = maxPath - 1 - pathLen dirs := h.n
  have hd : ¬isDot p := mt isDot_iff.mp hname.1
  have hdd : ¬isDotDot p := mt isDotDot_iff.mp hname.2
  have hm : maxPath = 4096 := rfl
  have hslash : '/' ∉ headComp '/' p := sep_notMem_headComp
  have hpl : pathLen (dirs ++ [headComp '/' p]) = pathLen dirs + 1 + (headComp '/' p).length :=
    length_render_concat '/' dirs _
  have ha := h.push hslash (starts_tailComps (p := p)) (by dsimp only; omega)
  dsimp only at ha
  refine ⟨ha, ?_⟩
  have hroom : ¬maxPath ≤ o.length := by omega
  have hcopy := copyComponent_fits (o := '/' :: o) (n := n - 1) hslash
    (atEnd_drop '/' p) (by omega) (by rw [List.length_cons]; omega)
  rw [headComp_append_drop '/' p] at hcopy
  have hn0 : n - 1 - ((headComp '/' p).length : ℤ) ≠ 0 := by omega
  have heat : eatSlashes (p.dropWhile (· ≠ '/')) = tailComps '/' p := rfl
  have hout : ((headComp '/' p).reverse ++ '/' :: o).reverse =
      render '/' (dirs ++ [headComp '/' p]) := by
    have hao := congrArg List.reverse ha.o
    rwa [List.reverse_reverse] at hao
  have hdir : ('/' :: o).reverse = render '/' dirs ++ ['/'] := by
    rw [List.reverse_cons, h.reverse_o]
  have hroom' : ¬maxPath ≤ ((headComp '/' p).reverse ++ '/' :: o).length := by
    rw [List.length_append, List.length_reverse, List.length_cons]
    omega
  simp only [normalizeStep, hne, hd, hdd, hroom, hcopy, hn0, heat, hout, hdir, hroom', if_false,
    Bool.false_eq_true] <;> rfl

/-- Both steps lead to states that agree again, or both loops return the same. -/
def StepsAlike (links : Links) (followLinks : Bool) (s : Cursor) (t : Place) : Prop :=
  (∃ s' t', normalizeStep links followLinks s = .inl s' ∧ walkStep links followLinks t = .inl t' ∧
    Agrees s' t') ∨
  ∃ r, Returns (normalizeStep links followLinks) s r ∧ Returns (walkStep links followLinks) t r

theorem stepsAlike_nil (h : Agrees ⟨[], o, n⟩ ⟨dirs, []⟩) :
    StepsAlike links followLinks ⟨[], o, n⟩ ⟨dirs, []⟩ := by
  have hlen : o.length = pathLen dirs := h.length
  have hlt : pathLen dirs < maxPath := h.len
  refine .inr ⟨.path (render '/' dirs), .done ?_, .done walkStep_nil⟩
  simp [normalizeStep, hlen, hlt, h.reverse_o]

theorem stepsAlike_dot (h : Agrees ⟨p, o, n⟩ ⟨dirs, p⟩) (hne : p ≠ [])
    (hname : headComp '/' p = ['.']) :
    StepsAlike links followLinks ⟨p, o, n⟩ ⟨dirs, p⟩ := by
  have hd : isDot p := isDot_iff.mpr hname
  have hrest := eatSlashes_drop p
  rw [hname] at hrest
  refine .inl ⟨⟨eatSlashes (p.drop 1), o, n⟩, ⟨dirs, tailComps '/' p⟩, ?_, ?_, ?_⟩
  · simp [normalizeStep, hne, hd]
  · exact walkStep_dot hname
  · exact ⟨hrest, h.o, h.n, h.names, starts_tailComps, h.len⟩

theorem stepsAlike_up (h : Agrees ⟨p, o, n⟩ ⟨dirs, p⟩) (hne : p ≠ [])
    (hname : headComp '/' p = ['.', '.']) :
    StepsAlike links followLinks ⟨p, o, n⟩ ⟨dirs, p⟩ := by
  have hd : ¬isDot p := by
    rw [isDot_iff, hname]
    simp
  have hdd : isDotDot p := isDotDot_iff.mpr hname
  have hrest := eatSlashes_drop p
  rw [hname] at hrest
  by_cases hroot : dirs = []
  · -- above the root the code reads before its buffer
    subst hroot
    have ho : o = [] := h.o
    refine .inr ⟨.fault, .done ?_, .done ?_⟩
    · simp [normalizeStep, hne, hd, hdd, ho, backUp]
    · rw [walkStep_up hname, if_pos rfl]
  · obtain ⟨o', n', hback, ha⟩ := h.up (starts_tailComps (p := p)) hroot
    dsimp only at hback
    refine .inl ⟨⟨eatSlashes (p.drop 2), o', n'⟩, ⟨dirs.dropLast, tailComps '/' p⟩, ?_, ?_, ?_⟩
    · simp [normalizeStep, hne, hd, hdd, hback]
    · rw [walkStep_up hname, if_neg hroot]
    · rw [List.length_cons, List.length_singleton] at hrest
      rw [hrest]
      exact ha

/-- A name that does not fit: past the end of the buffer, or an error. -/
theorem stepsAlike_no_room (h : Agrees ⟨p, o, n⟩ ⟨dirs, p⟩) (hne : p ≠ [])
    (hname : IsName (headComp '/' p))
    (hlong : maxPath - 2 ≤ pathLen dirs ∨ maxPath - 2 < pathLen (dirs ++ [headComp '/' p])) :
    StepsAlike links followLinks ⟨p, o, n⟩ ⟨dirs, p⟩ := by
  have hstart : Starts '/' p := h.starts
  have hlen : o.length = pathLen dirs := h.length
  have hn : n = maxPath - 1 - pathLen dirs := h.n
  have hlt : pathLen dirs < maxPath := h.len
  have hd : ¬isDot p := mt isDot_iff.mp hname.1
  have hdd : ¬isDotDot p := mt isDotDot_iff.mp hname.2
  have hm : maxPath = 4096 := rfl
  by_cases hfull : maxPath - 2 ≤ pathLen dirs
  · refine .inr ⟨.fault, returns_fault_past hstart hne hd hdd ?_ ?_, .done ?_⟩
    · dsimp only
      omega
    · dsimp only
      omega
    · exact walkStep_full hne hname hfull
  have hlong' := hlong.resolve_left hfull
  have hpl : pathLen (dirs ++ [headComp '/' p]) = pathLen dirs + 1 + (headComp '/' p).length :=
    length_render_concat '/' dirs _
  have hroom : ¬maxPath ≤ o.length := by omega
  have hslash : '/' ∉ headComp '/' p := sep_notMem_headComp
  obtain ⟨p', o', hcopy⟩ := copyComponent_tooLong (o := '/' :: o) (n := n - 1)
    (r := p.dropWhile (· ≠ '/')) hslash (by omega) (by omega)
    (by rw [List.length_cons]; omega)
  rw [headComp_append_drop '/' p] at hcopy
  refine .inr ⟨.error eNametoolong, .done ?_, .done ?_⟩
  · simp [normalizeStep, hne, hd, hdd, hroom, hcopy]
  · exact walkStep_tooLong hne hname hfull hlong'

theorem stepsAlike_name (h : Agrees ⟨p, o, n⟩ ⟨dirs, p⟩) (hne : p ≠ [])
    (hname : IsName (headComp '/' p)) (hfull : ¬maxPath - 2 ≤ pathLen dirs)
    (hlong : ¬maxPath - 2 < pathLen (dirs ++ [headComp '/' p])) :
    StepsAlike links followLinks ⟨p, o, n⟩ ⟨dirs, p⟩ := by
  obtain ⟨ha, hs⟩ := @normalizeStep_name links followLinks _ _ _ _ h hne hname hfull hlong
  have ht := @walkStep_name links followLinks _ _ hne hname hfull hlong
  by_cases hlook : followLinks ∨ tailComps '/' p ≠ []
  · rw [if_pos hlook] at hs ht
    cases hlink : links (render '/' (dirs ++ [headComp '/' p])) with
    | none =>
      rw [hlink] at hs ht
      exact .inl ⟨_, _, hs, ht, ha⟩
    | some target =>
      rw [hlink] at hs ht
      dsimp only at hs ht
      cases he : expandLink (render '/' dirs ++ ['/']) target (tailComps '/' p) with
      | none =>
        rw [he] at hs ht
        exact .inr ⟨_, .done hs, .done ht⟩
      | some expanded =>
        rw [he] at hs ht
        exact .inl ⟨_, _, hs, ht, agrees_restart expanded⟩
  · rw [if_neg hlook] at hs ht
    exact .inl ⟨_, _, hs, ht, ha⟩

theorem normalizeStep_simulates (h : Agrees s t) : StepsAlike links followLinks s t := by
  obtain ⟨p, o, n⟩ := s
  obtain ⟨dirs, q⟩ := t
  obtain rfl : p = q := h.p
  by_cases hne : p = []
  · subst hne
    exact stepsAlike_nil h
  by_cases hdot : headComp '/' p = ['.']
  · exact stepsAlike_dot h hne hdot
  by_cases hup : headComp '/' p = ['.', '.']
  · exact stepsAlike_up h hne hup
  by_cases hlong : maxPath - 2 ≤ pathLen dirs ∨ maxPath - 2 < pathLen (dirs ++ [headComp '/' p])
  · exact stepsAlike_no_room h hne ⟨hdot, hup⟩ hlong
  · exact stepsAlike_name h hne ⟨hdot, hup⟩ (fun hfull ↦ hlong (.inl hfull))
      fun htoo ↦ hlong (.inr htoo)

/-- The loop of `path_normalize` and the walk return the same. -/
theorem returns_walk (h : Agrees s t) {r : Outcome} :
    Returns (normalizeStep links followLinks) s r ↔ Returns (walkStep links followLinks) t r :=
  returns_iff_of_simulation (fun _ _ ↦ normalizeStep_simulates) h

end Isl.Fs
