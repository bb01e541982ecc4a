import Isl.Fs.PathBounds

/-!
What `path_normalize` is for, on a file system without symlinks: the components
of the input, one after the other, from the base directory.
-/

namespace Isl.Fs

open Isl.Lib.Loop Isl.Lib.Components

/-- One component: `.` stays, `..` goes up and stays at the root, a name goes down. -/
def enter (dirs : List Str) (c : Str) : List Str :=
  if c = ['.'] then dirs else if c = ['.', '.'] then dirs.dropLast else dirs ++ [c]

def resolve (dirs : List Str) (path : Str) : List Str := (comps '/' path).foldl enter dirs

/-- The names of a directory: no empty one, no dots. -/
def Names (dirs : List Str) : Prop := ∀ d ∈ dirs, d ≠ [] ∧ '/' ∉ d ∧ IsName d

instance (dirs : List Str) : Decidable (Names dirs) :=
  inferInstanceAs (Decidable (∀ d ∈ dirs, d ≠ [] ∧ '/' ∉ d ∧ IsName d))

def dirPath (dirs : List Str) : Str := if dirs = [] then ['/'] else render '/' dirs

/-- On the way `..` never meets the root, and no path is longer than
`MAX_PATH - 2` when a name is appended. -/
def Room (dirs : List Str) : List Str → Prop
  | [] => True
  | c :: cs => (c = ['.', '.'] → dirs ≠ []) ∧ (IsName c → pathLen (dirs ++ [c]) ≤ maxPath - 2) ∧
      Room (enter dirs c) cs

instance decidableRoom : (dirs cs : List Str) → Decidable (Room dirs cs)
  | _, [] => .isTrue trivial
  | dirs, c :: cs =>
    have := decidableRoom (enter dirs c) cs
    inferInstanceAs (Decidable (_ ∧ _ ∧ _))

variable {followLinks : Bool} {dirs cs : List Str} {c p out : Str}

theorem enter_dot (dirs : List Str) : enter dirs ['.'] = dirs := rfl

theorem enter_up (dirs : List Str) : enter dirs ['.', '.'] = dirs.dropLast := rfl

theorem enter_name (h : IsName c) : enter dirs c = dirs ++ [c] := by
  rw [enter, if_neg h.1, if_neg h.2]

/-- Without symlinks the walk returns a path exactly when there is room. -/
theorem returns_path_iff (hp : Starts '/' p) :
    Returns (walkStep (fun _ ↦ none) followLinks) ⟨dirs, p⟩ (.path out) ↔
      Room dirs (comps '/' p) ∧ out = render '/' ((comps '/' p).foldl enter dirs) := by
  induction hl : p.length using Nat.strong_induction_on generalizing p dirs with
  | h n ih =>
    subst hl
    by_cases hne : p = []
    · subst hne
      rw [returns_inr walkStep_nil, Outcome.path.injEq, eq_comm]
      simp [comps, Room]
    have ih (dirs : List Str) := @ih _ (length_tailComps_lt hp hne) dirs _ starts_tailComps rfl
    rw [comps_eq_cons hp hne, List.foldl_cons, Room]
    by_cases hdot : headComp '/' p = ['.']
    · rw [returns_inl (walkStep_dot hdot), ih, hdot, enter_dot]
      simp [IsName]
    by_cases hup : headComp '/' p = ['.', '.']
    · have hstep := @walkStep_up (fun _ ↦ none) followLinks p dirs hup
      by_cases hroot : dirs = []
      · rw [if_pos hroot] at hstep
        rw [returns_inr hstep]
        simp [hup, hroot]
      · rw [if_neg hroot] at hstep
        rw [returns_inl hstep, ih, hup, enter_up]
        simp [IsName, hroot]
    have hname : IsName (headComp '/' p) := ⟨hdot, hup⟩
    rw [enter_name hname]
    have hlen : pathLen (dirs ++ [headComp '/' p]) = pathLen dirs + 1 + (headComp '/' p).length :=
      length_render_concat '/' dirs _
    by_cases hfull : maxPath - 2 ≤ pathLen dirs
    · rw [returns_inr (walkStep_full hne hname hfull)]
      have hlong : ¬pathLen (dirs ++ [headComp '/' p]) ≤ maxPath - 2 := by omega
      simp [hname, hlong]
    by_cases hlong : maxPath - 2 < pathLen (dirs ++ [headComp '/' p])
    · rw [returns_inr (walkStep_tooLong hne hname hfull hlong)]
      have hlong' := Nat.not_le.mpr hlong
      simp [hname, hlong']
    · have hstep := @walkStep_name (fun _ ↦ none) followLinks p dirs hne hname hfull hlong
      dsimp only at hstep
      rw [ite_self] at hstep
      rw [returns_inl hstep, ih]
      have hfits := Nat.not_lt.mp hlong
      simp [hup, hfits]

/-! The result. -/

theorem Names.enter (h : Names dirs) (hc : c ≠ [] ∧ '/' ∉ c) : Names (enter dirs c) := by
  unfold Isl.Fs.enter
  split
  · exact h
  · split
    · exact fun d hd ↦ h d ((List.dropLast_sublist dirs).subset hd)
    · intro d hd
      rcases List.mem_append.mp hd with hd | hd
      · exact h d hd
      · rw [List.mem_singleton.mp hd]
        exact ⟨hc.1, hc.2, ‹_›, ‹_›⟩

theorem Names.resolve (h : Names dirs) (path : Str) : Names (resolve dirs path) := by
  have hc : ∀ c ∈ comps '/' path, c ≠ [] ∧ '/' ∉ c := fun c hc ↦ comps_mem hc
  unfold Isl.Fs.resolve
  generalize comps '/' path = cs at hc
  induction cs generalizing dirs with
  | nil => exact h
  | cons c cs ih =>
    exact ih (h.enter (hc c List.mem_cons_self)) (fun d hd ↦ hc d (List.mem_cons_of_mem c hd))

theorem pathIsNormalizedFrom_false (hc : '/' ∉ c) :
    pathIsNormalizedFrom false (c ++ p) = pathIsNormalizedFrom false p := by
  induction c with
  | nil => rfl
  | cons a c ih =>
    obtain ⟨ha, hc⟩ := not_or.mp (mt List.mem_cons.mpr hc)
    rw [List.cons_append, pathIsNormalizedFrom, if_neg (Ne.symm ha), ih hc]

theorem pathIsNormalizedFrom_true (hc : c ≠ [] ∧ '/' ∉ c) :
    pathIsNormalizedFrom true (c ++ p) = pathIsNormalizedFrom false p := by
  obtain ⟨hne, hc⟩ := hc
  cases c with
  | nil => exact absurd rfl hne
  | cons a c =>
    obtain ⟨ha, hc⟩ := not_or.mp (mt List.mem_cons.mpr hc)
    rw [List.cons_append, pathIsNormalizedFrom, if_neg (Ne.symm ha), pathIsNormalizedFrom_false hc]

/-- The path of a directory is normalized. -/
theorem Names.pathIsNormalized (h : Names dirs) : pathIsNormalized (render '/' dirs) := by
  have hfrom : pathIsNormalizedFrom false (render '/' dirs) := by
    induction dirs with
    | nil => rfl
    | cons d ds ih =>
      obtain ⟨hne, hs, -⟩ := h d List.mem_cons_self
      rw [render_cons, List.cons_append, pathIsNormalizedFrom, if_pos rfl,
        pathIsNormalizedFrom_true ⟨hne, hs⟩]
      exact ih (fun e he ↦ h e (List.mem_cons_of_mem d he))
  cases dirs with
  | nil => rfl
  | cons d ds => exact hfrom

/-- Going through the names of a directory leads to it. -/
theorem foldl_enter_names (h : Names cs) : cs.foldl enter dirs = dirs ++ cs := by
  induction cs generalizing dirs with
  | nil => simp
  | cons c cs ih =>
    rw [List.foldl_cons, enter_name (h c List.mem_cons_self).2.2,
      ih (fun d hd ↦ h d (List.mem_cons_of_mem c hd)), List.append_assoc, List.singleton_append]

theorem room_names (h : Names cs) : Room dirs cs ↔ cs = [] ∨ pathLen (dirs ++ cs) ≤ maxPath - 2 := by
  induction cs generalizing dirs with
  | nil => simp [Room]
  | cons c cs ih =>
    have hc := (h c List.mem_cons_self).2.2
    have hlen : pathLen (dirs ++ c :: cs) = pathLen (dirs ++ [c]) + pathLen cs := by
      rw [← List.singleton_append, ← List.append_assoc]
      unfold pathLen
      rw [render_append, List.length_append]
    rw [Room, enter_name hc, ih (fun d hd ↦ h d (List.mem_cons_of_mem c hd)), hlen,
      List.append_assoc, List.singleton_append, hlen]
    constructor
    · rintro ⟨-, hl, rfl | hl'⟩
      · exact .inr (hl hc)
      · exact .inr hl'
    · rintro (h | hl)
      · cases h
      · exact ⟨fun hup ↦ absurd hup hc.2, fun _ ↦ by omega, .inr hl⟩

theorem comps_render_names (h : Names dirs) : comps '/' (render '/' dirs) = dirs :=
  comps_render (fun d hd ↦ ⟨(h d hd).1, (h d hd).2.1⟩)

/-! Lengths on the way. -/

theorem pathLen_dropLast_lt (h : dirs ≠ []) : pathLen dirs.dropLast < pathLen dirs := by
  obtain ⟨ds, d, rfl⟩ := (List.eq_nil_or_concat' dirs).resolve_left h
  have hlen := length_render_concat '/' ds d
  rw [List.dropLast_concat]
  unfold pathLen
  omega

theorem Room.pathLen_le (h : Room dirs cs) (hlen : pathLen dirs ≤ maxPath - 2) :
    pathLen (cs.foldl enter dirs) ≤ maxPath - 2 := by
  induction cs generalizing dirs with
  | nil => exact hlen
  | cons c cs ih =>
    obtain ⟨hup, hname, hroom⟩ := h
    refine ih hroom ?_
    by_cases hd : c = ['.']
    · rw [hd, enter_dot]
      exact hlen
    by_cases hu : c = ['.', '.']
    · rw [hu, enter_up]
      exact (pathLen_dropLast_lt (hup hu)).le.trans hlen
    · rw [enter_name ⟨hd, hu⟩]
      exact hname ⟨hd, hu⟩

theorem Room.pathLen_le_of_ne_dot (h : Room dirs cs) (hlen : pathLen dirs < maxPath)
    (hc : ∃ c ∈ cs, c ≠ ['.']) : pathLen (cs.foldl enter dirs) ≤ maxPath - 2 := by
  induction cs generalizing dirs with
  | nil =>
    obtain ⟨c, hc, -⟩ := hc
    cases hc
  | cons c cs ih =>
    obtain ⟨hup, hname, hroom⟩ := h
    by_cases hd : c = ['.']
    · obtain ⟨e, he, hne⟩ := hc
      rw [List.foldl_cons]
      rw [hd, enter_dot] at hroom ⊢
      refine ih hroom hlen ⟨e, (List.mem_cons.mp he).resolve_left ?_, hne⟩
      exact fun h ↦ hne (h.trans hd)
    by_cases hu : c = ['.', '.']
    · have hlt := pathLen_dropLast_lt (hup hu)
      refine hroom.pathLen_le ?_
      rw [hu, enter_up]
      omega
    · refine hroom.pathLen_le ?_
      rw [enter_name ⟨hd, hu⟩]
      exact hname ⟨hd, hu⟩

theorem foldl_enter_dots (h : ∀ c ∈ cs, c = ['.']) : cs.foldl enter dirs = dirs := by
  induction cs with
  | nil => rfl
  | cons c cs ih =>
    rw [List.foldl_cons, h c List.mem_cons_self, enter_dot,
      ih (fun d hd ↦ h d (List.mem_cons_of_mem c hd))]

/-! The function. -/

theorem baseDirs_dirPath (h : Names dirs) : baseDirs (dirPath dirs) = dirs := by
  unfold baseDirs dirPath
  by_cases hroot : dirs = []
  · rw [if_pos hroot, if_pos rfl, hroot]
  · rw [if_neg hroot]
    cases dirs with
    | nil => exact absurd rfl hroot
    | cons d ds =>
      obtain ⟨hne, hs, -⟩ := h d List.mem_cons_self
      have hslash : render '/' (d :: ds) ≠ ['/'] := by
        simp [render_cons, hne]
      rw [if_neg hslash, render_cons, List.cons_append]
      exact pieces_append hs (fun e he ↦ (h e (List.mem_cons_of_mem d he)).2.1)

theorem Names.validBase {fs : FsInfo} {at_ : At} {path : Str} (h : Names dirs)
    (hbase : normalizeBase fs at_ path = some (dirPath dirs))
    (hlen : (dirPath dirs).length < maxPath) : ValidBase fs at_ path := by
  intro b hb
  rw [hbase] at hb
  cases hb
  refine ⟨?_, hlen⟩
  unfold dirPath
  split
  · rfl
  · exact h.pathIsNormalized

theorem pathNormalize_path_iff {fs : FsInfo} {at_ : At} {path : Str}
    (hbase : ValidBase fs at_ path) :
    (∃ fuel, pathNormalize (fun _ ↦ none) fs at_ path followLinks fuel = some (.path out)) ↔
      Room (startDirs fs at_ path) (comps '/' path) ∧
        out = render '/' (resolve (startDirs fs at_ path) path) := by
  have hp : Starts '/' (eatSlashes path) := starts_skip
  have hwalk := @returns_path_iff followLinks (startDirs fs at_ path) _ out hp
  have hc : comps '/' (eatSlashes path) = comps '/' path := comps_skip
  rw [hc] at hwalk
  rw [resolve, ← hwalk, ← returns_walk (agrees_start hbase), returns_iff_run]
  rfl

/-- On a file system without symlinks `path_normalize` gives the path its
components lead to, and this path back from the root, exactly when there is room. -/
theorem pathNormalize_resolve_iff {fs : FsInfo} {at_ : At} {path : Str}
    (hbase : normalizeBase fs at_ path = some (dirPath dirs)) (hnames : Names dirs)
    (hlen : (dirPath dirs).length < maxPath) :
    (∃ out, out = render '/' (resolve dirs path) ∧
      (∃ fuel, pathNormalize (fun _ ↦ none) fs at_ path followLinks fuel = some (.path out)) ∧
      pathIsNormalized out ∧
      ∃ fuel, pathNormalize (fun _ ↦ none) fs .noAt out followLinks fuel = some (.path out)) ↔
    Room dirs (comps '/' path) ∧
      ((∀ c ∈ comps '/' path, c = ['.']) → pathLen dirs ≤ maxPath - 2) := by
  have hstart : startDirs fs at_ path = dirs := by
    rw [startDirs, hbase, Option.map_some, Option.getD_some, baseDirs_dirPath hnames]
  have hfirst := @pathNormalize_path_iff followLinks (render '/' (resolve dirs path)) fs at_ path
    (hnames.validBase hbase hlen)
  have hres := hnames.resolve path
  have hagain := @pathNormalize_path_iff followLinks (render '/' (resolve dirs path)) fs .noAt
    (render '/' (resolve dirs path)) (fun b hb ↦ by cases hb)
  have hroot : startDirs fs .noAt (render '/' (resolve dirs path)) = [] := rfl
  have hsame : resolve [] (render '/' (resolve dirs path)) = resolve dirs path := by
    rw [resolve, comps_render_names hres, foldl_enter_names hres, List.nil_append]
  rw [hstart] at hfirst
  rw [hroot, hsame, comps_render_names hres, room_names hres, List.nil_append] at hagain
  have hpl : pathLen dirs < maxPath := by
    unfold dirPath at hlen
    split at hlen
    · rename_i h
      rw [h]
      decide
    · exact hlen
  simp only [exists_eq_left, hfirst, hagain, hres.pathIsNormalized, and_true, true_and]
  refine and_congr_right (fun hroom ↦ ?_)
  constructor
  · intro hshort hdots
    have hsame : resolve dirs path = dirs := foldl_enter_dots hdots
    rw [hsame] at hshort
    rcases hshort with h | h
    · rw [h]
      decide
    · exact h
  · intro hdots
    right
    by_cases hall : ∀ c ∈ comps '/' path, c = ['.']
    · have hsame : resolve dirs path = dirs := foldl_enter_dots hall
      rw [hsame]
      exact hdots hall
    · simp only [not_forall] at hall
      obtain ⟨c, hc, hne⟩ := hall
      exact hroom.pathLen_le_of_ne_dot hpl ⟨c, hc, hne⟩

/-- `.././b` from `/a`. -/
theorem pathNormalize_resolve_b : ∃ out, out = render '/' (resolve [['a']] "..//b".toList) ∧
    (∃ fuel, pathNormalize (fun _ ↦ none) ⟨some ['/'], some ['/', 'a']⟩ .pwd "..//b".toList true
      fuel = some (.path out)) ∧
    pathIsNormalized out ∧
    ∃ fuel, pathNormalize (fun _ ↦ none) ⟨some ['/'], some ['/', 'a']⟩ .noAt out true fuel =
      some (.path out) := by
  have hbase : normalizeBase ⟨some ['/'], some ['/', 'a']⟩ .pwd "..//b".toList =
      some (dirPath [['a']]) := by decide
  exact (pathNormalize_resolve_iff hbase (by decide) (by decide)).mpr (by decide)

/-- The spec stays at the root, the function does not. -/
theorem pathNormalize_dotdot_name :
    render '/' (resolve [] "/../a".toList) = ['/', 'a'] ∧
    normalizeBase ⟨some ['/'], some ['/']⟩ .pwd "/../a".toList = some (dirPath []) ∧
    ∀ fuel, pathNormalize (fun _ ↦ none) ⟨some ['/'], some ['/']⟩ .pwd "/../a".toList true fuel ≠
      some (.path ['/', 'a']) := by
  refine ⟨by decide, by decide, fun fuel hr ↦ ?_⟩
  have hfault : Returns (normalizeStep (fun _ ↦ none) true)
      (normalizeStart ⟨some ['/'], some ['/']⟩ .pwd "/../a".toList) .fault := .done rfl
  cases hfault.unique (returns_iff_run.mpr ⟨fuel, hr⟩)

end Isl.Fs
