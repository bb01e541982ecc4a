import Isl.Fs.PathWalk

/-! Which calls of `path_normalize` stay inside their buffers. -/

namespace Isl.Fs

open Isl.Lib.Loop Isl.Lib.Components

/-- The names the loop starts from, given the path of the base directory. -/
def baseDirs (atPath : Str) : List Str := if atPath = ['/'] then [] else
  match atPath with
  | [] => []
  | _ :: p => pieces '/' p

def startDirs (fs : FsInfo) (at_ : At) (path : Str) : List Str :=
  ((normalizeBase fs at_ path).map baseDirs).getD []

/-- The path a symlink in `dirs` stands for. -/
def linkPath (dirs : List Str) (target : Str) : Str :=
  if target.head? = some '/' then target else render '/' dirs ++ '/' :: target

/-- The walk from directory `dirs` along `p` ends, never goes up from the root,
starts no name without room for it in a path two characters short of
`MAX_PATH`, and meets only symlinks whose target and expansion fit. -/
inductive Fits (links : Links) (followLinks : Bool) : List Str → Str → Prop
  | done (dirs : List Str) : Fits links followLinks dirs []
  | dot {dirs : List Str} {p : Str} (hname : headComp '/' p = ['.'])
      (h : Fits links followLinks dirs (tailComps '/' p)) : Fits links followLinks dirs p
  | up {dirs : List Str} {p : Str} (hname : headComp '/' p = ['.', '.']) (hroot : dirs ≠ [])
      (h : Fits links followLinks dirs.dropLast (tailComps '/' p)) : Fits links followLinks dirs p
  | tooLong {dirs : List Str} {p : Str} (hne : p ≠ []) (hname : IsName (headComp '/' p))
      (hlen : pathLen dirs < maxPath - 2)
      (hlong : maxPath - 2 < pathLen (dirs ++ [headComp '/' p])) : Fits links followLinks dirs p
  | name {dirs : List Str} {p : Str} (hne : p ≠ []) (hname : IsName (headComp '/' p))
      (hlen : pathLen dirs < maxPath - 2)
      (hfits : pathLen (dirs ++ [headComp '/' p]) ≤ maxPath - 2)
      (hlink : ¬(followLinks ∨ tailComps '/' p ≠ []) ∨
        links (render '/' (dirs ++ [headComp '/' p])) = none)
      (h : Fits links followLinks (dirs ++ [headComp '/' p]) (tailComps '/' p)) :
      Fits links followLinks dirs p
  | link {dirs : List Str} {p target : Str} (hne : p ≠ []) (hname : IsName (headComp '/' p))
      (hlen : pathLen dirs < maxPath - 2)
      (hfits : pathLen (dirs ++ [headComp '/' p]) ≤ maxPath - 2)
      (hlook : followLinks ∨ tailComps '/' p ≠ [])
      (hlink : links (render '/' (dirs ++ [headComp '/' p])) = some target)
      (htarget : pathLen dirs + 1 + target.length < maxPath)
      (hexpand : (linkPath dirs target).length + 1 + (tailComps '/' p).length < maxPath)
      (h : Fits links followLinks [] (eatSlashes (linkPath dirs target ++ '/' :: tailComps '/' p))) :
      Fits links followLinks dirs p

variable {links : Links} {followLinks : Bool} {dirs : List Str} {p target e : Str} {r : Outcome}

theorem expandLink_eq_some_iff : expandLink (render '/' dirs ++ ['/']) target p = some e ↔
    pathLen dirs + 1 + target.length < maxPath ∧
      (linkPath dirs target).length + 1 + p.length < maxPath ∧
        e = linkPath dirs target ++ '/' :: p := by
  have hdir : (render '/' dirs ++ ['/']).length = pathLen dirs + 1 := by
    rw [List.length_append, pathLen, List.length_singleton]
  unfold expandLink
  dsimp only
  rw [hdir]
  by_cases hfit : pathLen dirs + 1 + target.length < maxPath
  · have htake : target.take (maxPath - (pathLen dirs + 1)) = target :=
      List.take_of_length_le (by omega)
    have hout : (if target.head? = some '/' then target else render '/' dirs ++ ['/'] ++ target) =
        linkPath dirs target := by
      simp [linkPath]
    have hlen : (linkPath dirs target ++ '/' :: p).length =
        (linkPath dirs target).length + 1 + p.length := by
      rw [List.length_append, List.length_cons]
      omega
    simp only [htake, hfit, if_true, hout, hlen, true_and]
    rw [Option.ite_none_right_eq_some, Option.some.injEq, eq_comm (a := e)]
  · have hlong : ¬pathLen dirs + 1 + (target.take (maxPath - (pathLen dirs + 1))).length <
        maxPath := by
      rw [List.length_take]
      omega
    rw [if_neg hlong]
    simp [hfit]

/-- A walk that fits ends, and not with an access outside a buffer. -/
theorem Fits.returns (h : Fits links followLinks dirs p) (hp : Starts '/' p) :
    ∃ r, Returns (walkStep links followLinks) ⟨dirs, p⟩ r ∧ r ≠ .fault := by
  induction h with
  | done dirs => exact ⟨.path (render '/' dirs), .done walkStep_nil, by simp⟩
  | dot hname h ih =>
    obtain ⟨r, hr, hne⟩ := ih starts_tailComps
    exact ⟨r, .next (walkStep_dot hname) hr, hne⟩
  | up hname hroot h ih =>
    obtain ⟨r, hr, hne⟩ := ih starts_tailComps
    exact ⟨r, .next ((walkStep_up hname).trans (if_neg hroot)) hr, hne⟩
  | tooLong hne hname hlen hlong =>
    exact ⟨.error eNametoolong, .done (walkStep_tooLong hne hname (by omega) hlong), by simp⟩
  | name hne hname hlen hfits hlink h ih =>
    obtain ⟨r, hr, hr'⟩ := ih starts_tailComps
    refine ⟨r, .next ((walkStep_name hne hname (by omega) (by omega)).trans ?_) hr, hr'⟩
    rcases hlink with hlink | hlink
    · exact if_neg hlink
    · rw [hlink]
      exact ite_self _
  | link hne hname hlen hfits hlook hlink htarget hexpand h ih =>
    obtain ⟨r, hr, hr'⟩ := ih starts_skip
    refine ⟨r, .next ((walkStep_name hne hname (by omega) (by omega)).trans ?_) hr, hr'⟩
    rw [if_pos hlook, hlink]
    dsimp only
    rw [expandLink_eq_some_iff.mpr ⟨htarget, hexpand, rfl⟩]

/-- Every other walk faults or does not end. -/
theorem fits_of_returns {s : Place} (h : Returns (walkStep links followLinks) s r)
    (hr : r ≠ .fault) (hp : Starts '/' s.p) : Fits links followLinks s.dirs s.p := by
  induction h with
  | @done s r hs =>
    obtain ⟨dirs, p⟩ := s
    dsimp only at hp ⊢
    by_cases hne : p = []
    · rw [hne]
      exact .done dirs
    by_cases hdot : headComp '/' p = ['.']
    · rw [walkStep_dot hdot] at hs
      cases hs
    by_cases hup : headComp '/' p = ['.', '.']
    · rw [walkStep_up hup] at hs
      split at hs <;> cases hs
      exact absurd rfl hr
    by_cases hfull : maxPath - 2 ≤ pathLen dirs
    · rw [walkStep_full hne ⟨hdot, hup⟩ hfull] at hs
      cases hs
      exact absurd rfl hr
    by_cases hlong : maxPath - 2 < pathLen (dirs ++ [headComp '/' p])
    · exact .tooLong hne ⟨hdot, hup⟩ (by omega) hlong
    · rw [walkStep_name hne ⟨hdot, hup⟩ hfull hlong] at hs
      split at hs
      · split at hs
        · cases hs
        · split at hs <;> cases hs
          exact absurd rfl hr
      · cases hs
  | @next s t r hs h ih =>
    obtain ⟨dirs, p⟩ := s
    dsimp only at hp ⊢
    by_cases hne : p = []
    · rw [hne, walkStep_nil] at hs
      cases hs
    by_cases hdot : headComp '/' p = ['.']
    · rw [walkStep_dot hdot] at hs
      cases hs
      exact .dot hdot (ih hr starts_tailComps)
    by_cases hup : headComp '/' p = ['.', '.']
    · rw [walkStep_up hup] at hs
      split at hs <;> cases hs
      exact .up hup ‹_› (ih hr starts_tailComps)
    by_cases hfull : maxPath - 2 ≤ pathLen dirs
    · rw [walkStep_full hne ⟨hdot, hup⟩ hfull] at hs
      cases hs
    by_cases hlong : maxPath - 2 < pathLen (dirs ++ [headComp '/' p])
    · rw [walkStep_tooLong hne ⟨hdot, hup⟩ hfull hlong] at hs
      cases hs
    · rw [walkStep_name hne ⟨hdot, hup⟩ hfull hlong] at hs
      split at hs
      · rename_i hlook
        split at hs
        · rename_i hlink
          cases hs
          exact .name hne ⟨hdot, hup⟩ (by omega) (by omega) (.inr hlink) (ih hr starts_tailComps)
        · rename_i target hlink
          split at hs <;> cases hs
          rename_i e he
          obtain ⟨htarget, hexpand, rfl⟩ := expandLink_eq_some_iff.mp he
          exact .link hne ⟨hdot, hup⟩ (by omega) (by omega) hlook hlink htarget hexpand
            (ih hr starts_skip)
      · rename_i hlook
        cases hs
        exact .name hne ⟨hdot, hup⟩ (by omega) (by omega) (.inl hlook) (ih hr starts_tailComps)

/-! The start of the walk, and what is returned. -/

/-- A base directory as `generic_getpath` gives it and the code asserts it. -/
def ValidBase (fs : FsInfo) (at_ : At) (path : Str) : Prop :=
  ∀ b ∈ normalizeBase fs at_ path, pathIsNormalized b ∧ b.length < maxPath

theorem agrees_start {fs : FsInfo} {at_ : At} {path : Str} (h : ValidBase fs at_ path) :
    Agrees (normalizeStart fs at_ path) ⟨startDirs fs at_ path, eatSlashes path⟩ := by
  unfold normalizeStart startDirs
  cases hb : normalizeBase fs at_ path with
  | none => exact agrees_restart path
  | some b =>
    obtain ⟨hnorm, hlen⟩ := h b hb
    simp only [Option.map_some, Option.getD_some, baseDirs]
    by_cases hroot : b = ['/']
    · rw [if_pos hroot, if_pos hroot]
      exact agrees_restart path
    · rw [if_neg hroot, if_neg hroot]
      cases b with
      | nil => exact agrees_restart path
      | cons a b =>
        simp only [pathIsNormalized, Bool.and_eq_true, decide_eq_true_eq] at hnorm
        obtain ⟨rfl, -⟩ := hnorm
        have hr : render '/' (pieces '/' b) = '/' :: b := render_pieces b
        refine ⟨rfl, ?_, ?_, fun d hd ↦ sep_notMem_pieces hd, starts_skip, ?_⟩
        · rw [hr]
        · simp only [pathLen, hr]
        · simp only [pathLen, hr]
          exact hlen

/-- What the function promises its callers: an error, or a null-terminated
path in the buffer. -/
def WithinBuffer (r : Outcome) : Prop :=
  r = .error eNametoolong ∨ ∃ out, r = .path out ∧ out.length < maxPath

theorem withinBuffer_of_returns {s : Cursor} (h : Returns (normalizeStep links followLinks) s r)
    (hr : r ≠ .fault) : WithinBuffer r := by
  induction h with
  | next _ _ ih => exact ih hr
  | @done s r hs =>
    unfold normalizeStep at hs
    split at hs
    · split at hs <;> cases hs
      · exact .inr ⟨_, rfl, by rw [List.length_reverse]; assumption⟩
      · exact absurd rfl hr
    split at hs
    · cases hs
    split at hs
    · split at hs <;> cases hs
      exact absurd rfl hr
    split at hs
    · cases hs
      exact absurd rfl hr
    split at hs
    · cases hs
      exact absurd rfl hr
    · dsimp only at hs
      split at hs
      · cases hs
        exact .inl rfl
      · split at hs
        · split at hs
          · cases hs
            exact absurd rfl hr
          · split at hs
            · cases hs
            · split at hs <;> cases hs
              exact absurd rfl hr
        · cases hs

/-- `path_normalize` keeps inside its buffers and returns what it promises
exactly when its walk fits. -/
theorem pathNormalize_withinBuffer_iff {fs : FsInfo} {at_ : At} {path : Str}
    (h : ValidBase fs at_ path) :
    (∃ fuel r, pathNormalize links fs at_ path followLinks fuel = some r ∧ WithinBuffer r) ↔
      Fits links followLinks (startDirs fs at_ path) (eatSlashes path) := by
  have hstart := agrees_start h
  have hp : Starts '/' (eatSlashes path) := starts_skip
  constructor
  · rintro ⟨fuel, r, hr, hb⟩
    have hret := (returns_walk hstart).mp (returns_iff_run.mpr ⟨fuel, hr⟩)
    refine fits_of_returns hret ?_ hp
    rintro rfl
    rcases hb with hb | ⟨out, hb, -⟩ <;> cases hb
  · intro hf
    obtain ⟨r, hr, hne⟩ := hf.returns hp
    have hret := (returns_walk hstart).mpr hr
    obtain ⟨fuel, hrun⟩ := returns_iff_run.mp hret
    exact ⟨fuel, r, hrun, withinBuffer_of_returns hret hne⟩

/-- From `/a`, the path `../b` fits. -/
theorem pathNormalize_withinBuffer_b : ∃ fuel r,
    pathNormalize (fun _ ↦ none) ⟨some ['/'], some ['/', 'a']⟩ .pwd ['.', '.', '/', 'b'] true fuel =
      some r ∧ WithinBuffer r := by
  have hbase : ValidBase ⟨some ['/'], some ['/', 'a']⟩ .pwd ['.', '.', '/', 'b'] := by
    intro b hb
    cases hb
    decide
  refine (pathNormalize_withinBuffer_iff hbase).mpr ?_
  refine .up rfl (by decide) ?_
  exact .name (by decide) (by decide) (by decide) (by decide) (.inr rfl) (.done _)

/-- From the root directory, `..` steps before the start of the buffer. -/
theorem pathNormalize_dotdot_root :
    ValidBase ⟨some ['/'], some ['/']⟩ .pwd ['.', '.'] ∧
    ∀ fuel r, pathNormalize (fun _ ↦ none) ⟨some ['/'], some ['/']⟩ .pwd ['.', '.'] true fuel =
      some r → r = .fault := by
  constructor
  · intro b hb
    cases hb
    decide
  · intro fuel r hr
    have hfault : Returns (normalizeStep (fun _ ↦ none) true)
        (normalizeStart ⟨some ['/'], some ['/']⟩ .pwd ['.', '.']) .fault := .done rfl
    exact (hfault.unique (returns_iff_run.mpr ⟨fuel, hr⟩)).symm

end Isl.Fs
