import Isl.Fs.PathResolve

/-! When `path_normalize` stays below the root directory `sys_chroot` sets. -/

namespace Isl.Fs

open Isl.Lib.Loop Isl.Lib.Components

/-- `current->fs->root = dir`, with `dir` given by its path. -/
def chroot (fs : FsInfo) (dir : List Str) : FsInfo := { fs with root := some (dirPath dir) }

/-- The path is that of directory `root` or starts with it and a slash. -/
def Below (root : List Str) (out : Str) : Prop :=
  ∃ s, out = render '/' root ++ s ∧ AtEnd '/' s

/-- A directory path has no symlink in it. -/
structure RealDir (links : Links) (root : List Str) : Prop where
  names : Names root
  noLink : ∀ pre post, pre ++ post = root → pre ≠ [] → links (render '/' pre) = none

/-- In its first `n` steps below `root` the walk does not go up from `root`, and
every symlink it follows leads to `root` or below it. -/
def Stays (links : Links) (followLinks : Bool) (root : List Str) : ℕ → List Str → Str → Prop
  | 0, _, _ => True
  | n + 1, sub, p =>
    let name := headComp '/' p
    let rest := tailComps '/' p
    if p = [] then True
    else if name = ['.'] then Stays links followLinks root n sub rest
    else if name = ['.', '.'] then sub ≠ [] ∧ Stays links followLinks root n sub.dropLast rest
    else
      match (if followLinks ∨ rest ≠ [] then links (render '/' (root ++ sub ++ [name])) else none) with
      | none => Stays links followLinks root n (sub ++ [name]) rest
      | some target => ∃ s, linkPath (root ++ sub) target = render '/' root ++ s ∧ AtEnd '/' s ∧
          Stays links followLinks root n [] (eatSlashes (s ++ '/' :: rest))

variable {links : Links} {followLinks : Bool} {root sub pre post : List Str} {p s out : Str}
  {r : Outcome} {n : ℕ}

theorem below_of_dirs : Below root (render '/' (root ++ sub)) :=
  ⟨render '/' sub, render_append, atEnd_render⟩

/-- From the real root, a path that starts with `root` first leads to `root`. -/
theorem run_reenter (hroot : RealDir links root) (hs : AtEnd '/' s) (hpp : pre ++ post = root)
    (h : run (walkStep links followLinks) n ⟨pre, eatSlashes (render '/' post ++ s)⟩ = some r) :
    (∀ out, r ≠ .path out) ∨
      ∃ m ≤ n, run (walkStep links followLinks) m ⟨root, eatSlashes s⟩ = some r := by
  induction post generalizing pre n with
  | nil =>
    rw [List.append_nil] at hpp
    subst hpp
    exact .inr ⟨n, le_rfl, h⟩
  | cons d ds ih =>
    obtain ⟨hne, hslash, hname⟩ := hroot.names d (by rw [← hpp]; simp)
    have hend : AtEnd '/' (render '/' ds ++ s) := atEnd_render.append hs
    have heat : eatSlashes (render '/' (d :: ds) ++ s) = d ++ (render '/' ds ++ s) := by
      cases d with
      | nil => exact absurd rfl hne
      | cons a d =>
        have ha : a ≠ '/' := fun h ↦ hslash (h ▸ List.mem_cons_self)
        simp [render_cons, eatSlashes, ha]
    have hp : d ++ (render '/' ds ++ s) ≠ [] := by simp [hne]
    have hhead : headComp '/' (d ++ (render '/' ds ++ s)) = d := headComp_append hslash hend
    have htail : tailComps '/' (d ++ (render '/' ds ++ s)) = eatSlashes (render '/' ds ++ s) :=
      tailComps_append hslash hend
    rw [heat] at h
    cases n with
    | zero => cases h
    | succ n =>
      unfold run at h
      by_cases hfull : maxPath - 2 ≤ pathLen pre
      · rw [walkStep_full hp (by rwa [hhead]) hfull] at h
        cases h
        exact .inl (by simp)
      by_cases hlong : maxPath - 2 < pathLen (pre ++ [headComp '/' (d ++ (render '/' ds ++ s))])
      · rw [walkStep_tooLong hp (by rwa [hhead]) hfull hlong] at h
        cases h
        exact .inl (by simp)
      · have hpre : pre ++ [d] ++ ds = root := by rw [← hpp]; simp
        rw [walkStep_name hp (by rwa [hhead]) hfull hlong, hhead, htail,
          hroot.noLink _ _ hpre (by simp)] at h
        dsimp only at h
        rw [ite_self] at h
        obtain h' | ⟨m, hm, h'⟩ := ih hpre h
        · exact .inl h'
        · exact .inr ⟨m, by omega, h'⟩

/-- A walk that stays below the root directory ends there. -/
theorem below_of_run (hroot : RealDir links root) (hp : Starts '/' p)
    (hst : ∀ k, Stays links followLinks root k sub p)
    (h : run (walkStep links followLinks) n ⟨root ++ sub, p⟩ = some (.path out)) :
    Below root out := by
  induction n using Nat.strong_induction_on generalizing sub p with
  | h n ih =>
    cases n with
    | zero => cases h
    | succ n =>
      have hst' (k : ℕ) := hst (k + 1)
      unfold run at h
      by_cases hne : p = []
      · rw [hne, walkStep_nil] at h
        cases h
        exact below_of_dirs
      simp only [Stays, hne, if_false] at hst'
      by_cases hdot : headComp '/' p = ['.']
      · rw [walkStep_dot hdot] at h
        simp only [hdot, if_true] at hst'
        exact ih n (Nat.lt_succ_self n) starts_tailComps hst' h
      simp only [hdot, if_false] at hst'
      by_cases hup : headComp '/' p = ['.', '.']
      · simp only [hup, if_true] at hst'
        have hsub := (hst' 0).1
        rw [walkStep_up hup, if_neg (by simp [hsub]), List.dropLast_append_of_ne_nil hsub] at h
        exact ih n (Nat.lt_succ_self n) starts_tailComps (fun k ↦ (hst' k).2) h
      simp only [hup, if_false] at hst'
      have hname : IsName (headComp '/' p) := ⟨hdot, hup⟩
      by_cases hfull : maxPath - 2 ≤ pathLen (root ++ sub)
      · rw [walkStep_full hne hname hfull] at h
        cases h
      by_cases hlong : maxPath - 2 < pathLen (root ++ sub ++ [headComp '/' p])
      · rw [walkStep_tooLong hne hname hfull hlong] at h
        cases h
      rw [walkStep_name hne hname hfull hlong] at h
      by_cases hlook : followLinks ∨ tailComps '/' p ≠ []
      · simp only [hlook, if_true] at h hst'
        cases hlink : links (render '/' (root ++ sub ++ [headComp '/' p])) with
        | none =>
          simp only [hlink] at h hst'
          rw [List.append_assoc] at h
          exact ih n (Nat.lt_succ_self n) starts_tailComps hst' h
        | some target =>
          simp only [hlink] at h hst'
          cases he : expandLink (render '/' (root ++ sub) ++ ['/']) target (tailComps '/' p) with
          | none =>
            rw [he] at h
            cases h
          | some e =>
            rw [he] at h
            obtain ⟨-, -, rfl⟩ := expandLink_eq_some_iff.mp he
            obtain ⟨s, hs, hend, -⟩ := hst' 0
            have hst'' (k : ℕ) : Stays links followLinks root k [] (eatSlashes
                (s ++ '/' :: tailComps '/' p)) := by
              obtain ⟨s', hs', -, hk⟩ := hst' k
              rw [hs] at hs'
              rwa [List.append_cancel_left hs']
            dsimp only at h
            rw [hs, List.append_assoc] at h
            have hend' : AtEnd '/' (s ++ '/' :: tailComps '/' p) := hend.append (.inr rfl)
            obtain h' | ⟨m, hm, h'⟩ := run_reenter hroot hend' (List.nil_append root) h
            · exact absurd rfl (h' out)
            · rw [← List.append_nil root] at h'
              exact ih m (by omega) starts_skip hst'' h'
      · simp only [hlook, if_false] at h hst'
        rw [List.append_assoc] at h
        exact ih n (Nat.lt_succ_self n) starts_tailComps hst' h

/-- One symlink in the new root, `/r/l`. -/
def oneLink (target : Str) : Links := fun p ↦ if p = "/r/l".toList then some target else none

theorem realDir_r (target : Str) : RealDir (oneLink target) ["r".toList] := by
  refine ⟨by decide, fun pre post h hne ↦ ?_⟩
  cases pre with
  | nil => exact absurd rfl hne
  | cons d ds =>
    simp only [List.cons_append, List.cons.injEq, List.append_eq_nil_iff] at h
    obtain ⟨rfl, rfl, -⟩ := h
    simp [oneLink, render]

end Isl.Fs
