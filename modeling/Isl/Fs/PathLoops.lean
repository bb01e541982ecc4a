import Isl.Fs.PathBounds
import Isl.Lib.LoopCycle
import Mathlib.Data.Set.Finite.List

/-! Which calls of `path_normalize` come to an end. It does not count the symlinks it follows. -/

namespace Isl.Fs

open Isl.Lib.Loop Isl.Lib.Components

/-- The next component takes `path_normalize` out of a buffer: `..` at the root, a name behind
a path that is two characters short of `MAX_PATH` or longer, or a symlink whose target or
expansion does not fit. -/
inductive Overruns (links : Links) (followLinks : Bool) : Place → Prop
  | up {p : Str} (hname : headComp '/' p = ['.', '.']) : Overruns links followLinks ⟨[], p⟩
  | full {dirs : List Str} {p : Str} (hne : p ≠ []) (hname : IsName (headComp '/' p))
      (hfull : maxPath - 2 ≤ pathLen dirs) : Overruns links followLinks ⟨dirs, p⟩
  | link {dirs : List Str} {p target : Str} (hne : p ≠ []) (hname : IsName (headComp '/' p))
      (hlen : pathLen dirs < maxPath - 2)
      (hfits : pathLen (dirs ++ [headComp '/' p]) ≤ maxPath - 2)
      (hlook : followLinks ∨ tailComps '/' p ≠ [])
      (hlink : links (render '/' (dirs ++ [headComp '/' p])) = some target)
      (hlong : maxPath ≤ pathLen dirs + 1 + target.length ∨
        maxPath ≤ (linkPath dirs target).length + 1 + (tailComps '/' p).length) :
      Overruns links followLinks ⟨dirs, p⟩

variable {links : Links} {followLinks : Bool} {dirs : List Str} {p : Str} {s t : Place}

theorem walkStep_overruns (h : Overruns links followLinks s) :
    walkStep links followLinks s = .inr .fault := by
  cases h with
  | up hname => rw [walkStep_up hname, if_pos rfl]
  | full hne hname hfull => exact walkStep_full hne hname hfull
  | @link dirs p target hne hname hlen hfits hlook hlink hlong =>
    have hexpand : expandLink (render '/' dirs ++ ['/']) target (tailComps '/' p) = none := by
      rw [Option.eq_none_iff_forall_ne_some]
      intro e he
      obtain ⟨htarget, hpath, -⟩ := expandLink_eq_some_iff.mp he
      omega
    rw [walkStep_name hne hname (by omega) (by omega), if_pos hlook, hlink]
    dsimp only
    rw [hexpand]

theorem length_tailComps_lt_of_ne_nil (hne : p ≠ []) : (tailComps '/' p).length < p.length := by
  by_cases hp : Starts '/' p
  · exact length_tailComps_lt hp hne
  · cases p with
    | nil => exact absurd rfl hne
    | cons a q =>
      have ha : a = '/' := by
        by_contra hne
        exact hp fun b hb ↦ Option.some.inj hb ▸ hne
      have htail : tailComps '/' (a :: q) = skip '/' q := by
        rw [ha]
        simp [tailComps, skip]
      rw [htail]
      exact Nat.lt_succ_of_le (List.dropWhile_suffix _).length_le

/-- The places behind a symlink. -/
def expansions : Set Place := {s | s.dirs = [] ∧ s.p.length < maxPath}

theorem finite_expansions : expansions.Finite := by
  have hchar : Finite Char :=
    Finite.of_injective (fun c : Char ↦ c.val.toFin) fun c d h ↦ Char.ext (UInt32.toFin_inj.mp h)
  refine ((List.finite_length_lt Char maxPath).image fun p ↦ ⟨[], p⟩).subset ?_
  rintro ⟨dirs, p⟩ ⟨rfl, hp⟩
  exact ⟨p, hp, rfl⟩

/-- A step that does not end the walk shortens the rest of the path, or starts again with an
expanded path. -/
theorem walkStep_next (h : walkStep links followLinks s = .inl t) :
    t ∈ expansions ∨ t.p.length < s.p.length := by
  obtain ⟨dirs, p⟩ := s
  by_cases hne : p = []
  · rw [hne, walkStep_nil] at h
    cases h
  have hlt := length_tailComps_lt_of_ne_nil hne
  by_cases hdot : headComp '/' p = ['.']
  · rw [walkStep_dot hdot] at h
    cases h
    exact .inr hlt
  by_cases hup : headComp '/' p = ['.', '.']
  · rw [walkStep_up hup] at h
    split at h <;> cases h
    exact .inr hlt
  have hname : IsName (headComp '/' p) := ⟨hdot, hup⟩
  by_cases hfull : maxPath - 2 ≤ pathLen dirs
  · rw [walkStep_full hne hname hfull] at h
    cases h
  by_cases hlong : maxPath - 2 < pathLen (dirs ++ [headComp '/' p])
  · rw [walkStep_tooLong hne hname hfull hlong] at h
    cases h
  rw [walkStep_name hne hname hfull hlong] at h
  split at h
  · split at h
    · cases h
      exact .inr hlt
    · split at h <;> cases h
      rename_i e he
      obtain ⟨-, hpath, rfl⟩ := expandLink_eq_some_iff.mp he
      refine .inl ⟨rfl, (List.dropWhile_suffix _).length_le.trans_lt ?_⟩
      rw [List.length_append, List.length_cons]
      omega
  · cases h
    exact .inr hlt

/-- A step that faults overruns. -/
theorem overruns_of_walkStep (h : walkStep links followLinks s = .inr .fault) :
    Overruns links followLinks s := by
  obtain ⟨dirs, p⟩ := s
  by_cases hne : p = []
  · rw [hne, walkStep_nil] at h
    cases h
  by_cases hdot : headComp '/' p = ['.']
  · rw [walkStep_dot hdot] at h
    cases h
  by_cases hup : headComp '/' p = ['.', '.']
  · rw [walkStep_up hup] at h
    split at h <;> cases h
    rename_i hroot
    rw [hroot]
    exact .up hup
  have hname : IsName (headComp '/' p) := ⟨hdot, hup⟩
  by_cases hfull : maxPath - 2 ≤ pathLen dirs
  · exact .full hne hname hfull
  by_cases hlong : maxPath - 2 < pathLen (dirs ++ [headComp '/' p])
  · rw [walkStep_tooLong hne hname hfull hlong] at h
    cases h
  rw [walkStep_name hne hname hfull hlong] at h
  split at h
  · rename_i hlook
    split at h
    · cases h
    · rename_i target hlink
      split at h <;> cases h
      rename_i he
      refine .link hne hname (by omega) (by omega) hlook hlink ?_
      by_contra hshort
      simp only [not_or, Nat.not_le] at hshort
      rw [expandLink_eq_some_iff.mpr ⟨hshort.1, hshort.2, rfl⟩] at he
      cases he
  · cases h

/-- The walk ends inside the buffers if and only if it overruns nowhere and comes back to no
place. -/
theorem walk_ends_iff : (∃ r, Returns (walkStep links followLinks) s r ∧ r ≠ .fault) ↔
    ∀ t, Leads (walkStep links followLinks) s t →
      ¬Overruns links followLinks t ∧ ¬LeadsOn (walkStep links followLinks) t t := by
  constructor
  · rintro ⟨r, hr, hne⟩ t ht
    have hrt := hr.after ht
    refine ⟨fun hover ↦ ?_, hrt.not_leadsOn_self⟩
    exact hne ((returns_inr (walkStep_overruns hover)).mp hrt).symm
  · intro hall
    obtain ⟨r, hr⟩ := exists_returns_of_not_leadsOn finite_expansions (fun s ↦ s.p.length)
      (fun _ _ ↦ walkStep_next) fun b _ hb ↦ (hall b hb).2
    refine ⟨r, hr, ?_⟩
    rintro rfl
    obtain ⟨t, ht, hend⟩ := hr.leads_end
    exact (hall t ht).1 (overruns_of_walkStep hend)

/-- `path_normalize` returns a path or an error if and only if on the way through the components
of its input no expanded path comes back, and no step leaves a buffer. -/
theorem pathNormalize_ends_iff {fs : FsInfo} {at_ : At} {path : Str} (h : ValidBase fs at_ path) :
    (∃ fuel r, pathNormalize links fs at_ path followLinks fuel = some r ∧
      ((∃ out, r = .path out) ∨ ∃ err, r = .error err)) ↔
    ∀ t, Leads (walkStep links followLinks) ⟨startDirs fs at_ path, eatSlashes path⟩ t →
      ¬Overruns links followLinks t ∧ ¬LeadsOn (walkStep links followLinks) t t := by
  have hne (r : Outcome) : ((∃ out, r = .path out) ∨ ∃ err, r = .error err) ↔ r ≠ .fault := by
    cases r <;> simp
  rw [← walk_ends_iff]
  constructor
  · rintro ⟨fuel, r, hrun, hr⟩
    exact ⟨r, (returns_walk (agrees_start h)).mp (returns_iff_run.mpr ⟨fuel, hrun⟩), (hne r).mp hr⟩
  · rintro ⟨r, hret, hr⟩
    obtain ⟨fuel, hrun⟩ := returns_iff_run.mp ((returns_walk (agrees_start h)).mpr hret)
    exact ⟨fuel, r, hrun, (hne r).mpr hr⟩

/-- One symlink, from one path to another. -/
def linkAt (path target : Str) : Links := fun p ↦ if p = path then some target else none

theorem pathNormalize_ends_oneLink :
    pathNormalize (linkAt ['/', 'a'] ['b']) ⟨some ['/'], some ['/']⟩ .pwd ['/', 'a'] true 4 =
      some (.path ['/', 'b']) ∧
    ∀ t, Leads (walkStep (linkAt ['/', 'a'] ['b']) true)
        ⟨startDirs ⟨some ['/'], some ['/']⟩ .pwd ['/', 'a'], eatSlashes ['/', 'a']⟩ t →
      ¬Overruns (linkAt ['/', 'a'] ['b']) true t ∧
        ¬LeadsOn (walkStep (linkAt ['/', 'a'] ['b']) true) t t := by
  have hbase : ValidBase ⟨some ['/'], some ['/']⟩ .pwd ['/', 'a'] := by
    intro b hb
    cases hb
    decide
  have hrun : pathNormalize (linkAt ['/', 'a'] ['b']) ⟨some ['/'], some ['/']⟩ .pwd ['/', 'a'] true 4 =
      some (.path ['/', 'b']) := by decide
  exact ⟨hrun, (pathNormalize_ends_iff hbase).mp ⟨4, .path ['/', 'b'], hrun, .inl ⟨_, rfl⟩⟩⟩

/-- A symlink that leads to itself. -/
theorem not_pathNormalize_ends : ValidBase ⟨some ['/'], some ['/']⟩ .pwd ['/', 'a'] ∧ ∀ fuel,
    pathNormalize (linkAt ['/', 'a'] ['/', 'a']) ⟨some ['/'], some ['/']⟩ .pwd ['/', 'a'] true
      fuel = none := by
  constructor
  · intro b hb
    cases hb
    decide
  · intro fuel
    rw [Option.eq_none_iff_forall_ne_some]
    intro r hr
    have hret := returns_iff_run.mpr ⟨fuel, hr⟩
    have hfirst : normalizeStep (linkAt ['/', 'a'] ['/', 'a']) true
        (normalizeStart ⟨some ['/'], some ['/']⟩ .pwd ['/', 'a']) =
          .inl (restart ['/', 'a', '/']) := by decide
    have hagain : normalizeStep (linkAt ['/', 'a'] ['/', 'a']) true (restart ['/', 'a', '/']) =
        .inl (restart ['/', 'a', '/']) := by decide
    exact ((returns_inl hfirst).mp hret).not_leadsOn_self (.single hagain)

end Isl.Fs
