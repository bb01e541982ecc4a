import Isl.Emu.GuestMem
import Isl.Fs.Mount
import Isl.Fs.PathResolve

/-!
`chdir` and `getcwd` of `kernel/fs.c`, with `generic_openat` and `generic_getpath` of
`fs/generic.c`: a path from the new directory leads where it would have led behind the path of
the `chdir`.
-/

namespace Isl.Fs

open Isl.Lib.Loop Isl.Lib.Components

/-! A walk that goes on behind the end of its path. -/

section

variable {p q w z : Str} {dirs : List Str} {links : Links} {followLinks : Bool} {out d : Str}

/-- The path `z` is `p` and then a separator and the components of `q`. -/
def Joined (q p z : Str) : Prop :=
  ∃ w, eatSlashes w = q ∧ z = eatSlashes (p ++ w) ∧
    (p = [] ∨ w.head? = some '/' ∨ p.getLast? = some '/')

theorem eatSlashes_of_starts (h : Starts '/' p) : eatSlashes p = p := by
  cases p with
  | nil => rfl
  | cons a p => exact List.dropWhile_cons_of_neg (by simpa using h a rfl)

theorem eatSlashes_append (p w : Str) : eatSlashes (p ++ w) = eatSlashes (eatSlashes p ++ w) := by
  induction p with
  | nil => rfl
  | cons a p ih =>
    by_cases ha : a = '/'
    · rw [List.cons_append, eatSlashes, List.dropWhile_cons_of_pos (by simpa using ha)]
      conv_rhs => rw [eatSlashes, eatSlashes, List.dropWhile_cons_of_pos (by simpa using ha)]
      exact ih
    · conv_rhs => rw [eatSlashes, eatSlashes, List.dropWhile_cons_of_neg (by simpa using ha)]
      rfl

theorem getLast_eatSlashes (h : eatSlashes p ≠ []) : (eatSlashes p).getLast? = p.getLast? := by
  obtain ⟨s, hs⟩ := List.dropWhile_suffix (l := p) (fun a : Char ↦ decide (a = '/'))
  have hs' : s ++ eatSlashes p = p := hs
  conv_rhs => rw [← hs']
  rw [List.getLast?_append_of_ne_nil _ h]

theorem Joined.done (h : Joined q [] z) : z = q := by
  obtain ⟨w, hw, hz, -⟩ := h
  rw [hz, List.nil_append, hw]

theorem Joined.ne_nil (h : Joined q p z) (hp : Starts '/' p) (hq : q ≠ []) : z ≠ [] := by
  by_cases hne : p = []
  · subst hne
    rw [h.done]
    exact hq
  · obtain ⟨w, -, hz, -⟩ := h
    rw [hz, eatSlashes_append, eatSlashes_of_starts hp, eatSlashes_of_starts]
    · simp [hne]
    · intro a ha
      rw [List.head?_append_of_ne_nil _ hne] at ha
      exact hp a ha

theorem Joined.tail (h : Joined q p z) (hp : Starts '/' p) (hne : p ≠ []) :
    headComp '/' z = headComp '/' p ∧ Joined q (tailComps '/' p) (tailComps '/' z) := by
  obtain ⟨w, hw, hz, hsep⟩ := h
  have hstarts : Starts '/' (p ++ w) := by
    intro a ha
    rw [List.head?_append_of_ne_nil _ hne] at ha
    exact hp a ha
  rw [eatSlashes_of_starts hstarts] at hz
  have hname : '/' ∉ headComp '/' p := sep_notMem_headComp
  have hsplit : headComp '/' p ++ p.dropWhile (· ≠ '/') = p := List.takeWhile_append_dropWhile
  have hend : AtEnd '/' (p.dropWhile (· ≠ '/')) := atEnd_drop '/' p
  obtain ⟨y, hy⟩ : ∃ y, y = p.dropWhile (· ≠ '/') := ⟨_, rfl⟩
  have htail : tailComps '/' p = eatSlashes y := by rw [hy]; rfl
  rw [← hy] at hsplit hend
  by_cases hlast : y = []
  · rw [hlast, List.append_nil] at hsplit
    have hhead : w.head? = some '/' := by
      rcases hsep with hp | hhead | hp
      · exact absurd hp hne
      · exact hhead
      · refine absurd (List.mem_of_getLast? hp) ?_
        rw [← hsplit]
        exact hname
    rw [hsplit] at hname ⊢
    refine ⟨by rw [hz, headComp_append hname (.inr hhead)], w, hw, ?_, .inl ?_⟩
    · rw [hz, tailComps_append hname (.inr hhead), htail, hlast]
      rfl
    · rw [htail, hlast]
      rfl
  · have hend' : AtEnd '/' (y ++ w) := by
      refine .inr ?_
      rw [List.head?_append_of_ne_nil _ hlast]
      exact hend.resolve_left hlast
    have hz' : z = headComp '/' p ++ (y ++ w) := by rw [hz, ← List.append_assoc, hsplit]
    refine ⟨by rw [hz', headComp_append hname hend'], w, hw, ?_, ?_⟩
    · rw [hz', tailComps_append hname hend', htail]
      exact eatSlashes_append y w
    · rw [htail]
      by_cases hnil : eatSlashes y = []
      · exact .inl hnil
      · rcases hsep with hp | hhead | hp
        · exact absurd hp hne
        · exact .inr (.inl hhead)
        · rw [getLast_eatSlashes hnil]
          rw [← hsplit, List.getLast?_append_of_ne_nil _ hlast] at hp
          exact .inr (.inr hp)

theorem Joined.behind (h : Joined q p z) (hp : Starts '/' p) (target : Str) :
    Joined q (eatSlashes (target ++ '/' :: p)) (eatSlashes (target ++ '/' :: z)) := by
  have hlast (x : Str) (hx : x.getLast? = some '/') :
      eatSlashes x = [] ∨ (eatSlashes x).getLast? = some '/' := by
    by_cases hnil : eatSlashes x = []
    · exact .inl hnil
    · exact .inr ((getLast_eatSlashes hnil).trans hx)
  by_cases hne : p = []
  · subst hne
    rw [h.done]
    obtain ⟨w, hw, -⟩ := h
    refine ⟨q, ?_, ?_, ?_⟩
    · rw [← hw]
      exact eatSlashes_of_starts starts_skip
    · rw [← eatSlashes_append, List.append_assoc]
      rfl
    · rcases hlast (target ++ ['/']) (List.getLast?_concat ..) with hnil | hslash
      · exact .inl hnil
      · exact .inr (.inr hslash)
  · obtain ⟨w, hw, hz, hsep⟩ := h
    rw [eatSlashes_append, eatSlashes_of_starts hp, eatSlashes_of_starts] at hz
    rotate_left
    · intro a ha
      rw [List.head?_append_of_ne_nil _ hne] at ha
      exact hp a ha
    refine ⟨w, hw, ?_, ?_⟩
    · rw [hz, ← eatSlashes_append, List.append_assoc, List.cons_append]
    · rcases hsep with hp | hhead | hslash
      · exact absurd hp hne
      · exact .inr (.inl hhead)
      · have hslash' : (target ++ '/' :: p).getLast? = some '/' := by
          rw [List.getLast?_append_of_ne_nil _ (by simp), List.getLast?_cons_of_ne_nil hne]
          exact hslash
        rcases hlast _ hslash' with hnil | hslash
        · exact .inl hnil
        · exact .inr (.inr hslash)

theorem walkStep_enter (hne : p ≠ []) (hname : IsName (headComp '/' p))
    (hlen : pathLen dirs < maxPath - 2) (hfits : pathLen (dirs ++ [headComp '/' p]) ≤ maxPath - 2)
    (hlink : links (render '/' (dirs ++ [headComp '/' p])) = none) :
    walkStep links followLinks ⟨dirs, p⟩ = .inl ⟨dirs ++ [headComp '/' p], tailComps '/' p⟩ := by
  rw [walkStep_name hne hname (by omega) (by omega), hlink]
  exact ite_self _

/-- From where a walk that follows every link ends, a longer one goes on. -/
theorem walk_joined (h : Returns (walkStep links true) ⟨dirs, p⟩ (.path d)) (hp : Starts '/' p)
    (hnames : Names dirs) :
    ∃ ds, d = render '/' ds ∧ Names ds ∧ ∀ q z followLinks out, Joined q p z → q ≠ [] →
      Returns (walkStep links followLinks) ⟨dirs, z⟩ (.path out) →
        Returns (walkStep links followLinks) ⟨ds, q⟩ (.path out) := by
  have hfits : Fits links true dirs p := fits_of_returns h (by simp) hp
  induction hfits with
  | done dirs =>
    cases (returns_inr walkStep_nil).mp h
    refine ⟨dirs, rfl, hnames, ?_⟩
    intro q z followLinks out hj hq hout
    rwa [hj.done] at hout
  | @dot dirs p hdot hfits ih =>
    have hne : p ≠ [] := by
      rintro rfl
      cases hdot
    obtain ⟨ds, hd, hds, hrest⟩ := ih ((returns_inl (walkStep_dot hdot)).mp h) starts_tailComps hnames
    refine ⟨ds, hd, hds, ?_⟩
    intro q z followLinks out hj hq hout
    obtain ⟨hhead, htail⟩ := hj.tail hp hne
    rw [returns_inl (walkStep_dot (hhead.trans hdot))] at hout
    exact hrest q _ followLinks out htail hq hout
  | @up dirs p hup hroot hfits ih =>
    have hne : p ≠ [] := by
      rintro rfl
      cases hup
    have hlast : Names dirs.dropLast := fun c hc ↦ hnames c ((List.dropLast_sublist dirs).subset hc)
    rw [returns_inl ((walkStep_up hup).trans (if_neg hroot))] at h
    obtain ⟨ds, hd, hds, hrest⟩ := ih h starts_tailComps hlast
    refine ⟨ds, hd, hds, ?_⟩
    intro q z followLinks out hj hq hout
    obtain ⟨hhead, htail⟩ := hj.tail hp hne
    rw [returns_inl ((walkStep_up (hhead.trans hup)).trans (if_neg hroot))] at hout
    exact hrest q _ followLinks out htail hq hout
  | tooLong hne hname hlen hlong =>
    cases (returns_inr (walkStep_tooLong hne hname (by omega) hlong)).mp h
  | @name dirs p hne hname hlen hfits hlink _ ih =>
    have hnone := hlink.resolve_left fun hno ↦ hno (.inl rfl)
    have hnext : Names (dirs ++ [headComp '/' p]) := by
      have henter := hnames.enter (c := headComp '/' p) ⟨headComp_ne_nil hp hne, sep_notMem_headComp⟩
      rwa [enter_name hname] at henter
    rw [returns_inl (walkStep_enter hne hname hlen hfits hnone)] at h
    obtain ⟨ds, hd, hds, hrest⟩ := ih h starts_tailComps hnext
    refine ⟨ds, hd, hds, ?_⟩
    intro q z followLinks out hj hq hout
    obtain ⟨hhead, htail⟩ := hj.tail hp hne
    rw [← hhead] at hname hfits hnone hrest
    rw [returns_inl (walkStep_enter (hj.ne_nil hp hq) hname hlen hfits hnone)] at hout
    exact hrest q _ followLinks out htail hq hout
  | @link dirs p target hne hname hlen hfits hlook hlink htarget hexpand _ ih =>
    have hroot : Names [] := fun c hc ↦ absurd hc List.not_mem_nil
    have hs := @walkStep_name links true p dirs hne hname (by omega) (by omega)
    rw [if_pos hlook] at hs
    simp only [hlink, expandLink_eq_some_iff.mpr ⟨htarget, hexpand, rfl⟩] at hs
    obtain ⟨ds, hd, hds, hrest⟩ := ih ((returns_inl hs).mp h) starts_skip hroot
    refine ⟨ds, hd, hds, ?_⟩
    intro q z followLinks out hj hq hout
    obtain ⟨hhead, htail⟩ := hj.tail hp hne
    -- the longer walk looks the link up for the components behind it
    rw [← hhead] at hname hfits hlink
    have hlong := @walkStep_name links followLinks z dirs (hj.ne_nil hp hq) hname (by omega) (by omega)
    rw [if_pos (.inr (htail.ne_nil starts_tailComps hq))] at hlong
    simp only [hlink] at hlong
    split at hlong
    · rw [returns_inr hlong] at hout
      cases hout
    · rename_i e he
      obtain ⟨-, -, rfl⟩ := expandLink_eq_some_iff.mp he
      rw [returns_inl hlong] at hout
      exact hrest q _ followLinks out (htail.behind starts_tailComps _) hq hout

end

namespace WorkingDir

open MountList Emu Memory

def eFault : ℤ := -14
def eNotdir : ℤ := -20
def eNomem : ℤ := -12
def eRange : ℤ := -34
def sIfdir : ℕ := 0o040000

/-- An open directory: its mount, and the path it was opened with there. -/
structure OpenDir where
  mount : ℕ
  point : Str
  path : Str
deriving DecidableEq

/-- The file systems of the mounts. Not every one of them has a `getpath`, and `devOpen` is 0
for a file that is not a device. -/
structure Host where
  stat : ℕ → Str → Except ℤ ℕ
  openFile : ℕ → Str → ℤ
  devOpen : ℕ → Str → ℤ
  getpath : ℕ → Option (Str → Except ℤ Str)
  links : Links

structure FsDirs where
  root : OpenDir
  pwd : OpenDir
  mounts : Mounts
deriving DecidableEq

namespace Host

/-- There is no result where the file system has no `getpath`. -/
def genericGetpath (h : Host) (fd : OpenDir) : Option (Except ℤ Str) := do
  let getpath ← h.getpath fd.mount
  match getpath fd.path with
  | .error err => some (.error err)
  | .ok buf =>
    if maxPath ≤ buf.length + fd.point.length then some (.error eNametoolong)
    else if fd.point ++ buf = [] then some (.ok ['/'])
    else some (.ok (fd.point ++ buf))

def baseDir (s : FsDirs) (path : Str) : OpenDir := if path.head? = some '/' then s.root else s.pwd

def normalize (h : Host) (s : FsDirs) (path : Str) (followLinks : Bool) (fuel : ℕ) :
    Option Outcome := do
  match ← h.genericGetpath (baseDir s path) with
  | .error err => some (.error err)
  | .ok atPath =>
    guard (pathIsNormalized atPath)
    pathNormalize h.links ⟨some atPath, some atPath⟩ .pwd path followLinks fuel

def lookup (h : Host) (s : FsDirs) (path : Str) (fuel : ℕ) :
    Option (Except ℤ (Mounts × OpenDir)) := do
  match ← h.normalize s path true fuel with
  | .fault => none
  | .error err => some (.error err)
  | .path out =>
    let (mounts, m) ← s.mounts.mountFind out
    some (.ok (mounts, ⟨m.id, m.point, out.drop m.point.length⟩))

def genericStatat (h : Host) (s : FsDirs) (path : Str) (fuel : ℕ) :
    Option (FsDirs × Except ℤ ℕ) := do
  match ← h.lookup s path fuel with
  | .error err => some (s, .error err)
  | .ok (mounts, d) => some ({ s with mounts := mounts.mountRelease d.mount }, h.stat d.mount d.path)

/-- No path gives the reference to the mount back. -/
def genericOpen (h : Host) (s : FsDirs) (path : Str) (fuel : ℕ) :
    Option (FsDirs × Except ℤ OpenDir) := do
  match ← h.lookup s path fuel with
  | .error err => some (s, .error err)
  | .ok (mounts, d) =>
    let err := h.openFile d.mount d.path
    if err < 0 then some ({ s with mounts := mounts }, .error err)
    else
      let err := h.devOpen d.mount d.path
      if err < 0 then some ({ s with mounts := mounts }, .error err)
      else some ({ s with mounts := mounts }, .ok d)

def openDir (h : Host) (s : FsDirs) (path : Str) (fuel : ℕ) :
    Option (FsDirs × Except ℤ OpenDir) := do
  let (s, stat) ← h.genericStatat s path fuel
  match stat with
  | .error err => some (s, .error err)
  | .ok mode =>
    if mode &&& sIfdir = 0 then some (s, .error eNotdir) else h.genericOpen s path fuel

def sysChdir (h : Host) (s : FsDirs) (path : Str) (fuel : ℕ) :
    Option (FsDirs × Except ℤ Unit) := do
  let (s, dir) ← h.openDir s path fuel
  match dir with
  | .error err => some (s, .error err)
  | .ok dir => some ({ s with pwd := dir }, .ok ())

def chars (path : Str) : List Byte := path.map fun c ↦ BitVec.ofNat 8 c.toNat

def sysGetcwd (h : Host) (s : FsDirs) (g : GuestMem) (bufAddr : Addr) (size : BitVec 32)
    (noMemory : Bool) : Option (GuestMem × ℤ) := do
  match ← h.genericGetpath s.pwd with
  | .error err => some (g, err)
  | .ok pwd =>
    if size.toNat < pwd.length + 1 then some (g, eRange)
    else if noMemory then some (g, eNomem)
    else
      let (g, fault) := g.userWrite bufAddr (chars pwd ++ [0])
      some (g, if fault ≠ 0 then eFault else (pwd.length : ℤ) + 1)

end Host

/-- A directory whose path is that of the names. -/
def OpenAt (h : Host) (d : OpenDir) (dirs : List Str) : Prop :=
  h.genericGetpath d = some (.ok (dirPath dirs)) ∧ Names dirs ∧ (dirPath dirs).length < maxPath

/-- `getpath` gives back the path a directory was opened with. -/
def Kept (h : Host) (d : OpenDir) : Prop :=
  ∃ getpath, h.getpath d.mount = some getpath ∧ getpath d.path = .ok d.path

def Relative (p : Str) : Prop := p ≠ [] ∧ p.head? ≠ some '/'

instance (p : Str) : Decidable (Relative p) := inferInstanceAs (Decidable (_ ∧ _))

inductive Chdirs (h : Host) : FsDirs → List Str → FsDirs → Prop
  | nil (s : FsDirs) : Chdirs h s [] s
  | cons {s t u : FsDirs} {p : Str} {ps : List Str} {fuel : ℕ} :
      h.sysChdir s p fuel = some (t, .ok ()) → Kept h t.pwd → Chdirs h t ps u → Chdirs h s (p :: ps) u

def joinPaths (ps : List Str) (q : Str) : Str := ps.foldr (fun p rest ↦ p ++ '/' :: rest) q

variable {h : Host} {s t : FsDirs} {d : OpenDir} {dirs ps : List Str} {p q out : Str}
  {followLinks : Bool} {fuel : ℕ}

theorem lookup_eq_ok {r : Mounts × OpenDir} (hl : h.lookup s p fuel = some (.ok r)) :
    ∃ out, h.normalize s p true fuel = some (.path out) ∧ r.2.point ++ r.2.path = out := by
  obtain ⟨o, ho, hl⟩ := Option.bind_eq_some_iff.mp hl
  cases o with
  | fault => cases hl
  | error err => cases hl
  | path out =>
    obtain ⟨⟨ms, m⟩, hm, hl⟩ := Option.bind_eq_some_iff.mp hl
    cases hl
    refine ⟨out, ho, ?_⟩
    have hfind := (Mounts.mountFind_eq_some.mp hm).2.1
    have hunder : Under out m.point := by
      apply isUnder_iff.mp
      simpa using List.find?_some hfind
    obtain heq | ⟨rest, heq⟩ := hunder
    · simp [heq]
    · simp [heq]

theorem genericStatat_dirs {r : Except ℤ ℕ} (hs : h.genericStatat s p fuel = some (t, r)) :
    t.root = s.root ∧ t.pwd = s.pwd := by
  obtain ⟨o, -, hs⟩ := Option.bind_eq_some_iff.mp hs
  cases o with
  | error err =>
    cases hs
    exact ⟨rfl, rfl⟩
  | ok r =>
    obtain ⟨ms, d⟩ := r
    cases hs
    exact ⟨rfl, rfl⟩

theorem normalize_of_dirs (hroot : t.root = s.root) (hpwd : t.pwd = s.pwd) :
    h.normalize t p followLinks fuel = h.normalize s p followLinks fuel := by
  unfold Host.normalize Host.baseDir
  rw [hroot, hpwd]

theorem genericOpen_eq_ok (ho : h.genericOpen s p fuel = some (t, .ok d)) :
    t.root = s.root ∧ ∃ out, h.normalize s p true fuel = some (.path out) ∧
      d.point ++ d.path = out := by
  obtain ⟨o, hl, ho⟩ := Option.bind_eq_some_iff.mp ho
  cases o with
  | error err => cases ho
  | ok r =>
    obtain ⟨ms, d'⟩ := r
    obtain ⟨out, hout, hpath⟩ := lookup_eq_ok hl
    dsimp only at ho
    split at ho
    · cases ho
    · split at ho
      · cases ho
      · cases ho
        exact ⟨rfl, out, hout, hpath⟩

/-- A `chdir` that succeeds has opened the directory its path leads to. -/
theorem sysChdir_eq_ok (hc : h.sysChdir s p fuel = some (t, .ok ())) :
    t.root = s.root ∧ ∃ out, h.normalize s p true fuel = some (.path out) ∧
      t.pwd.point ++ t.pwd.path = out := by
  obtain ⟨⟨t', dir⟩, ho, hc⟩ := Option.bind_eq_some_iff.mp hc
  cases dir with
  | error err => cases hc
  | ok dir =>
    cases hc
    obtain ⟨⟨s', stat⟩, hs, ho⟩ := Option.bind_eq_some_iff.mp ho
    obtain ⟨hroot, hpwd⟩ := genericStatat_dirs hs
    cases stat with
    | error err => cases ho
    | ok mode =>
      dsimp only at ho
      split at ho
      · cases ho
      · obtain ⟨hroot', out, hout, hpath⟩ := genericOpen_eq_ok ho
        rw [normalize_of_dirs hroot hpwd] at hout
        exact ⟨hroot'.trans hroot, out, hout, hpath⟩

theorem render_ne_nil (hne : dirs ≠ []) : render '/' dirs ≠ [] := by
  cases dirs with
  | nil => exact absurd rfl hne
  | cons c dirs => exact List.cons_ne_nil _ _

theorem genericGetpath_of_kept (hk : Kept h d) (hp : d.point ++ d.path = render '/' dirs)
    (hlen : pathLen dirs < maxPath) : h.genericGetpath d = some (.ok (dirPath dirs)) := by
  obtain ⟨getpath, hget, hkept⟩ := hk
  have hshort : ¬maxPath ≤ d.path.length + d.point.length := by
    unfold pathLen at hlen
    rw [← hp, List.length_append] at hlen
    omega
  unfold Host.genericGetpath dirPath
  rw [hget, Option.bind_eq_bind, Option.bind_some, hkept]
  dsimp only
  rw [if_neg hshort, hp]
  by_cases hroot : dirs = []
  · rw [hroot]
    rfl
  · rw [if_neg hroot, if_neg (render_ne_nil hroot)]

/-- `path_normalize` is a walk from the names of the directory. -/
theorem normalize_iff_walk (hd : OpenAt h (Host.baseDir s p) dirs) :
    (∃ fuel, h.normalize s p followLinks fuel = some (.path out)) ↔
      Returns (walkStep h.links followLinks) ⟨dirs, eatSlashes p⟩ (.path out) := by
  obtain ⟨hget, hnames, hlen⟩ := hd
  have hbase : normalizeBase ⟨some (dirPath dirs), some (dirPath dirs)⟩ .pwd p =
      some (dirPath dirs) := ite_self _
  have hvalid := hnames.validBase hbase hlen
  have hstart : startDirs ⟨some (dirPath dirs), some (dirPath dirs)⟩ .pwd p = dirs := by
    rw [startDirs, hbase, Option.map_some, Option.getD_some, baseDirs_dirPath hnames]
  have hagrees := agrees_start hvalid
  rw [hstart] at hagrees
  rw [← returns_walk hagrees, returns_iff_run]
  have hnorm : pathIsNormalized (dirPath dirs) := (hvalid _ hbase).1
  unfold Host.normalize pathNormalize
  rw [hget]
  simp [hnorm]

theorem length_of_normalize (hn : h.normalize s p followLinks fuel = some (.path out)) :
    out.length < maxPath := by
  obtain ⟨o, -, hn⟩ := Option.bind_eq_some_iff.mp hn
  cases o with
  | error err => cases hn
  | ok atPath =>
    obtain ⟨u, -, hn⟩ := Option.bind_eq_some_iff.mp hn
    have hwithin := withinBuffer_of_returns (returns_iff_run.mpr ⟨fuel, hn⟩) (by simp)
    obtain herr | ⟨out', hout, hlen⟩ := hwithin
    · cases herr
    · cases hout
      exact hlen

theorem Relative.eatSlashes (hq : Relative q) : eatSlashes q = q := by
  apply eatSlashes_of_starts
  intro a ha hslash
  exact hq.2 (hslash ▸ ha)

/-- A path that goes on behind that of the `chdir` goes on from the new directory. -/
theorem chdir_then (hd : OpenAt h (Host.baseDir s p) dirs) (hne : p ≠ [])
    (hc : h.sysChdir s p fuel = some (t, .ok ())) (hk : Kept h t.pwd) :
    (∃ dirs, OpenAt h t.pwd dirs) ∧ ∀ q followLinks out, Relative q →
      (∃ fuel, h.normalize s (p ++ '/' :: q) followLinks fuel = some (.path out)) →
        ∃ fuel, h.normalize t q followLinks fuel = some (.path out) := by
  obtain ⟨-, d, hnorm, hpath⟩ := sysChdir_eq_ok hc
  have hshort := (normalize_iff_walk hd).mp ⟨fuel, hnorm⟩
  obtain ⟨ds, rfl, hds, hwalk⟩ := walk_joined hshort starts_skip hd.2.1
  have hlen : pathLen ds < maxPath := length_of_normalize hnorm
  have hopen : OpenAt h t.pwd ds := by
    refine ⟨genericGetpath_of_kept hk hpath hlen, hds, ?_⟩
    unfold dirPath
    split
    · decide
    · exact hlen
  refine ⟨⟨ds, hopen⟩, ?_⟩
  intro q followLinks out hq hout
  have hbase : Host.baseDir s (p ++ '/' :: q) = Host.baseDir s p := by
    unfold Host.baseDir
    rw [List.head?_append_of_ne_nil _ hne]
  have hpwd : Host.baseDir t q = t.pwd := if_neg hq.2
  have hskip : eatSlashes ('/' :: q) = q := hq.eatSlashes
  have hj : Joined q (eatSlashes p) (eatSlashes (p ++ '/' :: q)) :=
    ⟨'/' :: q, hskip, eatSlashes_append p _, .inr (.inl rfl)⟩
  rw [normalize_iff_walk (hbase.symm ▸ hd)] at hout
  rw [normalize_iff_walk (hpwd.symm ▸ hopen), hq.eatSlashes]
  exact hwalk q _ followLinks out hj hq.1 hout

theorem joinPaths_relative (hps : ∀ p ∈ ps, Relative p) (hq : Relative q) :
    Relative (joinPaths ps q) := by
  cases ps with
  | nil => exact hq
  | cons p ps =>
    obtain ⟨hne, hhead⟩ := hps p List.mem_cons_self
    refine ⟨List.append_ne_nil_of_left_ne_nil hne _, ?_⟩
    rw [joinPaths, List.foldr_cons, List.head?_append_of_ne_nil _ hne]
    exact hhead

theorem chdirs_then (hc : Chdirs h s (p :: ps) t) (hd : OpenAt h (Host.baseDir s p) dirs)
    (hne : p ≠ []) (hps : ∀ p ∈ ps, Relative p) :
    (∃ dirs, OpenAt h t.pwd dirs) ∧ ∀ q followLinks out, Relative q →
      (∃ fuel, h.normalize s (joinPaths (p :: ps) q) followLinks fuel = some (.path out)) →
        ∃ fuel, h.normalize t q followLinks fuel = some (.path out) := by
  induction ps generalizing s p dirs with
  | nil =>
    cases hc with
    | cons hc hk hrest =>
      cases hrest
      exact chdir_then hd hne hc hk
  | cons p' ps ih =>
    cases hc with
    | @cons s s' t p ps fuel hc hk hrest =>
      obtain ⟨⟨ds, hopen⟩, hstep⟩ := chdir_then hd hne hc hk
      have hp' := hps p' List.mem_cons_self
      have hps' : ∀ p ∈ ps, Relative p := fun p hp ↦ hps p (List.mem_cons_of_mem p' hp)
      have hpwd : Host.baseDir s' p' = s'.pwd := if_neg hp'.2
      obtain ⟨hlast, hmore⟩ := ih hrest (hpwd.symm ▸ hopen) hp'.1 hps'
      refine ⟨hlast, ?_⟩
      intro q followLinks out hq hout
      exact hmore q followLinks out hq (hstep _ followLinks out (joinPaths_relative hps hq) hout)

theorem Chdirs.root (hc : Chdirs h s ps t) : t.root = s.root := by
  induction hc with
  | nil s => rfl
  | cons hc hk hrest ih => exact ih.trans (sysChdir_eq_ok hc).1

theorem normalize_dot (hd : OpenAt h s.pwd dirs)
    (hout : ∃ fuel, h.normalize s ['.'] followLinks fuel = some (.path out)) :
    dirPath dirs = if out = [] then ['/'] else out := by
  have hpwd : Host.baseDir s ['.'] = s.pwd := rfl
  have hwalk := (normalize_iff_walk (hpwd.symm ▸ hd)).mp hout
  have hdot : eatSlashes ['.'] = ['.'] := rfl
  have hend : tailComps '/' ['.'] = [] := rfl
  rw [hdot, returns_inl (walkStep_dot rfl), hend, returns_inr walkStep_nil] at hwalk
  cases hwalk
  unfold dirPath
  by_cases hroot : dirs = []
  · rw [hroot]
    rfl
  · rw [if_neg hroot, if_neg (render_ne_nil hroot)]

theorem sysGetcwd_writes {g : GuestMem} {a : Addr} {size : BitVec 32} {cwd : Str}
    (hget : h.genericGetpath s.pwd = some (.ok cwd)) (hlen : cwd.length < maxPath)
    (hsize : cwd.length + 1 ≤ size.toNat) (hw : g.writable a (cwd.length + 1)) :
    ∃ g', h.sysGetcwd s g a size false = some (g', (cwd.length : ℤ) + 1) ∧
      ∀ (i : ℕ) (hi : i < (Host.chars cwd ++ [0]).length),
        g'.load (a + BitVec.ofNat 32 i) = some (Host.chars cwd ++ [0])[i] := by
  have hbytes : (Host.chars cwd ++ [0]).length = cwd.length + 1 := by
    rw [List.length_append, Host.chars, List.length_map, List.length_singleton]
  have hok : (g.userWrite a (Host.chars cwd ++ [0])).2 = 0 := by
    apply GuestMem.userWrite_ok
    rwa [hbytes]
  refine ⟨(g.userWrite a (Host.chars cwd ++ [0])).1, ?_, ?_⟩
  · unfold Host.sysGetcwd
    rw [hget, Option.bind_eq_bind, Option.bind_some]
    dsimp only
    rw [if_neg (Nat.not_lt.mpr hsize)]
    simp only [hok, ne_eq, not_true_eq_false, if_false, Bool.false_eq_true]
  · intro i hi
    apply GuestMem.load_userWrite hok
    rw [hbytes]
    unfold maxPath at hlen
    omega

/-- Everything is a directory of one mount, and `/l` a symlink to `/a`. -/
def linked : Host where
  stat _ _ := .ok sIfdir
  openFile _ _ := 0
  devOpen _ _ := 0
  getpath _ := some .ok
  links path := if path = "/l".toList then some ['a'] else none

def atRoot : FsDirs := ⟨⟨0, [], []⟩, ⟨0, [], []⟩, (Mounts.empty.doMount [] 0).1⟩

end WorkingDir

end Isl.Fs
