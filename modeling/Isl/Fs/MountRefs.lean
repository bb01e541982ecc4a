import Isl.Fs.Mount
import Mathlib.Data.List.Nodup

/-!
The references to the mounts of `fs/mount.c` that `fs/generic.c` takes and gives
back. What `path_normalize` and the file systems answer comes with each call.
-/

namespace Isl.Fs.MountRefs

open Isl.Lib Isl.Lib.Run Isl.Fs.MountList

def ePerm : ℤ := -1
def eXdev : ℤ := -18

def sIfmt (mode : ℕ) : ℕ := mode &&& 0o170000
def sIslnk (mode : ℕ) : Bool := sIfmt mode = 0o120000
def sIsdir (mode : ℕ) : Bool := sIfmt mode = 0o040000
def sIsblk (mode : ℕ) : Bool := sIfmt mode = 0o060000
def sIschr (mode : ℕ) : Bool := sIfmt mode = 0o020000

/-- A call of `path_normalize`: the paths it calls `readlink` on, then its result. -/
structure Resolved where
  links : List Str
  result : Except ℤ Str

structure OpenFile where
  id : ℕ
  refcount : ℕ
  mount : ℕ
deriving DecidableEq

structure State where
  mounts : Mounts
  files : List OpenFile
  next : ℕ
deriving DecidableEq

/-- The mounts while `path_normalize` reads symlinks. -/
def readLinks (ms : Mounts) : List Str → Option Mounts
  | [] => some ms
  | possibleSymlink :: links => do
    let (ms, m) ← ms.mountFind possibleSymlink
    readLinks (ms.mountRelease m.id) links

def containsMountPoint (ms : Mounts) (path : Str) : Bool := ms.list.any fun m ↦ isUnder m.point path

/-- An operation on the file of one path, after the checks of its path. -/
def onPath (ms : Mounts) (r : Resolved) (check : Mounts → Str → Option ℤ) (op : Mount → Str → ℤ) :
    Option (Mounts × ℤ) := do
  let ms ← readLinks ms r.links
  match r.result with
  | .error err => some (ms, err)
  | .ok path =>
    match check ms path with
    | some err => some (ms, err)
    | none =>
      let (ms, m) ← ms.mountFind path
      some (ms.mountRelease m.id, op m (path.drop m.point.length))

/-- An operation on two paths of one mount. -/
def onPaths (ms : Mounts) (srcRaw dstRaw : Resolved) (check : Mounts → Str → Option ℤ)
    (op : Mount → Str → Str → ℤ) : Option (Mounts × ℤ) := do
  let ms ← readLinks ms srcRaw.links
  match srcRaw.result with
  | .error err => some (ms, err)
  | .ok src =>
    let ms ← readLinks ms dstRaw.links
    match dstRaw.result with
    | .error err => some (ms, err)
    | .ok dst =>
      match check ms src with
      | some err => some (ms, err)
      | none =>
        let (ms, mount) ← ms.mountFind src
        let (ms, dstMount) ← ms.mountFind dst
        let err :=
          if mount.id ≠ dstMount.id then eXdev
          else op mount (src.drop mount.point.length) (dst.drop dstMount.point.length)
        some ((ms.mountRelease mount.id).mountRelease dstMount.id, err)

def noCheck (_ : Mounts) (_ : Str) : Option ℤ := none

def busyCheck (ms : Mounts) (path : Str) : Option ℤ :=
  if containsMountPoint ms path then some eBusy else none

section

variable (ms : Mounts) (path : Resolved) (fs : Mount → Str → ℤ)

def genericAccessat : Option (Mounts × ℤ) :=
  onPath ms path noCheck fun m p ↦ if fs m p < 0 then fs m p else 0

def genericStatat : Option (Mounts × ℤ) := onPath ms path noCheck fs

def genericUnlinkat : Option (Mounts × ℤ) := onPath ms path noCheck fs

def genericSymlinkat : Option (Mounts × ℤ) := onPath ms path noCheck fs

def genericSetattrat : Option (Mounts × ℤ) := onPath ms path noCheck fs

def genericUtime : Option (Mounts × ℤ) := onPath ms path noCheck fs

def genericReadlinkat : Option (Mounts × ℤ) := onPath ms path noCheck fs

def genericMkdirat : Option (Mounts × ℤ) := onPath ms path noCheck fs

def genericRmdirat : Option (Mounts × ℤ) := onPath ms path busyCheck fs

/-- `sys_statfs64` -/
def sysStatfs : Option (Mounts × ℤ) := onPath ms path noCheck fs

/-- A file system without `mknod` has no function for it. -/
def genericMknod (mode : ℕ) (superuser : Bool) (mknod : Mount → Option (Str → ℤ)) :
    Option (Mounts × ℤ) :=
  if sIsdir mode || sIslnk mode then some (ms, eInval)
  else if !superuser && (sIsblk mode || sIschr mode) then some (ms, ePerm)
  else
    onPath ms path noCheck fun m p ↦
      match mknod m with
      | none => ePerm
      | some f => f p

def genericLinkat (dst : Resolved) (link : Mount → Str → Str → ℤ) : Option (Mounts × ℤ) :=
  onPaths ms path dst noCheck link

def genericRenameat (dst : Resolved) (rename : Mount → Str → Str → ℤ) : Option (Mounts × ℤ) :=
  onPaths ms path dst busyCheck rename

end

namespace State

/-- `fd_create` of a file system's `open`, and `fd->mount = mount`. -/
def fdCreate (s : State) (mount : ℕ) : State × ℕ :=
  ({ s with files := { id := s.next, refcount := 1, mount := mount } :: s.files
            next := s.next + 1 }, s.next)

def fdRetain (s : State) (fd : ℕ) : Option State := do
  guard (s.files.any fun f ↦ f.id = fd)
  some { s with files := s.files.map fun f ↦ if f.id = fd then { f with refcount := f.refcount + 1 } else f }

def fdClose (s : State) (fd : ℕ) : Option State := do
  let f ← s.files.find? fun f ↦ f.id = fd
  if f.refcount - 1 = 0 then some { s with files := s.files.filter fun f ↦ f.id != fd }
  else
    some { s with files := s.files.map fun f ↦
      if f.id = fd then { f with refcount := f.refcount - 1 } else f }

/-- `opened` is the error of the file system's `open`, or not negative. `stat` is
the mode that `fstat` gives if it does not fail, and `dev` is the result of
`dev_open`. -/
def genericOpenat (s : State) (pathRaw : Resolved) (opened : ℤ) (stat : Option ℕ) (dev : ℤ) :
    Option (State × Except ℤ ℕ) := do
  let ms ← readLinks s.mounts pathRaw.links
  match pathRaw.result with
  | .error err => some ({ s with mounts := ms }, .error err)
  | .ok path =>
    let (ms, mount) ← ms.mountFind path
    let s := { s with mounts := ms }
    if opened < 0 then some (s, .error opened)
    else
      let (s, fd) := s.fdCreate mount.id
      match stat with
      | none => some (s, .ok fd)
      | some mode =>
        guard (!sIslnk mode)
        if (sIsblk mode || sIschr mode) && dev < 0 then
          let s ← s.fdClose fd
          some (s, .error dev)
        else some (s, .ok fd)

/-- The calls of the path operations, of the mounts, and of the open files. -/
inductive Event
  | openat (path : Resolved) (opened : ℤ) (stat : Option ℕ) (dev : ℤ)
  | retain (fd : ℕ)
  | close (fd : ℕ)
  | access (path : Resolved) (fs : Mount → Str → ℤ)
  | stat (path : Resolved) (fs : Mount → Str → ℤ)
  | link (src dst : Resolved) (fs : Mount → Str → Str → ℤ)
  | unlink (path : Resolved) (fs : Mount → Str → ℤ)
  | rename (src dst : Resolved) (fs : Mount → Str → Str → ℤ)
  | symlink (path : Resolved) (fs : Mount → Str → ℤ)
  | mknod (path : Resolved) (mode : ℕ) (superuser : Bool) (fs : Mount → Option (Str → ℤ))
  | setattr (path : Resolved) (fs : Mount → Str → ℤ)
  | utime (path : Resolved) (fs : Mount → Str → ℤ)
  | readlink (path : Resolved) (fs : Mount → Str → ℤ)
  | mkdir (path : Resolved) (fs : Mount → Str → ℤ)
  | rmdir (path : Resolved) (fs : Mount → Str → ℤ)
  | statfs (path : Resolved) (fs : Mount → Str → ℤ)
  | mount (point : Str) (err : ℤ)
  | umount (point : Str)

def withMounts (s : State) (r : Option (Mounts × ℤ)) : Option State :=
  r.map fun r ↦ { s with mounts := r.1 }

def step (s : State) : Event → Option State
  | .openat path opened stat dev => (s.genericOpenat path opened stat dev).map Prod.fst
  | .retain fd => s.fdRetain fd
  | .close fd => s.fdClose fd
  | .access path fs => s.withMounts (genericAccessat s.mounts path fs)
  | .stat path fs => s.withMounts (genericStatat s.mounts path fs)
  | .link src dst fs => s.withMounts (genericLinkat s.mounts src dst fs)
  | .unlink path fs => s.withMounts (genericUnlinkat s.mounts path fs)
  | .rename src dst fs => s.withMounts (genericRenameat s.mounts src dst fs)
  | .symlink path fs => s.withMounts (genericSymlinkat s.mounts path fs)
  | .mknod path mode superuser fs => s.withMounts (genericMknod s.mounts path mode superuser fs)
  | .setattr path fs => s.withMounts (genericSetattrat s.mounts path fs)
  | .utime path fs => s.withMounts (genericUtime s.mounts path fs)
  | .readlink path fs => s.withMounts (genericReadlinkat s.mounts path fs)
  | .mkdir path fs => s.withMounts (genericMkdirat s.mounts path fs)
  | .rmdir path fs => s.withMounts (genericRmdirat s.mounts path fs)
  | .statfs path fs => s.withMounts (sysStatfs s.mounts path fs)
  | .mount point err => some { s with mounts := (s.mounts.doMount point err).1 }
  | .umount point => some { s with mounts := (s.mounts.doUmount point).1 }

def empty : State := ⟨.empty, [], 0⟩

/-- The number of open files on a mount. -/
def openOn (s : State) (mount : ℕ) : ℕ := s.files.countP (·.mount = mount)

/-- The references to a mount are its open files, and it is busy while it has some. -/
def Exact (s : State) : Prop :=
  ∀ m ∈ s.mounts.list, m.refcount = s.openOn m.id ∧
    ((s.mounts.mountRemove m).2 = eBusy ↔ ∃ f ∈ s.files, f.mount = m.id)

/-- An open of a path that resolves returns a file, and no close is that of a
file's last reference. -/
def Keeps (s : State) : Event → Prop
  | .openat path opened stat dev => ∀ p, path.result = .ok p →
      0 ≤ opened ∧ ∀ mode, stat = some mode → (sIsblk mode || sIschr mode) → 0 ≤ dev
  | .close fd => ∀ f ∈ s.files, f.id = fd → 1 < f.refcount
  | _ => True

end State

/-! What is taken and given back by one call. -/

variable {ms ms' : Mounts} {m : Mount} {path path' : Str} {ret : ℤ}

theorem retain_mountRelease (ms : Mounts) (id : ℕ) : (ms.retain id).mountRelease id = ms := by
  have hlist : (ms.retain id).list.map
      (fun m ↦ if m.id = id then { m with refcount := m.refcount - 1 } else m) = ms.list := by
    rw [Mounts.retain, List.map_map]
    refine List.map_id'' (fun ⟨i, point, refcount⟩ ↦ ?_) _
    by_cases hi : i = id <;> simp [hi]
  rw [Mounts.mountRelease, hlist]
  rfl

theorem mountRelease_comm (ms : Mounts) (i j : ℕ) :
    (ms.mountRelease i).mountRelease j = (ms.mountRelease j).mountRelease i := by
  simp only [Mounts.mountRelease, List.map_map, Mounts.mk.injEq, and_true]
  refine List.map_congr_left fun ⟨id, point, refcount⟩ _ ↦ ?_
  by_cases hi : id = i
  · subst hi
    by_cases hj : id = j <;> simp [hj]
  · by_cases hj : id = j
    · subst hj
      simp [hi]
    · simp [hi, hj]

theorem mountFind_release (h : ms.mountFind path = some (ms', m)) : ms'.mountRelease m.id = ms := by
  obtain ⟨-, -, hms⟩ := Mounts.mountFind_eq_some.mp h
  dsimp only at hms
  rw [hms, retain_mountRelease]

theorem readLinks_eq {links : List Str} (h : readLinks ms links = some ms') : ms' = ms := by
  induction links with
  | nil =>
    cases h
    rfl
  | cons p links ih =>
    obtain ⟨⟨ms₁, m⟩, hfind, h⟩ := Option.bind_eq_some_iff.mp h
    dsimp only at h
    rw [mountFind_release hfind] at h
    exact ih h

variable {r r' : Resolved} {check : Mounts → Str → Option ℤ} {op : Mount → Str → ℤ}
  {op₂ : Mount → Str → Str → ℤ}

theorem onPath_eq (h : onPath ms r check op = some (ms', ret)) : ms' = ms := by
  obtain ⟨ms₁, hlinks, hr⟩ := Option.bind_eq_some_iff.mp h
  obtain rfl := readLinks_eq hlinks
  clear h hlinks
  split at hr
  · cases hr
    rfl
  · split at hr
    · cases hr
      rfl
    · obtain ⟨⟨ms₂, m⟩, hfind, hr⟩ := Option.bind_eq_some_iff.mp hr
      cases hr
      exact mountFind_release hfind

theorem onPaths_eq (h : onPaths ms r r' check op₂ = some (ms', ret)) : ms' = ms := by
  obtain ⟨ms₁, hlinks, hr⟩ := Option.bind_eq_some_iff.mp h
  obtain rfl := readLinks_eq hlinks
  clear h hlinks
  split at hr
  · cases hr
    rfl
  · obtain ⟨ms₂, hlinks', hd⟩ := Option.bind_eq_some_iff.mp hr
    obtain rfl := readLinks_eq hlinks'
    clear hr hlinks'
    split at hd
    · cases hd
      rfl
    · split at hd
      · cases hd
        rfl
      · obtain ⟨⟨ms₃, m⟩, hfind, hd⟩ := Option.bind_eq_some_iff.mp hd
        obtain ⟨⟨ms₄, m'⟩, hfind', hd⟩ := Option.bind_eq_some_iff.mp hd
        cases hd
        rw [mountRelease_comm, mountFind_release hfind', mountFind_release hfind]

/-! The account of the references. -/

theorem insertMount_perm (new : Mount) (ms : List Mount) : (insertMount new ms).Perm (new :: ms) := by
  induction ms with
  | nil => exact .refl _
  | cons m ms ih =>
    rw [insertMount]
    split
    · exact .refl _
    · exact (ih.cons m).trans (.swap _ _ _)

namespace State

/-- Each mount has the references of its open files and those that are lost. -/
structure Counted (s : State) (lost : ℕ → ℕ) : Prop where
  ids : (s.mounts.list.map Mount.id).Nodup
  fresh : ∀ m ∈ s.mounts.list, m.id < s.mounts.next
  count : ∀ m ∈ s.mounts.list, m.refcount = s.openOn m.id + lost m.id
  mounted : ∀ id, s.openOn id + lost id ≠ 0 → ∃ m ∈ s.mounts.list, m.id = id
  fileIds : (s.files.map OpenFile.id).Nodup
  fileFresh : ∀ f ∈ s.files, f.id < s.next
  fileLive : ∀ f ∈ s.files, 0 < f.refcount

/-- One more reference to a mount that is lost. -/
def lose (lost : ℕ → ℕ) (id : ℕ) : ℕ → ℕ := fun i ↦ lost i + if i = id then 1 else 0

variable {s s' t : State} {lost : ℕ → ℕ} {fd : ℕ} {f : OpenFile} {ev : Event}

theorem withMounts_eq {r : Option (Mounts × ℤ)} (h : s.withMounts r = some s')
    (hr : ∀ ms ret, r = some (ms, ret) → ms = s.mounts) : s' = s := by
  obtain ⟨⟨ms, ret⟩, hms, rfl⟩ := Option.map_eq_some_iff.mp h
  obtain rfl := hr ms ret hms
  rfl

theorem mem_retain {ms : Mounts} {m : Mount} {id : ℕ} : m ∈ (ms.retain id).list ↔
    ∃ m' ∈ ms.list, m.id = m'.id ∧ m.point = m'.point ∧
      m.refcount = m'.refcount + if m.id = id then 1 else 0 := by
  rw [Mounts.retain, List.mem_map]
  refine exists_congr fun m' ↦ and_congr_right fun _ ↦ ?_
  obtain ⟨i, point, n⟩ := m
  obtain ⟨i', point', n'⟩ := m'
  by_cases hi : i' = id
  · rw [if_pos hi]
    simp only [Mount.mk.injEq]
    constructor
    · intro h
      obtain ⟨rfl, rfl, rfl⟩ := h
      exact ⟨rfl, rfl, by rw [if_pos hi]⟩
    · intro h
      obtain ⟨rfl, rfl, h⟩ := h
      rw [if_pos hi] at h
      exact ⟨rfl, rfl, h.symm⟩
  · rw [if_neg hi]
    simp only [Mount.mk.injEq]
    constructor
    · intro h
      obtain ⟨rfl, rfl, rfl⟩ := h
      exact ⟨rfl, rfl, by rw [if_neg hi]; rfl⟩
    · intro h
      obtain ⟨rfl, rfl, h⟩ := h
      rw [if_neg hi] at h
      exact ⟨rfl, rfl, h.symm⟩

/-- A reference that is taken and has no file. -/
theorem Counted.retain (h : s.Counted lost) {m : Mount} (hm : m ∈ s.mounts.list) :
    { s with mounts := s.mounts.retain m.id }.Counted (lose lost m.id) where
  ids := by
    have hmap : (s.mounts.retain m.id).list.map Mount.id = s.mounts.list.map Mount.id := by
      rw [Mounts.retain, List.map_map]
      refine List.map_congr_left fun m' _ ↦ ?_
      rw [Function.comp_apply]
      split <;> rfl
    rw [hmap]
    exact h.ids
  fresh m' hm' := by
    obtain ⟨m₀, hm₀, hid, -, -⟩ := mem_retain.mp hm'
    rw [hid]
    exact h.fresh m₀ hm₀
  count m' hm' := by
    obtain ⟨m₀, hm₀, hid, -, hcount⟩ := mem_retain.mp hm'
    rw [hcount, h.count m₀ hm₀, ← hid]
    exact Nat.add_assoc _ _ _
  mounted id hid := by
    have hex : ∃ m₀ ∈ s.mounts.list, m₀.id = id := by
      by_cases hi : id = m.id
      · exact ⟨m, hm, hi.symm⟩
      · rw [lose, if_neg hi] at hid
        exact h.mounted id hid
    obtain ⟨m₀, hm₀, rfl⟩ := hex
    exact ⟨{ m₀ with refcount := m₀.refcount + if m₀.id = m.id then 1 else 0 },
      mem_retain.mpr ⟨m₀, hm₀, rfl, rfl, rfl⟩, rfl⟩
  fileIds := h.fileIds
  fileFresh := h.fileFresh
  fileLive := h.fileLive

/-- The reference is then that of the new file. -/
theorem Counted.fdCreate {id : ℕ} (h : s.Counted (lose lost id)) : (s.fdCreate id).1.Counted lost := by
  have hopen (i : ℕ) : (s.fdCreate id).1.openOn i + lost i = s.openOn i + lose lost id i := by
    simp only [openOn, State.fdCreate, List.countP_cons, lose, decide_eq_true_eq, @eq_comm _ id i]
    omega
  exact {
    ids := h.ids
    fresh := h.fresh
    count := fun m hm ↦ (h.count m hm).trans (hopen m.id).symm
    mounted := fun i hi ↦ h.mounted i (hopen i ▸ hi)
    fileIds := List.nodup_cons.mpr ⟨fun hmem ↦ by
      obtain ⟨f, hf, heq⟩ := List.mem_map.mp hmem
      exact absurd (h.fileFresh f hf) (heq ▸ Nat.lt_irrefl _), h.fileIds⟩
    fileFresh := fun f hf ↦ by
      obtain rfl | hf := List.mem_cons.mp hf
      · exact Nat.lt_succ_self _
      · exact Nat.lt_succ_of_lt (h.fileFresh f hf)
    fileLive := fun f hf ↦ by
      obtain rfl | hf := List.mem_cons.mp hf
      · exact Nat.one_pos
      · exact h.fileLive f hf }

theorem countP_remove {files : List OpenFile} {p : OpenFile → Bool}
    (hids : (files.map OpenFile.id).Nodup) (hf : f ∈ files) :
    files.countP p = (files.filter (·.id != f.id)).countP p + if p f then 1 else 0 := by
  induction files with
  | nil => cases hf
  | cons g files ih =>
    obtain ⟨hg, hids⟩ := List.nodup_cons.mp hids
    obtain rfl | hf := List.mem_cons.mp hf
    · have hrest : files.filter (·.id != f.id) = files :=
        List.filter_eq_self.mpr fun f' hf' ↦ bne_iff_ne.mpr fun heq ↦
          hg (heq ▸ List.mem_map_of_mem hf')
      rw [List.filter_cons_of_neg (by simp), hrest, List.countP_cons]
    · have hne : g.id ≠ f.id := fun heq ↦ hg (heq ▸ List.mem_map_of_mem hf)
      have hkeep : (g.id != f.id) = true := bne_iff_ne.mpr hne
      rw [List.filter_cons_of_pos (p := fun g : OpenFile ↦ g.id != f.id) hkeep, List.countP_cons,
        List.countP_cons, ih hids hf]
      omega

/-- The last close of a file keeps its mount's reference. -/
theorem Counted.removeFile (h : s.Counted lost) (hf : f ∈ s.files) :
    { s with files := s.files.filter (·.id != f.id) }.Counted (lose lost f.mount) := by
  have hopen (i : ℕ) : s.openOn i + lost i =
      { s with files := s.files.filter (·.id != f.id) }.openOn i + lose lost f.mount i := by
    simp only [openOn, lose, countP_remove h.fileIds hf, decide_eq_true_eq, @eq_comm _ i]
    omega
  exact {
    ids := h.ids
    fresh := h.fresh
    count := fun m hm ↦ (h.count m hm).trans (hopen m.id)
    mounted := fun i hi ↦ h.mounted i (hopen i ▸ hi)
    fileIds := h.fileIds.sublist (List.filter_sublist.map _)
    fileFresh := fun f hf ↦ h.fileFresh f (List.mem_of_mem_filter hf)
    fileLive := fun f hf ↦ h.fileLive f (List.mem_of_mem_filter hf) }

theorem Counted.mapFiles (h : s.Counted lost) (g : OpenFile → OpenFile)
    (hid : ∀ f, (g f).id = f.id) (hmount : ∀ f, (g f).mount = f.mount)
    (hlive : ∀ f ∈ s.files, 0 < (g f).refcount) :
    { s with files := s.files.map g }.Counted lost := by
  have hopen (i : ℕ) : { s with files := s.files.map g }.openOn i = s.openOn i := by
    simp only [openOn, List.countP_map, Function.comp_def, hmount]
  exact {
    ids := h.ids
    fresh := h.fresh
    count := fun m hm ↦ by
      rw [hopen]
      exact h.count m hm
    mounted := fun i hi ↦ h.mounted i (hopen i ▸ hi)
    fileIds := by
      rw [List.map_map, Function.comp_def]
      simpa only [hid] using h.fileIds
    fileFresh := fun f hf ↦ by
      obtain ⟨f₀, hf₀, rfl⟩ := List.mem_map.mp hf
      rw [hid]
      exact h.fileFresh f₀ hf₀
    fileLive := fun f hf ↦ by
      obtain ⟨f₀, hf₀, rfl⟩ := List.mem_map.mp hf
      exact hlive f₀ hf₀ }

theorem Counted.doMount (h : s.Counted lost) (point : Str) (err : ℤ) :
    { s with mounts := (s.mounts.doMount point err).1 }.Counted lost := by
  rw [Mounts.doMount]
  split
  · exact h
  · have hfree : s.openOn s.mounts.next + lost s.mounts.next = 0 := by
      by_contra hne
      obtain ⟨m, hm, hid⟩ := h.mounted _ hne
      exact absurd (h.fresh m hm) (hid ▸ Nat.lt_irrefl _)
    have hperm := insertMount_perm (⟨s.mounts.next, point, 0⟩ : Mount) s.mounts.list
    exact {
      ids := (hperm.map Mount.id).nodup_iff.mpr <| List.nodup_cons.mpr ⟨fun hmem ↦ by
        obtain ⟨m, hm, hid⟩ := List.mem_map.mp hmem
        exact absurd (h.fresh m hm) (hid ▸ Nat.lt_irrefl _), h.ids⟩
      fresh := fun m hm ↦ by
        obtain rfl | hm := mem_insertMount.mp hm
        · exact Nat.lt_succ_self _
        · exact Nat.lt_succ_of_lt (h.fresh m hm)
      count := fun m hm ↦ by
        obtain rfl | hm := mem_insertMount.mp hm
        · exact hfree.symm
        · exact h.count m hm
      mounted := fun i hi ↦ by
        obtain ⟨m, hm, hid⟩ := h.mounted i hi
        exact ⟨m, mem_insertMount.mpr (.inr hm), hid⟩
      fileIds := h.fileIds
      fileFresh := h.fileFresh
      fileLive := h.fileLive }

theorem Counted.doUmount (h : s.Counted lost) (point : Str) :
    { s with mounts := (s.mounts.doUmount point).1 }.Counted lost := by
  rw [Mounts.doUmount]
  split
  · exact h
  · rename_i m hfind
    rw [Mounts.mountRemove]
    split
    · exact h
    · rename_i hzero
      have hm := List.mem_of_find?_eq_some hfind
      have hfree : s.openOn m.id + lost m.id = 0 := by
        rw [← h.count m hm]
        exact not_not.mp hzero
      exact {
        ids := h.ids.sublist (List.filter_sublist.map _)
        fresh := fun m hm ↦ h.fresh m (List.mem_of_mem_filter hm)
        count := fun m hm ↦ h.count m (List.mem_of_mem_filter hm)
        mounted := fun i hi ↦ by
          obtain ⟨m', hm', rfl⟩ := h.mounted i hi
          refine ⟨m', List.mem_filter.mpr ⟨hm', bne_iff_ne.mpr fun heq ↦ hi ?_⟩, rfl⟩
          rw [heq]
          exact hfree
        fileIds := h.fileIds
        fileFresh := h.fileFresh
        fileLive := h.fileLive }

theorem Counted.fdRetain (h : s.Counted lost) (hs : s.fdRetain fd = some s') : s'.Counted lost := by
  obtain ⟨_, -, hs⟩ := Option.bind_eq_some_iff.mp hs
  cases hs
  apply h.mapFiles
  · intro f
    split <;> rfl
  · intro f
    split <;> rfl
  · intro f hf
    have hlive := h.fileLive f hf
    split
    · exact Nat.succ_pos _
    · exact hlive

/-- A file that is closed stays open, or takes its mount's reference with it. -/
theorem Counted.fdClose (h : s.Counted lost) (hs : s.fdClose fd = some s') :
    ∃ f ∈ s.files, f.id = fd ∧ (1 < f.refcount ∧ s'.Counted lost ∨
      f.refcount = 1 ∧ s'.Counted (lose lost f.mount)) := by
  obtain ⟨f, hfind, hs⟩ := Option.bind_eq_some_iff.mp hs
  have hf := List.mem_of_find?_eq_some hfind
  obtain rfl : f.id = fd := by simpa using List.find?_some hfind
  have hlive := h.fileLive f hf
  refine ⟨f, hf, rfl, ?_⟩
  split at hs
  · cases hs
    exact .inr ⟨by omega, h.removeFile hf⟩
  · cases hs
    refine .inl ⟨by omega, h.mapFiles _ (fun g ↦ by split <;> rfl) (fun g ↦ by split <;> rfl) ?_⟩
    intro g hg
    by_cases hid : g.id = f.id
    · obtain rfl : g = f := List.inj_on_of_nodup_map h.fileIds hg hf hid
      rw [if_pos rfl]
      dsimp only
      omega
    · rw [if_neg hid]
      exact h.fileLive g hg

/-- What becomes of the account in one step. -/
def Accounted (s s' : State) (lost : ℕ → ℕ) (ev : Event) : Prop :=
  s.Keeps ev ∧ s'.Counted lost ∨ ¬s.Keeps ev ∧ ∃ id, s'.Counted (lose lost id)

theorem Counted.genericOpenat {r : Resolved} {opened dev : ℤ} {stat : Option ℕ}
    {ret : Except ℤ ℕ} (h : s.Counted lost)
    (hs : s.genericOpenat r opened stat dev = some (s', ret)) :
    Accounted s s' lost (.openat r opened stat dev) := by
  obtain ⟨ms, hlinks, hr⟩ := Option.bind_eq_some_iff.mp hs
  obtain rfl := readLinks_eq hlinks
  clear hs hlinks
  split at hr
  · rename_i err herr
    cases hr
    refine .inl ⟨fun p hp ↦ ?_, h⟩
    cases herr.symm.trans hp
  · rename_i path hpath
    obtain ⟨⟨ms, m⟩, hfind, hr⟩ := Option.bind_eq_some_iff.mp hr
    obtain ⟨-, hm, hms⟩ := Mounts.mountFind_eq_some.mp hfind
    dsimp only at hm hms
    subst hms
    have hret := h.retain (List.mem_of_find?_eq_some hm)
    dsimp only at hr
    split at hr
    · rename_i hneg
      cases hr
      exact .inr ⟨fun hk ↦ Int.not_le.mpr hneg (hk path hpath).1, _, hret⟩
    · rename_i hpos
      have hcreate := hret.fdCreate
      cases stat with
      | none =>
        cases hr
        exact .inl ⟨fun p _ ↦ ⟨Int.not_lt.mp hpos, nofun⟩, hcreate⟩
      | some mode =>
        obtain ⟨_, -, hr⟩ := Option.bind_eq_some_iff.mp hr
        split at hr
        · rename_i hdev
          obtain ⟨hdev, hneg⟩ := Bool.and_eq_true_iff.mp hdev
          obtain ⟨s₁, hclose, hr⟩ := Option.bind_eq_some_iff.mp hr
          cases hr
          refine .inr ⟨fun hk ↦ Int.not_le.mpr (of_decide_eq_true hneg)
            ((hk path hpath).2 mode rfl hdev), ?_⟩
          -- the file was created with one reference
          obtain ⟨f, hf, hid, ⟨hlt, -⟩ | ⟨-, hlost⟩⟩ := hcreate.fdClose hclose
          · have hnew : f = { id := s.next, refcount := 1, mount := m.id } :=
              List.inj_on_of_nodup_map hcreate.fileIds hf List.mem_cons_self hid
            rw [hnew] at hlt
            exact absurd hlt (Nat.lt_irrefl 1)
          · exact ⟨_, hlost⟩
        · rename_i hdev
          cases hr
          refine .inl ⟨fun p _ ↦ ⟨Int.not_lt.mp hpos, fun mode' hmode hd ↦ ?_⟩, hcreate⟩
          cases hmode
          exact Int.not_lt.mp fun hneg ↦ hdev (Bool.and_eq_true_iff.mpr ⟨hd, decide_eq_true hneg⟩)

theorem Counted.step (h : s.Counted lost) (hs : s.step ev = some s') : Accounted s s' lost ev := by
  have hsame (r : Option (Mounts × ℤ)) (hr : s.withMounts r = some s')
      (heq : ∀ ms ret, r = some (ms, ret) → ms = s.mounts) : s'.Counted lost :=
    withMounts_eq hr heq ▸ h
  cases ev with
  | openat r opened stat dev =>
    obtain ⟨⟨s₁, ret⟩, hopen, rfl⟩ := Option.map_eq_some_iff.mp hs
    exact h.genericOpenat hopen
  | retain fd => exact .inl ⟨trivial, h.fdRetain hs⟩
  | close fd =>
    obtain ⟨f, hf, rfl, ⟨hlt, hs'⟩ | ⟨hone, hs'⟩⟩ := h.fdClose hs
    · refine .inl ⟨fun g hg hid ↦ ?_, hs'⟩
      obtain rfl : g = f := List.inj_on_of_nodup_map h.fileIds hg hf hid
      exact hlt
    · exact .inr ⟨fun hk ↦ Nat.ne_of_gt (hk f hf rfl) hone, _, hs'⟩
  | mount point err =>
    cases hs
    exact .inl ⟨trivial, h.doMount point err⟩
  | umount point =>
    cases hs
    exact .inl ⟨trivial, h.doUmount point⟩
  | mknod path mode superuser fs =>
    refine .inl ⟨trivial, hsame _ hs fun ms ret hms ↦ ?_⟩
    rw [genericMknod] at hms
    split at hms
    · cases hms
      rfl
    · split at hms
      · cases hms
        rfl
      · exact onPath_eq hms
  | link src dst fs => exact .inl ⟨trivial, hsame _ hs fun _ _ hr ↦ onPaths_eq hr⟩
  | rename src dst fs => exact .inl ⟨trivial, hsame _ hs fun _ _ hr ↦ onPaths_eq hr⟩
  | access path fs | stat path fs | unlink path fs | symlink path fs | setattr path fs
  | utime path fs | readlink path fs | mkdir path fs | rmdir path fs | statfs path fs =>
    exact .inl ⟨trivial, hsame _ hs fun _ _ hr ↦ onPath_eq hr⟩

theorem empty_counted : empty.Counted fun _ ↦ 0 where
  ids := .nil
  fresh := nofun
  count := nofun
  mounted _ h := absurd rfl h
  fileIds := .nil
  fileFresh := nofun
  fileLive := nofun

theorem openOn_ne_zero {id : ℕ} : s.openOn id ≠ 0 ↔ ∃ f ∈ s.files, f.mount = id := by
  rw [openOn, ← Nat.pos_iff_ne_zero, List.countP_pos_iff]
  simp only [decide_eq_true_eq]

theorem mountRemove_eq_busy {ms : Mounts} {m : Mount} :
    (ms.mountRemove m).2 = eBusy ↔ m.refcount ≠ 0 := by
  rw [Mounts.mountRemove]
  split
  · exact iff_of_true rfl ‹_›
  · exact iff_of_false (fun heq : (0 : ℤ) = eBusy ↦ absurd heq (by decide)) ‹_›

theorem Counted.exact_iff (h : s.Counted lost) : s.Exact ↔ ∀ id, lost id = 0 := by
  constructor
  · intro hex id
    by_contra hne
    obtain ⟨m, hm, rfl⟩ := h.mounted id (by omega)
    have hcount := h.count m hm
    rw [(hex m hm).1] at hcount
    omega
  · intro hzero m hm
    have hcount : m.refcount = s.openOn m.id := by
      rw [h.count m hm, hzero]
      rfl
    exact ⟨hcount, by rw [mountRemove_eq_busy, hcount, openOn_ne_zero]⟩

/-- After a run the references are exactly those of the open files if and only
if no open of the run failed and no file was closed for good. -/
theorem exact_iff_guarded {evs : List Event} (h : exec step empty evs = some t) :
    t.Exact ↔ Guarded step Keeps empty evs := by
  -- references that are lost are never found again
  have hstep (s : State) (ev : Event) (t : State) (hs : ∃ lost, s.Counted lost) (_ : True)
      (ht : step s ev = some t) :
      (∃ lost, t.Counted lost) ∧ (t.Exact ↔ s.Exact ∧ s.Keeps ev) := by
    obtain ⟨lost, hs⟩ := hs
    obtain ⟨hk, hcount⟩ | ⟨hk, id, hcount⟩ := hs.step ht
    · exact ⟨⟨lost, hcount⟩, by rw [hcount.exact_iff, hs.exact_iff, and_iff_left hk]⟩
    · refine ⟨⟨_, hcount⟩, iff_of_false (fun hex ↦ ?_) fun hex ↦ hk hex.2⟩
      have hid := hcount.exact_iff.mp hex id
      rw [lose, if_pos rfl] at hid
      cases hid
  obtain ⟨-, hiff⟩ := exec_iff_guarded hstep ⟨_, empty_counted⟩ (fun _ _ ↦ trivial) h
  exact hiff.trans (and_iff_right (empty_counted.exact_iff.mpr fun _ ↦ rfl))

theorem exact_opened : Exact ⟨⟨[⟨0, [], 1⟩], 1⟩, [⟨0, 1, 0⟩], 1⟩ := by
  have hrun : exec step empty [.mount [] 0, .openat ⟨["/a".toList], .ok "/a/b".toList⟩ 0 none 0,
      .retain 0, .close 0, .mkdir ⟨[], .ok "/c".toList⟩ fun _ _ ↦ 0] =
      some ⟨⟨[⟨0, [], 1⟩], 1⟩, [⟨0, 1, 0⟩], 1⟩ := rfl
  rw [exact_iff_guarded hrun]
  refine ⟨trivial, fun s hs ↦ ?_⟩
  cases hs
  refine ⟨fun _ _ ↦ ⟨Int.le_refl 0, nofun⟩, fun s hs ↦ ?_⟩
  cases hs
  refine ⟨trivial, fun s hs ↦ ?_⟩
  cases hs
  refine ⟨fun f hf _ ↦ ?_, fun s hs ↦ ?_⟩
  · obtain rfl : f = ⟨0, 2, 0⟩ := List.mem_singleton.mp hf
    exact Nat.one_lt_two
  · cases hs
    exact ⟨trivial, fun _ _ ↦ trivial⟩

/-- A mount stays busy after its only file is closed. -/
theorem not_exact_closed : ¬∀ evs t, exec step empty evs = some t → t.Exact := by
  intro h
  have hclosed := h [.mount [] 0, .openat ⟨[], .ok "/a".toList⟩ 0 none 0, .close 0]
    ⟨⟨[⟨0, [], 1⟩], 1⟩, [], 1⟩ rfl
  have hcount := (hclosed ⟨0, [], 1⟩ List.mem_cons_self).1
  cases hcount

end State

end Isl.Fs.MountRefs
