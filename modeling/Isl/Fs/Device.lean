import Isl.Fs.MountRefs
import Isl.Fs.TtyRefs
import Mathlib.Algebra.BigOperators.Group.List.Lemmas
import Mathlib.Data.Multiset.AddSub
import Mathlib.Tactic.Abel
import Mathlib.Tactic.IntervalCases

/-!
The device files of `fs/dev.c`, `fs/mem.c` and `fs/tty.c`, and the descriptors of the host below
the open files. `dev_open` puts the operations of the device in place of those of the file system.
-/

namespace Isl.Fs.Device

open Isl.Lib Isl.Lib.Run
open Isl.Fs.MountRefs (sIslnk sIsblk sIschr)
open Isl.Fs.TtyRefs (enxio)

def devMake (major minor : BitVec 32) : BitVec 32 :=
  ((minor &&& 0xfff00) <<< 12) ||| (major <<< 8) ||| (minor &&& 0xff)

def devMajor (dev : BitVec 32) : BitVec 32 := (dev &&& 0xfff00) >>> 8

def devMinor (dev : BitVec 32) : BitVec 32 := ((dev &&& 0xfff00000) >>> 12) ||| (dev &&& 0xff)

inductive DevType
  | block
  | char
deriving DecidableEq

inductive MemDev
  | null
  | zero
  | full
  | random
deriving DecidableEq

inductive DevOps
  | mem
  | memDev (dev : MemDev)
  | tty
deriving DecidableEq

inductive FdOps
  | realfs
  | dev (dev : DevOps)
deriving DecidableEq

/-- A `struct fd`, with the descriptors of the host in `real_fd` and `dir`. -/
structure File where
  id : ℕ
  refcount : ℕ
  ops : FdOps
  realFd : ℕ
  dir : Option ℕ
deriving DecidableEq

/-- What a call does that does not return: it reads behind a table, or fails an assertion. -/
inductive Fault
  | outOfBounds
  | assertion
deriving DecidableEq

def blockDevs : List (Option DevOps) := List.replicate 256 none

def charDevs : List (Option DevOps) :=
  (((List.replicate 256 none).set 1 (some .mem)).set 4 (some .tty)).set 5 (some .tty)

def memDevs : List (Option MemDev) :=
  (((((List.replicate 256 none).set 3 (some .null)).set 5 (some .zero)).set 7 (some .full)).set 8
    (some .random)).set 9 (some .random)

def DevType.devs : DevType → List (Option DevOps)
  | .block => blockDevs
  | .char => charDevs

/-- What `tty_open` finds: whether the group has a terminal, and the result of `tty_get`. -/
structure Terminals where
  controlling : Bool
  ttyGet : ℤ

abbrev Opened := Except Fault (File × ℤ)

section

variable (t : Terminals) (major minor : ℕ) (type : DevType) (fd : File)

def memOpen : Opened :=
  match memDevs[minor]? with
  | none => .error .outOfBounds
  | some none => .ok (fd, enxio)
  | some (some dev) => .ok ({ fd with ops := .dev (.memDev dev) }, 0)

def ttyOpen : Opened :=
  if type ≠ .char then .error .assertion
  else if major = 5 ∧ minor = 0 then .ok (fd, if t.controlling then 0 else enxio)
  else
    match TtyRefs.State.ttyType major minor with
    | none => .error .assertion
    | some _ => .ok (fd, if t.ttyGet < 0 then t.ttyGet else 0)

def DevOps.open : DevOps → Opened
  | .mem => memOpen minor fd
  | .memDev _ => .ok (fd, 0)
  | .tty => ttyOpen t major minor type fd

def devOpen : Opened :=
  match type.devs[major]? with
  | none => .error .outOfBounds
  | some none => .ok (fd, enxio)
  | some (some dev) => dev.open t major minor type { fd with ops := .dev dev }

end

/-- The answer of `fstat`, as far as `generic_openat` looks at it. -/
structure Stat where
  mode : ℕ
  rdev : BitVec 32

def Stat.devType (stat : Stat) : Option DevType :=
  if sIsblk stat.mode then some .block else if sIschr stat.mode then some .char else none

/-- `host` has the descriptors of the emulator itself. -/
structure State where
  files : List File
  host : Multiset ℕ
  next : ℕ
deriving DecidableEq

namespace State

def init : State := ⟨[], 0, 0⟩

end State

/-- The descriptors that `close` of a file system gives back to the host. -/
def File.closed (fd : File) : Multiset ℕ :=
  match fd.ops with
  | .realfs => fd.realFd ::ₘ fd.dir.toList
  | .dev _ => 0

namespace State

def fdClose (s : State) (fd : File) : State :=
  if fd.refcount - 1 = 0 then
    { s with files := s.files.erase fd, host := s.host - fd.closed }
  else { s with files := { fd with refcount := fd.refcount - 1 } :: s.files.erase fd }

/-- `opened` is the result of `openat` of the host, and `stat` is there if `fstat` works. -/
def genericOpenat (s : State) (opened : Except ℤ ℕ) (stat : Option Stat) (t : Terminals) :
    Except Fault (State × Except ℤ ℕ) :=
  match opened with
  | .error err => .ok (s, .error err)
  | .ok realFd =>
    let fd : File := ⟨s.next, 1, .realfs, realFd, none⟩
    let s := { s with host := realFd ::ₘ s.host, next := s.next + 1 }
    match stat with
    | none => .ok ({ s with files := fd :: s.files }, .ok fd.id)
    | some stat =>
      if sIslnk stat.mode then .error .assertion
      else
        match stat.devType with
        | none => .ok ({ s with files := fd :: s.files }, .ok fd.id)
        | some type =>
          match devOpen t (devMajor stat.rdev).toNat (devMinor stat.rdev).toNat type fd with
          | .error fault => .error fault
          | .ok (fd, err) =>
            let s := { s with files := fd :: s.files }
            if err < 0 then .ok (s.fdClose fd, .error err) else .ok (s, .ok fd.id)

/-- `realfs_opendir`, with the descriptor of the stream unless it fails. -/
def realfsOpendir (s : State) (fd : File) (dirfd : Option ℕ) : State :=
  if fd.dir.isSome then s
  else
    match dirfd with
    | none => s
    | some n =>
      { s with files := { fd with dir := some n } :: s.files.erase fd, host := n ::ₘ s.host }

end State

inductive Action
  | openat (opened : Except ℤ ℕ) (stat : Option Stat) (t : Terminals)
  | opendir (id : ℕ) (dirfd : Option ℕ)
  | retain (id : ℕ)
  | close (id : ℕ)

namespace State

variable (limit : ℕ) (s : State)

def fresh (n : ℕ) : Bool := n ∉ s.host ∧ Multiset.card s.host < limit

def find (id : ℕ) : Option File := s.files.find? fun fd ↦ fd.id = id

/-- A step, with `limit` descriptors for the emulator. Only what is realfs reads directories. -/
def step : Action → Option State
  | .openat opened stat t =>
    if opened.toOption.all (s.fresh limit) then
      (s.genericOpenat opened stat t).toOption.map Prod.fst
    else none
  | .opendir id dirfd => do
    let fd ← s.find id
    if fd.ops = .realfs ∧ dirfd.all (s.fresh limit) then
      some (s.realfsOpendir fd dirfd)
    else none
  | .retain id => do
    let fd ← s.find id
    some { s with files := { fd with refcount := fd.refcount + 1 } :: s.files.erase fd }
  | .close id => (s.find id).map s.fdClose

end State

/-- The numbers that `dev_open` has no tables for. -/
def Uncovered (type : DevType) (major minor : ℕ) : Prop :=
  256 ≤ major ∨ type = .char ∧ major = 1 ∧ 256 ≤ minor

/-- The numbers of no terminal, with the major number of one. -/
def NoTerminal (type : DevType) (major minor : ℕ) : Prop :=
  type = .char ∧ (major = 4 ∧ 64 ≤ minor ∨ major = 5 ∧ minor ≠ 0)

def Driven (type : DevType) (major : ℕ) : Prop :=
  type = .char ∧ (major = 1 ∨ major = 4 ∨ major = 5)

instance (type : DevType) (major : ℕ) : Decidable (Driven type major) :=
  inferInstanceAs (Decidable (_ ∧ _))

def Action.lost : Action → Multiset ℕ
  | .openat (.ok n) (some stat) _ =>
    match stat.devType with
    | some type => if Driven type (devMajor stat.rdev).toNat then {n} else 0
    | none => 0
  | _ => 0

section

variable {t : Terminals} {major minor : ℕ} {type : DevType} {fd fd' : File} {err : ℤ}

theorem devs_getElem (type : DevType) (major : ℕ) : type.devs[major]? =
    if 256 ≤ major then none
    else if Driven type major then some (some (if major = 1 then .mem else .tty)) else some none := by
  have hempty : (List.replicate 256 (none : Option DevOps))[major]? =
      if major < 256 then some none else none := List.getElem?_replicate
  by_cases hlarge : 256 ≤ major
  · rw [if_pos hlarge, List.getElem?_eq_none]
    cases type with
    | block => rwa [DevType.devs, blockDevs, List.length_replicate]
    | char =>
      rwa [DevType.devs, charDevs, List.length_set, List.length_set, List.length_set,
        List.length_replicate]
  rw [if_neg hlarge]
  rw [if_pos (Nat.lt_of_not_le hlarge)] at hempty
  cases type with
  | block =>
    have hnot : ¬Driven .block major := fun h ↦ by cases h.1
    rwa [if_neg hnot]
  | char =>
    simp only [DevType.devs, charDevs, List.getElem?_set, hempty, List.length_set,
      List.length_replicate, Driven, true_and]
    by_cases h5 : 5 = major
    · simp [← h5]
    by_cases h4 : 4 = major
    · simp [← h4]
    by_cases h1 : 1 = major
    · simp [← h1]
    have hnot : ¬(major = 1 ∨ major = 4 ∨ major = 5) := by omega
    rw [if_neg h5, if_neg h4, if_neg h1, if_neg hnot]

theorem memDevs_getElem (minor : ℕ) : memDevs[minor]? = none ↔ 256 ≤ minor := by
  rw [List.getElem?_eq_none_iff, memDevs, List.length_set, List.length_set, List.length_set,
    List.length_set, List.length_set, List.length_replicate]

theorem memOpen_faults_iff : (∃ fault, memOpen minor fd = .error fault) ↔ 256 ≤ minor := by
  rw [← memDevs_getElem, memOpen]
  cases memDevs[minor]? with
  | none => exact iff_of_true ⟨_, rfl⟩ rfl
  | some entry =>
    refine iff_of_false ?_ (Option.some_ne_none entry)
    rintro ⟨fault, h⟩
    cases entry <;> cases h

theorem ttyOpen_faults_iff (hmajor : major = 4 ∨ major = 5) :
    (∃ fault, ttyOpen t major minor .char fd = .error fault) ↔ NoTerminal .char major minor := by
  rw [ttyOpen, if_neg (not_not_intro rfl), TtyRefs.State.ttyType, NoTerminal]
  by_cases h5 : major = 5 ∧ minor = 0
  · rw [if_pos h5]
    exact iff_of_false (fun ⟨fault, h⟩ ↦ by cases h) (by omega)
  rw [if_neg h5]
  by_cases h4 : major = 4 ∧ minor < 64
  · rw [if_pos h4]
    exact iff_of_false (fun ⟨fault, h⟩ ↦ by cases h) (by omega)
  · rw [if_neg h4, if_neg (by omega)]
    exact iff_of_true ⟨_, rfl⟩ ⟨rfl, by omega⟩

variable (t major minor type fd) in
theorem devOpen_faults_iff : (∃ fault, devOpen t major minor type fd = .error fault) ↔
    Uncovered type major minor ∨ NoTerminal type major minor := by
  rw [devOpen, devs_getElem]
  by_cases hlarge : 256 ≤ major
  · rw [if_pos hlarge]
    exact iff_of_true ⟨_, rfl⟩ (.inl (.inl hlarge))
  rw [if_neg hlarge]
  by_cases hdriven : Driven type major
  · rw [if_pos hdriven]
    obtain ⟨rfl, hmajor⟩ := hdriven
    by_cases h1 : major = 1
    · rw [if_pos h1]
      refine memOpen_faults_iff.trans ?_
      simp only [Uncovered, NoTerminal, true_and]
      omega
    · rw [if_neg h1]
      refine (ttyOpen_faults_iff (by omega)).trans (or_iff_right ?_).symm
      simp only [Uncovered, true_and]
      omega
  · rw [if_neg hdriven]
    have hno : ¬(Uncovered type major minor ∨ NoTerminal type major minor) := by
      unfold Uncovered NoTerminal
      unfold Driven at hdriven
      tauto
    exact iff_of_false (fun ⟨fault, h⟩ ↦ by cases h) hno

theorem memOpen_ok (h : memOpen minor fd = .ok (fd', err)) (hclosed : fd.closed = 0) :
    fd'.refcount = fd.refcount ∧ fd'.closed = 0 := by
  rw [memOpen] at h
  cases hentry : memDevs[minor]? with
  | none =>
    rw [hentry] at h
    cases h
  | some entry =>
    rw [hentry] at h
    cases entry with
    | none =>
      cases h
      exact ⟨rfl, hclosed⟩
    | some dev =>
      cases h
      exact ⟨rfl, rfl⟩

theorem ttyOpen_ok (h : ttyOpen t major minor type fd = .ok (fd', err)) : fd' = fd := by
  rw [ttyOpen] at h
  by_cases htype : type ≠ .char
  · rw [if_pos htype] at h
    cases h
  rw [if_neg htype] at h
  by_cases h5 : major = 5 ∧ minor = 0
  · rw [if_pos h5] at h
    cases h
    rfl
  rw [if_neg h5] at h
  cases hterminal : TtyRefs.State.ttyType major minor with
  | none =>
    rw [hterminal] at h
    cases h
  | some terminal =>
    rw [hterminal] at h
    cases h
    rfl

/-- A driver takes over the file. Where there is none, the file stays as it is. -/
theorem devOpen_ok (h : devOpen t major minor type fd = .ok (fd', err)) :
    fd'.refcount = fd.refcount ∧
      if Driven type major then fd'.closed = 0 else fd' = fd ∧ err < 0 := by
  rw [devOpen, devs_getElem] at h
  by_cases hlarge : 256 ≤ major
  · rw [if_pos hlarge] at h
    cases h
  rw [if_neg hlarge] at h
  by_cases hdriven : Driven type major
  · rw [if_pos hdriven] at h
    rw [if_pos hdriven]
    by_cases h1 : major = 1
    · rw [if_pos h1] at h
      have hmem : memOpen minor { fd with ops := .dev .mem } = .ok (fd', err) := h
      obtain ⟨hcount, hclosed⟩ := memOpen_ok hmem rfl
      exact ⟨hcount, hclosed⟩
    · rw [if_neg h1] at h
      rw [ttyOpen_ok h]
      exact ⟨rfl, rfl⟩
  · rw [if_neg hdriven] at h
    rw [if_neg hdriven]
    cases h
    exact ⟨rfl, rfl, by decide⟩

end

/-! The numbers. -/

/-- Every number of a device is made of its major and its minor number. -/
theorem devMake_devMajor_devMinor (dev : BitVec 32) :
    devMake (devMajor dev) (devMinor dev) = dev := by
  apply BitVec.eq_of_getLsbD_eq
  intro i hi
  simp only [devMake, devMajor, devMinor, BitVec.getLsbD_or, BitVec.getLsbD_and,
    BitVec.getLsbD_shiftLeft, BitVec.getLsbD_ushiftRight]
  interval_cases i <;> simp

theorem and_mask_of_lt {x : BitVec 32} {k : ℕ} (hk : k ≤ 32) (hx : x.toNat < 2 ^ k) :
    x &&& BitVec.ofNat 32 (2 ^ k - 1) = x := by
  apply BitVec.eq_of_toNat_eq
  have hpow : 2 ^ k ≤ 2 ^ 32 := Nat.pow_le_pow_right two_pos hk
  have hmask : 2 ^ k - 1 < 2 ^ 32 := by omega
  rw [BitVec.toNat_and, BitVec.toNat_ofNat, Nat.mod_eq_of_lt hmask, Nat.and_two_pow_sub_one_eq_mod,
    Nat.mod_eq_of_lt hx]

theorem devMajor_devMake (major minor : BitVec 32) (hmajor : major.toNat < 2 ^ 12) :
    devMajor (devMake major minor) = major := by
  have hmask : major &&& 0xfff = major := and_mask_of_lt (by decide) hmajor
  rw [← hmask]
  apply BitVec.eq_of_getLsbD_eq
  intro i hi
  simp only [devMake, devMajor, BitVec.getLsbD_or, BitVec.getLsbD_and, BitVec.getLsbD_shiftLeft,
    BitVec.getLsbD_ushiftRight]
  interval_cases i <;> simp

theorem devMinor_devMake (major minor : BitVec 32) (hmajor : major.toNat < 2 ^ 12)
    (hminor : minor.toNat < 2 ^ 20) : devMinor (devMake major minor) = minor := by
  have hmask : major &&& 0xfff = major := and_mask_of_lt (by decide) hmajor
  have hmask' : minor &&& 0xfffff = minor := and_mask_of_lt (by decide) hminor
  rw [← hmask, ← hmask']
  apply BitVec.eq_of_getLsbD_eq
  intro i hi
  simp only [devMake, devMinor, BitVec.getLsbD_or, BitVec.getLsbD_and, BitVec.getLsbD_shiftLeft,
    BitVec.getLsbD_ushiftRight]
  interval_cases i <;> simp

def ownedBy (files : List File) : Multiset ℕ := (files.map File.closed).sum

section

variable {s s' : State} {fd fd' : File} {files : List File} {lost lost' : Multiset ℕ} {limit id n : ℕ}
  {err : ℤ} {opened : Except ℤ ℕ} {stat : Option Stat} {t : Terminals} {r : Except ℤ ℕ}

/-- Each open descriptor of the host belongs to one open file, or is lost. -/
def Balanced (s : State) (lost : Multiset ℕ) : Prop := s.host = ownedBy s.files + lost

theorem ownedBy_cons (fd : File) (files : List File) :
    ownedBy (fd :: files) = fd.closed + ownedBy files := by
  rw [ownedBy, List.map_cons, List.sum_cons]
  rfl

theorem ownedBy_erase (hfd : fd ∈ files) :
    ownedBy files = fd.closed + ownedBy (files.erase fd) :=
  (List.sum_map_erase File.closed hfd).symm

theorem Balanced.fdClose (h : Balanced s lost) (hfd : fd ∈ s.files) : Balanced (s.fdClose fd) lost := by
  rw [Balanced, ownedBy_erase hfd] at h
  rw [State.fdClose]
  split
  · rw [Balanced]
    dsimp only
    rw [h, add_assoc, add_tsub_cancel_left]
  · rw [Balanced]
    dsimp only
    rw [ownedBy_cons]
    exact h

theorem Balanced.retain (h : Balanced s lost) (hfd : fd ∈ s.files) :
    Balanced { s with files := { fd with refcount := fd.refcount + 1 } :: s.files.erase fd } lost := by
  rw [Balanced, ownedBy_erase hfd] at h
  rw [Balanced]
  dsimp only
  rw [ownedBy_cons]
  exact h

theorem Balanced.realfsOpendir (h : Balanced s lost) (hfd : fd ∈ s.files) (hops : fd.ops = .realfs)
    (dirfd : Option ℕ) : Balanced (s.realfsOpendir fd dirfd) lost := by
  unfold State.realfsOpendir
  by_cases hdir : fd.dir.isSome
  · rwa [if_pos hdir]
  rw [if_neg hdir]
  cases dirfd with
  | none => exact h
  | some n =>
    have hclosed : fd.closed = {fd.realFd} := by
      rw [File.closed, hops, Option.not_isSome_iff_eq_none.mp hdir]
      rfl
    rw [Balanced, ownedBy_erase hfd, hclosed] at h
    rw [Balanced]
    dsimp only
    have hopen : ({ fd with dir := some n } : File).closed = {fd.realFd} + {n} := by
      rw [File.closed, hops]
      rfl
    rw [ownedBy_cons, hopen, h, ← Multiset.singleton_add]
    abel

/-- The file is new, and what it owns is all that the host gave for it but what is lost. -/
theorem Balanced.cons (h : Balanced s lost) (hn : {n} = fd.closed + lost') (next : ℕ) :
    Balanced ⟨fd :: s.files, n ::ₘ s.host, next⟩ (lost + lost') := by
  rw [Balanced] at h ⊢
  dsimp only
  rw [ownedBy_cons, ← Multiset.singleton_add, hn, h]
  abel

theorem Balanced.genericOpenat (h : Balanced s lost)
    (hs : s.genericOpenat opened stat t = .ok (s', r)) :
    Balanced s' (lost + (Action.openat opened stat t).lost) := by
  unfold State.genericOpenat at hs
  cases opened with
  | error err =>
    cases hs
    simpa [Action.lost] using h
  | ok n =>
    cases stat with
    | none =>
      cases hs
      exact h.cons rfl _
    | some stat =>
      dsimp only at hs
      by_cases hlink : sIslnk stat.mode
      · rw [if_pos hlink] at hs
        cases hs
      rw [if_neg hlink] at hs
      cases htype : stat.devType with
      | none =>
        rw [htype] at hs
        cases hs
        refine h.cons ?_ _
        rw [Action.lost, htype]
        rfl
      | some type =>
        rw [htype] at hs
        dsimp only at hs
        cases hdev : devOpen t (devMajor stat.rdev).toNat (devMinor stat.rdev).toNat type
          ⟨s.next, 1, .realfs, n, none⟩ with
        | error fault =>
          rw [hdev] at hs
          cases hs
        | ok res =>
          obtain ⟨fd, err⟩ := res
          obtain ⟨-, hclosed⟩ := devOpen_ok hdev
          rw [hdev] at hs
          dsimp only at hs
          have hopen : Balanced ⟨fd :: s.files, n ::ₘ s.host, s.next + 1⟩
              (lost + (Action.openat (.ok n) (some stat) t).lost) := by
            refine h.cons ?_ _
            simp only [Action.lost, htype]
            by_cases hdriven : Driven type (devMajor stat.rdev).toNat
            · rw [if_pos hdriven] at hclosed ⊢
              rw [hclosed, zero_add]
            · rw [if_neg hdriven] at hclosed ⊢
              rw [hclosed.1]
              rfl
          by_cases herr : err < 0
          · rw [if_pos herr] at hs
            cases hs
            exact hopen.fdClose List.mem_cons_self
          · rw [if_neg herr] at hs
            cases hs
            exact hopen

theorem fdClose_host_le (s : State) (fd : File) : (s.fdClose fd).host ≤ s.host := by
  rw [State.fdClose]
  split
  · exact Multiset.sub_le_self _ _
  · exact le_refl s.host

theorem genericOpenat_host_le (hs : s.genericOpenat opened stat t = .ok (s', r)) :
    s'.host ≤ s.host ∨ ∃ n, opened = .ok n ∧ s'.host ≤ n ::ₘ s.host := by
  unfold State.genericOpenat at hs
  cases opened with
  | error err =>
    cases hs
    exact .inl (le_refl s.host)
  | ok n =>
    refine .inr ⟨n, rfl, ?_⟩
    dsimp only at hs
    split at hs
    · cases hs
      exact le_refl _
    · split at hs
      · cases hs
      · split at hs
        · cases hs
          exact le_refl _
        · split at hs
          · cases hs
          · split at hs
            · cases hs
              exact fdClose_host_le _ _
            · cases hs
              exact le_refl _

theorem Balanced.step {a : Action} (h : Balanced s lost) (hs : s.step limit a = some s') :
    Balanced s' (lost + a.lost) := by
  cases a with
  | openat opened stat t =>
    obtain ⟨-, hs⟩ := Option.ite_none_right_eq_some.mp hs
    cases hopen : s.genericOpenat opened stat t with
    | error fault =>
      rw [hopen] at hs
      cases hs
    | ok res =>
      rw [hopen] at hs
      cases hs
      exact h.genericOpenat hopen
  | opendir id dirfd =>
    obtain ⟨fd, hfd, hs⟩ := Option.bind_eq_some_iff.mp hs
    obtain ⟨⟨hops, -⟩, hs⟩ := Option.ite_none_right_eq_some.mp hs
    cases hs
    exact (add_zero lost).symm ▸ h.realfsOpendir (List.mem_of_find?_eq_some hfd) hops dirfd
  | retain id =>
    obtain ⟨fd, hfd, hs⟩ := Option.bind_eq_some_iff.mp hs
    cases hs
    exact (add_zero lost).symm ▸ h.retain (List.mem_of_find?_eq_some hfd)
  | close id =>
    obtain ⟨fd, hfd, rfl⟩ := Option.map_eq_some_iff.mp hs
    exact (add_zero lost).symm ▸ h.fdClose (List.mem_of_find?_eq_some hfd)

theorem Balanced.run {actions : List Action} (h : Balanced s lost)
    (hs : exec (State.step limit) s actions = some s') :
    Balanced s' (lost + (actions.map Action.lost).sum) := by
  induction actions generalizing s lost with
  | nil =>
    cases hs
    simpa using h
  | cons a actions ih =>
    obtain ⟨u, hu, hs⟩ := Option.bind_eq_some_iff.mp hs
    rw [List.map_cons, List.sum_cons, ← add_assoc]
    exact ih (h.step hu) hs

/-- The host gave no more descriptors than it has, each of them once. -/
structure Within (limit : ℕ) (s : State) : Prop where
  nodup : s.host.Nodup
  card : Multiset.card s.host ≤ limit

theorem Within.mono (h : Within limit s) (hle : s'.host ≤ s.host) : Within limit s' :=
  ⟨Multiset.nodup_of_le hle h.nodup, (Multiset.card_le_card hle).trans h.card⟩

theorem Within.cons (h : Within limit s) (hn : s.fresh limit n) (hle : s'.host ≤ n ::ₘ s.host) :
    Within limit s' := by
  obtain ⟨hnew, hcard⟩ := of_decide_eq_true hn
  refine ⟨Multiset.nodup_of_le hle (Multiset.nodup_cons.mpr ⟨hnew, h.nodup⟩), ?_⟩
  refine (Multiset.card_le_card hle).trans ?_
  rwa [Multiset.card_cons]

theorem Within.step {a : Action} (h : Within limit s) (hs : s.step limit a = some s') :
    Within limit s' := by
  cases a with
  | openat opened stat t =>
    obtain ⟨hfresh, hs⟩ := Option.ite_none_right_eq_some.mp hs
    cases hopen : s.genericOpenat opened stat t with
    | error fault =>
      rw [hopen] at hs
      cases hs
    | ok res =>
      rw [hopen] at hs
      cases hs
      obtain hle | ⟨n, rfl, hle⟩ := genericOpenat_host_le hopen
      · exact h.mono hle
      · exact h.cons hfresh hle
  | opendir id dirfd =>
    obtain ⟨fd, -, hs⟩ := Option.bind_eq_some_iff.mp hs
    obtain ⟨⟨-, hfresh⟩, hs⟩ := Option.ite_none_right_eq_some.mp hs
    cases hs
    unfold State.realfsOpendir
    by_cases hdir : fd.dir.isSome
    · rwa [if_pos hdir]
    rw [if_neg hdir]
    cases dirfd with
    | none => exact h
    | some n => exact h.cons hfresh (le_refl _)
  | retain id =>
    obtain ⟨fd, -, hs⟩ := Option.bind_eq_some_iff.mp hs
    cases hs
    exact h.mono (le_refl s.host)
  | close id =>
    obtain ⟨fd, -, rfl⟩ := Option.map_eq_some_iff.mp hs
    exact h.mono (fdClose_host_le s fd)

theorem Within.run {actions : List Action} (h : Within limit s)
    (hs : exec (State.step limit) s actions = some s') : Within limit s' := by
  induction actions generalizing s with
  | nil =>
    cases hs
    exact h
  | cons a actions ih =>
    obtain ⟨u, hu, hs⟩ := Option.bind_eq_some_iff.mp hs
    exact ih (h.step hu) hs

end

/-- Every open of a device, also one that fails, costs the emulator a descriptor of the host for
good: the open ones are those of the open files and one for each such call. -/
theorem device_opens_lose (limit : ℕ) (actions : List Action) {s : State}
    (hs : exec (State.step limit) State.init actions = some s) :
    s.host.Nodup ∧ s.host = ownedBy s.files + (actions.map Action.lost).sum ∧
      Multiset.card (ownedBy s.files) + Multiset.card (actions.map Action.lost).sum ≤ limit := by
  have hinit : Balanced State.init 0 := rfl
  have hwithin : Within limit State.init := ⟨Multiset.nodup_zero, Nat.zero_le limit⟩
  have hbalanced := hinit.run hs
  rw [zero_add] at hbalanced
  have hafter := hwithin.run hs
  refine ⟨hafter.nodup, hbalanced, ?_⟩
  rw [← Multiset.card_add, ← hbalanced]
  exact hafter.card

/-- `/dev/null` is opened and closed, then a directory is opened. -/
def nullThenDirectory : List Action :=
  [.openat (.ok 3) (some ⟨0o020666, devMake 1 3⟩) ⟨false, 0⟩, .close 0,
    .openat (.ok 4) (some ⟨0o040755, 0⟩) ⟨false, 0⟩]

theorem device_opens_lose_null :
    ∃ s, exec (State.step 2) State.init nullThenDirectory = some s ∧
      s.host = {4} + {3} := by
  have hrun : exec (State.step 2) State.init nullThenDirectory =
      some ⟨[⟨1, 1, .realfs, 4, none⟩], {4, 3}, 2⟩ := by
    decide +kernel
  have hlost : (nullThenDirectory.map Action.lost).sum = {3} := by
    decide +kernel
  obtain ⟨-, hhost, -⟩ := device_opens_lose 2 _ hrun
  rw [hlost] at hhost
  exact ⟨_, hrun, hhost⟩

end Isl.Fs.Device
