import Isl.Fs.Dents
import Isl.Kernel.Process
import Mathlib.Data.Nat.Digits.Lemmas

/-!
Directories of `proc`: `proc_root_readdir` of `fs/proc/root.c`, `proc_dir_read` of
`fs/proc/entry.c`, and the operations of `fs/proc.c` on an index.
-/

namespace Isl.Fs.ProcDir

open Isl.Emu.Memory Dents
open Isl.Emu (GuestMem)
open Isl.Kernel.Process (maxPid)

/-- The `struct proc_dir_entry` of the two directories and of the files in them. -/
inductive Meta
  | root
  | version
  | pid
  | stat

structure ProcEntry where
  entryMeta : Meta
  pid : BitVec 32

def procRootEntries : List Meta := [.version]

def procPidEntries : List Meta := [.stat]

/-- `task` says which numbers `pid_get_task` finds. -/
def procRootReaddir (task : ℕ → Bool) (index : ℕ) : Option (ProcEntry × ℕ) :=
  match procRootEntries[index]? with
  | some entryMeta => some (⟨entryMeta, 0⟩, index + 1)
  | none =>
    let pid := index - procRootEntries.length
    if pid ≤ maxPid then
      match (List.range' (pid + 1) (maxPid - pid)).find? task with
      | none => none
      | some pid => some (⟨.pid, BitVec.ofNat 32 pid⟩, pid + procRootEntries.length)
    else none

/-- Only directories are read. -/
def procDirRead (task : ℕ → Bool) (entry : ProcEntry) (index : ℕ) : Option (ProcEntry × ℕ) :=
  match entry.entryMeta with
  | .root => procRootReaddir task index
  | .pid => procPidEntries[index]?.map fun child ↦ (⟨child, entry.pid⟩, index + 1)
  | .version | .stat => none

/-- What `"%d"` makes of a number. -/
def decimal (pid : BitVec 32) : List Byte :=
  (Nat.digits 10 pid.toNat).reverse.map fun d ↦ BitVec.ofNat 8 (48 + d)

def version : List Byte := [118, 101, 114, 115, 105, 111, 110]

def stat : List Byte := [115, 116, 97, 116]

theorem noNull_decimal (pid : BitVec 32) : 0 ∉ decimal pid := by
  intro h
  obtain ⟨d, hd, hzero⟩ := List.mem_map.mp h
  have hlt : d < 10 := Nat.digits_lt_base (by decide) (List.mem_reverse.mp hd)
  have hnat := congrArg BitVec.toNat hzero
  rw [BitVec.toNat_ofNat, Nat.mod_eq_of_lt (by omega)] at hnat
  exact absurd hnat (by simp)

theorem length_decimal_le (pid : BitVec 32) : (decimal pid).length ≤ nameMax := by
  have hlen : (Nat.digits 10 pid.toNat).length ≤ 10 := by
    rw [Nat.digits_length_le_iff (by decide)]
    exact pid.isLt.trans (by decide)
  rw [decimal, List.length_map, List.length_reverse]
  exact hlen.trans (by decide)

theorem noNull_version : 0 ∉ version := by decide
theorem length_version_le : version.length ≤ nameMax := by decide
theorem noNull_stat : 0 ∉ stat := by decide
theorem length_stat_le : stat.length ≤ nameMax := by decide
theorem noNull_none : 0 ∉ ([] : List Byte) := List.not_mem_nil
theorem length_none_le : ([] : List Byte).length ≤ nameMax := Nat.zero_le _

/-- `proc_entry_getname`, into an entry with the inode `0`. The root has no name. -/
def dirEntry : ProcEntry → DirEntry
  | ⟨.root, _⟩ => ⟨0, [], noNull_none, length_none_le⟩
  | ⟨.version, _⟩ => ⟨0, version, noNull_version, length_version_le⟩
  | ⟨.pid, pid⟩ => ⟨0, decimal pid, noNull_decimal pid, length_decimal_le pid⟩
  | ⟨.stat, _⟩ => ⟨0, stat, noNull_stat, length_stat_le⟩

/-- The index is an `int` that no operation makes negative. -/
def procDirOps (task : ℕ → Bool) (entry : ProcEntry) : DirOps (BitVec 32) where
  telldir index := index.signExtend 64
  readdir index :=
    match procDirRead task entry index.toNat with
    | none => (index, .ok none)
    | some (next, index) => (BitVec.ofNat 32 index, .ok (some (dirEntry next)))
  seekdir _ ptr := ptr.setWidth 32

theorem setWidth_signExtend (index : BitVec 32) : (index.signExtend 64).setWidth 32 = index := by
  ext i hi
  rw [BitVec.getElem_setWidth, BitVec.getLsbD_signExtend, if_pos hi, BitVec.getLsbD_eq_getElem hi]
  simp
  omega

section

variable {task : ℕ → Bool} {entry : ProcEntry} {index : BitVec 32} {i n : ℕ}

/-- A directory read by index: what is at an index, and the next one. -/
structure Indexed (task : ℕ → Bool) (entry : ProcEntry) where
  entries : List DirEntry
  pos : ℕ → ℕ
  pos_zero : pos 0 = 0
  next : ∀ i < 2 ^ 32, match procDirRead task entry i with
    | none => entries.length ≤ pos i
    | some (e, j) => entries[pos i]? = some (dirEntry e) ∧ pos j = pos i + 1 ∧ j < 2 ^ 32

namespace Indexed

variable (d : Indexed task entry)

theorem readdir_entry (index : BitVec 32) :
    ((procDirOps task entry).readdir index).2 = .ok d.entries[d.pos index.toNat]? := by
  have hnext := d.next index.toNat index.isLt
  rw [procDirOps]
  dsimp only
  cases hread : procDirRead task entry index.toNat with
  | none =>
    rw [hread] at hnext
    rw [List.getElem?_eq_none hnext]
  | some r =>
    rw [hread] at hnext
    rw [hnext.1]

theorem readdir_pos (index : BitVec 32) : d.pos ((procDirOps task entry).readdir index).1.toNat =
    if d.pos index.toNat < d.entries.length then d.pos index.toNat + 1 else d.pos index.toNat := by
  have hnext := d.next index.toNat index.isLt
  rw [procDirOps]
  dsimp only
  cases hread : procDirRead task entry index.toNat with
  | none =>
    rw [hread] at hnext
    exact (if_neg (Nat.not_lt.mpr hnext)).symm
  | some r =>
    rw [hread] at hnext
    obtain ⟨hentry, hpos, hlt⟩ := hnext
    rw [if_pos (List.getElem?_eq_some_iff.mp hentry).1, ← hpos]
    exact congrArg d.pos ((BitVec.toNat_ofNat _ _).trans (Nat.mod_eq_of_lt hlt))

theorem seekdir_pos (s index : BitVec 32) :
    d.pos ((procDirOps task entry).seekdir s ((procDirOps task entry).telldir index)).toNat =
      d.pos index.toNat :=
  congrArg (fun i : BitVec 32 ↦ d.pos i.toNat) (setWidth_signExtend index)

/-- `proc_readdir`, `proc_telldir` and `proc_seekdir` are a stable cursor. -/
def directory : Directory (BitVec 32) where
  ops := procDirOps task entry
  entries := d.entries
  pos index := d.pos index.toNat
  opened := 0
  pos_opened := d.pos_zero
  readdir_entry := d.readdir_entry
  readdir_pos := d.readdir_pos
  seekdir_pos := d.seekdir_pos

end Indexed

/-- The tasks with numbers up to `n`. -/
def tasks (task : ℕ → Bool) (n : ℕ) : List ℕ := (List.range' 1 n).filter task

theorem tasks_split (hn : n ≤ maxPid) : tasks task maxPid =
    tasks task n ++ (List.range' (n + 1) (maxPid - n)).filter task := by
  rw [tasks, tasks, ← List.filter_append, Nat.add_comm n 1, List.range'_append_1,
    Nat.add_sub_cancel' hn]

/-- The next task behind a number is the only one up to its own. -/
theorem tasks_next {p : ℕ} (h : (List.range' (n + 1) (maxPid - n)).find? task = some p) :
    p ≤ maxPid ∧ tasks task p = tasks task n ++ [p] := by
  obtain ⟨htask, before, rest, hrange, hbefore⟩ := List.find?_eq_some_iff_append.mp h
  obtain ⟨k, hk, rfl, hrest⟩ := List.range'_eq_append_iff.mp hrange
  obtain ⟨hp, hpos, -⟩ := List.range'_eq_cons_iff.mp hrest.symm
  have hnone : (List.range' (n + 1) k).filter task = [] := by
    rw [List.filter_eq_nil_iff]
    intro a ha
    simpa using hbefore a ha
  have hsplit : List.range' 1 p = List.range' 1 n ++ (List.range' (n + 1) k ++ [p]) := by
    have hconcat : List.range' (n + 1) k ++ [n + 1 + k] = List.range' (n + 1) (k + 1) :=
      List.range'_1_concat.symm
    rw [← hp, Nat.mul_one, hconcat, Nat.add_comm n 1, List.range'_append_1]
    congr 1
    omega
  refine ⟨by omega, ?_⟩
  rw [tasks, hsplit, List.filter_append, List.filter_append, hnone, List.nil_append,
    List.filter_singleton, htask]
  rfl

def pidEntry (pid : ℕ) : DirEntry := dirEntry ⟨.pid, BitVec.ofNat 32 pid⟩

def rootPos (task : ℕ → Bool) (i : ℕ) : ℕ := min i 1 + (tasks task (min (i - 1) maxPid)).length

theorem rootPos_next (i : ℕ) (_ : i < 2 ^ 32) : match procDirRead task ⟨.root, 0⟩ i with
    | none => (dirEntry ⟨.version, 0⟩ :: (tasks task maxPid).map pidEntry).length ≤ rootPos task i
    | some (e, j) => (dirEntry ⟨.version, 0⟩ :: (tasks task maxPid).map pidEntry)[rootPos task i]? =
        some (dirEntry e) ∧ rootPos task j = rootPos task i + 1 ∧ j < 2 ^ 32 := by
  have hmax : maxPid = 1024 := rfl
  cases i with
  | zero => exact ⟨rfl, rfl, by decide⟩
  | succ n =>
    have hread : procDirRead task ⟨.root, 0⟩ (n + 1) = if n ≤ maxPid then
        match (List.range' (n + 1) (maxPid - n)).find? task with
        | none => none
        | some pid => some (⟨.pid, BitVec.ofNat 32 pid⟩, pid + 1)
      else none := rfl
    have hpos : rootPos task (n + 1) = (tasks task (min n maxPid)).length + 1 := by
      rw [rootPos, Nat.add_sub_cancel, Nat.min_eq_right (Nat.succ_pos n), Nat.add_comm]
    rw [hread, hpos]
    by_cases hn : n ≤ maxPid
    · rw [if_pos hn]
      have hsplit : tasks task maxPid =
          tasks task n ++ (List.range' (n + 1) (maxPid - n)).filter task := tasks_split hn
      rw [Nat.min_eq_left hn]
      cases hfind : (List.range' (n + 1) (maxPid - n)).find? task with
      | none =>
        have hnone : (List.range' (n + 1) (maxPid - n)).filter task = [] := by
          rw [← List.head?_eq_none_iff, List.head?_filter, hfind]
        rw [hsplit, hnone, List.append_nil, List.length_cons, List.length_map]
      | some p =>
        obtain ⟨hp, hnext⟩ := tasks_next hfind
        have hentry : (tasks task maxPid)[(tasks task n).length]? = some p := by
          rw [hsplit, List.getElem?_append_right le_rfl, Nat.sub_self, ← List.head?_eq_getElem?,
            List.head?_filter, hfind]
        refine ⟨?_, ?_, ?_⟩
        · rw [List.getElem?_cons_succ, List.getElem?_map, hentry]
          rfl
        · rw [rootPos, Nat.add_sub_cancel, Nat.min_eq_left hp, hnext, List.length_append,
            Nat.min_eq_right (Nat.succ_pos p)]
          exact Nat.add_comm _ _
        · rw [hmax] at hp
          omega
    · rw [if_neg hn, Nat.min_eq_right (Nat.le_of_not_le hn), List.length_cons, List.length_map]

/-- The entries of the root while its tasks stay the same. -/
def indexedRoot (task : ℕ → Bool) : Indexed task ⟨.root, 0⟩ where
  entries := dirEntry ⟨.version, 0⟩ :: (tasks task maxPid).map pidEntry
  pos := rootPos task
  pos_zero := rfl
  next := rootPos_next

theorem pidPos_next (pid : BitVec 32) (i : ℕ) (_ : i < 2 ^ 32) : match procDirRead task ⟨.pid, pid⟩ i with
    | none => (procPidEntries.map fun child ↦ dirEntry ⟨child, pid⟩).length ≤ i
    | some (e, j) => (procPidEntries.map fun child ↦ dirEntry ⟨child, pid⟩)[i]? = some (dirEntry e) ∧
        j = i + 1 ∧ j < 2 ^ 32 := by
  cases i with
  | zero => exact ⟨rfl, rfl, by decide⟩
  | succ n => exact Nat.succ_le_succ (Nat.zero_le n)

/-- The directory of a task. -/
def indexedPid (task : ℕ → Bool) (pid : BitVec 32) : Indexed task ⟨.pid, pid⟩ where
  entries := procPidEntries.map fun child ↦ dirEntry ⟨child, pid⟩
  pos i := i
  pos_zero := rfl
  next := pidPos_next pid

end

/-- A buffer of eight bytes. -/
theorem writable_eight : GuestMem.writable ⟨fun _ ↦ .readWrite, fun _ ↦ 0⟩ 4096 (8 : Dword).toNat :=
  fun _ _ ↦ rfl

def eight : Buffer := ⟨⟨fun _ ↦ .readWrite, fun _ ↦ 0⟩, 4096, 8, writable_eight⟩

/-- A call with a buffer that is too small for the first record ends like one at the end. -/
theorem not_right_eight : ∃ t, Lib.Run.exec (step (indexedRoot fun _ ↦ true).directory fun _ _ ↦ 0)
      ⟨0, []⟩ [eight] = some t ∧ t.replies.map Reply.ret = [0] ∧
        ¬t.Right (indexedRoot fun _ ↦ true).directory := by
  refine ⟨_, rfl, rfl, fun h ↦ ?_⟩
  have hends := (h.2 _ List.mem_cons_self).ends rfl
  cases hends

end Isl.Fs.ProcDir
