import Isl.Fs.ProcDir
import Isl.Lib.Components
import Isl.Lib.Loop
import Mathlib.Data.List.Find

/-!
`proc_lookup` of `fs/proc.c`. The buffer for a component of the path is cleared only once, at
the start.
-/

namespace Isl.Fs.ProcPath

open Isl.Lib.Components Isl.Lib.Loop Isl.Emu.Memory ProcDir
open Isl.Kernel.Process (maxPid)

def maxName : ℕ := 256

def eNoent : ℤ := -2
def eNotdir : ℤ := -20
def eNametoolong : ℤ := -36

def slash : Byte := 47

def isDir (entry : ProcEntry) : Bool :=
  match entry.entryMeta with
  | .root | .pid => true
  | .version | .stat => false

/-- The end of `proc_lookup`: with an entry, with an error, or in its assertion. -/
inductive Found
  | ok (entry : ProcEntry)
  | err (e : ℤ)
  | died

/-- `index` is where the loop over a directory is, if it is in one. -/
structure Cursor where
  path : List Byte
  entry : ProcEntry
  component : List Byte
  index : Option ℕ

def step (task : ℕ → Bool) (s : Cursor) : Cursor ⊕ Found :=
  match s.index with
  | none =>
    match s.path with
    | [] => .inr (.ok s.entry)
    | c :: path =>
      if !isDir s.entry then .inr (.err eNotdir)
      else if c ≠ slash then .inr .died
      else
        let name := headComp slash path
        if maxName ≤ name.length then .inr (.err eNametoolong)
        else
          .inl ⟨path.drop name.length, s.entry, name ++ s.component.drop name.length, some 0⟩
  | some index =>
    match procDirRead task s.entry index with
    | none => .inr (.err eNoent)
    | some (next, index) =>
      -- `strcmp` reads the component up to its terminator
      if (dirEntry next).name = s.component.takeWhile (· ≠ 0) then
        .inl { s with entry := next, index := none }
      else .inl { s with index := some index }

def rootEntry : ProcEntry := ⟨.root, 0⟩

def ProcLookup (task : ℕ → Bool) (path : List Byte) (r : Found) : Prop :=
  Returns (step task) ⟨path, rootEntry, List.replicate maxName 0, none⟩ r

/-! What it is to find. -/

/-- What a directory lists. -/
def children (task : ℕ → Bool) (entry : ProcEntry) : List ProcEntry :=
  match entry.entryMeta with
  | .root => ⟨.version, 0⟩ :: (tasks task maxPid).map fun pid ↦ ⟨.pid, BitVec.ofNat 32 pid⟩
  | .pid => procPidEntries.map fun child ↦ ⟨child, entry.pid⟩
  | .version | .stat => []

theorem children_root (task : ℕ → Bool) :
    (children task rootEntry).map dirEntry = (indexedRoot task).entries := by
  refine congrArg (dirEntry ⟨.version, 0⟩ :: ·) ?_
  rw [List.map_map]
  rfl

theorem children_pid (task : ℕ → Bool) (pid : BitVec 32) :
    (children task ⟨.pid, pid⟩).map dirEntry = (indexedPid task pid).entries := rfl

/-- From one component to the next, each of them as it is in the path. -/
def walk (task : ℕ → Bool) : ProcEntry → List (List Byte) → Found
  | entry, [] => .ok entry
  | entry, name :: names =>
    if !isDir entry then .err eNotdir
    else if maxName ≤ name.length then .err eNametoolong
    else
      match (children task entry).find? fun child ↦ (dirEntry child).name = name with
      | none => .err eNoent
      | some child => walk task child names

section

variable {task : ℕ → Bool} {entry : ProcEntry} {path component name : List Byte} {r : Found}

theorem returns_name (hdir : isDir entry = true) (hname : slash ∉ name) (hrest : AtEnd slash path)
    (hlen : name.length < maxName) :
    Returns (step task) ⟨slash :: name ++ path, entry, component, none⟩ r ↔
      Returns (step task) ⟨path, entry, name ++ component.drop name.length, some 0⟩ r := by
  have hhead : headComp slash (name ++ path) = name := headComp_append hname hrest
  refine returns_inl ?_
  rw [step, List.cons_append]
  simp only [hdir, hhead, if_neg (Nat.not_le_of_lt hlen)]
  rw [List.drop_left]
  rfl

def tasksFrom (task : ℕ → Bool) (n : ℕ) : List ℕ :=
  (List.range' (n + 1) (maxPid - n)).filter task

theorem tasksFrom_of_find {n p : ℕ} (hn : n ≤ maxPid)
    (h : (List.range' (n + 1) (maxPid - n)).find? task = some p) :
    n < p ∧ p ≤ maxPid ∧ tasksFrom task n = p :: tasksFrom task p := by
  obtain ⟨hp, hnext⟩ := tasks_next h
  have hmem := List.mem_of_find?_eq_some h
  rw [List.mem_range'_1] at hmem
  refine ⟨by omega, hp, ?_⟩
  have hsplit : tasks task n ++ _ = tasks task p ++ _ := (tasks_split hn).symm.trans (tasks_split hp)
  rw [hnext, List.append_assoc] at hsplit
  exact List.append_cancel_left hsplit

def pidOf (pid : ℕ) : ProcEntry := ⟨.pid, BitVec.ofNat 32 pid⟩

theorem returns_tasks {n : ℕ} (hn : n ≤ maxPid) (hroot : entry.entryMeta = .root)
    (hname : component.takeWhile (· ≠ 0) = name) :
    Returns (step task) ⟨path, entry, component, some (n + 1)⟩ r ↔
      match ((tasksFrom task n).map pidOf).find? fun child ↦ (dirEntry child).name = name with
      | none => r = .err eNoent
      | some child => Returns (step task) ⟨path, child, component, none⟩ r := by
  induction hk : maxPid - n using Nat.strong_induction_on generalizing n with
  | _ k ih =>
    subst hk
    have hread : procDirRead task entry (n + 1) =
        match (List.range' (n + 1) (maxPid - n)).find? task with
        | none => none
        | some pid => some (pidOf pid, pid + 1) := by
      rw [procDirRead, hroot]
      exact if_pos hn
    cases hfind : (List.range' (n + 1) (maxPid - n)).find? task with
    | none =>
      have hnone : tasksFrom task n = [] := by
        rw [tasksFrom, ← List.head?_eq_none_iff, List.head?_filter, hfind]
      have hstep : step task ⟨path, entry, component, some (n + 1)⟩ = .inr (.err eNoent) := by
        simp only [step, hread, hfind]
      rw [hnone, returns_inr hstep]
      exact eq_comm
    | some p =>
      obtain ⟨hlt, hp, hlist⟩ := tasksFrom_of_find hn hfind
      rw [hlist, List.map_cons, List.find?_cons]
      by_cases heq : (dirEntry (pidOf p)).name = name
      · have hstep : step task ⟨path, entry, component, some (n + 1)⟩ =
            .inl ⟨path, pidOf p, component, none⟩ := by
          simp only [step, hread, hfind, hname, if_pos heq]
        rw [decide_eq_true heq]
        exact returns_inl hstep
      · have hstep : step task ⟨path, entry, component, some (n + 1)⟩ =
            .inl ⟨path, entry, component, some (p + 1)⟩ := by
          simp only [step, hread, hfind, hname, if_neg heq]
        rw [decide_eq_false heq]
        exact (returns_inl hstep).trans (ih (maxPid - p) (by omega) hp rfl)

/-- The loop over a directory ends at the first entry with the name. -/
theorem returns_search (hdir : isDir entry = true) (hname : component.takeWhile (· ≠ 0) = name) :
    Returns (step task) ⟨path, entry, component, some 0⟩ r ↔
      match (children task entry).find? fun child ↦ (dirEntry child).name = name with
      | none => r = .err eNoent
      | some child => Returns (step task) ⟨path, child, component, none⟩ r := by
  obtain ⟨entryMeta, pid⟩ := entry
  cases entryMeta with
  | root =>
    have hchildren : children task ⟨.root, pid⟩ = ⟨.version, 0⟩ :: (tasksFrom task 0).map pidOf := rfl
    have hread : procDirRead task ⟨.root, pid⟩ 0 = some (⟨.version, 0⟩, 0 + 1) := rfl
    rw [hchildren, List.find?_cons]
    by_cases heq : (dirEntry ⟨.version, 0⟩).name = name
    · have hstep : step task ⟨path, ⟨.root, pid⟩, component, some 0⟩ =
          .inl ⟨path, ⟨.version, 0⟩, component, none⟩ := by
        simp only [step, hread, hname, if_pos heq]
      rw [decide_eq_true heq]
      exact returns_inl hstep
    · have hstep : step task ⟨path, ⟨.root, pid⟩, component, some 0⟩ =
          .inl ⟨path, ⟨.root, pid⟩, component, some (0 + 1)⟩ := by
        simp only [step, hread, hname, if_neg heq]
      rw [decide_eq_false heq]
      exact (returns_inl hstep).trans (returns_tasks (Nat.zero_le _) rfl hname)
  | pid =>
    have hread : procDirRead task ⟨.pid, pid⟩ 0 = some (⟨.stat, pid⟩, 1) := rfl
    have hend : procDirRead task ⟨.pid, pid⟩ 1 = none := rfl
    have hchildren : children task ⟨.pid, pid⟩ = [⟨.stat, pid⟩] := rfl
    rw [hchildren, List.find?_cons]
    by_cases heq : (dirEntry ⟨.stat, pid⟩).name = name
    · have hstep : step task ⟨path, ⟨.pid, pid⟩, component, some 0⟩ =
          .inl ⟨path, ⟨.stat, pid⟩, component, none⟩ := by
        simp only [step, hread, hname, if_pos heq]
      rw [decide_eq_true heq]
      exact returns_inl hstep
    · have hstep : step task ⟨path, ⟨.pid, pid⟩, component, some 0⟩ =
          .inl ⟨path, ⟨.pid, pid⟩, component, some 1⟩ := by
        simp only [step, hread, hname, if_neg heq]
      have hlast : step task ⟨path, ⟨.pid, pid⟩, component, some 1⟩ = .inr (.err eNoent) := by
        simp only [step, hend]
      rw [decide_eq_false heq, returns_inl hstep, returns_inr hlast]
      exact eq_comm
  | version => cases hdir
  | stat => cases hdir

/-- What the buffer may hold when a component is copied to its start. -/
structure Stale (entry : ProcEntry) (component : List Byte) : Prop where
  root : entry.entryMeta = .root → ∃ k, component = List.replicate k 0
  pid : entry.entryMeta = .pid → ∃ p ≤ maxPid, ∃ k,
    component = decimal (BitVec.ofNat 32 p) ++ List.replicate k 0

theorem takeWhile_terminated (h : 0 ∉ name) (k : ℕ) :
    (name ++ List.replicate k 0).takeWhile (· ≠ 0) = name := by
  have hall : ∀ b ∈ name, decide (b ≠ 0) = true := by
    intro b hb
    refine decide_eq_true fun hzero ↦ h ?_
    rwa [← hzero]
  rw [List.takeWhile_append_of_pos hall]
  cases k with
  | zero => exact List.append_nil name
  | succ k =>
    rw [List.replicate_succ, List.takeWhile_cons_of_neg (by simp), List.append_nil]

theorem digit_of_mem {p : BitVec 32} {b : Byte} (h : b ∈ decimal p) : b.toNat < 58 := by
  obtain ⟨d, hd, rfl⟩ := List.mem_map.mp h
  have hlt : d < 10 := Nat.digits_lt_base (by decide) (List.mem_reverse.mp hd)
  rw [BitVec.toNat_ofNat, Nat.mod_eq_of_lt (by omega)]
  omega

theorem length_decimal_pid {p : ℕ} (hp : p ≤ maxPid) :
    (decimal (BitVec.ofNat 32 p)).length ≤ stat.length := by
  have hmax : maxPid = 1024 := rfl
  rw [hmax] at hp
  have hlen : (Nat.digits 10 (BitVec.ofNat 32 p).toNat).length ≤ 4 := by
    rw [Nat.digits_length_le_iff (by decide), BitVec.toNat_ofNat]
    omega
  rw [decimal, List.length_map, List.length_reverse]
  exact hlen

/-- A component that is written over a longer one is followed by its digits, and so is no name
of a file. -/
theorem name_eq_iff (hstale : Stale entry component) (hname : 0 ∉ name) {child : ProcEntry}
    (hchild : child ∈ children task entry) :
    (dirEntry child).name = (name ++ component.drop name.length).takeWhile (· ≠ 0) ↔
      (dirEntry child).name = name := by
  obtain ⟨entryMeta, pid⟩ := entry
  cases entryMeta with
  | root =>
    obtain ⟨k, rfl⟩ := hstale.root rfl
    rw [List.drop_replicate, takeWhile_terminated hname]
  | pid =>
    obtain ⟨p, hp, k, rfl⟩ := hstale.pid rfl
    rw [List.mem_singleton.mp hchild]
    have hstat : (dirEntry ⟨.stat, pid⟩).name = stat := rfl
    have hnull : 0 ∉ name ++ (decimal (BitVec.ofNat 32 p)).drop name.length := by
      rw [List.mem_append, not_or]
      exact ⟨hname, fun h ↦ noNull_decimal _ (List.mem_of_mem_drop h)⟩
    rw [List.drop_append, ← List.append_assoc, List.drop_replicate, takeWhile_terminated hnull, hstat]
    by_cases hlong : (decimal (BitVec.ofNat 32 p)).length ≤ name.length
    · rw [List.drop_eq_nil_of_le hlong, List.append_nil]
    · refine iff_of_false (fun heq ↦ ?_) fun heq ↦ hlong (heq ▸ length_decimal_pid hp)
      have hne : (decimal (BitVec.ofNat 32 p)).drop name.length ≠ [] := by
        rw [Ne, List.drop_eq_nil_iff]
        exact hlong
      obtain ⟨b, hb⟩ := List.exists_mem_of_ne_nil _ hne
      have hletter : ∀ b ∈ stat, 97 ≤ b.toNat := by decide
      have hdigit := digit_of_mem (List.mem_of_mem_drop hb)
      have hge := hletter b (heq ▸ List.mem_append_right name hb)
      omega
  | version => cases hchild
  | stat => cases hchild

theorem Stale.next (hstale : Stale entry component) {child : ProcEntry}
    (hchild : child ∈ children task entry) :
    Stale child ((dirEntry child).name ++ component.drop (dirEntry child).name.length) := by
  obtain ⟨entryMeta, pid⟩ := entry
  cases entryMeta with
  | root =>
    obtain ⟨k, rfl⟩ := hstale.root rfl
    rcases List.mem_cons.mp hchild with rfl | hchild
    · exact ⟨fun h ↦ Meta.noConfusion h, fun h ↦ Meta.noConfusion h⟩
    · obtain ⟨p, hp, rfl⟩ := List.mem_map.mp hchild
      refine ⟨fun h ↦ Meta.noConfusion h, fun _ ↦
        ⟨p, ?_, k - (decimal (BitVec.ofNat 32 p)).length, ?_⟩⟩
      rotate_left
      · rw [List.drop_replicate]
        rfl
      · have hrange := List.mem_range'_1.mp (List.mem_of_mem_filter hp)
        exact Nat.lt_one_add_iff.mp hrange.2
  | pid =>
    rw [List.mem_singleton.mp hchild]
    exact ⟨fun h ↦ Meta.noConfusion h, fun h ↦ Meta.noConfusion h⟩
  | version => cases hchild
  | stat => cases hchild

theorem returns_walk {names : List (List Byte)} (hnames : ∀ c ∈ names, slash ∉ c ∧ 0 ∉ c)
    (hstale : Stale entry component) :
    Returns (step task) ⟨render slash names, entry, component, none⟩ r ↔
      r = walk task entry names := by
  induction names generalizing entry component with
  | nil =>
    have hstep : step task ⟨[], entry, component, none⟩ = .inr (.ok entry) := rfl
    rw [render_nil, returns_inr hstep]
    exact eq_comm
  | cons name names ih =>
    obtain ⟨⟨hslash, hnull⟩, hnames⟩ := List.forall_mem_cons.mp hnames
    rw [render_cons, walk]
    by_cases hdir : isDir entry = true
    · rw [if_neg (by rw [hdir]; decide)]
      by_cases hlen : maxName ≤ name.length
      · have hhead : headComp slash (name ++ render slash names) = name :=
          headComp_append hslash atEnd_render
        have hstep : step task ⟨slash :: name ++ render slash names, entry, component, none⟩ =
            .inr (.err eNametoolong) := by
          rw [step, List.cons_append]
          simp only [hdir, hhead, if_pos hlen]
          rfl
        rw [if_pos hlen, returns_inr hstep]
        exact eq_comm
      · rw [if_neg hlen, returns_name hdir hslash atEnd_render (Nat.lt_of_not_le hlen),
          returns_search hdir rfl]
        have hfind : ((children task entry).find? fun child ↦ (dirEntry child).name =
              (name ++ component.drop name.length).takeWhile (· ≠ 0)) =
            (children task entry).find? fun child ↦ (dirEntry child).name = name :=
          List.find?_congr fun child hchild ↦ decide_eq_decide.mpr (name_eq_iff hstale hnull hchild)
        rw [hfind]
        cases hchild : (children task entry).find? fun child ↦ (dirEntry child).name = name with
        | none => exact Iff.rfl
        | some child =>
          have hname : (dirEntry child).name = name := by
            simpa using List.find?_some hchild
          have hnext := hstale.next (List.mem_of_find?_eq_some hchild)
          rw [hname] at hnext
          exact ih hnames hnext
    · have hstep : step task ⟨slash :: name ++ render slash names, entry, component, none⟩ =
          .inr (.err eNotdir) := by
        rw [step, List.cons_append]
        simp only [Bool.eq_false_iff.mpr hdir]
        rfl
      rw [if_pos (by simpa using hdir), returns_inr hstep]
      exact eq_comm

/-- What is between the slashes. -/
def components (path : List Byte) : List (List Byte) :=
  match path with
  | [] => []
  | _ :: path => pieces slash path

/-- `proc_lookup` finds what the components of a path lead to, from one directory to the next by
the names that it lists, and fails as this does. -/
theorem procLookup_iff_walk (hpath : AtEnd slash path) (hnull : 0 ∉ path) :
    ProcLookup task path r ↔ r = walk task rootEntry (components path) := by
  have hrender : render slash (components path) = path := by
    cases path with
    | nil => rfl
    | cons c path =>
      obtain hnil | hhead := hpath
      · cases hnil
      · cases hhead
        exact render_pieces path
  have hnames : ∀ c ∈ components path, slash ∉ c ∧ 0 ∉ c := by
    intro c hc
    refine ⟨?_, fun hzero ↦ hnull ?_⟩
    · cases path with
      | nil => cases hc
      | cons b path => exact sep_notMem_pieces hc
    · rw [← hrender, render, List.mem_flatMap]
      exact ⟨c, hc, List.mem_cons_of_mem _ hzero⟩
  have hstart : Stale rootEntry (List.replicate maxName 0) :=
    ⟨fun _ ↦ ⟨maxName, rfl⟩, fun h ↦ Meta.noConfusion h⟩
  have hwalk : Returns (step task) _ r ↔ _ := returns_walk hnames hstart
  rwa [hrender] at hwalk

/-- `/1/stat` -/
theorem procLookup_iff_walk_stat :
    ProcLookup (fun _ ↦ true) [47, 49, 47, 115, 116, 97, 116] (.ok ⟨.stat, 1⟩) := by
  refine (procLookup_iff_walk (.inr rfl) (by decide)).mpr ?_
  rfl

end

end Isl.Fs.ProcPath
