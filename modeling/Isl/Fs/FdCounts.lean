import Isl.Fs.Fd
import Isl.Lib.PoolTotal

/-!
Reference counts of open files: the slots of the descriptor tables and the
directories of the tasks, and the references a call holds while it runs.
-/

namespace Isl.Fs.OpenFiles

open Isl.Lib

/-- The slots that hold a file. -/
def FdTable.slots (table : FdTable) (d : FdId) : ℕ := table.files.count (some d)

def FsInfo.dirs (info : FsInfo) (d : FdId) : ℕ :=
  (if info.pwd = d then 1 else 0) + if info.root = d then 1 else 0

namespace Files

def refs (s : Files) (d : FdId) : ℕ := s.tables.total (·.slots d) + s.fsInfos.total (·.dirs d)

/-- Every count is the number of slots and directories that refer to the file,
and of the references in `held`. -/
structure Accounted (s : Files) (held : List FdId) : Prop where
  counts : ∀ d, s.fds.refcount d = s.refs d + held.count d
  sized : ∀ t, s.tables.live t → 0 < (s.tables.val t).size ∧ (s.tables.val t).size ≤ limitNofile

/-- The tables and the directories have the counts they had. -/
structure SameOwners (s s' : Files) : Prop where
  tables : s'.tables.refcount = s.tables.refcount
  fsInfos : s'.fsInfos.refcount = s.fsInfos.refcount

end Files

section

variable {table table' : FdTable} {s s' s₁ s₂ : Files} {held held' : List FdId} {t i f g n : ℕ}
  {d e : FdId} {o o' : Option FdId} {fds : Pool Fd}

namespace FdTable

theorem slots_set (h : table.files[f]? = some o) (o' : Option FdId) (d : FdId) :
    (table.files.set f o').count (some d) + (if o = some d then 1 else 0) =
      table.slots d + if o' = some d then 1 else 0 := by
  obtain ⟨hf, ho⟩ := List.getElem?_eq_some_iff.mp h
  have hset := List.count_set (a := o') (b := some d) hf
  have hpos (heq : o = some d) : 0 < table.files.count (some d) :=
    List.count_pos_iff.mpr (heq ▸ ho ▸ List.getElem_mem hf)
  rw [ho] at hset
  simp only [beq_iff_eq] at hset
  unfold slots
  split
  · have hp := hpos ‹_›
    rw [if_pos ‹_›] at hset
    omega
  · rw [if_neg ‹_›] at hset
    omega

theorem slots_pos (h : table.get f = some d) : 0 < table.slots d :=
  List.count_pos_iff.mpr (List.mem_of_getElem? (get_eq_some.mp h))

theorem slots_eq_zero (h : ∀ f, table.get f = none) (d : FdId) : table.slots d = 0 := by
  refine List.count_eq_zero.mpr fun hm ↦ ?_
  obtain ⟨f, hf⟩ := List.getElem?_of_mem hm
  have hget := get_eq_some.mpr hf
  rw [h f] at hget
  cases hget

theorem getElem?_of_get (h : table.get f = none) (hf : f < table.size) :
    table.files[f]? = some none := by
  have hsome : table.files[f]? = some table.files[f] := List.getElem?_eq_getElem hf
  rw [get, hsome] at h
  rw [hsome]
  exact congrArg some h

theorem slots_clear (h : table.get f = some d) (e : FdId) :
    (table.clear f).slots e + (if d = e then 1 else 0) = table.slots e := by
  have hset := slots_set (get_eq_some.mp h) none e
  simp only [Option.some.injEq, reduceCtorEq, if_false, Nat.add_zero] at hset
  exact hset

theorem count_opened (table : FdTable) (d : FdId) : table.opened.count d = table.slots d := by
  unfold opened slots
  induction table.files with
  | nil => rfl
  | cons o files ih =>
    cases o with
    | none => simpa using ih
    | some e => simp [List.count_cons, ih]

theorem size_clear (table : FdTable) (f : ℕ) : (table.clear f).size = table.size :=
  List.length_set

theorem slots_resize (table : FdTable) (size : ℕ) (d : FdId) :
    (table.resize size).slots d = table.slots d := by
  simp [slots, resize, List.count_replicate]

theorem size_resize (h : table.size ≤ n) : (table.resize n).size = n := by
  unfold size at h
  simp only [size, resize, List.length_append, List.length_replicate]
  omega

theorem get_resize (table : FdTable) (size f : ℕ) : (table.resize size).get f = table.get f := by
  unfold get resize
  by_cases hf : f < table.files.length
  · rw [List.getElem?_append_left hf]
  · have hle := Nat.le_of_not_lt hf
    rw [List.getElem?_append_right hle, List.getElem?_eq_none hle, List.getElem?_replicate]
    split <;> rfl

end FdTable

namespace Files

theorem toInt_of_nonneg {f : Dword} (h : 0 ≤ f.toInt) : f.toInt = f.toNat := by
  have hlt := f.isLt
  rw [BitVec.toInt_eq_toNat_cond] at h ⊢
  omega

theorem toInt_of_lt {f : Dword} (h : f.toNat < 2 ^ 31) : f.toInt = f.toNat := by
  rw [BitVec.toInt_eq_toNat_cond]
  omega

theorem toNat_succ_of_ne {f : Dword} (h : f ≠ -1) : (f + 1).toNat = f.toNat + 1 := by
  have hlt := f.isLt
  have hne : f.toNat ≠ 2 ^ 32 - 1 := fun heq ↦ h (BitVec.eq_of_toNat_eq heq)
  have hone : (1 : Dword).toNat = 1 := rfl
  rw [BitVec.toNat_add, hone]
  omega

/-- The loop of `f_install_start` stops at a slot that is free, or past the end. -/
theorem get_freeSlot (h : table.size ≤ limitNofile) (start : Dword) :
    table.get (freeSlot table start).toNat = none := by
  have hlimit : limitNofile = 1024 := rfl
  have hmin : min limitNofile table.size = table.size := min_eq_right h
  have hstart := start.isLt
  unfold freeSlot
  dsimp only
  rw [hmin]
  cases hfind : (List.range' start.toNat (table.size - start.toNat)).find?
      fun f ↦ (table.get f).isNone with
  | none =>
    rw [Option.getD_none, BitVec.toNat_ofNat, Nat.mod_eq_of_lt (by omega)]
    by_contra hne
    obtain ⟨d, hd⟩ := Option.ne_none_iff_exists'.mp hne
    have hlt := FdTable.lt_of_get hd
    omega
  | some f =>
    have hf := List.find?_some hfind
    obtain ⟨k, hk, rfl⟩ := List.mem_range'.mp (List.mem_of_find?_eq_some hfind)
    rw [Option.getD_some, BitVec.toNat_ofNat, Nat.mod_eq_of_lt (by omega)]
    exact Option.isNone_iff_eq_none.mp hf

theorem SameOwners.refl (s : Files) : SameOwners s s := ⟨rfl, rfl⟩

theorem SameOwners.trans (h : SameOwners s s₁) (h' : SameOwners s₁ s₂) : SameOwners s s₂ :=
  ⟨h'.tables.trans h.tables, h'.fsInfos.trans h.fsInfos⟩

theorem SameOwners.live (h : SameOwners s s') : s'.tables.live t ↔ s.tables.live t := by
  rw [Pool.live, h.tables, Pool.live]

/-! The references that there are. -/

theorem Accounted.live_of_held (h : s.Accounted (d :: held)) : s.fds.live d := by
  have hd := h.counts d
  rw [List.count_cons_self] at hd
  unfold Pool.live
  omega

theorem Accounted.live_of_get (h : s.Accounted held) (ht : s.tables.live t)
    (hf : (s.tables.val t).get f = some d) : s.fds.live d := by
  have hd := h.counts d
  have hle := Pool.le_total (·.slots d) ht
  have hpos := FdTable.slots_pos hf
  unfold refs at hd
  unfold Pool.live
  omega

theorem Accounted.dirs_le (h : s.Accounted held) (hi : s.fsInfos.live i) (d : FdId) :
    (s.fsInfos.val i).dirs d ≤ s.fds.refcount d := by
  have hd := h.counts d
  have hle := Pool.le_total (·.dirs d) hi
  unfold refs at hd
  omega

theorem Accounted.live_pwd (h : s.Accounted held) (hi : s.fsInfos.live i) :
    s.fds.live (s.fsInfos.val i).pwd := by
  have hle := h.dirs_le hi (s.fsInfos.val i).pwd
  rw [FsInfo.dirs, if_pos rfl] at hle
  unfold Pool.live
  omega

theorem Accounted.live_root (h : s.Accounted held) (hi : s.fsInfos.live i) :
    s.fds.live (s.fsInfos.val i).root := by
  have hle := h.dirs_le hi (s.fsInfos.val i).root
  rw [FsInfo.dirs, if_pos (rfl : (s.fsInfos.val i).root = _)] at hle
  unfold Pool.live
  omega

/-! One of the three pools changes, and `held` makes up for the difference. -/

theorem Accounted.withFds (h : s.Accounted held)
    (hcount : ∀ d, fds.refcount d + held.count d = s.fds.refcount d + held'.count d) :
    { s with fds := fds }.Accounted held' := by
  refine ⟨fun d ↦ ?_, h.sized⟩
  have hd : s.fds.refcount d = s.refs d + held.count d := h.counts d
  have hfds := hcount d
  have hrefs : { s with fds := fds }.refs d = s.refs d := rfl
  rw [hrefs]
  dsimp only
  omega

theorem Accounted.withTables {tables : Pool FdTable} (h : s.Accounted held)
    (htotal : ∀ d, tables.total (·.slots d) + held'.count d =
      s.tables.total (·.slots d) + held.count d)
    (hsized : ∀ t, tables.live t → 0 < (tables.val t).size ∧ (tables.val t).size ≤ limitNofile) :
    { s with tables := tables }.Accounted held' := by
  refine ⟨fun d ↦ ?_, hsized⟩
  have hd := h.counts d
  have hslots := htotal d
  unfold refs at hd ⊢
  dsimp only
  omega

theorem Accounted.withFsInfos {fsInfos : Pool FsInfo} (h : s.Accounted held)
    (htotal : ∀ d, fsInfos.total (·.dirs d) + held'.count d =
      s.fsInfos.total (·.dirs d) + held.count d) :
    { s with fsInfos := fsInfos }.Accounted held' := by
  refine ⟨fun d ↦ ?_, h.sized⟩
  have hd := h.counts d
  have hdirs := htotal d
  unfold refs at hd ⊢
  dsimp only
  omega

/-- A descriptor table that gives up and takes what `held` says. -/
theorem Accounted.setTable (h : s.Accounted held) (ht : s.tables.live t)
    (hsize : 0 < table.size ∧ table.size ≤ limitNofile)
    (heq : ∀ d, table.slots d + held'.count d = (s.tables.val t).slots d + held.count d) :
    (s.setTable t table).Accounted held' := by
  refine h.withTables (fun d ↦ ?_) fun t' ht' ↦ ?_
  · have htotal := Pool.total_set (·.slots d) ht table
    have hslots := heq d
    omega
  · dsimp only [Pool.set]
    by_cases htt : t' = t
    · subst htt
      rwa [Function.update_self]
    · rw [Function.update_of_ne htt]
      exact h.sized t' ht'

theorem Accounted.retained (h : s.Accounted held) (hr : Pool.Retained d s.fds fds) :
    { s with fds := fds }.Accounted (d :: held) := by
  refine h.withFds fun e ↦ ?_
  rw [hr.refcount e, List.count_cons]
  simp only [beq_iff_eq, eq_comm (a := d)]
  omega

theorem Accounted.released (h : s.Accounted (d :: held)) (hr : Pool.Retained d fds s.fds) :
    { s with fds := fds }.Accounted held := by
  refine h.withFds fun e ↦ ?_
  rw [hr.refcount e, List.count_cons]
  simp only [beq_iff_eq, eq_comm (a := d)]
  omega

theorem Accounted.fdRetain (h : s.Accounted held) (hd : s.fds.live d) :
    ∃ fds, s.fdRetain d = some { s with fds := fds } ∧
      { s with fds := fds }.Accounted (d :: held) := by
  obtain ⟨fds, hfds, hr⟩ := fdRetain_of_live hd
  exact ⟨fds, hfds, h.retained hr⟩

theorem Accounted.fdClose (h : s.Accounted (d :: held)) :
    ∃ fds err, s.fdClose d = some ({ s with fds := fds }, err) ∧
      { s with fds := fds }.Accounted held := by
  obtain ⟨fds, -, hr⟩ := Pool.release_of_live h.live_of_held
  obtain ⟨err, herr⟩ := fdClose_of_retained hr
  exact ⟨fds, err, herr, h.released hr⟩

theorem Accounted.alloc (h : s.Accounted held) (fd : Fd) :
    { s with fds := (s.fds.alloc fd).2 }.Accounted (s.fds.next :: held) := by
  refine h.withFds fun e ↦ ?_
  rw [Pool.refcount_alloc s.fds fd e, List.count_cons]
  simp only [beq_iff_eq, eq_comm (a := s.fds.next)]
  omega

/-! Descriptors. -/

/-- Closing a number gives up what its slot holds. -/
theorem Accounted.fClose (h : s.Accounted held) (ht : s.tables.live t) (f : ℕ) :
    ∃ s' err, s.fClose t f = some (s', err) ∧ s'.Accounted held ∧ SameOwners s s' ∧
      (s'.tables.val t).size = (s.tables.val t).size ∧
      (∀ g, (s'.tables.val t).get g = if g = f then none else (s.tables.val t).get g) ∧
      ∀ e, s.fds.refcount e =
        s'.fds.refcount e + if (s.tables.val t).get f = some e then 1 else 0 := by
  rw [Files.fClose, Pool.get_of_live ht, Option.bind_eq_bind, Option.bind_some]
  cases hget : (s.tables.val t).get f with
  | none =>
    refine ⟨s, _, rfl, h, .refl s, rfl, fun g ↦ ?_, fun e ↦ ?_⟩
    · split
      · rename_i hg
        rw [hg, hget]
      · rfl
    · rw [if_neg (Option.some_ne_none e).symm]
      rfl
  | some d =>
    obtain ⟨fds, -, hr⟩ := Pool.release_of_live (h.live_of_get ht hget)
    obtain ⟨err, herr⟩ := fdClose_of_retained hr
    have hsize := FdTable.size_clear (s.tables.val t) f
    -- the slot gives its reference to the call, which drops it
    have hcleared : (s.setTable t ((s.tables.val t).clear f)).Accounted (d :: held) := by
      refine h.setTable ht (by rw [hsize]; exact h.sized t ht) fun e ↦ ?_
      have hslots := FdTable.slots_clear hget e
      rw [List.count_cons]
      simp only [beq_iff_eq]
      omega
    dsimp only
    rw [herr, Option.bind_eq_bind, Option.bind_some]
    refine ⟨_, _, rfl, hcleared.released hr, ⟨rfl, rfl⟩, ?_, fun g ↦ ?_, fun e ↦ ?_⟩
    · dsimp only [Files.setTable, Pool.set]
      rw [Function.update_self, hsize]
    · dsimp only [Files.setTable, Pool.set]
      rw [Function.update_self, FdTable.get_clear]
    · have hcount := hr.refcount e
      simp only [Option.some.injEq, eq_comm (a := d)]
      exact hcount

/-- A table that is expanded keeps its descriptors. -/
theorem Accounted.fdtableExpand (h : s.Accounted held) (ht : s.tables.live t) (max : Dword)
    (noMemory : Bool) :
    ∃ s' err, s.fdtableExpand t max noMemory = some (s', err) ∧ s'.Accounted held ∧
      SameOwners s s' ∧ s'.fds = s.fds ∧
      (∀ g, (s'.tables.val t).get g = (s.tables.val t).get g) ∧
      (0 ≤ err → (max + 1).toNat ≤ (s'.tables.val t).size) := by
  rw [Files.fdtableExpand, Pool.get_of_live ht, Option.bind_eq_bind, Option.bind_some]
  dsimp only
  obtain ⟨hpos, -⟩ := h.sized t ht
  split
  · exact ⟨s, 0, rfl, h, .refl s, rfl, fun _ ↦ rfl, fun _ ↦ ‹_›⟩
  · split
    · exact ⟨s, eMfile, rfl, h, .refl s, rfl, fun _ ↦ rfl, fun herr ↦ absurd herr (by decide)⟩
    · split
      · exact ⟨s, eNomem, rfl, h, .refl s, rfl, fun _ ↦ rfl, fun herr ↦ absurd herr (by decide)⟩
      · have hsize := @FdTable.size_resize (s.tables.val t) (max + 1).toNat (by omega)
        refine ⟨_, 0, rfl, h.setTable ht (by omega) fun d ↦ ?_, ⟨rfl, rfl⟩, rfl, fun g ↦ ?_,
          fun _ ↦ ?_⟩
        · rw [FdTable.slots_resize]
        · dsimp only [Files.setTable, Pool.set]
          rw [Function.update_self, FdTable.get_resize]
        · dsimp only [Files.setTable, Pool.set]
          rw [Function.update_self, hsize]

/-- A file in hand goes to a free slot. -/
theorem Accounted.put (h : s.Accounted (d :: held)) (ht : s.tables.live t)
    (hget : (s.tables.val t).get f = none) (hf : f < (s.tables.val t).size) (cloexec : ℕ → Bool) :
    (s.setTable t ⟨(s.tables.val t).files.set f (some d), cloexec⟩).Accounted held := by
  have hlen : ((s.tables.val t).files.set f (some d)).length = (s.tables.val t).size :=
    List.length_set
  refine h.setTable ht ?_ fun e ↦ ?_
  · rw [FdTable.size, hlen]
    exact h.sized t ht
  · have hset := FdTable.slots_set (FdTable.getElem?_of_get hget hf) (some d) e
    rw [List.count_cons]
    simp only [beq_iff_eq, reduceCtorEq, if_false, Option.some.injEq] at hset ⊢
    unfold FdTable.slots at hset ⊢
    dsimp only
    omega

/-- The end of `f_install_start`, once the number is known. -/
theorem Accounted.install (h : s.Accounted (d :: held)) (ht : s.tables.live t) {f : Dword} {err : ℤ}
    (hget : (s.tables.val t).get f.toNat = none)
    (hsize : 0 ≤ err → 0 ≤ f.toInt → f.toNat < (s.tables.val t).size) :
    ∃ s' r, (do
      let result := if err < 0 then err else f.toInt
      if 0 ≤ result then
        let table ← s.tables.get t
        let table ← table.put f d
        let table := { table with cloexec := Function.update table.cloexec f.toNat false }
        some (s.setTable t table, result)
      else
        let (s, _) ← s.fdClose d
        some (s, result)) = some (s', r) ∧ s'.Accounted held ∧ SameOwners s s' := by
  obtain ⟨fds, err', hclose, h₁⟩ := h.fdClose
  dsimp only
  by_cases hneg : err < 0
  · rw [if_pos hneg, if_neg (by omega), hclose]
    exact ⟨_, _, rfl, h₁, ⟨rfl, rfl⟩⟩
  · rw [if_neg hneg]
    by_cases hf : 0 ≤ f.toInt
    · have hlt := hsize (by omega) hf
      have hput : (s.tables.val t).put f d =
          some { s.tables.val t with files := (s.tables.val t).files.set f.toNat (some d) } :=
        if_pos ⟨hf, by rw [toInt_of_nonneg hf]; exact_mod_cast hlt⟩
      rw [if_pos hf, Pool.get_of_live ht, Option.bind_eq_bind, Option.bind_some, hput,
        Option.bind_some]
      exact ⟨_, _, rfl, h.put ht hget hlt _, ⟨rfl, rfl⟩⟩
    · rw [if_neg hf, hclose]
      exact ⟨_, _, rfl, h₁, ⟨rfl, rfl⟩⟩

theorem Accounted.fInstallStart (h : s.Accounted (d :: held)) (ht : s.tables.live t) (start : Dword)
    (noMemory : Bool) :
    ∃ s' r, s.fInstallStart t d start noMemory = some (s', r) ∧ s'.Accounted held ∧
      SameOwners s s' := by
  have hlimit : limitNofile = 1024 := rfl
  have hfree := get_freeSlot (h.sized t ht).2 start
  rw [Files.fInstallStart, Pool.get_of_live ht, Option.bind_eq_bind, Option.bind_some]
  dsimp only
  generalize freeSlot (s.tables.val t) start = f at hfree
  split
  · obtain ⟨s₁, err, hs₁, h₁, ho₁, -, hg, hsize⟩ := h.fdtableExpand ht f noMemory
    rw [hs₁, Option.bind_eq_bind, Option.bind_some]
    obtain ⟨s', r, hs', h', ho⟩ := h₁.install (ho₁.live.mpr ht) ((hg _).trans hfree) fun herr hf ↦ by
      have hle := hsize herr
      have hne : f ≠ -1 := by
        intro heq
        rw [heq] at hf
        exact absurd hf (by decide)
      rw [toNat_succ_of_ne hne] at hle
      omega
    exact ⟨s', r, hs', h', ho₁.trans ho⟩
  · exact h.install ht hfree fun _ _ ↦ by omega

theorem Accounted.fInstall (h : s.Accounted held) (ht : s.tables.live t) (fd : Fd)
    (noMemory : Bool) :
    ∃ s' r, s.fInstall t fd noMemory = some (s', r) ∧ s'.Accounted held ∧ SameOwners s s' := by
  obtain ⟨s', r, hs', h', ho⟩ := (h.alloc fd).fInstallStart (t := t) ht 0 noMemory
  exact ⟨s', r, hs', h', ⟨ho.tables, ho.fsInfos⟩⟩

theorem Accounted.dupFrom (h : s.Accounted held) (ht : s.tables.live t) (f start : Dword)
    (noMemory : Bool) :
    ∃ s' r, s.dupFrom t f start noMemory = some (s', r) ∧ s'.Accounted held ∧ SameOwners s s' := by
  rw [Files.dupFrom, fGet, Pool.get_of_live ht, Option.map_some, Option.bind_eq_bind,
    Option.bind_some]
  cases hget : (s.tables.val t).get f.toNat with
  | none => exact ⟨s, _, rfl, h, .refl s⟩
  | some d =>
    obtain ⟨fds, hfds, h₁⟩ := h.fdRetain (h.live_of_get ht hget)
    dsimp only
    rw [hfds, Option.bind_eq_bind, Option.bind_some]
    obtain ⟨s', r, hs', h', ho⟩ := h₁.fInstallStart (t := t) ht start noMemory
    exact ⟨s', r, hs', h', ⟨ho.tables, ho.fsInfos⟩⟩

/-- The call names a slot, and no file that the close of that slot frees. -/
def Dup2Fits (s : Files) (t : TableId) (f newF : Dword) : Prop :=
  ∀ d, (s.tables.val t).get f.toNat = some d →
    newF ≠ -1 ∧ (newF = f → 2 ≤ s.fds.refcount d)

theorem Accounted.sysDup2 (h : s.Accounted held) (ht : s.tables.live t) {f newF : Dword}
    (hfits : Dup2Fits s t f newF) (noMemory : Bool) :
    ∃ s' r, s.sysDup2 t f newF noMemory = some (s', r) ∧ s'.Accounted held ∧ SameOwners s s' := by
  rw [Files.sysDup2, fGet, Pool.get_of_live ht, Option.map_some, Option.bind_eq_bind,
    Option.bind_some]
  cases hget : (s.tables.val t).get f.toNat with
  | none => exact ⟨s, _, rfl, h, .refl s⟩
  | some d =>
    obtain ⟨hneg, hsame⟩ := hfits d hget
    obtain ⟨s₁, err, hs₁, h₁, ho₁, hfds₁, hget₁, hsize₁⟩ := h.fdtableExpand ht newF noMemory
    dsimp only
    rw [hs₁, Option.bind_eq_bind, Option.bind_some]
    dsimp only
    split
    · exact ⟨s₁, _, rfl, h₁, ho₁⟩
    · have ht₁ := ho₁.live.mpr ht
      obtain ⟨s₂, err₂, hs₂, h₂, ho₂, hsize₂, hget₂, hcount₂⟩ := h₁.fClose ht₁ newF.toNat
      have ht₂ := ho₂.live.mpr ht₁
      have hlive : s₂.fds.live d := by
        by_cases heq : newF = f
        · -- the slot that is closed is the one that the file was taken from
          have hd := hcount₂ d
          have htwo := hsame heq
          rw [hfds₁] at hd
          unfold Pool.live
          split at hd <;> omega
        · refine h₂.live_of_get ht₂ (f := f.toNat) ?_
          rw [hget₂, if_neg fun hf ↦ heq (BitVec.eq_of_toNat_eq hf.symm), hget₁, hget]
      obtain ⟨fds, hfds, h₃⟩ := h₂.fdRetain hlive
      have hin : newF.toNat < (s₂.tables.val t).size := by
        have hle := hsize₁ (by omega)
        rw [hsize₂]
        rw [toNat_succ_of_ne hneg] at hle
        omega
      have hnone : (s₂.tables.val t).get newF.toNat = none := by rw [hget₂, if_pos rfl]
      have hlimit : limitNofile = 1024 := rfl
      have hpos : 0 ≤ newF.toInt := by
        have hle := (h₂.sized t ht₂).2
        rw [toInt_of_lt (by omega)]
        omega
      have hput : (s₂.tables.val t).put newF d =
          some { s₂.tables.val t with files := (s₂.tables.val t).files.set newF.toNat (some d) } :=
        if_pos ⟨hpos, by rw [toInt_of_nonneg hpos]; exact_mod_cast hin⟩
      rw [hs₂, Option.bind_eq_bind, Option.bind_some]
      dsimp only
      rw [hfds, Option.bind_eq_bind, Option.bind_some]
      dsimp only
      rw [Pool.get_of_live ht₂, Option.bind_some, hput, Option.bind_some]
      exact ⟨_, _, rfl, h₃.put ht₂ hnone hin _, (ho₁.trans ho₂).trans ⟨rfl, rfl⟩⟩

/-! Directories. -/

theorem Accounted.setDirs {info : FsInfo} (h : s.Accounted held) (hi : s.fsInfos.live i)
    (heq : ∀ d, info.dirs d + held'.count d = (s.fsInfos.val i).dirs d + held.count d) :
    { s with fsInfos := s.fsInfos.set i info }.Accounted held' := by
  refine h.withFsInfos fun d ↦ ?_
  have htotal := Pool.total_set (·.dirs d) hi info
  have hdirs := heq d
  omega

theorem dirs_eq (info : FsInfo) (d : FdId) : info.dirs d =
    (if d = info.pwd then 1 else 0) + if d = info.root then 1 else 0 := by
  simp only [FsInfo.dirs, eq_comm (b := d)]

theorem Accounted.fsChdir (h : s.Accounted (d :: held)) (hi : s.fsInfos.live i) :
    ∃ s', s.fsChdir i d = some s' ∧ s'.Accounted held ∧ SameOwners s s' := by
  have hset : { s with fsInfos := s.fsInfos.set i { s.fsInfos.val i with pwd := d } }.Accounted
      ((s.fsInfos.val i).pwd :: held) := by
    refine h.setDirs hi fun e ↦ ?_
    unfold FsInfo.dirs
    simp only [List.count_cons, beq_iff_eq]
    omega
  obtain ⟨fds, -, hr⟩ := Pool.release_of_live hset.live_of_held
  obtain ⟨err, herr⟩ := fdClose_of_retained (s := s) hr
  rw [Files.fsChdir, Pool.get_of_live hi, Option.bind_eq_bind, Option.bind_some, herr]
  exact ⟨_, rfl, hset.released hr, ⟨rfl, rfl⟩⟩

theorem Accounted.sysChdir (h : s.Accounted held) (hi : s.fsInfos.live i) (fd : Fd) :
    ∃ s', s.sysChdir i fd = some s' ∧ s'.Accounted held ∧ SameOwners s s' := by
  obtain ⟨s', hs', h', ho⟩ := (h.alloc fd).fsChdir (i := i) hi
  exact ⟨s', hs', h', ⟨ho.tables, ho.fsInfos⟩⟩

theorem Accounted.sysFchdir (h : s.Accounted held) (ht : s.tables.live t) (hi : s.fsInfos.live i)
    (f : Dword) :
    ∃ s' r, s.sysFchdir t i f = some (s', r) ∧ s'.Accounted held ∧ SameOwners s s' := by
  rw [Files.sysFchdir, fGet, Pool.get_of_live ht, Option.map_some, Option.bind_eq_bind,
    Option.bind_some]
  cases hget : (s.tables.val t).get f.toNat with
  | none => exact ⟨s, _, rfl, h, .refl s⟩
  | some d =>
    obtain ⟨fds, hfds, h₁⟩ := h.fdRetain (h.live_of_get ht hget)
    obtain ⟨s', hs', h', ho⟩ := h₁.fsChdir (i := i) hi
    dsimp only
    rw [hfds, Option.bind_eq_bind, Option.bind_some, hs', Option.bind_some]
    exact ⟨s', _, rfl, h', ⟨ho.tables, ho.fsInfos⟩⟩

/-! Copies. -/

/-- A copy of a table refers once more to every file that is open in it. -/
theorem Accounted.fdtableCopy (h : s.Accounted held) (ht : s.tables.live t) :
    ∃ s', s.fdtableCopy t false = some (.ok (s.tables.next, s')) ∧ s'.Accounted held ∧
      s'.fsInfos = s.fsInfos ∧ s'.tables = (s.tables.alloc (s.tables.val t)).2 := by
  obtain ⟨hpos, hlimit⟩ := h.sized t ht
  have hopened (d : FdId) (hd : d ∈ (s.tables.val t).opened) : s.fds.live d := by
    obtain ⟨f, hf⟩ := FdTable.mem_opened.mp hd
    exact h.live_of_get ht hf
  obtain ⟨fds, hcopy, -, -, hcount⟩ := fdtableCopy_of_live ht hpos.ne' hopened
  refine ⟨_, hcopy, ⟨fun d ↦ ?_, fun t' ht' ↦ ?_⟩, rfl, rfl⟩
  · have hd := h.counts d
    have hfds := hcount d
    have htotal := Pool.total_alloc (·.slots d) s.tables (s.tables.val t)
    rw [FdTable.count_opened] at hfds
    unfold refs at hd ⊢
    dsimp only at htotal ⊢
    omega
  · dsimp only
    rw [Pool.val_alloc]
    split
    · exact ⟨hpos, hlimit⟩
    · refine h.sized t' ?_
      simpa [Pool.live, Pool.refcount_alloc, ‹¬t' = s.tables.next›] using ht'

theorem Accounted.fsInfoCopy (h : s.Accounted held) (hi : s.fsInfos.live i) :
    ∃ s', s.fsInfoCopy i false = some (s.fsInfos.next, s') ∧ s'.Accounted held ∧
      s'.tables = s.tables ∧ s'.fsInfos = (s.fsInfos.alloc (s.fsInfos.val i)).2 := by
  obtain ⟨fds₁, h₁, hr₁⟩ := @fdRetain_of_live
    { s with fsInfos := (s.fsInfos.alloc (s.fsInfos.val i)).2 } _ (h.live_pwd hi)
  obtain ⟨fds₂, h₂, hr₂⟩ := @fdRetain_of_live
    { s with fds := fds₁, fsInfos := (s.fsInfos.alloc (s.fsInfos.val i)).2 } _
    (hr₁.live_of_live (h.live_root hi))
  refine ⟨{ s with fds := fds₂, fsInfos := (s.fsInfos.alloc (s.fsInfos.val i)).2 }, ?_,
    ⟨fun d ↦ ?_, h.sized⟩, rfl, rfl⟩
  · rw [Files.fsInfoCopy, Pool.get_of_live hi, Option.bind_eq_bind, Option.bind_some,
      if_neg Bool.false_ne_true]
    dsimp only
    rw [h₁, Option.bind_eq_bind, Option.bind_some, h₂]
    rfl
  · have hd := h.counts d
    have hd₁ : fds₁.refcount d = s.fds.refcount d + _ := hr₁.refcount d
    have hd₂ : fds₂.refcount d = fds₁.refcount d + _ := hr₂.refcount d
    have htotal := Pool.total_alloc (·.dirs d) s.fsInfos (s.fsInfos.val i)
    rw [dirs_eq] at htotal
    unfold refs at hd ⊢
    dsimp only at htotal ⊢
    omega

/-! Releases. -/

theorem Accounted.fCloseBelow (h : s.Accounted held) (ht : s.tables.live t) (n : ℕ) :
    ∃ s', s.fCloseBelow t n = some s' ∧ s'.Accounted held ∧ SameOwners s s' ∧
      ∀ g, (s'.tables.val t).get g = if g < n then none else (s.tables.val t).get g := by
  induction n with
  | zero => exact ⟨s, rfl, h, .refl s, fun _ ↦ rfl⟩
  | succ n ih =>
    obtain ⟨s₁, hs₁, h₁, ho₁, hget₁⟩ := ih
    obtain ⟨s₂, err, hs₂, h₂, ho₂, -, hget₂, -⟩ := h₁.fClose (ho₁.live.mpr ht) n
    refine ⟨s₂, ?_, h₂, ho₁.trans ho₂, fun g ↦ ?_⟩
    · rw [fCloseBelow_succ, hs₁, Option.bind_some, hs₂]
      rfl
    · rw [hget₂, hget₁]
      by_cases hg : g = n
      · rw [if_pos hg, if_pos (by omega)]
      · rw [if_neg hg]
        exact if_congr (by omega) rfl rfl

/-- A reference to a table goes, and the table with the last one. It has to be
empty by then: the loop closes numbers of the caller's table. -/
theorem Accounted.fdtableRelease {current : TableId} (h : s.Accounted held) (ht : s.tables.live t)
    (hc : s.tables.live current)
    (hempty : current = t ∨ s.tables.refcount t ≠ 1 ∨
      (∀ f, (s.tables.val t).get f = none) ∧ ∀ f, (s.tables.val current).get f = none) :
    ∃ s', s.fdtableRelease current t = some s' ∧ s'.Accounted held ∧
      s'.fsInfos.refcount = s.fsInfos.refcount ∧
      ∀ u, s.tables.refcount u = s'.tables.refcount u + if u = t then 1 else 0 := by
  rw [Files.fdtableRelease, Pool.get_of_live ht, Option.bind_eq_bind, Option.bind_some]
  dsimp only
  by_cases hlast : s.tables.refcount t = 1
  · rw [if_pos hlast]
    obtain ⟨s₁, hs₁, h₁, ho₁, hnone⟩ : ∃ s₁,
        s.fCloseBelow current (s.tables.val t).size = some s₁ ∧ s₁.Accounted held ∧
        SameOwners s s₁ ∧ ∀ f, (s₁.tables.val t).get f = none := by
      rcases hempty with rfl | hshared | ⟨hnone, hcur⟩
      · obtain ⟨s₁, hs₁, h₁, ho₁, hget⟩ := h.fCloseBelow hc (s.tables.val current).size
        refine ⟨s₁, hs₁, h₁, ho₁, fun f ↦ ?_⟩
        rw [hget]
        split
        · rfl
        · by_contra hne
          obtain ⟨d, hd⟩ := Option.ne_none_iff_exists'.mp hne
          exact absurd (FdTable.lt_of_get hd) ‹_›
      · exact absurd hlast hshared
      · exact ⟨s, fCloseBelow_of_empty (Pool.get_of_live hc) hcur _, h, .refl s, hnone⟩
    obtain ⟨tables, htables, hr⟩ := Pool.release_of_live (ho₁.live.mpr ht)
    have hdead : ¬tables.live t := by
      have hcount := hr.refcount t
      rw [ho₁.tables, hlast, if_pos rfl] at hcount
      simpa [Pool.live] using hcount
    rw [hs₁, Option.bind_eq_bind, Option.bind_some, htables, Option.bind_eq_bind, Option.bind_some]
    refine ⟨_, rfl, h₁.withTables (fun d ↦ ?_) fun u hu ↦ ?_, ho₁.fsInfos, fun u ↦ ?_⟩
    · have htotal := hr.total_of_last hdead (·.slots d)
      have hzero := FdTable.slots_eq_zero hnone d
      omega
    · rw [← hr.val]
      exact h₁.sized u (hr.live_of_live hu)
    · rw [← ho₁.tables]
      exact hr.refcount u
  · rw [if_neg hlast]
    obtain ⟨tables, htables, hr⟩ := Pool.release_of_live ht
    have hlive : tables.live t := by
      have hcount := hr.refcount t
      rw [if_pos rfl] at hcount
      unfold Pool.live
      omega
    rw [Option.bind_eq_bind, Option.bind_some, htables, Option.bind_eq_bind, Option.bind_some]
    refine ⟨_, rfl, h.withTables (fun d ↦ ?_) fun u hu ↦ ?_, rfl, hr.refcount⟩
    · rw [hr.total hlive (·.slots d)]
    · rw [← hr.val]
      exact h.sized u (hr.live_of_live hu)

theorem Accounted.fsInfoRelease (h : s.Accounted held) (hi : s.fsInfos.live i) :
    ∃ s', s.fsInfoRelease i = some s' ∧ s'.Accounted held ∧ s'.tables = s.tables ∧
      ∀ j, s.fsInfos.refcount j = s'.fsInfos.refcount j + if j = i then 1 else 0 := by
  obtain ⟨fsInfos, hrelease, hr⟩ := Pool.release_of_live hi
  rw [Files.fsInfoRelease, Pool.get_of_live hi, Option.bind_eq_bind, Option.bind_some]
  by_cases hlast : s.fsInfos.refcount i = 1
  · have hdead : ¬fsInfos.live i := by
      have hcount := hr.refcount i
      rw [hlast, if_pos rfl] at hcount
      simpa [Pool.live] using hcount
    -- the two directories are in the hands of the call
    have hgiven : { s with fsInfos := fsInfos }.Accounted
        ((s.fsInfos.val i).pwd :: (s.fsInfos.val i).root :: held) := by
      refine h.withFsInfos fun d ↦ ?_
      have htotal := hr.total_of_last hdead (·.dirs d)
      rw [FsInfo.dirs] at htotal
      simp only [List.count_cons, beq_iff_eq]
      omega
    obtain ⟨fds₁, -, hr₁⟩ := Pool.release_of_live hgiven.live_of_held
    obtain ⟨err₁, hclose₁⟩ := fdClose_of_retained (s := s) hr₁
    have hgiven₁ := hgiven.released hr₁
    obtain ⟨fds₂, -, hr₂⟩ := Pool.release_of_live hgiven₁.live_of_held
    obtain ⟨err₂, hclose₂⟩ := fdClose_of_retained (s := { s with fds := fds₁ }) hr₂
    rw [if_pos hlast, hclose₁, Option.bind_eq_bind, Option.bind_some]
    dsimp only
    rw [hclose₂, Option.bind_eq_bind, Option.bind_some, Option.bind_some, hrelease]
    exact ⟨_, rfl, hgiven₁.released hr₂, rfl, hr.refcount⟩
  · have hlive : fsInfos.live i := by
      have hcount := hr.refcount i
      rw [if_pos rfl] at hcount
      unfold Pool.live
      omega
    rw [if_neg hlast, Option.bind_eq_bind, Option.bind_some]
    dsimp only
    rw [hrelease]
    refine ⟨_, rfl, h.withFsInfos fun d ↦ ?_, rfl, hr.refcount⟩
    rw [hr.total hlive (·.dirs d)]

end Files

end

end Isl.Fs.OpenFiles
