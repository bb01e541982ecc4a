import Isl.Fs.Fd
import Isl.Lib.Run
import Isl.Util.Bits

/-!
The close-on-exec bits of a descriptor table: `fs/fd.c` with the bytes of the
`cloexec` array, and the loop of `sys_execve` that closes the marked slots.
-/

namespace Isl.Fs.Cloexec

open Isl.Lib.Run Isl.Util
open Isl.Fs.OpenFiles (FdId Dword eBadf eNomem eMfile)

def oCloexec : Dword := 1 <<< 19

/-- What is written down of a slot: a file was put into it, or it was marked by
`O_CLOEXEC` or `F_SETFD`. -/
inductive Note
  | opened (f : ℕ)
  | marked (f : ℕ)

/-- `cloexec` is empty while the pointer to it is null. The log has the last
note first. -/
structure FdTable where
  files : List (Option FdId)
  cloexec : Bits
  log : List Note

/-- What a call finds outside of the table: the limit of descriptors, whether
`malloc` fails, and what the file's `close` returns. -/
structure Env where
  rlimit : BitVec 64
  noMemory : Bool
  close : ℤ

namespace FdTable

def size (table : FdTable) : ℕ := table.files.length

def get (table : FdTable) (f : ℕ) : Option FdId := table.files[f]?.join

/-- `f_get`. The range check is unsigned and the index is not. -/
def fGet (table : FdTable) (f : Dword) : Option (Option FdId) :=
  if f.toNat < table.size then
    if 0 ≤ f.toInt then some (table.get f.toNat) else none
  else some none

/-- `table->files[f] = fd` -/
def put (table : FdTable) (f : Dword) (fd : Option FdId) : Option FdTable :=
  if 0 ≤ f.toInt ∧ f.toNat < table.size then
    some { table with files := table.files.set f.toNat fd }
  else none

/-- The store of a file. -/
def store (table : FdTable) (f : Dword) (fd : FdId) : Option FdTable :=
  (table.put f (some fd)).map fun table ↦ { table with log := .opened f.toNat :: table.log }

def clearCloexec (table : FdTable) (f : ℕ) : Option FdTable :=
  (bitClear f table.cloexec).map fun cloexec ↦ { table with cloexec := cloexec }

def fSetCloexec (table : FdTable) (f : ℕ) : Option FdTable :=
  (bitSet f table.cloexec).map fun cloexec ↦
    { table with cloexec := cloexec, log := .marked f :: table.log }

def fdtableResize (table : FdTable) (size : ℕ) (env : Env) : Option (FdTable × ℤ) := do
  guard (table.size < size)
  if env.noMemory then some (table, eNomem)
  else
    let files ← memcpy (List.replicate size none) table.files table.size
    let zeros := List.replicate (bitsSize size) 0#8
    let cloexec ← (if table.cloexec = [] then some zeros
      else memcpy zeros table.cloexec (bitsSize table.size))
    some ({ table with files := files, cloexec := cloexec }, 0)

def fdtableNew (size : ℕ) (env : Env) : Option (FdTable × ℤ) :=
  FdTable.fdtableResize ⟨[], [], []⟩ size env

/-- The copied slots keep their notes. -/
def fdtableCopy (table : FdTable) (env : Env) : Option (Except ℤ FdTable) := do
  let (new, err) ← fdtableNew table.size env
  if err < 0 then some (.error err)
  else
    let files ← memcpy new.files table.files table.size
    let cloexec ← memcpy new.cloexec table.cloexec (bitsSize table.size)
    some (.ok ⟨files, cloexec, table.log⟩)

def fdtableExpand (table : FdTable) (max : Dword) (env : Env) : Option (FdTable × ℤ) :=
  let size := (max + 1).toNat
  if size ≤ table.size then some (table, 0)
  else if env.rlimit.toNat < size then some (table, eMfile)
  else table.fdtableResize size env

/-- The loop of `f_install_start`, which has no result where it reads a slot with
a negative index. -/
def freeSlot (table : FdTable) (start : Dword) (size : ℕ) : Option Dword :=
  let stop := (List.range' start.toNat (size - start.toNat)).find? fun f ↦
    (table.get f).isNone || 2 ^ 31 ≤ f
  match stop with
  | none => some (BitVec.ofNat 32 (max start.toNat size))
  | some f => if f < 2 ^ 31 then some (BitVec.ofNat 32 f) else none

/-- Where it fails, `fd_close` drops the caller's reference. -/
def fInstallStart (table : FdTable) (fd : FdId) (start : Dword) (env : Env) :
    Option (FdTable × ℤ) := do
  let size := min (env.rlimit.setWidth 32).toNat table.size
  let f ← table.freeSlot start size
  let (table, err) ← (if size ≤ f.toNat then table.fdtableExpand f env else some (table, 0))
  let result := if err < 0 then err else f.toInt
  if 0 ≤ result then
    let table ← table.store f fd
    let table ← table.clearCloexec f.toNat
    some (table, result)
  else some (table, result)

def fInstall (table : FdTable) (fd : FdId) (env : Env) : Option (FdTable × ℤ) :=
  table.fInstallStart fd 0 env

def fInstallFlags (table : FdTable) (fd : FdId) (flags : Dword) (env : Env) :
    Option (FdTable × ℤ) := do
  let (table, f) ← table.fInstall fd env
  if 0 ≤ f ∧ flags &&& oCloexec ≠ 0 then
    let table ← table.fSetCloexec f.toNat
    some (table, f)
  else some (table, f)

def fClose (table : FdTable) (f : Dword) (env : Env) : Option (FdTable × ℤ) := do
  match ← table.fGet f with
  | none => some (table, eBadf)
  | some _ =>
    let table ← table.put f none
    let table ← table.clearCloexec f.toNat
    some (table, env.close)

def sysDup (table : FdTable) (f : Dword) (env : Env) : Option (FdTable × ℤ) := do
  match ← table.fGet f with
  | none => some (table, eBadf)
  | some fd => table.fInstall fd env

def sysDup2 (table : FdTable) (f newF : Dword) (env : Env) : Option (FdTable × ℤ) := do
  match ← table.fGet f with
  | none => some (table, eBadf)
  | some fd =>
    let (table, err) ← table.fdtableExpand newF env
    if err < 0 then some (table, err)
    else
      let (table, _) ← table.fClose newF env
      let table ← table.store newF fd
      some (table, newF.toInt)

/-- `other` is the result of the commands that do not read the table. -/
def sysFcntl64 (table : FdTable) (f cmd arg : Dword) (other : ℤ) (env : Env) :
    Option (FdTable × ℤ) := do
  match ← table.fGet f with
  | none => some (table, eBadf)
  | some fd =>
    if cmd = 0 then table.fInstallStart fd arg env
    else if cmd = 1 then
      let b ← bitTest f.toNat table.cloexec
      some (table, if b then 1 else 0)
    else if cmd = 2 then
      let table ←
        (if arg &&& 1 ≠ 0 then table.fSetCloexec f.toNat else table.clearCloexec f.toNat)
      some (table, 0)
    else some (table, other)

/-- The body of the loop of `sys_execve`. The counter is signed. -/
def execCloseAt (env : Env) (table : FdTable) (f : ℕ) : Option FdTable := do
  guard (f < 2 ^ 31)
  let b ← bitTest f table.cloexec
  if b then (table.fClose (BitVec.ofNat 32 f) env).map Prod.fst else some table

def execClose (table : FdTable) (env : Env) : Option FdTable :=
  (List.range table.size).foldlM (execCloseAt env) table

end FdTable

inductive Call
  | fInstall (fd : FdId)
  | fInstallFlags (fd : FdId) (flags : Dword)
  | dup (f : Dword)
  | dup2 (f newF : Dword)
  | fcntl (f cmd arg : Dword) (other : ℤ)
  | close (f : Dword)
  | resize (size : ℕ)

def FdTable.call (table : FdTable) (env : Env) : Call → Option (FdTable × ℤ)
  | .fInstall fd => table.fInstall fd env
  | .fInstallFlags fd flags => table.fInstallFlags fd flags env
  | .dup f => table.sysDup f env
  | .dup2 f newF => table.sysDup2 f newF env
  | .fcntl f cmd arg other => table.sysFcntl64 f cmd arg other env
  | .close f => table.fClose f env
  | .resize size => table.fdtableResize size env

/-- A call on one of the tables, or a copy of it, which becomes the last table. -/
inductive Event
  | call (t : ℕ) (c : Call) (env : Env)
  | copy (t : ℕ) (env : Env)

def step (tables : List FdTable) : Event → Option (List FdTable)
  | .call t c env => do
    let table ← tables[t]?
    let (table, _) ← table.call env c
    some (tables.set t table)
  | .copy t env => do
    let table ← tables[t]?
    match ← table.fdtableCopy env with
    | .error _ => some tables
    | .ok new => some (tables ++ [new])

/-- A mark of the slot stands before its last opening in the log. -/
def MarkedSinceOpened (log : List Note) (f : ℕ) : Prop :=
  ∃ post pre, log = post ++ .marked f :: pre ∧ .opened f ∉ post

section

variable {table table' new : FdTable} {env : Env} {f g n : ℕ} {fd : FdId} {d newF : Dword}
  {ret : ℤ} {log : List Note} {note : Note}

theorem MarkedSinceOpened.cons (h : MarkedSinceOpened log f) (hn : note ≠ .opened f) :
    MarkedSinceOpened (note :: log) f := by
  obtain ⟨post, pre, rfl, hpost⟩ := h
  refine ⟨note :: post, pre, rfl, fun hmem ↦ ?_⟩
  obtain heq | hmem := List.mem_cons.mp hmem
  · exact hn heq.symm
  · exact hpost hmem

theorem MarkedSinceOpened.marked (log : List Note) (f : ℕ) :
    MarkedSinceOpened (.marked f :: log) f := ⟨[], log, rfl, nofun⟩

namespace FdTable

/-- Only open slots that were marked since have their bit set, up to the slots
where `but` holds. -/
structure MarkedBut (but : ℕ → Prop) (table : FdTable) : Prop where
  bits : table.cloexec.length = bitsSize table.size
  opened : ∀ f, ¬but f → bitAt table.cloexec f → (table.get f).isSome
  marked : ∀ f, ¬but f → bitAt table.cloexec f → MarkedSinceOpened table.log f

abbrev Marked (table : FdTable) : Prop := table.MarkedBut fun _ ↦ False

theorem lt_of_get (h : (table.get f).isSome) : f < table.size := by
  by_contra hge
  rw [get, List.getElem?_eq_none (Nat.not_lt.mp hge)] at h
  cases h

theorem get_set (table : FdTable) (x : Option FdId) (hf : f < table.size) (g : ℕ) :
    ({ table with files := table.files.set f x } : FdTable).get g =
      if g = f then x else table.get g := by
  simp only [get, List.getElem?_set]
  by_cases hg : f = g
  · subst hg
    have hf' : f < table.files.length := hf
    simp [hf']
  · simp [hg, Ne.symm hg]

theorem put_eq_some {x : Option FdId} (h : table.put d x = some table') :
    d.toNat < table.size ∧ table' = { table with files := table.files.set d.toNat x } := by
  obtain ⟨⟨-, hlt⟩, heq⟩ := Option.ite_none_right_eq_some.mp h
  exact ⟨hlt, (Option.some.inj heq).symm⟩

/-- A slot that is filled or emptied. Its bit may then be stale. -/
theorem Marked.put {x : Option FdId} (h : table.Marked) (hs : table.put d x = some table') :
    table'.MarkedBut (· = d.toNat) := by
  obtain ⟨hlt, rfl⟩ := put_eq_some hs
  refine ⟨?_, fun f hf hbit ↦ ?_, fun f _ hbit ↦ h.marked f id hbit⟩
  · rw [size, List.length_set]
    exact h.bits
  · rw [get_set table x hlt, if_neg hf]
    exact h.opened f id hbit

theorem Marked.store (h : table.Marked) (hs : table.store d fd = some table') :
    table'.MarkedBut (· = d.toNat) := by
  obtain ⟨table₁, hput, rfl⟩ := Option.map_eq_some_iff.mp hs
  have hbut := Marked.put h hput
  refine ⟨hbut.bits, hbut.opened, fun f hf hbit ↦ (hbut.marked f hf hbit).cons ?_⟩
  intro heq
  cases heq
  exact hf rfl

theorem clearCloexec_eq_some (h : table.clearCloexec f = some table') :
    table'.files = table.files ∧ table'.log = table.log ∧
      table'.cloexec.length = table.cloexec.length ∧
      ∀ g, bitAt table'.cloexec g = if g = f then false else bitAt table.cloexec g := by
  obtain ⟨cloexec, hclear, rfl⟩ := Option.map_eq_some_iff.mp h
  exact ⟨rfl, rfl, bitClear_spec hclear⟩

theorem MarkedBut.clearCloexec {but : ℕ → Prop} (h : table.MarkedBut but)
    (hbut : ∀ g, but g → g = f) (hs : table.clearCloexec f = some table') : table'.Marked := by
  obtain ⟨hfiles, hlog, hlen, hbits⟩ := clearCloexec_eq_some hs
  have hold (g : ℕ) (hg : bitAt table'.cloexec g) : ¬but g ∧ bitAt table.cloexec g := by
    rw [hbits] at hg
    by_cases hgf : g = f
    · rw [if_pos hgf] at hg
      cases hg
    · rw [if_neg hgf] at hg
      exact ⟨fun hb ↦ hgf (hbut g hb), hg⟩
  refine ⟨?_, fun g _ hg ↦ ?_, fun g _ hg ↦ ?_⟩
  · rw [hlen, h.bits, size, size, hfiles]
  · rw [get, hfiles]
    exact h.opened g (hold g hg).1 (hold g hg).2
  · rw [hlog]
    exact h.marked g (hold g hg).1 (hold g hg).2

theorem Marked.fSetCloexec (h : table.Marked) (hf : (table.get f).isSome)
    (hs : table.fSetCloexec f = some table') : table'.Marked := by
  obtain ⟨cloexec, hset, rfl⟩ := Option.map_eq_some_iff.mp hs
  obtain ⟨hlen, hbits⟩ := bitSet_spec hset
  refine ⟨hlen.trans h.bits, fun g _ hg ↦ ?_, fun g _ hg ↦ ?_⟩
  · dsimp only at hg
    rw [hbits] at hg
    by_cases hgf : g = f
    · exact hgf ▸ hf
    · rw [if_neg hgf] at hg
      exact h.opened g id hg
  · dsimp only at hg
    rw [hbits] at hg
    by_cases hgf : g = f
    · exact hgf ▸ .marked table.log f
    · rw [if_neg hgf] at hg
      exact (h.marked g id hg).cons Note.noConfusion

/-- A larger table with the same slots and bits. -/
structure Extends (table table' : FdTable) : Prop where
  files : table'.files = table.files ++ List.replicate (table'.size - table.size) none
  bitAt : ∀ i, bitAt table'.cloexec i = bitAt table.cloexec i
  log : table'.log = table.log
  bits : table'.cloexec.length = bitsSize table'.size

theorem getElem?_append_none (files : List (Option FdId)) (k f : ℕ) :
    (files ++ List.replicate k none)[f]?.join = files[f]?.join := by
  by_cases hf : f < files.length
  · rw [List.getElem?_append_left hf]
  · have hle := Nat.not_lt.mp hf
    rw [List.getElem?_append_right hle, List.getElem?_replicate, List.getElem?_eq_none hle]
    split <;> rfl

theorem Extends.get (h : table.Extends table') (f : ℕ) : table'.get f = table.get f := by
  rw [FdTable.get, h.files, getElem?_append_none, FdTable.get]

theorem Marked.extend (h : table.Marked) (hx : table.Extends table') : table'.Marked := by
  refine ⟨hx.bits, fun f hf hbit ↦ ?_, fun f hf hbit ↦ ?_⟩
  · rw [hx.bitAt] at hbit
    rw [hx.get]
    exact h.opened f hf hbit
  · rw [hx.bitAt] at hbit
    rw [hx.log]
    exact h.marked f hf hbit

theorem Extends.refl (h : table.cloexec.length = bitsSize table.size) : table.Extends table :=
  ⟨by simp, fun _ ↦ rfl, rfl, h⟩

theorem memcpy_files (hle : table.size ≤ n) : memcpy (List.replicate n none) table.files table.size =
    some (table.files ++ List.replicate (n - table.size) none) := by
  rw [memcpy, if_pos ⟨by rwa [List.length_replicate], le_rfl⟩, List.drop_replicate, size,
    List.take_length]

/-- The table is left alone where it fails. -/
theorem fdtableResize_extends (h : table.fdtableResize n env = some (table', ret))
    (hbits : table.cloexec = [] ∨ table.cloexec.length = bitsSize table.size) :
    ret = eNomem ∧ table' = table ∨ ret = 0 ∧ table'.size = n ∧ table.Extends table' := by
  obtain ⟨_, hlt, h⟩ := Option.bind_eq_some_iff.mp h
  have hlt : table.size < n := by
    by_contra hge
    rw [guard, if_neg hge] at hlt
    cases hlt
  split at h
  · cases h
    exact .inl ⟨rfl, rfl⟩
  · rw [memcpy_files hlt.le, Option.bind_eq_bind, Option.bind_some] at h
    dsimp only at h
    obtain ⟨cloexec, hclo, h⟩ := Option.bind_eq_some_iff.mp h
    cases h
    have hsize : (table.files ++ List.replicate (n - table.size) none).length = n := by
      rw [List.length_append, List.length_replicate, ← size]
      omega
    have hspec : cloexec.length = bitsSize n ∧ ∀ i, bitAt cloexec i = bitAt table.cloexec i := by
      split at hclo
      · rename_i hnull
        cases hclo
        rw [hnull]
        exact ⟨List.length_replicate, fun i ↦ (bitAt_replicate _ i).trans (bitAt_nil i).symm⟩
      · rename_i hnull
        exact bitAt_memcpy (hbits.resolve_left hnull) hclo
    refine .inr ⟨rfl, hsize, ?_⟩
    exact {
      files := congrArg (fun k ↦ table.files ++ List.replicate (k - table.size) none) hsize.symm
      bitAt := hspec.2
      log := rfl
      bits := hspec.1.trans (congrArg bitsSize hsize.symm) }

theorem fdtableNew_marked (h : fdtableNew n env = some (table, ret)) (hret : 0 ≤ ret) :
    table.Marked ∧ table.size = n ∧ table.log = [] ∧ ∀ i, bitAt table.cloexec i = false := by
  obtain ⟨rfl, rfl⟩ | ⟨-, hsize, hx⟩ := fdtableResize_extends h (.inl rfl)
  · exact absurd hret (by decide)
  · have hclear (i : ℕ) : Isl.Util.bitAt table.cloexec i = false :=
      (hx.bitAt i).trans (bitAt_nil i)
    refine ⟨⟨hx.bits, fun f _ hbit ↦ ?_, fun f _ hbit ↦ ?_⟩, hsize, hx.log, hclear⟩
    all_goals
      rw [hclear f] at hbit
      cases hbit

theorem fdtableExpand_extends (h : table.fdtableExpand d env = some (table', ret))
    (hbits : table.cloexec.length = bitsSize table.size) :
    table.Extends table' ∧ (0 ≤ ret → (d + 1).toNat ≤ table'.size) := by
  rw [fdtableExpand] at h
  split at h
  · rename_i hle
    cases h
    exact ⟨.refl hbits, fun _ ↦ hle⟩
  · split at h
    · cases h
      exact ⟨.refl hbits, fun hpos ↦ absurd hpos (by decide)⟩
    · obtain ⟨rfl, rfl⟩ | ⟨-, hsize, hx⟩ := fdtableResize_extends h (.inr hbits)
      · exact ⟨.refl hbits, fun hpos ↦ absurd hpos (by decide)⟩
      · exact ⟨hx, fun _ ↦ hsize.ge⟩

theorem Marked.fdtableCopy (h : table.Marked) (hs : table.fdtableCopy env = some (.ok new)) :
    new.Marked ∧ new.files = table.files ∧
      ∀ i, bitAt new.cloexec i = bitAt table.cloexec i := by
  obtain ⟨⟨empty, err⟩, hnew, hs⟩ := Option.bind_eq_some_iff.mp hs
  dsimp only at hs
  split at hs
  · cases hs
  · rename_i herr
    obtain ⟨hempty, hsize, -, -⟩ := fdtableNew_marked hnew (Int.not_lt.mp herr)
    obtain ⟨files, hfiles, hs⟩ := Option.bind_eq_some_iff.mp hs
    obtain ⟨cloexec, hclo, hs⟩ := Option.bind_eq_some_iff.mp hs
    cases hs
    obtain rfl := memcpy_all hsize rfl hfiles
    obtain rfl := memcpy_all (hempty.bits.trans (by rw [hsize])) h.bits hclo
    exact ⟨⟨h.bits, h.opened, h.marked⟩, rfl, fun _ ↦ rfl⟩

theorem get_store (h : table.store d fd = some table') : table'.get d.toNat = some fd := by
  obtain ⟨table₁, hput, rfl⟩ := Option.map_eq_some_iff.mp h
  obtain ⟨hlt, rfl⟩ := put_eq_some hput
  exact (get_set table (some fd) hlt d.toNat).trans (if_pos rfl)

theorem toNat_toInt {d : Dword} (h : 0 ≤ d.toInt) : d.toInt.toNat = d.toNat := by
  rw [BitVec.toInt_eq_toNat_cond] at h ⊢
  omega

/-- A file that is installed is in the slot whose number is returned. -/
theorem Marked.fInstallStart (h : table.Marked)
    (hs : table.fInstallStart fd d env = some (table', ret)) :
    table'.Marked ∧ (0 ≤ ret → (table'.get ret.toNat).isSome) := by
  obtain ⟨f, -, hs⟩ := Option.bind_eq_some_iff.mp hs
  obtain ⟨⟨table₁, err⟩, hexp, hs⟩ := Option.bind_eq_some_iff.mp hs
  have h₁ : table₁.Marked := by
    split at hexp
    · exact h.extend (fdtableExpand_extends hexp h.bits).1
    · cases hexp
      exact h
  dsimp only at hs
  by_cases herr : err < 0
  · have hneg : ¬0 ≤ err := Int.not_le.mpr herr
    rw [if_pos herr, if_neg hneg] at hs
    cases hs
    exact ⟨h₁, fun hret ↦ absurd hret hneg⟩
  · rw [if_neg herr] at hs
    split at hs
    · obtain ⟨table₂, hstore, hs⟩ := Option.bind_eq_some_iff.mp hs
      obtain ⟨table₃, hclear, hs⟩ := Option.bind_eq_some_iff.mp hs
      cases hs
      refine ⟨(h₁.store hstore).clearCloexec (fun _ ↦ id) hclear, fun hret ↦ ?_⟩
      rw [toNat_toInt hret, get, (clearCloexec_eq_some hclear).1, ← get, get_store hstore]
      rfl
    · rename_i hneg
      cases hs
      exact ⟨h₁, fun hret ↦ absurd hret hneg⟩

theorem fGet_eq_some_some (h : table.fGet d = some (some fd)) : table.get d.toNat = some fd := by
  rw [fGet] at h
  split at h
  · exact Option.some.inj (Option.ite_none_right_eq_some.mp h).2
  · cases h

theorem fGet_eq_some_none (h : table.fGet d = some none) : table.get d.toNat = none := by
  rw [fGet] at h
  split at h
  · exact Option.some.inj (Option.ite_none_right_eq_some.mp h).2
  · rename_i hge
    rw [get, List.getElem?_eq_none (Nat.not_lt.mp hge)]
    rfl

/-- A slot that is closed is empty and has no bit. -/
theorem Marked.fClose (h : table.Marked) (hs : table.fClose d env = some (table', ret)) :
    table'.Marked ∧ table'.size = table.size ∧
      (∀ f, table'.get f = if f = d.toNat then none else table.get f) ∧
      ∀ i, bitAt table'.cloexec i = if i = d.toNat then false else bitAt table.cloexec i := by
  obtain ⟨r, hget, hs⟩ := Option.bind_eq_some_iff.mp hs
  cases r with
  | none =>
    cases hs
    have hnone := fGet_eq_some_none hget
    refine ⟨h, rfl, fun f ↦ ?_, fun i ↦ ?_⟩
    · split
      · rename_i hf
        rw [hf, hnone]
      · rfl
    · split
      · rename_i hi
        by_contra hbit
        have hopen := h.opened i id (Bool.not_eq_false _ ▸ hbit)
        rw [hi, hnone] at hopen
        cases hopen
      · rfl
  | some fd =>
    obtain ⟨table₁, hput, hs⟩ := Option.bind_eq_some_iff.mp hs
    obtain ⟨table₂, hclear, hs⟩ := Option.bind_eq_some_iff.mp hs
    cases hs
    obtain ⟨hfiles, -, -, hbits⟩ := clearCloexec_eq_some hclear
    have hmarked := (Marked.put h hput).clearCloexec (fun _ ↦ id) hclear
    obtain ⟨hlt, rfl⟩ := put_eq_some hput
    refine ⟨hmarked, ?_, fun f ↦ ?_, hbits⟩
    · rw [size, hfiles, List.length_set, size]
    · rw [← get_set table none hlt f, get, hfiles, get]

theorem Marked.fInstallFlags {flags : Dword} (h : table.Marked)
    (hs : table.fInstallFlags fd flags env = some (table', ret)) : table'.Marked := by
  obtain ⟨⟨table₁, f⟩, hinst, hs⟩ := Option.bind_eq_some_iff.mp hs
  obtain ⟨h₁, hopen⟩ := h.fInstallStart hinst
  dsimp only at hs
  split at hs
  · rename_i hf
    obtain ⟨table₂, hset, hs⟩ := Option.bind_eq_some_iff.mp hs
    cases hs
    exact h₁.fSetCloexec (hopen hf.1) hset
  · cases hs
    exact h₁

theorem Marked.sysDup (h : table.Marked) (hs : table.sysDup d env = some (table', ret)) :
    table'.Marked := by
  obtain ⟨r, -, hs⟩ := Option.bind_eq_some_iff.mp hs
  cases r with
  | none =>
    cases hs
    exact h
  | some fd => exact (h.fInstallStart hs).1

/-- `sys_dup2` clears no bit itself: `f_close` has cleared that of an open slot,
and that of an empty one is clear. -/
theorem Marked.sysDup2 (h : table.Marked) (hs : table.sysDup2 d newF env = some (table', ret)) :
    table'.Marked := by
  obtain ⟨r, -, hs⟩ := Option.bind_eq_some_iff.mp hs
  cases r with
  | none =>
    cases hs
    exact h
  | some fd =>
    obtain ⟨⟨table₁, err⟩, hexp, hs⟩ := Option.bind_eq_some_iff.mp hs
    have h₁ := h.extend (fdtableExpand_extends hexp h.bits).1
    dsimp only at hs
    split at hs
    · cases hs
      exact h₁
    · obtain ⟨⟨table₂, _⟩, hclose, hs⟩ := Option.bind_eq_some_iff.mp hs
      obtain ⟨table₃, hstore, hs⟩ := Option.bind_eq_some_iff.mp hs
      cases hs
      obtain ⟨h₂, -, -, hbits⟩ := h₁.fClose hclose
      have h₃ := h₂.store hstore
      obtain ⟨table₄, hput, rfl⟩ := Option.map_eq_some_iff.mp hstore
      obtain ⟨-, rfl⟩ := put_eq_some hput
      have hclear : bitAt table₂.cloexec newF.toNat = false := by rw [hbits, if_pos rfl]
      have hne (f : ℕ) (hf : bitAt table₂.cloexec f) : f ≠ newF.toNat := by
        intro heq
        rw [heq, hclear] at hf
        cases hf
      exact ⟨h₃.bits, fun f _ hf ↦ h₃.opened f (hne f hf) hf, fun f _ hf ↦ h₃.marked f (hne f hf) hf⟩

theorem Marked.sysFcntl64 {f cmd arg : Dword} {other : ℤ} (h : table.Marked)
    (hs : table.sysFcntl64 f cmd arg other env = some (table', ret)) : table'.Marked := by
  obtain ⟨r, hget, hs⟩ := Option.bind_eq_some_iff.mp hs
  cases r with
  | none =>
    cases hs
    exact h
  | some fd =>
    have hopen : (table.get f.toNat).isSome := by
      rw [fGet_eq_some_some hget]
      rfl
    dsimp only at hs
    split at hs
    · exact (h.fInstallStart hs).1
    · split at hs
      · obtain ⟨b, -, hs⟩ := Option.bind_eq_some_iff.mp hs
        cases hs
        exact h
      · split at hs
        · obtain ⟨table₁, hset, hs⟩ := Option.bind_eq_some_iff.mp hs
          cases hs
          split at hset
          · exact h.fSetCloexec hopen hset
          · exact h.clearCloexec (fun _ ↦ False.elim) hset
        · cases hs
          exact h

theorem Marked.call {c : Call} (h : table.Marked) (hs : table.call env c = some (table', ret)) :
    table'.Marked := by
  cases c with
  | fInstall fd => exact (h.fInstallStart hs).1
  | fInstallFlags fd flags => exact h.fInstallFlags hs
  | dup f => exact h.sysDup hs
  | dup2 f newF => exact h.sysDup2 hs
  | fcntl f cmd arg other => exact h.sysFcntl64 hs
  | close f => exact (h.fClose hs).1
  | resize n =>
    obtain ⟨-, rfl⟩ | ⟨-, -, hx⟩ := fdtableResize_extends hs (.inr h.bits)
    · exact h
    · exact h.extend hx

/-! The loop of `sys_execve`. -/

theorem bitTest_eq_true (h : table.Marked) {f : ℕ} :
    bitTest f table.cloexec = some true ↔ bitAt table.cloexec f := by
  rw [bitTest_eq_some]
  constructor
  · intro hb
    exact hb.2
  · intro hb
    have hlt := lt_bitsSize (lt_of_get (h.opened f id hb))
    exact ⟨by rwa [h.bits], hb⟩

theorem toNat_ofNat_of_lt (h : f < 2 ^ 31) : (BitVec.ofNat 32 f).toNat = f := by
  rw [BitVec.toNat_ofNat]
  omega

theorem Marked.execCloseAt (h : table.Marked) (hs : execCloseAt env table f = some table') :
    table'.Marked ∧ table'.size = table.size ∧
      (∀ g, table'.get g = if g = f ∧ bitAt table.cloexec g then none else table.get g) ∧
      ∀ i, bitAt table'.cloexec i = if i = f then false else bitAt table.cloexec i := by
  obtain ⟨_, hlt, hs⟩ := Option.bind_eq_some_iff.mp hs
  have hlt : f < 2 ^ 31 := by
    by_contra hge
    rw [guard, if_neg hge] at hlt
    cases hlt
  obtain ⟨b, hb, hs⟩ := Option.bind_eq_some_iff.mp hs
  have hbit := (bitTest_eq_some.mp hb).2
  cases b with
  | false =>
    cases hs
    refine ⟨h, rfl, fun g ↦ ?_, fun i ↦ ?_⟩
    · rw [if_neg]
      intro hg
      rw [hg.1, hbit] at hg
      cases hg.2
    · split
      · rename_i hi
        rw [hi, hbit]
      · rfl
  | true =>
    obtain ⟨⟨table₁, ret⟩, hclose, rfl⟩ := Option.map_eq_some_iff.mp hs
    obtain ⟨hmarked, hsize, hget, hbits⟩ := h.fClose hclose
    rw [toNat_ofNat_of_lt hlt] at hget hbits
    refine ⟨hmarked, hsize, fun g ↦ ?_, hbits⟩
    rw [hget]
    by_cases hg : g = f
    · rw [if_pos hg, if_pos ⟨hg, hg ▸ hbit⟩]
    · rw [if_neg hg, if_neg fun hg' ↦ hg hg'.1]

theorem Marked.execCloseBelow (h : table.Marked)
    (hs : (List.range n).foldlM (FdTable.execCloseAt env) table = some table') :
    table'.Marked ∧ table'.size = table.size ∧
      (∀ f, table'.get f = if f < n ∧ bitAt table.cloexec f then none else table.get f) ∧
      ∀ i, bitAt table'.cloexec i = if i < n then false else bitAt table.cloexec i := by
  induction n generalizing table' with
  | zero =>
    cases hs
    simp [h]
  | succ n ih =>
    rw [List.range_succ, List.foldlM_append] at hs
    obtain ⟨table₁, hfold, hs⟩ := Option.bind_eq_some_iff.mp hs
    obtain ⟨h₁, hsize₁, hget₁, hbits₁⟩ := ih hfold
    obtain ⟨table₂, hlast, hs⟩ := Option.bind_eq_some_iff.mp hs
    cases hs
    obtain ⟨h₂, hsize₂, hget₂, hbits₂⟩ := h₁.execCloseAt hlast
    refine ⟨h₂, hsize₂.trans hsize₁, fun f ↦ ?_, fun i ↦ ?_⟩
    · rw [hget₂, hget₁, hbits₁]
      by_cases hf : f = n
      · subst hf
        simp
      · have hlt : f < n + 1 ↔ f < n := by omega
        simp [hf, hlt]
    · rw [hbits₂, hbits₁]
      by_cases hi : i = n
      · simp [hi]
      · have hlt : i < n + 1 ↔ i < n := by omega
        simp [hi, hlt]

theorem Marked.execCloseAt_isSome (h : table.Marked) (hf : f < table.size) (hlt : f < 2 ^ 31) :
    ∃ table', FdTable.execCloseAt env table f = some table' := by
  have hbyte : f < 8 * table.cloexec.length := by
    rw [h.bits]
    exact lt_bitsSize hf
  have htest : bitTest f table.cloexec = some (bitAt table.cloexec f) :=
    bitTest_eq_some.mpr ⟨hbyte, rfl⟩
  rw [FdTable.execCloseAt, guard, if_pos hlt, htest]
  by_cases hbit : bitAt table.cloexec f = true
  · obtain ⟨fd, hfd⟩ := Option.isSome_iff_exists.mp (h.opened f id hbit)
    obtain ⟨cloexec, hclear⟩ := bitClear_isSome hbyte
    have hnat := toNat_ofNat_of_lt hlt
    have hpos : 0 ≤ (BitVec.ofNat 32 f).toInt := by
      rw [BitVec.toInt_eq_toNat_cond, hnat]
      omega
    have hget : table.fGet (BitVec.ofNat 32 f) = some (some fd) := by
      rw [fGet, hnat, if_pos hf, if_pos hpos, hfd]
    have hput : table.put (BitVec.ofNat 32 f) none =
        some { table with files := table.files.set f none } := by
      rw [FdTable.put, hnat, if_pos ⟨hpos, hf⟩]
    have hclose : table.fClose (BitVec.ofNat 32 f) env = some
        ({ table with files := table.files.set f none, cloexec := cloexec }, env.close) := by
      rw [FdTable.fClose, hget, Option.bind_eq_bind, Option.bind_some]
      dsimp only
      rw [hput, Option.bind_eq_bind, Option.bind_some, clearCloexec, hnat, hclear]
      rfl
    refine ⟨{ table with files := table.files.set f none, cloexec := cloexec }, ?_⟩
    simp only [hbit, Option.pure_def, Option.bind_eq_bind, Option.bind_some, if_true, hclose]
    rfl
  · refine ⟨table, ?_⟩
    simp only [hbit, Option.pure_def, Option.bind_eq_bind, Option.bind_some]
    rfl

theorem Marked.execCloseBelow_isSome (h : table.Marked) (hn : n ≤ table.size) (hlt : n ≤ 2 ^ 31) :
    ∃ table', (List.range n).foldlM (FdTable.execCloseAt env) table = some table' := by
  induction n with
  | zero => exact ⟨table, rfl⟩
  | succ n ih =>
    obtain ⟨table₁, hfold⟩ := ih (by omega) (by omega)
    obtain ⟨h₁, hsize₁, -, -⟩ := h.execCloseBelow hfold
    obtain ⟨table₂, hlast⟩ := @Marked.execCloseAt_isSome table₁ env n h₁ (by omega) (by omega)
    refine ⟨table₂, ?_⟩
    rw [List.range_succ, List.foldlM_append, hfold]
    exact Option.bind_eq_some_iff.mpr ⟨table₁, rfl, Option.bind_eq_some_iff.mpr ⟨table₂, hlast, rfl⟩⟩

end FdTable

theorem marked_step {s s' : List FdTable} {ev : Event} (h : ∀ table ∈ s, table.Marked)
    (hs : step s ev = some s') : ∀ table ∈ s', table.Marked := by
  cases ev with
  | call t c env =>
    obtain ⟨table, htable, hs⟩ := Option.bind_eq_some_iff.mp hs
    obtain ⟨⟨table₁, ret⟩, hcall, hs⟩ := Option.bind_eq_some_iff.mp hs
    cases hs
    intro table' hmem
    obtain hmem | rfl := List.mem_or_eq_of_mem_set hmem
    · exact h table' hmem
    · exact (h table (List.mem_of_getElem? htable)).call hcall
  | copy t env =>
    obtain ⟨table, htable, hs⟩ := Option.bind_eq_some_iff.mp hs
    obtain ⟨r, hcopy, hs⟩ := Option.bind_eq_some_iff.mp hs
    cases r with
    | error err =>
      cases hs
      exact h
    | ok new =>
      cases hs
      intro table' hmem
      obtain hmem | hmem := List.mem_append.mp hmem
      · exact h table' hmem
      · obtain rfl := List.mem_singleton.mp hmem
        exact ((h table (List.mem_of_getElem? htable)).fdtableCopy hcopy).1

/-- A slot with the bit is open and was marked since it was opened, and after the
loop of `sys_execve` the slots with the bit are empty and the others unchanged.
The loop ends unless its signed counter overflows. -/
theorem cloexec_of_reaches {s : List FdTable}
    (hnew : FdTable.fdtableNew n env = some (new, 0))
    (h : Reaches step (fun _ _ ↦ True) [new] s) (hmem : table ∈ s) :
    (∀ f, bitTest f table.cloexec = some true →
      (table.get f).isSome ∧ MarkedSinceOpened table.log f) ∧
    ∀ env,
      (∀ table', table.execClose env = some table' → ∀ f, table'.get f =
        if bitTest f table.cloexec = some true then none else table.get f) ∧
      (table.size ≤ 2 ^ 31 → ∃ table', table.execClose env = some table') := by
  have hnew := (FdTable.fdtableNew_marked hnew le_rfl).1
  have hall : ∀ table ∈ s, table.Marked :=
    h.invariant (fun t ht ↦ List.mem_singleton.mp ht ▸ hnew) fun _ _ _ ht _ hs ↦ marked_step ht hs
  have hmarked := hall table hmem
  refine ⟨fun f hf ↦ ?_, fun env ↦ ⟨fun table' hs f ↦ ?_, fun hsize ↦ ?_⟩⟩
  · have hbit := (FdTable.bitTest_eq_true hmarked).mp hf
    exact ⟨hmarked.opened f id hbit, hmarked.marked f id hbit⟩
  · obtain ⟨-, -, hget, -⟩ := hmarked.execCloseBelow hs
    rw [hget]
    refine if_congr ?_ rfl rfl
    rw [FdTable.bitTest_eq_true hmarked]
    constructor
    · intro hf
      exact hf.2
    · intro hf
      exact ⟨FdTable.lt_of_get (hmarked.opened f id hf), hf⟩
  · exact hmarked.execCloseBelow_isSome le_rfl hsize

theorem cloexec_marked : ∃ table table' : FdTable, bitTest 0 table.cloexec = some true ∧
    MarkedSinceOpened table.log 0 ∧ table.execClose ⟨1024, false, 0⟩ = some table' ∧
      table'.get 0 = none := by
  have hnew : FdTable.fdtableNew 3 ⟨1024, false, 0⟩ =
      some (⟨[none, none, none], [0], []⟩, 0) := rfl
  let env : Env := ⟨1024, false, 0⟩
  have hreach : Reaches step (fun _ _ ↦ True) [⟨[none, none, none], [0], []⟩]
      [⟨[some 7, none, none], [1], [.marked 0, .opened 0]⟩] :=
    .next (a := .call 0 (.fcntl 0 2 1 0) env)
      (.next (a := .call 0 (.fInstall 7) env) .start trivial rfl) trivial rfl
  obtain ⟨hbits, hexec⟩ := cloexec_of_reaches hnew hreach List.mem_cons_self
  obtain ⟨table', hclose⟩ := (hexec env).2 (by decide)
  exact ⟨_, table', rfl, (hbits 0 rfl).2, hclose, (hexec env).1 table' hclose 0⟩

end

end Isl.Fs.Cloexec
