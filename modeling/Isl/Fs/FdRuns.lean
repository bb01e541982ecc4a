import Isl.Fs.FdCounts
import Isl.Lib.Owners
import Isl.Lib.Run

/-!
Runs of the calls on open files, by the tasks that have descriptor tables and
directories: the counts of open files stay exact.
-/

namespace Isl.Fs.OpenFiles

open Isl.Lib Isl.Lib.Run

/-- The tasks, with what their `files` and `fs` point to. -/
structure Tasks where
  files : Files
  task : ℕ → Option (TableId × FsId)

inductive Event
  | install (i : ℕ) (fd : Fd) (noMemory : Bool)
  | close (i : ℕ) (f : Dword)
  | dup (i : ℕ) (f : Dword) (noMemory : Bool)
  | dupFrom (i : ℕ) (f start : Dword) (noMemory : Bool)
  | dup2 (i : ℕ) (f newF : Dword) (noMemory : Bool)
  | chdir (i : ℕ) (fd : Fd)
  | fchdir (i : ℕ) (f : Dword)
  | fork (i child : ℕ) (shareFiles shareFs noMemory fails : Bool)
  | exit (i : ℕ)

namespace Files

/-- The table of a new task. -/
def newTable (s : Files) (t : TableId) (share noMemory : Bool) :
    Option (Except ℤ (TableId × Files)) :=
  if share then (s.tables.retain t).map fun tables ↦ .ok (t, { s with tables := tables })
  else s.fdtableCopy t noMemory

/-- The directories of a new task. -/
def newFs (s : Files) (x : FsId) (share : Bool) : Option (FsId × Files) :=
  if share then (s.fsInfos.retain x).map fun fsInfos ↦ (x, { s with fsInfos := fsInfos })
  else s.fsInfoCopy x false

end Files

namespace Tasks

/-- A call of a task on its own table. -/
def call (s : Tasks) (i : ℕ) (f : TableId → Option (Files × ℤ)) : Option Tasks := do
  let (t, _) ← s.task i
  let (files, _) ← f t
  some { s with files := files }

/-- What `copy_task` does with files and directories. `fails` says that it
leaves through a label after it has copied both. -/
def fork (s : Tasks) (i child : ℕ) (shareFiles shareFs noMemory fails : Bool) : Option Tasks := do
  let (t, x) ← s.task i
  match ← s.files.newTable t shareFiles noMemory with
  | .error _ => some s
  | .ok (t', files) =>
    let (x', files) ← files.newFs x shareFs
    if fails then
      let files ← files.fsInfoRelease x'
      let files ← files.fdtableRelease t t'
      some { s with files := files }
    else some { files := files, task := Function.update s.task child (some (t', x')) }

/-- What `do_exit` releases of them. -/
def exit (s : Tasks) (i : ℕ) : Option Tasks := do
  let (t, x) ← s.task i
  let files ← s.files.fdtableRelease t t
  let files ← files.fsInfoRelease x
  some { files := files, task := Function.update s.task i none }

def step (s : Tasks) : Event → Option Tasks
  | .install i fd noMemory => s.call i (s.files.fInstall · fd noMemory)
  | .close i f => s.call i (s.files.sysClose · f)
  | .dup i f noMemory => s.call i (s.files.sysDup · f noMemory)
  | .dupFrom i f start noMemory => s.call i (s.files.dupFrom · f start noMemory)
  | .dup2 i f newF noMemory => s.call i (s.files.sysDup2 · f newF noMemory)
  | .chdir i fd => do
    let (_, x) ← s.task i
    let files ← s.files.sysChdir x fd
    some { s with files := files }
  | .fchdir i f => do
    let (t, x) ← s.task i
    let (files, _) ← s.files.sysFchdir t x f
    some { s with files := files }
  | .fork i child shareFiles shareFs noMemory fails =>
    s.fork i child shareFiles shareFs noMemory fails
  | .exit i => s.exit i

/-- The task exists, and the one to be made does not. -/
def Enabled (s : Tasks) : Event → Prop
  | .install i _ _ | .close i _ | .dup i _ _ | .dupFrom i _ _ _ | .dup2 i _ _ _ | .chdir i _
  | .fchdir i _ | .exit i => (s.task i).isSome
  | .fork i child _ _ _ _ => (s.task i).isSome ∧ s.task child = none

/-- A `dup2` of an open file names a number that is in range and is not the only
reference to the file, and a fork that fails has not copied an open file. -/
def Keeps (s : Tasks) : Event → Prop
  | .dup2 i f newF _ => ∀ t x, s.task i = some (t, x) → s.files.Dup2Fits t f newF
  | .fork i _ shareFiles _ noMemory fails =>
    fails → shareFiles ∨ noMemory ∨
      ∀ t x, s.task i = some (t, x) → (s.files.tables.val t).opened = []
  | _ => True

/-- Every count is the number of references, and no slot or directory holds a
closed file. -/
structure Exact (s : Tasks) : Prop where
  counts : ∀ d, s.files.fds.refcount d = s.files.refs d
  slots : ∀ t f d, s.files.tables.live t → (s.files.tables.val t).get f = some d →
    s.files.fds.live d
  dirs : ∀ x, s.files.fsInfos.live x →
    s.files.fds.live (s.files.fsInfos.val x).pwd ∧ s.files.fds.live (s.files.fsInfos.val x).root

structure Inv (s : Tasks) : Prop where
  accounted : s.files.Accounted []
  tables : Owned s.files.tables.refcount fun i ↦ (s.task i).map Prod.fst
  fsInfos : Owned s.files.fsInfos.refcount fun i ↦ (s.task i).map Prod.snd

end Tasks

section

variable {s s' : Files} {t x : ℕ} {held : List FdId}

namespace Files

theorem Accounted.retainTable {tables : Pool FdTable} (h : s.Accounted held)
    (ht : s.tables.live t) (hr : Pool.Retained t s.tables tables) :
    { s with tables := tables }.Accounted held := by
  refine h.withTables (fun d ↦ by rw [hr.total ht (·.slots d)]) fun u hu ↦ ?_
  rw [hr.val]
  refine h.sized u ?_
  by_cases hut : u = t
  · exact hut ▸ ht
  · simpa [Pool.live, hr.refcount, hut] using hu

theorem Accounted.newTable (h : s.Accounted held) (ht : s.tables.live t) {share noMemory : Bool}
    (hm : share = true ∨ noMemory = false) :
    ∃ t' s', s.newTable t share noMemory = some (.ok (t', s')) ∧ s'.Accounted held ∧
      s'.fsInfos.refcount = s.fsInfos.refcount ∧
      (∀ u, s'.tables.refcount u = s.tables.refcount u + if u = t' then 1 else 0) ∧
      (s'.tables.val t = s.tables.val t) ∧
      (share = false → s'.tables.val t' = s.tables.val t) ∧ (share = true → t' = t) := by
  unfold Files.newTable
  cases share with
  | true =>
    obtain ⟨tables, htables, hr⟩ := Pool.retain_of_live ht
    rw [if_pos rfl, htables]
    refine ⟨t, _, rfl, h.retainTable ht hr, rfl, hr.refcount, congrFun hr.val t, fun hf ↦ ?_,
      fun _ ↦ rfl⟩
    cases hf
  | false =>
    obtain rfl := hm.resolve_left Bool.false_ne_true
    obtain ⟨s', hs', h', hfs, htables⟩ := h.fdtableCopy ht
    rw [if_neg Bool.false_ne_true]
    refine ⟨_, s', hs', h', by rw [hfs], fun u ↦ ?_, ?_, fun _ ↦ ?_, fun hf ↦ ?_⟩
    · rw [htables, Pool.refcount_alloc]
    · rw [htables, Pool.val_alloc, if_neg (Nat.ne_of_lt ht.lt)]
    · rw [htables, Pool.val_alloc, if_pos rfl]
    · cases hf

theorem Accounted.newFs (h : s.Accounted held) (hx : s.fsInfos.live x) (share : Bool) :
    ∃ x' s', s.newFs x share = some (x', s') ∧ s'.Accounted held ∧ s'.tables = s.tables ∧
      ∀ y, s'.fsInfos.refcount y = s.fsInfos.refcount y + if y = x' then 1 else 0 := by
  unfold Files.newFs
  cases share with
  | true =>
    obtain ⟨fsInfos, hfs, hr⟩ := Pool.retain_of_live hx
    rw [if_pos rfl, hfs]
    refine ⟨x, _, rfl, h.withFsInfos fun d ↦ ?_, rfl, hr.refcount⟩
    rw [hr.total hx (·.dirs d)]
  | false =>
    obtain ⟨s', hs', h', htables, hfs⟩ := h.fsInfoCopy hx
    rw [if_neg Bool.false_ne_true]
    refine ⟨_, s', hs', h', htables, fun y ↦ ?_⟩
    rw [hfs, Pool.refcount_alloc]

end Files

namespace Tasks

variable {k k' : Tasks} {i child : ℕ} {files : Files}

theorem Inv.liveTable (h : k.Inv) (hi : k.task i = some (t, x)) : k.files.tables.live t :=
  h.tables.pos (i := i) (by rw [hi]; rfl)

theorem Inv.liveFs (h : k.Inv) (hi : k.task i = some (t, x)) : k.files.fsInfos.live x :=
  h.fsInfos.pos (i := i) (by rw [hi]; rfl)

theorem Inv.same (h : k.Inv) (ha : files.Accounted []) (ho : Files.SameOwners k.files files) :
    { k with files := files }.Inv :=
  ⟨ha, ho.tables ▸ h.tables, ho.fsInfos ▸ h.fsInfos⟩

theorem Inv.call {f : TableId → Option (Files × ℤ)} (h : k.Inv) (hi : k.task i = some (t, x))
    (hf : ∃ files r, f t = some (files, r) ∧ files.Accounted [] ∧
      Files.SameOwners k.files files) : ∃ k', k.call i f = some k' ∧ k'.Inv := by
  obtain ⟨files, r, hfiles, ha, ho⟩ := hf
  rw [Tasks.call, hi, Option.bind_eq_bind, Option.bind_some]
  dsimp only
  rw [hfiles]
  exact ⟨_, rfl, h.same ha ho⟩

theorem map_update (own : ℕ → Option (TableId × FsId)) (i : ℕ) (o : Option (TableId × FsId))
    (g : TableId × FsId → ℕ) : (fun j ↦ (Function.update own i o j).map g) =
      Function.update (fun j ↦ (own j).map g) i (o.map g) := by
  funext j
  by_cases hj : j = i
  · subst hj
    simp
  · simp [hj]

theorem Inv.fork (h : k.Inv) (hi : k.task i = some (t, x)) (hchild : k.task child = none)
    {shareFiles shareFs noMemory fails : Bool}
    (hkeeps : k.Keeps (.fork i child shareFiles shareFs noMemory fails)) :
    ∃ k', k.fork i child shareFiles shareFs noMemory fails = some k' ∧ k'.Inv := by
  have ht := h.liveTable hi
  rw [Tasks.fork, hi, Option.bind_eq_bind, Option.bind_some]
  dsimp only
  by_cases hm : shareFiles = true ∨ noMemory = false
  · obtain ⟨t', s₁, hs₁, h₁, hfs₁, htables₁, hval₁, hcopy₁, hshare₁⟩ := h.accounted.newTable ht hm
    have hx₁ : s₁.fsInfos.live x := by
      rw [Pool.live, hfs₁]
      exact h.liveFs hi
    obtain ⟨x', s₂, hs₂, h₂, htables₂, hfs₂⟩ := h₁.newFs hx₁ shareFs
    rw [hs₁, Option.bind_eq_bind, Option.bind_some]
    dsimp only
    rw [hs₂, Option.bind_eq_bind, Option.bind_some]
    dsimp only
    cases fails with
    | true =>
      have hx₂ : s₂.fsInfos.live x' := by
        rw [Pool.live, hfs₂, if_pos rfl]
        exact Nat.succ_ne_zero _
      obtain ⟨s₃, hs₃, h₃, htables₃, hfs₃⟩ := h₂.fsInfoRelease hx₂
      have htables : s₃.tables = s₁.tables := htables₃.trans htables₂
      have hlive (u : ℕ) (hu : k.files.tables.live u ∨ u = t') : s₃.tables.live u := by
        rw [Pool.live, htables, htables₁]
        rcases hu with hu | rfl
        · exact fun heq ↦ hu (Nat.eq_zero_of_add_eq_zero_right heq)
        · rw [if_pos rfl]
          exact Nat.succ_ne_zero _
      have hempty : t = t' ∨ s₃.tables.refcount t' ≠ 1 ∨
          (∀ f, (s₃.tables.val t').get f = none) ∧ ∀ f, (s₃.tables.val t).get f = none := by
        rw [htables]
        cases shareFiles with
        | true => exact .inl (hshare₁ rfl).symm
        | false =>
          have hnm := hm.resolve_left Bool.false_ne_true
          obtain hs | hn | ho := hkeeps rfl
          · cases hs
          · rw [hnm] at hn
            cases hn
          · have hnone := FdTable.get_of_opened_nil (ho t x hi)
            rw [hcopy₁ rfl, hval₁]
            exact .inr (.inr ⟨hnone, hnone⟩)
      obtain ⟨s₄, hs₄, h₄, hfs₄, htables₄⟩ :=
        h₃.fdtableRelease (hlive t' (.inr rfl)) (hlive t (.inl ht)) hempty
      rw [if_pos rfl, hs₃, Option.bind_eq_bind, Option.bind_some, hs₄]
      refine ⟨_, rfl, h.same h₄ ⟨?_, ?_⟩⟩
      · funext u
        have hu := htables₄ u
        rw [htables, htables₁ u] at hu
        omega
      · funext y
        have hy := hfs₃ y
        rw [hfs₂ y, hfs₁] at hy
        rw [hfs₄]
        omega
    | false =>
      rw [if_neg Bool.false_ne_true]
      refine ⟨_, rfl, h₂, ?_, ?_⟩
      · dsimp only
        rw [map_update, htables₂]
        exact h.tables.add (by rw [hchild]; rfl) htables₁
      · dsimp only
        rw [map_update]
        refine h.fsInfos.add (by rw [hchild]; rfl) fun y ↦ ?_
        rw [hfs₂, hfs₁]
  · simp only [not_or, Bool.not_eq_true, Bool.not_eq_false] at hm
    obtain ⟨rfl, rfl⟩ := hm
    have herr : k.files.newTable t false true = some (.error eNomem) := by
      rw [Files.newTable, if_neg Bool.false_ne_true, Files.fdtableCopy, Pool.get_of_live ht]
      rfl
    rw [herr]
    exact ⟨k, rfl, h⟩

theorem Inv.exit (h : k.Inv) (hi : k.task i = some (t, x)) : ∃ k', k.exit i = some k' ∧ k'.Inv := by
  have ht := h.liveTable hi
  obtain ⟨s₁, hs₁, h₁, hfs₁, htables₁⟩ := h.accounted.fdtableRelease ht ht (.inl rfl)
  have hx₁ : s₁.fsInfos.live x := by
    rw [Pool.live, hfs₁]
    exact h.liveFs hi
  obtain ⟨s₂, hs₂, h₂, htables₂, hfs₂⟩ := h₁.fsInfoRelease hx₁
  rw [Tasks.exit, hi, Option.bind_eq_bind, Option.bind_some]
  dsimp only
  rw [hs₁, Option.bind_eq_bind, Option.bind_some, hs₂]
  refine ⟨_, rfl, h₂, ?_, ?_⟩
  · dsimp only
    rw [map_update, htables₂]
    exact h.tables.drop (by rw [hi]; rfl) htables₁
  · dsimp only
    rw [map_update]
    refine h.fsInfos.drop (by rw [hi]; rfl) fun y ↦ ?_
    rw [← hfs₂, hfs₁]

/-- One call has a result, and keeps the invariant. -/
theorem Inv.step {ev : Event} (h : k.Inv) (he : k.Enabled ev) (hk : k.Keeps ev) :
    ∃ k', k.step ev = some k' ∧ k'.Inv := by
  cases ev with
  | fork i child shareFiles shareFs noMemory fails =>
    obtain ⟨⟨t, x⟩, hi⟩ := Option.isSome_iff_exists.mp he.1
    exact h.fork hi he.2 hk
  | install i fd noMemory =>
    obtain ⟨⟨t, x⟩, hi⟩ := Option.isSome_iff_exists.mp he
    exact h.call (f := (k.files.fInstall · fd noMemory)) hi
      (h.accounted.fInstall (h.liveTable hi) fd noMemory)
  | close i f =>
    obtain ⟨⟨t, x⟩, hi⟩ := Option.isSome_iff_exists.mp he
    obtain ⟨s', err, hs', ha, ho, -⟩ := h.accounted.fClose (h.liveTable hi) f.toNat
    exact h.call (f := (k.files.sysClose · f)) hi ⟨s', err, hs', ha, ho⟩
  | dup i f noMemory =>
    obtain ⟨⟨t, x⟩, hi⟩ := Option.isSome_iff_exists.mp he
    exact h.call (f := (k.files.sysDup · f noMemory)) hi
      (h.accounted.dupFrom (h.liveTable hi) f 0 noMemory)
  | dupFrom i f start noMemory =>
    obtain ⟨⟨t, x⟩, hi⟩ := Option.isSome_iff_exists.mp he
    exact h.call (f := (k.files.dupFrom · f start noMemory)) hi
      (h.accounted.dupFrom (h.liveTable hi) f start noMemory)
  | dup2 i f newF noMemory =>
    obtain ⟨⟨t, x⟩, hi⟩ := Option.isSome_iff_exists.mp he
    exact h.call (f := (k.files.sysDup2 · f newF noMemory)) hi
      (h.accounted.sysDup2 (h.liveTable hi) (hk t x hi) noMemory)
  | chdir i fd =>
    obtain ⟨⟨t, x⟩, hi⟩ := Option.isSome_iff_exists.mp he
    obtain ⟨s', hs', ha, ho⟩ := h.accounted.sysChdir (h.liveFs hi) fd
    refine ⟨{ k with files := s' }, ?_, h.same ha ho⟩
    simp [Tasks.step, hi, hs']
  | fchdir i f =>
    obtain ⟨⟨t, x⟩, hi⟩ := Option.isSome_iff_exists.mp he
    obtain ⟨s', r, hs', ha, ho⟩ := h.accounted.sysFchdir (h.liveTable hi) (h.liveFs hi) f
    refine ⟨{ k with files := s' }, ?_, h.same ha ho⟩
    simp [Tasks.step, hi, hs']
  | exit i =>
    obtain ⟨⟨t, x⟩, hi⟩ := Option.isSome_iff_exists.mp he
    exact h.exit hi

theorem Inv.exact (h : k.Inv) : k.Exact := by
  refine ⟨fun d ↦ h.accounted.counts d, fun t f d ht ↦ h.accounted.live_of_get ht, fun x hx ↦ ?_⟩
  exact ⟨h.accounted.live_pwd hx, h.accounted.live_root hx⟩

/-- The first process with its standard descriptors, after `create_stdio`. -/
def boot : Tasks where
  files :=
    { fds := .ofCounts [2, 3] fun _ ↦ ⟨0⟩
      tables := .ofCounts [1] fun _ ↦ ⟨[some 1, some 1, some 1], fun _ ↦ false⟩
      fsInfos := .ofCounts [1] fun _ ↦ ⟨0o22, 0, 0⟩ }
  task := Function.update (fun _ ↦ none) 0 (some (0, 0))

theorem boot_counts (d : FdId) : boot.files.fds.refcount d = boot.files.refs d := by
  match d with
  | 0 => rfl
  | 1 => rfl
  | d + 2 =>
    have hcount : boot.files.fds.refcount (d + 2) = 0 := rfl
    have hrefs : boot.files.refs (d + 2) = 0 := by
      simp [Files.refs, boot, Pool.total, Pool.ofCounts, Pool.live, FdTable.slots, FsInfo.dirs]
    rw [hcount, hrefs]

theorem boot_owned (g : TableId × FsId → ℕ) (hg : g (0, 0) = 0) :
    Owned (fun i ↦ [1].getD i 0) fun i ↦ (boot.task i).map g := by
  have hone : Owned (fun i ↦ (0 : ℕ) + if i = 0 then 1 else 0)
      (Function.update (fun _ ↦ none) 0 (some 0)) :=
    Owned.add (i := 0) (x := 0) ⟨by simp, by simp⟩ rfl fun _ ↦ rfl
  have hown : (fun i ↦ (boot.task i).map g) = Function.update (fun _ ↦ none) 0 (some 0) := by
    rw [boot, map_update, Option.map_some, hg]
    rfl
  rw [hown]
  convert hone using 2 with i
  match i with
  | 0 => rfl
  | _ + 1 => rfl

theorem boot_inv : boot.Inv where
  accounted := by
    refine ⟨boot_counts, fun t ht ↦ ?_⟩
    obtain rfl : t = 0 := Nat.lt_one_iff.mp ht.lt
    decide
  tables := boot_owned Prod.fst rfl
  fsInfos := boot_owned Prod.snd rfl

/-- While no `dup2` and no failed fork goes wrong, every count is exact, and the
next call has a result. -/
theorem exact_of_reaches
    (h : Reaches Tasks.step (fun s ev ↦ s.Enabled ev ∧ s.Keeps ev) boot k) :
    k.Exact ∧ ∀ ev, k.Enabled ev → k.Keeps ev → (k.step ev).isSome := by
  have hinv : k.Inv := h.invariant boot_inv fun s t ev hs hev ht ↦ by
    obtain ⟨t', ht', hi⟩ := hs.step hev.1 hev.2
    rw [ht'] at ht
    cases ht
    exact hi
  refine ⟨hinv.exact, fun ev he hk ↦ ?_⟩
  obtain ⟨k', hk', -⟩ := hinv.step he hk
  rw [hk']
  rfl

/-- A fork, whose child moves a descriptor onto another. -/
theorem exact_of_forked : ∃ k, exec Tasks.step boot
    [.fork 0 1 false false false false, .dup2 1 0 1 false, .close 1 0, .exit 0] = some k ∧
    k.Exact := by
  have hguarded : Guarded Tasks.step (fun s ev ↦ s.Enabled ev ∧ s.Keeps ev) boot
      [.fork 0 1 false false false false, .dup2 1 0 1 false, .close 1 0, .exit 0] := by
    refine ⟨⟨⟨rfl, rfl⟩, fun hf ↦ nomatch hf⟩, fun s hs ↦ ?_⟩
    cases hs
    refine ⟨⟨rfl, fun t x hi d hd ↦ ?_⟩, fun s hs ↦ ?_⟩
    · cases hi
      exact ⟨by decide, fun heq ↦ absurd heq (by decide)⟩
    · cases hs
      refine ⟨⟨rfl, trivial⟩, fun s hs ↦ ?_⟩
      cases hs
      exact ⟨⟨rfl, trivial⟩, fun _ _ ↦ trivial⟩
  exact ⟨_, rfl, (exact_of_reaches (.of_exec hguarded rfl)).1⟩

/-- `dup2` of the only descriptor of a file onto itself goes on with the freed
file, onto `-1` it stores outside of the table, and a fork that fails leaves
the counts of its copy behind. -/
theorem dup2_stuck :
    (∃ k, Reaches Tasks.step Tasks.Enabled boot k ∧ k.Enabled (.dup2 0 0 0 false) ∧
      k.step (.dup2 0 0 0 false) = none) ∧
    boot.Enabled (.dup2 0 0 (-1) false) ∧ boot.step (.dup2 0 0 (-1) false) = none ∧
    ∃ k, Reaches Tasks.step Tasks.Enabled boot k ∧ ¬k.Exact := by
  have hclosed : ∃ k, Reaches Tasks.step Tasks.Enabled boot k ∧ k.Enabled (.dup2 0 0 0 false) ∧
      k.step (.dup2 0 0 0 false) = none :=
    ⟨_, .next (a := .close 0 2) (.next (a := .close 0 1) .start rfl rfl) rfl rfl, rfl, rfl⟩
  refine ⟨hclosed, rfl, rfl, _, .next (a := .fork 0 1 false false false true) .start ⟨rfl, rfl⟩ rfl,
    fun h ↦ ?_⟩
  exact absurd (h.counts 1) (by decide)

end Tasks

end

end Isl.Fs.OpenFiles
