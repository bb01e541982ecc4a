import Isl.Kernel.Exec
import Mathlib.Algebra.Group.Pi.Basic
import Mathlib.Tactic.Abel

/-!
The ways out of `elf_exec`, whatever the host and the memory answer: what is
returned, and what is still held, when it is over.
-/

namespace Isl.Kernel.Exec

open Isl.Lib Isl.Emu.Memory
open Isl.Kernel.Mmap (Dword badPage)

variable {α β σ : Type}

/-- What has to be given back. -/
inductive Resource
  | lock
  | fd
  | memory (alloc : Alloc)
deriving DecidableEq

/-- The points at which loading fails. -/
inductive Failure
  | headers
  | mapping
  | hole (hole : Hole)
  | copying
deriving DecidableEq

/-- For each resource, how much more often it was taken than given back, with
what has failed so far and the registers that were set. -/
structure Ledger where
  due : Resource → ℤ
  failures : List Failure
  cpu : Option (Addr × Addr)

namespace Ledger

def start : Ledger := ⟨0, [], none⟩

/-- More that has to be given back. -/
def owe (l : Ledger) (due : Resource → ℤ) : Ledger := { l with due := l.due + due }

def take (l : Ledger) (r : Resource) : Ledger := l.owe (Pi.single r 1)

def release (l : Ledger) (r : Resource) : Ledger := l.owe (-Pi.single r 1)

def fail (l : Ledger) (failure : Option Failure) : Ledger :=
  { l with failures := l.failures ++ failure.toList }

end Ledger

/-- The failure that an answer is. `user_write_string` fails at the null pointer. -/
def failure : (op : ElfOp) → op.Reply → Option Failure
  | .lseek _ _, (r : ℤ) => if r < 0 then some .headers else none
  | .read _ part size, (r : ℤ × List Byte) =>
    if r.1 ≠ size ∨ part = .header ∧ !(ElfHeader.decode r.2).loadable then some .headers else none
  | .malloc _ _, (r : Bool) => if r then none else some .headers
  | .genericOpen _, (r : Except {err : ℤ // err < 0} Unit) =>
    match r with
    | .ok _ => none
    | .error _ => some .headers
  | .mmap _ _ _ _ _, (r : ℤ) | .mapVdso _ _, (r : ℤ) | .mapNothing _ _ _, (r : ℤ) =>
    if r < 0 then some .mapping else none
  | .findHole hole _, (r : ℕ) => if r = badPage then some (.hole hole) else none
  | .writeString addr _, (r : ℕ) => if r ≠ 0 ∨ addr = 0 then some .copying else none
  | .put _ _, (r : ℕ) => if r ≠ 0 then some .copying else none
  | _, _ => none

def Ledger.record (l : Ledger) : (op : ElfOp) → op.Reply → Ledger
  | .malloc alloc _, (r : Bool) => if r then l.take (.memory alloc) else l
  | .free alloc, _ => l.release (.memory alloc)
  | .genericOpen _, (r : Except {err : ℤ // err < 0} Unit) =>
    match r with
    | .ok _ => l.take .fd
    | .error _ => l
  | .fdClose, _ => l.release .fd
  | .writeWrlock, _ => l.take .lock
  | .writeWrunlock, _ => l.release .lock
  | .setCpu esp eip, _ => { l with cpu := some (esp, eip) }
  | _, _ => l

/-- Any host and memory, with a ledger of the calls. -/
def watch (host : Handler ElfOp ElfOp.Reply σ) : Handler ElfOp ElfOp.Reply (σ × Ledger) :=
  fun op s ↦
    let r := host op s.1
    (r.1, (r.2, (s.2.record op r.1).fail (failure op r.1)))

/-- From a ledger, every run comes to a result that meets `S` with its ledger. -/
def Books (x : ElfCall α) (l : Ledger) (S : α → Ledger → Prop) : Prop :=
  ∀ (σ : Type) (host : Handler ElfOp ElfOp.Reply σ) (s : σ),
    Prog.Total (watch host) x (s, l) fun a s' ↦ S a s'.2

namespace Books

variable {l : Ledger} {S S' : α → Ledger → Prop} {T : β → Ledger → Prop}

theorem pure {a : α} (h : S a l) : Books (Pure.pure a) l S := fun _ _ _ ↦ .pure h

theorem perform (op : ElfOp) {S : op.Reply → Ledger → Prop}
    (h : ∀ r, S r ((l.record op r).fail (failure op r))) : Books (Prog.perform op) l S :=
  fun _ host s ↦ .perform (h (host op s).1)

theorem bind {x : ElfCall α} {f : α → ElfCall β} (hx : Books x l S)
    (hf : ∀ a l', S a l' → Books (f a) l' T) : Books (x >>= f) l T :=
  fun σ host s ↦ (hx σ host s).bind fun a t ha ↦ hf a t.2 ha σ host t.1

theorem mono {x : ElfCall α} (hx : Books x l S) (h : ∀ a l', S a l' → S' a l') : Books x l S' :=
  fun σ host s ↦ (hx σ host s).mono fun a t ha ↦ h a t.2 ha

theorem ite {c : Prop} [Decidable c] {x y : ElfCall α} (hx : Books x l S) (hy : Books y l S) :
    Books (if c then x else y) l S := by
  split
  · exact hx
  · exact hy

end Books

/-! What each call does to the ledger. -/

namespace Ledger

@[simp] theorem fail_none (l : Ledger) : l.fail none = l := by simp [fail]

theorem owe_zero (l : Ledger) : l.owe 0 = l := by simp [owe]

theorem owe_add (l : Ledger) (d e : Resource → ℤ) : (l.owe d).owe e = l.owe (d + e) := by
  simp [owe, add_assoc]

/-- What was taken before a failure is given back after it. -/
theorem release_fail_take (l : Ledger) (r : Resource) (f : Option Failure) :
    ((l.take r).fail f).release r = l.fail f := by
  simp [take, owe, release, fail]

/-- More failures, of some kinds. -/
def Fails (P : Failure → Prop) (l l' : Ledger) : Prop :=
  ∃ fs, (∀ f ∈ fs, P f) ∧ l' = { l with failures := l.failures ++ fs }

variable {P P' : Failure → Prop} {l l' : Ledger}

theorem Fails.refl (l : Ledger) : Fails P l l :=
  ⟨[], fun _ hf ↦ absurd hf List.not_mem_nil, by simp⟩

theorem Fails.fail {f : Failure} (hf : P f) (l : Ledger) : Fails P l (l.fail (some f)) :=
  ⟨[f], fun _ hg ↦ List.mem_singleton.mp hg ▸ hf, rfl⟩

theorem Fails.trans {l'' : Ledger} (h : Fails P l l') (h' : Fails P l' l'') : Fails P l l'' := by
  obtain ⟨fs, hfs, rfl⟩ := h
  obtain ⟨gs, hgs, rfl⟩ := h'
  refine ⟨fs ++ gs, fun f hf ↦ ?_, by simp⟩
  obtain hf | hf := List.mem_append.mp hf
  · exact hfs f hf
  · exact hgs f hf

/-- The failure of the headers. -/
theorem fails_headers (l : Ledger) : l.Fails (· = .headers) (l.fail (some .headers)) :=
  .fail (P := (· = .headers)) rfl l

theorem Fails.owe (h : Fails P l l') (due : Resource → ℤ) : Fails P (l.owe due) (l'.owe due) := by
  obtain ⟨fs, hfs, rfl⟩ := h
  exact ⟨fs, hfs, rfl⟩

theorem Fails.mono (h : Fails P l l') (hp : ∀ f, P f → P' f) : Fails P' l l' := by
  obtain ⟨fs, hfs, rfl⟩ := h
  exact ⟨fs, fun f hf ↦ hp f (hfs f hf), rfl⟩

end Ledger

/-- A result with its ledger, or a negative error after failures of some kinds. -/
def Tried (P : Failure → Prop) (l : Ledger) (done : α → Ledger) : Except ℤ α → Ledger → Prop
  | .ok a, l' => l' = done a
  | .error err, l' => err < 0 ∧ l.Fails P l'

/-- An answer is an error exactly when it is negative. -/
def Answered (f : Failure) (l : Ledger) (r : ℤ) (l' : Ledger) : Prop :=
  if r < 0 then l' = l.fail (some f) else l' = l

section Calls

variable {l : Ledger}

theorem answered (f : Failure) (r : ℤ) (l : Ledger) :
    Answered f l r (l.fail (if r < 0 then some f else none)) := by
  unfold Answered
  split
  · rfl
  · exact l.fail_none

theorem lseek_books (file : File) (offset : Dword) :
    Books (ElfCall.lseek file offset) l (Answered .headers l) :=
  Books.perform (.lseek file offset) fun r ↦ answered .headers r l

theorem errno_books : Books ElfCall.errno l fun _ l' ↦ l' = l :=
  Books.perform .errno fun _ ↦ l.fail_none

theorem mmap_books (file : File) (start pages : ℕ) (offset : Dword) (flags : Flags) :
    Books (ElfCall.mmap file start pages offset flags) l (Answered .mapping l) :=
  Books.perform (.mmap file start pages offset flags) fun r ↦ answered .mapping r l

theorem mapVdso_books (start pages : ℕ) :
    Books (ElfCall.mapVdso start pages) l (Answered .mapping l) :=
  Books.perform (.mapVdso start pages) fun r ↦ answered .mapping r l

theorem mapNothing_books (start pages : ℕ) (flags : Flags) :
    Books (ElfCall.mapNothing start pages flags) l (Answered .mapping l) :=
  Books.perform (.mapNothing start pages flags) fun r ↦ answered .mapping r l

/-- Both ways an answer can be. -/
theorem Answered.cases {f : Failure} {r : ℤ} {l' : Ledger} (h : Answered f l r l') :
    (r < 0 ∧ l' = l.fail (some f)) ∨ (¬r < 0 ∧ l' = l) := by
  unfold Answered at h
  split at h
  · rename_i hr
    exact .inl ⟨hr, h⟩
  · rename_i hr
    exact .inr ⟨hr, h⟩

theorem free_books (alloc : Alloc) :
    Books (ElfCall.free alloc) l fun _ l' ↦ l' = l.release (.memory alloc) :=
  Books.perform (.free alloc) fun _ ↦ Ledger.fail_none _

theorem fdClose_books : Books ElfCall.fdClose l fun _ l' ↦ l' = l.release .fd :=
  Books.perform .fdClose fun _ ↦ Ledger.fail_none _

theorem writeWrlock_books : Books ElfCall.writeWrlock l fun _ l' ↦ l' = l.take .lock :=
  Books.perform .writeWrlock fun _ ↦ Ledger.fail_none _

theorem writeWrunlock_books : Books ElfCall.writeWrunlock l fun _ l' ↦ l' = l.release .lock :=
  Books.perform .writeWrunlock fun _ ↦ Ledger.fail_none _

theorem read_books (file : File) (part : Part) (size : ℕ) :
    Books (ElfCall.read file part size) l fun r l' ↦
      (r.1 = size ∧ (part = .header → (ElfHeader.decode r.2).loadable) ∧ l' = l) ∨
      ((r.1 = size → part = .header ∧ (ElfHeader.decode r.2).loadable = false) ∧
        l' = l.fail (some .headers)) := by
  refine Books.perform (.read file part size) fun (r : ℤ × List Byte) ↦ ?_
  by_cases hbad : r.1 ≠ size ∨ part = .header ∧ !(ElfHeader.decode r.2).loadable
  · refine .inr ⟨fun hsize ↦ ?_, by simp only [failure, if_pos hbad]; rfl⟩
    simpa [hsize] using hbad
  · have hgood := hbad
    simp only [not_or, not_not, not_and, Bool.not_eq_true', Bool.not_eq_false] at hgood
    exact .inl ⟨hgood.1, hgood.2, by simp only [failure, if_neg hbad]; exact l.fail_none⟩

theorem malloc_books (alloc : Alloc) (size : ℕ) :
    Books (ElfCall.malloc alloc size) l fun r l' ↦
      l' = if r then l.take (.memory alloc) else l.fail (some .headers) := by
  refine Books.perform (.malloc alloc size) fun r ↦ ?_
  cases (r : Bool) with
  | false => rfl
  | true => exact Ledger.fail_none _

end Calls

/-! The headers. -/

section Headers

variable {l : Ledger}

theorem readHeader_books (file : File) :
    Books (readHeader file) l (Tried (· = .headers) l fun _ ↦ l) := by
  refine (lseek_books file 0).bind fun r l' hl ↦ ?_
  obtain ⟨hr, rfl⟩ | ⟨hr, rfl⟩ := hl.cases
  · rw [if_pos (by omega)]
    exact .pure ⟨by decide, l.fails_headers⟩
  split
  · exact .pure ⟨by decide, .refl l'⟩
  refine (read_books file .header sizeofElfHeader).bind fun r l hl ↦ ?_
  obtain ⟨hsize, hload, rfl⟩ | ⟨hbad, rfl⟩ := hl
  · rw [if_neg (not_not.mpr hsize)]
    refine .pure ?_
    rw [if_pos (hload rfl)]
    rfl
  · split
    · refine .pure ⟨?_, l'.fails_headers⟩
      split <;> decide
    · rename_i hsize
      refine .pure ?_
      rw [(hbad (not_not.mp hsize)).2]
      exact ⟨by decide, l'.fails_headers⟩

theorem readPrgHeaders_books (file : File) (header : ElfHeader) :
    Books (readPrgHeaders file header) l
      (Tried (· = .headers) l fun _ ↦ l.take (.memory (.ph file))) := by
  refine (malloc_books (.ph file) _).bind fun r l' hl ↦ ?_
  cases r with
  | false =>
    subst hl
    exact .pure ⟨by decide, l.fails_headers⟩
  | true =>
    replace hl : l' = l.take (.memory (.ph file)) := hl
    subst hl
    refine (lseek_books file header.prgheadOff).bind fun r l' hl ↦ ?_
    obtain ⟨hr, rfl⟩ | ⟨hr, rfl⟩ := hl.cases
    · rw [if_pos hr]
      refine (free_books (.ph file)).bind fun _ l' hl ↦ .pure ⟨by decide, ?_⟩
      rw [hl, Ledger.release_fail_take]
      exact l.fails_headers
    · rw [if_neg hr]
      refine (read_books file .prgHeaders _).bind fun r l' hl ↦ ?_
      obtain ⟨hsize, -, rfl⟩ | ⟨hbad, rfl⟩ := hl
      · rw [if_neg (not_not.mpr hsize)]
        exact .pure rfl
      · rw [if_pos fun hsize ↦ by cases (hbad hsize).1]
        refine (free_books (.ph file)).bind fun _ l' hl ↦ ?_
        refine errno_books.bind fun e l'' hl' ↦ .pure ⟨?_, ?_⟩
        · split <;> decide
        · rw [hl', hl, Ledger.release_fail_take]
          exact l.fails_headers

/-- What an interpreter holds. -/
def Interp.due : Interp → Resource → ℤ
  | .none => 0
  | .named => Pi.single (.memory .interpName) 1
  | .opened => Pi.single (.memory .interpName) 1 + Pi.single .fd 1
  | .loaded _ _ => Pi.single (.memory .interpName) 1 + Pi.single .fd 1 +
      Pi.single (.memory (.ph .interp)) 1

/-- An interpreter with what it holds, and a way out only with an error. -/
def Found (l : Ledger) (r : Interp × Option Exit) (l' : Ledger) : Prop :=
  match r.2 with
  | none => l' = l.owe r.1.due
  | some (.outFreeInterp err) => err < 0 ∧ (l.owe r.1.due).Fails (· = .headers) l'
  | some (.outFreePh err) =>
    err < 0 ∧ r.1.due = 0 ∧ (l.owe r.1.due).Fails (· = .headers) l'
  | some _ => False

theorem libbad_neg {err : ℤ} (h : err < 0) : libbad err < 0 := by
  unfold libbad
  split
  · decide
  · exact h

theorem genericOpen_books (name : Str) :
    Books (ElfCall.genericOpen name) l fun r l' ↦
      match r with
      | .ok _ => l' = l.take .fd
      | .error _ => l' = l.fail (some .headers) := by
  refine Books.perform (.genericOpen name) fun (r : Except {err : ℤ // err < 0} Unit) ↦ ?_
  cases r with
  | ok u => exact Ledger.fail_none _
  | error err => rfl

theorem openInterp_books (ph : PrgHeader) : Books (openInterp ph) l (Found l) := by
  refine (malloc_books .interpName _).bind fun r l' hl ↦ ?_
  cases r with
  | false =>
    subst hl
    refine .pure ⟨by decide, rfl, ?_⟩
    rw [Interp.due, Ledger.owe_zero]
    exact l.fails_headers
  | true =>
    replace hl : l' = l.owe Interp.named.due := hl
    subst hl
    refine (lseek_books .program ph.offset).bind fun r l' hl ↦ ?_
    obtain ⟨hr, rfl⟩ | ⟨hr, rfl⟩ := hl.cases
    · rw [if_pos hr]
      exact .pure ⟨by decide, Ledger.fails_headers _⟩
    rw [if_neg hr]
    refine (read_books .program .interpName _).bind fun r l' hl ↦ ?_
    obtain ⟨hsize, -, rfl⟩ | ⟨hbad, rfl⟩ := hl
    case inr =>
      rw [if_pos fun hsize ↦ by cases (hbad hsize).1]
      exact .pure ⟨by decide, Ledger.fails_headers _⟩
    rw [if_neg (not_not.mpr hsize)]
    refine (genericOpen_books r.2).bind fun opened l' hl ↦ ?_
    cases opened with
    | error err =>
      subst hl
      exact .pure ⟨err.2, Ledger.fails_headers _⟩
    | ok u =>
      replace hl : l' = l.owe Interp.opened.due := hl.trans (l.owe_add _ _)
      subst hl
      refine (readHeader_books .interp).bind fun header l' hl ↦ ?_
      cases header with
      | error err => exact .pure ⟨libbad_neg hl.1, hl.2⟩
      | ok header =>
        subst hl
        refine (readPrgHeaders_books .interp header).bind fun phs l' hl ↦ ?_
        cases phs with
        | error err => exact .pure ⟨libbad_neg hl.1, hl.2⟩
        | ok phs => exact .pure (hl.trans (l.owe_add _ _))

theorem findInterp_books (phs : List PrgHeader) (interp : Interp) :
    Books (findInterp phs interp) (l.owe interp.due) (Found l) := by
  induction phs generalizing interp with
  | nil => exact .pure rfl
  | cons ph phs ih =>
    unfold findInterp
    split
    · exact ih interp
    split
    · rw [Interp.due, Ledger.owe_zero]
      refine (openInterp_books ph).bind fun r l' hl ↦ ?_
      obtain ⟨interp, exit⟩ := r
      cases exit with
      | none =>
        replace hl : l' = l.owe interp.due := hl
        subst hl
        exact ih interp
      | some exit => exact .pure hl
    · exact .pure ⟨by decide, .refl _⟩

end Headers

/-! Mapping the image. -/

section Mapping

variable {l : Ledger}

/-- A failed step of the mapping is not reported where there is no hole for the three
pages after the vdso. -/
def Stopped (l : Ledger) (err : ℤ) (l' : Ledger) : Prop :=
  ∃ l₁ f, l.Fails (· = .hole .interp) l₁ ∧ l' = l₁.fail (some f) ∧
    ((err < 0 ∧ (f = .mapping ∨ f = .hole .vdso)) ∨ (0 ≤ err ∧ f = .hole .vvar))

/-- No hole for the interpreter does not stop the mapping. -/
def Mapped (l : Ledger) : Except ℤ α → Ledger → Prop
  | .ok _, l' => l.Fails (· = .hole .interp) l'
  | .error err, l' => Stopped l err l'

theorem Stopped.of_mapping {err : ℤ} (h : err < 0) : Stopped l err (l.fail (some .mapping)) :=
  ⟨l, .mapping, .refl l, rfl, .inl ⟨h, .inl rfl⟩⟩

theorem Mapped.of_fails {l₁ l' : Ledger} {r : Except ℤ α} (h : l.Fails (· = .hole .interp) l₁)
    (hr : Mapped l₁ r l') : Mapped l r l' := by
  cases r with
  | ok a => exact h.trans hr
  | error err =>
    obtain ⟨l₂, f, hfails, hl, herr⟩ := hr
    exact ⟨l₂, f, h.trans hfails, hl, herr⟩

theorem zeroTail_books (fileEnd : Addr) : Books (zeroTail fileEnd) l fun _ l' ↦ l' = l := by
  unfold zeroTail
  split
  · exact Books.perform (.memset fileEnd (tailSize fileEnd)) fun _ ↦ l.fail_none
  · exact .pure rfl

theorem loadBss_books (ph : PrgHeader) (addr : Addr) :
    Books (loadBss ph addr) l (Answered .mapping l) := by
  refine (zeroTail_books _).bind fun _ l' hl ↦ ?_
  subst hl
  refine Books.ite ?_ ?_
  · refine (mapNothing_books _ _ _).bind fun err l hl ↦ .pure ?_
    obtain ⟨hr, rfl⟩ | ⟨hr, rfl⟩ := hl.cases
    · rw [if_pos hr]
      exact hl
    · rw [if_neg hr]
      rfl
  · exact .pure rfl

theorem loadEntry_books (file : File) (ph : PrgHeader) (bias : Addr) :
    Books (loadEntry file ph bias) l (Answered .mapping l) := by
  refine (mmap_books file _ _ _ _).bind fun err l' hl ↦ ?_
  obtain ⟨hr, rfl⟩ | ⟨hr, rfl⟩ := hl.cases
  · rw [if_pos hr]
    exact .pure hl
  rw [if_neg hr]
  split
  · exact loadBss_books ph _
  · exact .pure rfl

theorem raiseBrk_books (brk : Addr) : Books (raiseBrk brk) l fun _ l' ↦ l' = l := by
  refine Books.bind (S := fun _ l' ↦ l' = l) (Books.perform .startBrk fun _ ↦ l.fail_none)
    fun start l' hl ↦ ?_
  subst hl
  split
  · exact Books.perform (.setBrk _) fun _ ↦ l'.fail_none
  · exact .pure rfl

theorem loadProgram_books (header : ElfHeader) (phs : List PrgHeader) (loaded : Loaded) :
    Books (loadProgram header phs loaded) l (Mapped l) := by
  induction phs generalizing loaded with
  | nil => exact .pure (.refl l)
  | cons ph phs ih =>
    unfold loadProgram
    split
    · exact ih loaded
    refine (loadEntry_books _ _ _).bind fun err l' hl ↦ ?_
    obtain ⟨hr, rfl⟩ | ⟨hr, rfl⟩ := hl.cases
    · rw [if_pos hr]
      exact .pure (.of_mapping hr)
    · rw [if_neg hr]
      refine (raiseBrk_books _).bind fun _ l hl ↦ ?_
      subst hl
      exact ih _

theorem loadInterpEntries_books (interpAddr : Addr) (phs : List PrgHeader) :
    Books (loadInterpEntries interpAddr phs) l (Answered .mapping l) := by
  induction phs with
  | nil => exact .pure rfl
  | cons ph phs ih =>
    unfold loadInterpEntries
    split
    · exact ih
    refine (loadEntry_books _ _ _).bind fun err l' hl ↦ ?_
    obtain ⟨hr, rfl⟩ | ⟨hr, rfl⟩ := hl.cases
    · rw [if_pos hr]
      exact .pure hl
    · rw [if_neg hr]
      exact ih

theorem findHole_books (hole : Hole) (size : ℕ) :
    Books (ElfCall.findHole hole size) l fun r l' ↦
      l' = if r = badPage then l.fail (some (.hole hole)) else l := by
  refine Books.perform (.findHole hole size) fun (r : ℕ) ↦ ?_
  by_cases hr : r = badPage
  · simp only [failure, if_pos hr]
    rfl
  · simp only [failure, if_neg hr]
    exact l.fail_none

theorem loadInterp_books (entry : Addr) (interp : Interp) :
    Books (loadInterp entry interp) l (Mapped l) := by
  unfold loadInterp
  split
  · refine (findHole_books .interp _).bind fun hole l' hl ↦ ?_
    have hfails : l.Fails (· = .hole .interp) l' := by
      rw [hl]
      split
      · exact .fail (P := (· = .hole .interp)) rfl l
      · exact .refl l
    refine (loadInterpEntries_books _ _).bind fun err l'' hl ↦ .pure ?_
    refine .of_fails hfails ?_
    obtain ⟨hr, rfl⟩ | ⟨hr, rfl⟩ := hl.cases
    · rw [if_pos hr]
      exact .of_mapping hr
    · rw [if_neg hr]
      exact .refl l''
  · exact .pure (.refl l)

theorem mapVdsoAndVvar_books : Books mapVdsoAndVvar l (Mapped l) := by
  refine (findHole_books .vdso _).bind fun vdsoPage l' hl ↦ ?_
  split
  · rename_i hbad
    rw [if_pos hbad] at hl
    exact .pure ⟨l, _, .refl l, hl, .inl ⟨by decide, .inr rfl⟩⟩
  rename_i hgood
  rw [if_neg hgood] at hl
  subst hl
  refine (mapVdso_books _ _).bind fun err l hl ↦ ?_
  obtain ⟨hr, rfl⟩ | ⟨hr, rfl⟩ := hl.cases
  · rw [if_pos hr]
    exact .pure (.of_mapping hr)
  rw [if_neg hr]
  refine Books.bind (S := fun _ l' ↦ l' = l) (Books.perform (.setVdso _) fun _ ↦ l.fail_none)
    fun _ l' hl ↦ ?_
  subst hl
  refine (findHole_books .vvar _).bind fun vvarPage l hl ↦ ?_
  split
  · -- err is the result of mapping the vdso
    rename_i hbad
    rw [if_pos hbad] at hl
    exact .pure ⟨l', _, .refl l', hl, .inr ⟨by omega, rfl⟩⟩
  rename_i hgood
  rw [if_neg hgood] at hl
  subst hl
  refine (mapNothing_books _ _ _).bind fun err l' hl ↦ .pure ?_
  obtain ⟨hr, rfl⟩ | ⟨hr, rfl⟩ := hl.cases
  · rw [if_pos hr]
    exact .of_mapping hr
  · rw [if_neg hr]
    exact .refl l'

theorem mapSegments_books (header : ElfHeader) (phs : List PrgHeader) (interp : Interp) :
    Books (mapSegments header phs interp) l (Mapped l) := by
  refine (loadProgram_books header phs _).bind fun loaded l₁ hloaded ↦ ?_
  cases loaded with
  | error err => exact .pure hloaded
  | ok loaded =>
    refine (loadInterp_books _ interp).bind fun addrs l₂ haddrs ↦ ?_
    replace haddrs := Mapped.of_fails hloaded haddrs
    cases addrs with
    | error err => exact .pure haddrs
    | ok addrs =>
      refine mapVdsoAndVvar_books.bind fun vdso l₃ hvdso ↦ ?_
      replace hvdso := Mapped.of_fails haddrs hvdso
      cases vdso with
      | error err => exact .pure hvdso
      | ok vdso => exact .pure hvdso

theorem mapImage_books (header : ElfHeader) (phs : List PrgHeader) (interp : Interp) :
    Books (mapImage header phs interp) l (Mapped l) := by
  refine (mapSegments_books header phs interp).bind fun image l₁ himage ↦ ?_
  cases image with
  | error err => exact .pure himage
  | ok image =>
    refine (mapNothing_books _ _ _).bind fun err l₂ hl ↦ .pure ?_
    refine .of_fails himage ?_
    obtain ⟨hr, rfl⟩ | ⟨hr, rfl⟩ := hl.cases
    · rw [if_pos hr]
      exact .of_mapping hr
    · rw [if_neg hr]
      exact .refl l₂

end Mapping

/-! Copying to the stack. -/

section Copying

variable {l : Ledger}

/-- No result where copying failed. -/
def Copies (l : Ledger) (r : Option α) (l' : Ledger) : Prop :=
  l' = if r.isSome then l else l.fail (some .copying)

/-- A stack pointer, zero where copying failed. -/
def CopiesTo (l : Ledger) (sp : Addr) (l' : Ledger) : Prop :=
  l' = if sp = 0 then l.fail (some .copying) else l

theorem put_books (addr : Addr) (value : List Byte) :
    Books (ElfCall.put addr value) l fun r l' ↦
      l' = if r ≠ 0 then l.fail (some .copying) else l := by
  refine Books.perform (.put addr value) fun (r : ℕ) ↦ ?_
  by_cases hr : r ≠ 0
  · simp only [failure, if_pos hr]
    rfl
  · simp only [failure, if_neg hr]
    exact l.fail_none

theorem writeString_books (addr : Addr) (string : Str) :
    Books (ElfCall.writeString addr string) l fun r l' ↦
      l' = if r ≠ 0 ∨ addr = 0 then l.fail (some .copying) else l := by
  refine Books.perform (.writeString addr string) fun (r : ℕ) ↦ ?_
  by_cases hr : r ≠ 0 ∨ addr = 0
  · simp only [failure, if_pos hr]
    rfl
  · simp only [failure, if_neg hr]
    exact l.fail_none

theorem copyString_books (sp : Addr) (string : Str) :
    Books (copyString sp string) l (CopiesTo l) := by
  refine (writeString_books _ string).bind fun r l' hl ↦ .pure ?_
  rw [CopiesTo, hl]
  by_cases hr : r ≠ 0
  · rw [if_pos (.inl hr), if_pos (if_pos hr)]
  · simp only [hr, false_or, if_false]

theorem copyStringsLoop_books (strings : List Str) {sp : Addr} (hsp : sp ≠ 0) :
    Books (copyStringsLoop strings sp) l (CopiesTo l) := by
  induction strings generalizing sp with
  | nil => exact .pure (if_neg hsp).symm
  | cons string strings ih =>
    refine (copyString_books sp string).bind fun sp l' hl ↦ ?_
    by_cases hsp : sp = 0
    · subst hsp
      exact .pure hl
    · rw [CopiesTo, if_neg hsp] at hl
      subst hl
      rw [if_neg hsp]
      exact ih hsp

theorem copyArguments_books (file : Str) (argv envp : List Str) :
    Books (copyArguments file argv envp) l (Copies l) := by
  have hfail {sp : Addr} {l l' : Ledger} (hl : CopiesTo l sp l') (hsp : sp = 0) :
      Copies l (none : Option Copied) l' := by rwa [CopiesTo, if_pos hsp] at hl
  have hgood {sp : Addr} {l l' : Ledger} (hl : CopiesTo l sp l') (hsp : ¬sp = 0) : l' = l := by
    rwa [CopiesTo, if_neg hsp] at hl
  refine (copyString_books _ file).bind fun fileAddr l' hl ↦ ?_
  split
  · rename_i hsp
    exact .pure (hfail hl hsp)
  rename_i hfile
  obtain rfl := hgood hl hfile
  refine (copyStringsLoop_books envp.reverse hfile).bind fun envpAddr l hl ↦ ?_
  split
  · rename_i hsp
    exact .pure (hfail hl hsp)
  rename_i henvp
  obtain rfl := hgood hl henvp
  refine (copyStringsLoop_books argv.reverse henvp).bind fun argvAddr l' hl ↦ ?_
  split
  · rename_i hsp
    exact .pure (hfail hl hsp)
  rename_i hargv
  obtain rfl := hgood hl hargv
  refine (copyString_books _ platform).bind fun platformAddr l hl ↦ ?_
  split
  · rename_i hsp
    exact .pure (hfail hl hsp)
  rename_i hplatform
  obtain rfl := hgood hl hplatform
  refine Books.bind (S := fun _ l' ↦ l' = l) (Books.perform .getRandom fun _ ↦ l.fail_none)
    fun random l' hl ↦ ?_
  subst hl
  refine (put_books _ _).bind fun r l hl ↦ ?_
  split
  · rename_i hr
    rw [if_pos hr] at hl
    exact .pure hl
  · rename_i hr
    rw [if_neg hr] at hl
    exact .pure hl

theorem putPointers_books (n : ℕ) (p string : Addr) :
    Books (putPointers n p string) l (Copies l) := by
  induction n generalizing p string with
  | zero => exact .pure rfl
  | succ n ih =>
    refine (put_books _ _).bind fun r l' hl ↦ ?_
    split
    · rename_i hr
      rw [if_pos hr] at hl
      exact .pure hl
    rename_i hr
    rw [if_neg hr] at hl
    subst hl
    refine Books.bind (S := fun _ l ↦ l = l') (Books.perform (.strlen string) fun _ ↦ l'.fail_none)
      fun len l hl ↦ ?_
    subst hl
    exact ih _ _

/-- What is left to do when the tables are written, or not. -/
def StackLeft (l : Ledger) : Exit → Ledger → Prop
  | .outFreeInterp err, l' => err = 0 ∧ ∃ cpu, l' = { l with cpu := some cpu }
  | .beyondHope _, l' | .ret _, l' => l' = l.fail (some .copying)
  | .outFreePh _, _ => False

theorem putTables_books (sp : Addr) (argv envp : List Str) (copied : Copied)
    (aux : List (ℕ × Dword)) :
    Books (putTables sp argv envp copied aux) l fun r l' ↦
      match r with
      | some exit => StackLeft l exit l'
      | none => l' = l := by
  refine (put_books _ _).bind fun r l' hl ↦ ?_
  split
  · rename_i hr
    rw [if_pos hr] at hl
    exact .pure hl
  rename_i hr
  rw [if_neg hr] at hl
  subst hl
  refine (putPointers_books _ _ _).bind fun p l hl ↦ ?_
  cases p with
  | none => exact .pure hl
  | some p =>
    obtain rfl : l = l' := hl
    refine (putPointers_books _ _ _).bind fun p l' hl ↦ ?_
    cases p with
    | none => exact .pure hl
    | some p =>
      obtain rfl : l' = l := hl
      refine (put_books _ _).bind fun r l hl ↦ ?_
      split
      · rename_i hr
        rw [if_pos hr] at hl
        exact .pure hl
      · rename_i hr
        rw [if_neg hr] at hl
        exact .pure hl

theorem readLoadAddr_books (image : Image) : Books (readLoadAddr image) l fun _ l' ↦ l' = l := by
  unfold readLoadAddr
  split
  · exact .pure rfl
  · exact Books.perform .uninitialised fun _ ↦ l.fail_none

theorem startImage_books (vdsoEntryPoint : Dword) (file : Str) (argv envp : List Str)
    (header : ElfHeader) (image : Image) :
    Books (startImage vdsoEntryPoint file argv envp header image) l (StackLeft l) := by
  refine (copyArguments_books file argv envp).bind fun copied l' hl ↦ ?_
  cases copied with
  | none => exact .pure hl
  | some copied =>
    obtain rfl : l' = l := hl
    refine (readLoadAddr_books image).bind fun loadAddr l hl ↦ ?_
    subst hl
    refine (putTables_books _ argv envp copied _).bind fun r l' hl ↦ ?_
    cases r with
    | some exit => exact .pure hl
    | none =>
      subst hl
      refine Books.bind (S := fun _ l ↦ ∃ cpu, l = { l' with cpu := some cpu })
        (Books.perform (.setCpu _ _) fun _ ↦ ⟨_, Ledger.fail_none _⟩) fun _ l hl ↦ .pure ⟨rfl, hl⟩

end Copying

/-! The ways out. -/

section Exits

variable {l : Ledger}

def Exit.err : Exit → ℤ
  | .outFreeInterp err | .outFreePh err | .beyondHope err | .ret err => err

/-- What a way out gives back. -/
def Exit.gives (interp : Interp) : Exit → Resource → ℤ
  | .outFreeInterp _ => interp.due + Pi.single (.memory (.ph .program)) 1
  | .outFreePh _ => Pi.single (.memory (.ph .program)) 1
  | .beyondHope _ => Pi.single .lock 1 + interp.due + Pi.single (.memory (.ph .program)) 1
  | .ret _ => 0

theorem freeInterp_books (interp : Interp) :
    Books (freeInterp interp) l fun _ l' ↦ l' = l.owe (-interp.due) := by
  have hadd (l : Ledger) (d e : Resource → ℤ) : (l.owe (-d)).owe (-e) = l.owe (-(d + e)) := by
    rw [Ledger.owe_add, neg_add]
  cases interp with
  | none => exact .pure (by rw [Interp.due, neg_zero, Ledger.owe_zero])
  | named => exact free_books .interpName
  | opened =>
    refine (free_books .interpName).bind fun _ l₁ h₁ ↦ ?_
    refine fdClose_books.mono fun _ l₂ h₂ ↦ ?_
    rw [h₂, h₁]
    exact hadd l _ _
  | loaded header ph =>
    refine (free_books .interpName).bind fun _ l₁ h₁ ↦ ?_
    refine fdClose_books.bind fun _ l₂ h₂ ↦ ?_
    refine (free_books (.ph .interp)).mono fun _ l₃ h₃ ↦ ?_
    rw [h₃, h₂, h₁]
    exact (congrArg (Ledger.owe · _) (hadd l _ _)).trans (hadd l _ _)

theorem leave_books (interp : Interp) (exit : Exit) :
    Books (leave interp exit) l fun err l' ↦ err = exit.err ∧ l' = l.owe (-exit.gives interp) := by
  cases exit with
  | ret err => exact .pure ⟨rfl, by rw [Exit.gives, neg_zero, Ledger.owe_zero]⟩
  | outFreePh err => exact (free_books _).bind fun _ l' hl ↦ .pure ⟨rfl, hl⟩
  | outFreeInterp err =>
    refine (freeInterp_books interp).bind fun _ l₁ h₁ ↦ ?_
    refine (free_books _).bind fun _ l₂ h₂ ↦ .pure ⟨rfl, ?_⟩
    rw [h₂, h₁, Ledger.release, Ledger.owe_add, Exit.gives, neg_add]
  | beyondHope err =>
    refine writeWrunlock_books.bind fun _ l₁ h₁ ↦ ?_
    refine (freeInterp_books interp).bind fun _ l₂ h₂ ↦ ?_
    refine (free_books _).bind fun _ l₃ h₃ ↦ .pure ⟨rfl, ?_⟩
    rw [h₃, h₂, h₁, Ledger.release, Ledger.release, Ledger.owe_add, Ledger.owe_add, Exit.gives,
      neg_add, neg_add, add_assoc]

/-- The ways in which `elf_exec` ends, with what it owes. -/
inductive Ended (err : ℤ) (l : Ledger) : Prop
  | early (herr : err < 0) (hdue : l.due = 0) (hfails : ∀ f ∈ l.failures, f = .headers)
  | stopped (herr : err < 0) (hdue : l.due = 0) (fs : List Failure) (f : Failure)
      (hfs : ∀ g ∈ fs, g = .hole .interp) (hf : f = .mapping ∨ f = .hole .vdso)
      (hfails : l.failures = fs ++ [f])
  | noVvar (herr : 0 ≤ err) (hcpu : l.cpu = none) (hfails : .hole .vvar ∈ l.failures)
  | notCopied (hdue : l.due ≠ 0) (hfails : .copying ∈ l.failures)
  | started (herr : err = 0) (hdue : l.due = 0) (hcpu : l.cpu.isSome)
      (hfails : ∀ f ∈ l.failures, f = .hole .interp)

/-- What `load` leaves: the lock of a mapping that was stopped is still held. -/
inductive LoadLeft (l : Ledger) : Exit → Ledger → Prop
  | stopped {err : ℤ} {l' : Ledger} (h : Stopped (l.take .lock) err l') :
    LoadLeft l (.beyondHope err) l'
  | left {exit : Exit} {l₁ l' : Ledger} (hl : l.Fails (· = .hole .interp) l₁)
    (h : StackLeft l₁ exit l') : LoadLeft l exit l'

theorem load_books (vdsoEntryPoint : Dword) (file : Str) (argv envp : List Str)
    (header : ElfHeader) (phs : List PrgHeader) (interp : Interp) :
    Books (load vdsoEntryPoint file argv envp header phs interp) l (LoadLeft l) := by
  refine Books.bind (S := fun _ l' ↦ l' = l) (Books.perform .memNew fun _ ↦ l.fail_none)
    fun _ l' hl ↦ ?_
  subst hl
  refine writeWrlock_books.bind fun _ l₁ h₁ ↦ ?_
  subst h₁
  refine (mapImage_books header phs interp).bind fun image l₁ himage ↦ ?_
  cases image with
  | error err => exact .pure (.stopped himage)
  | ok image =>
    refine writeWrunlock_books.bind fun _ l₂ h₂ ↦ ?_
    refine (startImage_books _ file argv envp header image).mono fun exit l₃ h₃ ↦ ?_
    refine .left ?_ h₃
    rw [h₂]
    have hfails := himage.owe (-Pi.single .lock 1)
    rwa [Ledger.take, Ledger.owe_add, add_neg_cancel, Ledger.owe_zero] at hfails

/-- The ledger with the headers of the program. -/
def Ledger.opened : Ledger := Ledger.start.take (.memory (.ph .program))

theorem ended_of_fails {err : ℤ} {l₁ : Ledger} {d : Resource → ℤ} (herr : err < 0)
    (hl : l.failures = []) (h : l.Fails (· = .headers) l₁) (hdue : l.due + d = 0) :
    Ended err (l₁.owe d) := by
  obtain ⟨fs, hfs, rfl⟩ := h
  refine .early herr hdue fun f hf ↦ hfs f ?_
  rwa [Ledger.owe, hl, List.nil_append] at hf

theorem Found.ended {interp : Interp} {exit : Exit} {l' : Ledger}
    (h : Found .opened (interp, some exit) l') :
    Ended exit.err (l'.owe (-exit.gives interp)) := by
  cases exit with
  | outFreeInterp err =>
    refine ended_of_fails h.1 rfl h.2 ?_
    simp only [Ledger.opened, Ledger.take, Ledger.owe, Ledger.start, Exit.gives]
    abel
  | outFreePh err =>
    refine ended_of_fails h.1 rfl h.2.2 ?_
    simp only [Ledger.opened, Ledger.take, Ledger.owe, Ledger.start, Exit.gives, h.2.1]
    abel
  | beyondHope err => exact h.elim
  | ret err => exact h.elim

theorem LoadLeft.ended {interp : Interp} {exit : Exit} {l l' : Ledger} (h : LoadLeft l exit l')
    (hl : l = Ledger.opened.owe interp.due) : Ended exit.err (l'.owe (-exit.gives interp)) := by
  subst hl
  cases h with
  | @stopped err l' h =>
    obtain ⟨_, f, ⟨fs, hfs, rfl⟩, rfl, ⟨herr, hf⟩ | ⟨herr, rfl⟩⟩ := h
    · refine .stopped herr ?_ fs f hfs hf rfl
      simp only [Ledger.opened, Ledger.take, Ledger.owe, Ledger.start, Ledger.fail, Exit.gives]
      abel
    · refine .noVvar herr rfl ?_
      simp [Ledger.owe, Ledger.fail]
  | left hl h =>
    obtain ⟨fs, hfs, rfl⟩ := hl
    cases exit with
    | outFreeInterp err =>
      obtain ⟨herr, cpu, rfl⟩ := h
      refine .started herr ?_ rfl hfs
      simp only [Ledger.opened, Ledger.take, Ledger.owe, Ledger.start, Exit.gives]
      abel
    | outFreePh err => exact h.elim
    | beyondHope err =>
      -- the lock was given back before
      obtain rfl := h
      refine .notCopied (fun hdue ↦ ?_) (by simp [Ledger.owe, Ledger.fail])
      have hlock := congrFun hdue .lock
      simp [Ledger.opened, Ledger.take, Ledger.owe, Ledger.start, Ledger.fail, Exit.gives] at hlock
    | ret err =>
      -- the headers of the program are not freed
      obtain rfl := h
      refine .notCopied (fun hdue ↦ ?_) (by simp [Ledger.owe, Ledger.fail])
      have hph := congrFun hdue (.memory (.ph .program))
      have hinterp : interp.due (.memory (.ph .program)) = 0 := by cases interp <;> rfl
      simp [Ledger.opened, Ledger.take, Ledger.owe, Ledger.start, Ledger.fail, Exit.gives,
        hinterp] at hph

theorem elfExec_books (vdsoEntryPoint : Dword) (file : Str) (argv envp : List Str) :
    Books (elfExec vdsoEntryPoint file argv envp) .start Ended := by
  have hstart {err : ℤ} {l : Ledger} (herr : err < 0)
      (hl : Ledger.start.Fails (· = .headers) l) : Ended err l := by
    obtain ⟨fs, hfs, rfl⟩ := hl
    exact .early herr rfl hfs
  refine (readHeader_books .program).bind fun header l hl ↦ ?_
  cases header with
  | error err => exact .pure (hstart hl.1 hl.2)
  | ok header =>
    obtain rfl : l = .start := hl
    refine (readPrgHeaders_books .program header).bind fun phs l hl ↦ ?_
    cases phs with
    | error err => exact .pure (hstart hl.1 hl.2)
    | ok phs =>
      replace hl : l = Ledger.opened := hl
      subst hl
      have hinterp := @findInterp_books .opened phs .none
      rw [Interp.due, Ledger.owe_zero] at hinterp
      refine hinterp.bind fun r l₁ h₁ ↦ ?_
      obtain ⟨interp, exit⟩ := r
      cases exit with
      | some exit =>
        exact (leave_books interp exit).mono fun err l₂ h₂ ↦ h₂.1 ▸ h₂.2 ▸ h₁.ended
      | none =>
        refine (load_books _ file argv envp header phs interp).bind fun exit l₂ h₂ ↦ ?_
        exact (leave_books interp exit).mono fun err l₃ h₃ ↦ h₃.1 ▸ h₃.2 ▸ h₂.ended h₁

/-- What a return stands for: zero that every step was made and the registers are set,
another number an error, and in any case that all that was taken is given back. -/
def Meets (err : ℤ) (l : Ledger) : Prop :=
  (err = 0 → l.failures = [] ∧ l.cpu.isSome) ∧ (err ≠ 0 → err < 0) ∧ ∀ r, l.due r = 0

/-- No failure takes a way out that is wrong for it: there is a hole for the three pages
after the vdso, copying to the stack succeeds, and where there is no hole for the
interpreter a later step fails as well. -/
def Handled (failures : List Failure) : Prop :=
  .hole .vvar ∉ failures ∧ .copying ∉ failures ∧
    (.hole .interp ∈ failures → ∃ f ∈ failures, f ≠ .hole .interp)

theorem Ended.meets_iff {err : ℤ} {l : Ledger} (h : Ended err l) :
    Meets err l ↔ Handled l.failures := by
  cases h with
  | early herr hdue hfails =>
    have hmem {f : Failure} (hf : f ≠ .headers) : f ∉ l.failures := fun hin ↦ hf (hfails f hin)
    refine iff_of_true ⟨fun h ↦ by omega, fun _ ↦ herr, fun r ↦ congrFun hdue r⟩ ?_
    exact ⟨hmem (by decide), hmem (by decide), fun hin ↦ absurd hin (hmem (by decide))⟩
  | stopped herr hdue fs f hfs hf hfails =>
    have hmem {g : Failure} (hg : g ≠ .hole .interp) (hgf : g ≠ f) : g ∉ l.failures := by
      rw [hfails, List.mem_append, List.mem_singleton]
      rintro (hin | rfl)
      · exact hg (hfs g hin)
      · exact hgf rfl
    refine iff_of_true ⟨fun h ↦ by omega, fun _ ↦ herr, fun r ↦ congrFun hdue r⟩ ?_
    have hf' : f ≠ .hole .vvar ∧ f ≠ .copying ∧ f ≠ .hole .interp := by
      obtain rfl | rfl := hf <;> decide
    refine ⟨hmem (by decide) hf'.1.symm, hmem (by decide) hf'.2.1.symm, fun _ ↦ ?_⟩
    exact ⟨f, by rw [hfails]; exact List.mem_append_right _ (List.mem_singleton.mpr rfl), hf'.2.2⟩
  | noVvar herr hcpu hfails =>
    refine iff_of_false (fun h ↦ ?_) fun h ↦ h.1 hfails
    by_cases hzero : err = 0
    · have hset := (h.1 hzero).2
      rw [hcpu] at hset
      cases hset
    · have hneg := h.2.1 hzero
      omega
  | notCopied hdue hfails =>
    exact iff_of_false (fun h ↦ hdue (funext h.2.2)) fun h ↦ h.2.1 hfails
  | started herr hdue hcpu hfails =>
    constructor
    · intro h
      rw [(h.1 herr).1]
      exact ⟨List.not_mem_nil, List.not_mem_nil, fun hin ↦ absurd hin List.not_mem_nil⟩
    · intro h
      refine ⟨fun _ ↦ ⟨List.eq_nil_iff_forall_not_mem.mpr fun f hf ↦ ?_, hcpu⟩,
        fun hne ↦ absurd herr hne, fun r ↦ congrFun hdue r⟩
      obtain ⟨g, hg, hne⟩ := h.2.2 (hfails f hf ▸ hf)
      exact hne (hfails g hg)

/-- Against every host and memory, `elf_exec` returns, and a return is right exactly when
no failure took a wrong way out. -/
theorem elfExec_exits (host : Handler ElfOp ElfOp.Reply σ) (s : σ) (vdsoEntryPoint : Dword)
    (file : Str) (argv envp : List Str) :
    ∃ err t l, (elfExec vdsoEntryPoint file argv envp).run (watch host) (s, .start) =
      some (err, t, l) ∧ (Meets err l ↔ Handled l.failures) := by
  obtain ⟨err, ⟨t, l⟩, hrun, hended⟩ := elfExec_books vdsoEntryPoint file argv envp σ host s
  exact ⟨err, t, l, hrun, hended.meets_iff⟩

/-- A program of two segments, which leave only the pages 0xf7ffc and 0xf7ffd of those
that `pt_find_hole` looks at. -/
def fullProgram : List Byte :=
  -- the header
  Layout.image [(4, elfMagic), (1, 1), (1, 1), (1, 1), (9, 0), (2, 2), (2, 3), (4, 1), (4, 0x08048000),
    (4, 52), (4, 0), (4, 0), (2, 52), (2, 32), (2, 2), (2, 0), (2, 0), (2, 0)] ++
  -- the program headers
  Layout.image [(4, 1), (4, 0), (4, 0x08048000), (4, 0x08048000), (4, 116), (4, 116), (4, 5), (4, 4096)] ++
  Layout.image [(4, 1), (4, 0), (4, 0x40001000), (4, 0x40001000), (4, 1), (4, 0xb7ffb000), (4, 6), (4, 4096)]

/-- The answers to the calls on this program: what is at an offset of the file, and the
only hole there is. -/
def fullHost : Handler ElfOp ElfOp.Reply ℕ
  | .lseek _ offset, _ => ((offset.toNat : ℤ), offset.toNat)
  | .read _ _ size, s => (((size : ℤ), (fullProgram.drop s).take size), s + size)
  | .errno, s | .strlen _, s => ((0 : ℤ), s)
  | .malloc _ _, s => (true, s)
  | .genericOpen _, s => (.error ⟨-2, by decide⟩, s)
  | .mmap _ _ _ _ _, s | .mapVdso _ _, s | .mapNothing _ _ _, s => ((0 : ℤ), s)
  | .findHole hole _, s => ((if hole = .vdso then 0xf7ffc else badPage : ℕ), s)
  | .writeString _ _, s | .put _ _, s => ((0 : ℕ), s)
  | .startBrk, s | .uninitialised, s => ((0 : Addr), s)
  | .getRandom, s => (⟨List.replicate 16 0, rfl⟩, s)
  | .free _, s | .fdClose, s | .memNew, s | .writeWrlock, s | .writeWrunlock, s | .setBrk _, s
  | .setVdso _, s | .memset _ _, s | .setCpu _ _, s => ((), s)

theorem fullHost_returns : ∃ t l, (elfExec 0 [0x61] [] []).run (watch fullHost) (0, .start) =
    some (0, t, l) ∧ ¬Meets 0 l := by
  refine ⟨_, _, rfl, fun h ↦ ?_⟩
  have hcpu := (h.1 rfl).2
  cases hcpu

end Exits

end Isl.Kernel.Exec
