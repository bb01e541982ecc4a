import Isl.Emu.GuestStack
import Isl.Emu.GuestView
import Isl.Kernel.Exec

/-!
`elf_exec` on the memory of `emu/memory.c`: what its calls do to the address space of
the task, with `realfs_mmap` for the files and the functions of `kernel/user.c`.
-/

namespace Isl.Kernel.Exec

open Isl.Lib Isl.Emu.Memory
open Isl.Emu (GuestMem Perm)
open Isl.Kernel.Mmap (Dword foundPage)

variable {σ : Type}

/-! Copying to guest memory. -/

/-- `user_write`. The bytes before a failing one are written. -/
def userWrite (w : World) (m : ℕ) (addr : Addr) : List Byte → World × ℕ
  | [] => (w, 0)
  | b :: bs =>
    let w' := w.store m addr b
    if (w.memPtr m addr .write).2.isNone then (w', 1) else userWrite w' m (addr + 1) bs

def userWriteString (w : World) (m : ℕ) (addr : Addr) (string : Str) : World × ℕ :=
  if addr = 0 then (w, 1) else userWrite w m addr (string ++ [0])

/-- The loop of `user_strlen` with its counter `i`. A loop that has read every address
does not end. -/
def userStrlenLoop (m : ℕ) (p : Addr) : ℕ → World → ℕ → World × Option ℤ
  | 0, w, _ => (w, none)
  | fuel + 1, w, i =>
    let r := w.load m (p + BitVec.ofNat 32 i)
    match r.2 with
    | none => (r.1, some (-1))
    | some c => if c ≠ 0 then userStrlenLoop m p fuel r.1 (i + 1) else (r.1, some i)

def userStrlen (w : World) (m : ℕ) (p : Addr) : World × Option ℤ :=
  userStrlenLoop m p (2 ^ 32) w 0

/-! The calls. -/

/-- The host: its answers to the calls on files and for memory of its own, whether it
refuses a mapping, and what is in its mapping of a file, of some length from an offset. -/
structure Host (σ : Type) where
  answer : Handler ElfOp ElfOp.Reply σ
  refuses : σ → ElfOp → Bool
  mapFile : σ → File → ℕ → ℕ → Option (ℤ → Byte)
  realPageSize : ℕ
  vdsoData : ℤ → Byte

/-- The calling task. It is lost by an access past the end of a page directory, or in a
loop that does not end. -/
structure Task where
  world : World
  mem : ℕ
  startBrk : Addr
  brk : Addr
  vdso : Addr
  cpu : Option (Addr × Addr)
  lost : Bool

/-- A mapping, or nothing that is defined where the page directory ends before it. -/
def Task.map (t : Task) (start pages : ℕ) (r : World × ℤ) : ℤ × Task :=
  if start + pages ≤ memPages then (r.2, { t with world := r.1 })
  else (0, { t with lost := true })

theorem Task.map_of_le {t : Task} {start pages : ℕ} (r : World × ℤ) (h : start + pages ≤ memPages) :
    t.map start pages r = (r.2, { t with world := r.1 }) := if_pos h

/-- `realfs_mmap`, for a private mapping. -/
def Host.mmap (host : Host σ) (s : σ) (t : Task) (file : File) (start pages : ℕ) (offset : Dword)
    (flags : Flags) : ℤ × Task :=
  if pages = 0 then (0, t)
  else
    let realOffset := offset.toNat / host.realPageSize * host.realPageSize
    let correction := offset.toNat - realOffset
    let length := pages * pageSize % 2 ^ 32 + correction
    match if length = 0 then none else host.mapFile s file length realOffset with
    | none => (eInval, t)
    | some contents =>
      -- the pages of a length that wraps around are past the end of the host's mapping
      if pages * pageSize % 2 ^ 32 = 0 then (0, { t with lost := true })
      else t.map start pages (t.world.ptMapFresh t.mem start pages (fun i ↦ contents (i + correction)) flags)

def Host.machine (host : Host σ) : Handler ElfOp ElfOp.Reply (σ × Task)
  | .memNew, (s, t) =>
    let r := (t.world.memRelease t.mem).memNew
    ((), (s, { t with world := r.2, mem := r.1, startBrk := 0, brk := 0, vdso := 0 }))
  | .writeWrlock, s => ((), s)
  | .writeWrunlock, s => ((), s)
  | .mmap file start pages offset flags, (s, t) =>
    let r := if host.refuses s (.mmap file start pages offset flags) then (eNomem, t)
      else host.mmap s t file start pages offset flags
    (r.1, (s, r.2))
  | .findHole _ size, (s, t) => (foundPage t.world t.mem size, (s, t))
  | .mapVdso start pages, (s, t) =>
    let r := if host.refuses s (.mapVdso start pages) then (eNomem, t)
      else t.map start pages (t.world.ptMapFresh t.mem start pages host.vdsoData 0)
    (r.1, (s, r.2))
  | .mapNothing start pages flags, (s, t) =>
    let r := if pages ≠ 0 && host.refuses s (.mapNothing start pages flags) then (eNomem, t)
      else t.map start pages (t.world.ptMapNothing t.mem start pages flags)
    (r.1, (s, r.2))
  | .startBrk, (s, t) => (t.startBrk, (s, t))
  | .setBrk brk, (s, t) => ((), (s, { t with startBrk := brk, brk := brk }))
  | .setVdso vdso, (s, t) => ((), (s, { t with vdso := vdso }))
  | .memset start len, (s, t) =>
    ((), (s, { t with world := (userWrite t.world t.mem start (List.replicate len.toNat 0)).1 }))
  | .writeString addr string, (s, t) =>
    let r := userWriteString t.world t.mem addr string
    (r.2, (s, { t with world := r.1 }))
  | .put addr value, (s, t) =>
    let r := userWrite t.world t.mem addr value
    (r.2, (s, { t with world := r.1 }))
  | .strlen addr, (s, t) =>
    let r := userStrlen t.world t.mem addr
    (r.2.getD 0, (s, { t with world := r.1, lost := t.lost || r.2.isNone }))
  | .setCpu esp eip, (s, t) => ((), (s, { t with cpu := some (esp, eip) }))
  | op, (s, t) => ((host.answer op s).1, ((host.answer op s).2, t))

/-! What copying does to the view of the guest. -/

section Copying

variable {w : World} {m p : ℕ} {a : Addr}

/-- No page of an address space grows down. -/
def Flat (w : World) (m : ℕ) : Prop :=
  ∀ p e, w.memPt m p = some e → has e.flags pGrowsdown = false

/-- Pages stay mapped, and whether they grow down stays. -/
def KeepsPages (m : ℕ) (w w' : World) : Prop :=
  ∀ p e, w.memPt m p = some e →
    ∃ e', w'.memPt m p = some e' ∧ has e'.flags pGrowsdown = has e.flags pGrowsdown

theorem KeepsPages.refl (m : ℕ) (w : World) : KeepsPages m w w := fun _ e he ↦ ⟨e, he, rfl⟩

theorem KeepsPages.trans {w₁ w₂ : World} (h : KeepsPages m w w₁) (h' : KeepsPages m w₁ w₂) :
    KeepsPages m w w₂ := by
  intro p e he
  obtain ⟨e₁, he₁, hd₁⟩ := h p e he
  obtain ⟨e₂, he₂, hd₂⟩ := h' p e₁ he₁
  exact ⟨e₂, he₂, hd₂.trans hd₁⟩

theorem keepsPages_memPtr (w : World) (m : ℕ) (a : Addr) (type : Access) :
    KeepsPages m w (w.memPtr m a type).1 := by
  intro p e he
  have hg : (w.grow m (page a)).memPt m p = some e := World.grow_kept he
  obtain h | ⟨f, -, -, h⟩ | ⟨f, hf, -, -, h⟩ := World.memPtr_cases w m a type <;> rw [h]
  · exact ⟨e, hg, rfl⟩
  · exact ⟨e, hg, rfl⟩
  · rw [World.memPt_cowBreak]
    by_cases hp : p = page a
    · subst hp
      cases hg.symm.trans hf
      rw [if_pos ⟨rfl, rfl⟩]
      exact ⟨_, rfl, World.has_uncow (by decide)⟩
    · rw [if_neg fun h ↦ hp h.2]
      exact ⟨e, hg, rfl⟩

/-- A page that does not grow down was mapped before. -/
def OldPages (m : ℕ) (w w' : World) : Prop :=
  ∀ p e', w'.memPt m p = some e' → has e'.flags pGrowsdown = false →
    ∃ e, w.memPt m p = some e ∧ has e.flags pGrowsdown = false

theorem oldPages_memPtr (w : World) (m : ℕ) (a : Addr) (type : Access) :
    OldPages m w (w.memPtr m a type).1 := by
  have hgrow : OldPages m w (w.grow m (page a)) := by
    intro p e' he' hdown
    cases hn : w.memPt m (page a) with
    | some e => exact ⟨e', World.grow_of_isSome (Option.isSome_of_eq_some hn) ▸ he', hdown⟩
    | none =>
      cases hg : w.growsTo m (page a) with
      | false => exact ⟨e', World.grow_of_not hg ▸ he', hdown⟩
      | true =>
        rw [World.grow_eq hn hg, World.memPt_ptMap_one] at he'
        split at he'
        · -- the page that was grown to
          cases he'
          have hgrown : has (pWrite ||| pGrowsdown ||| pAnon) pGrowsdown = true := by decide
          cases hgrown.symm.trans hdown
        · exact ⟨e', he', hdown⟩
  obtain h | ⟨f, -, -, h⟩ | ⟨f, hf, -, -, h⟩ := World.memPtr_cases w m a type <;> rw [h]
  · exact hgrow
  · exact hgrow
  · intro p e' he' hdown
    rw [World.memPt_cowBreak] at he'
    split at he'
    · rename_i hp
      obtain rfl := hp.2
      cases he'
      exact hgrow _ f hf ((World.has_uncow (by decide)).symm.trans hdown)
    · exact hgrow p e' he' hdown

theorem Flat.growsTo (h : Flat w m) (p : ℕ) : w.growsTo m p = false := by
  cases hg : w.growsTo m p with
  | false => rfl
  | true =>
    obtain ⟨q, e, -, -, he, hd, -⟩ := World.growsTo_iff.mp hg
    rw [h q e he] at hd
    cases hd

theorem Flat.memPtr (h : Flat w m) (a : Addr) (type : Access) : Flat (w.memPtr m a type).1 m := by
  have hg : w.grow m (page a) = w := World.grow_of_not (h.growsTo _)
  obtain hr | ⟨f, -, -, hr⟩ | ⟨f, hf, -, -, hr⟩ := World.memPtr_cases w m a type <;>
    rw [hr, hg]
  · exact h
  · exact h
  · intro p e he
    rw [hg] at hf
    rw [World.memPt_cowBreak] at he
    split at he
    · cases he
      exact (World.has_uncow (by decide)).trans (h _ f hf)
    · exact h p e he

/-- A store is an access and a write to host memory, which maps nothing. -/
theorem memPt_store (w : World) (m : ℕ) (a : Addr) (v : Byte) :
    (w.store m a v).memPt = (w.memPtr m a .write).1.memPt := by
  unfold World.store
  dsimp only
  split <;> rfl

theorem nextMem_store (w : World) (m : ℕ) (a : Addr) (v : Byte) :
    (w.store m a v).nextMem = w.nextMem := (World.store_frame a v).nextMem

/-- What accesses to an address space leave: a sound memory with its pages. -/
structure Touched (m : ℕ) (w w' : World) : Prop where
  wf : w'.Wf
  unaliased : w'.Unaliased
  nextMem : w'.nextMem = w.nextMem
  keeps : KeepsPages m w w'
  old : OldPages m w w'
  flat : Flat w m → Flat w' m

theorem Touched.refl (hw : w.Wf) (hu : w.Unaliased) (m : ℕ) : Touched m w w :=
  ⟨hw, hu, rfl, .refl m w, fun _ e he hdown ↦ ⟨e, he, hdown⟩, id⟩

theorem Touched.trans {w₁ w₂ : World} (h : Touched m w w₁) (h' : Touched m w₁ w₂) :
    Touched m w w₂ :=
  ⟨h'.wf, h'.unaliased, h'.nextMem.trans h.nextMem, h.keeps.trans h'.keeps, fun p e he hdown ↦ by
    obtain ⟨e₁, he₁, hdown₁⟩ := h'.old p e he hdown
    exact h.old p e₁ he₁ hdown₁, fun hf ↦ h'.flat (h.flat hf)⟩

theorem touched_memPtr (hw : w.Wf) (hu : w.Unaliased) (m : ℕ) (a : Addr) (type : Access) :
    Touched m w (w.memPtr m a type).1 :=
  ⟨hw.memPtr m a type, hu.memPtr hw m a type, (World.memPtr_frame a type).nextMem,
    keepsPages_memPtr w m a type, oldPages_memPtr w m a type, fun h ↦ h.memPtr a type⟩

theorem touched_store (hw : w.Wf) (hu : w.Unaliased) (m : ℕ) (a : Addr) (v : Byte) :
    Touched m w (w.store m a v) := by
  have h := touched_memPtr hw hu m a .write
  have hpt := memPt_store w m a v
  refine ⟨hw.store m a v, ?_, nextMem_store w m a v, ?_, ?_, fun hf ↦ ?_⟩
  · have hu' := h.unaliased
    unfold World.Unaliased at hu' ⊢
    rwa [hpt]
  · have hk := h.keeps
    unfold KeepsPages at hk ⊢
    rwa [hpt]
  · have ho := h.old
    unfold OldPages at ho ⊢
    rwa [hpt]
  · have hf' := h.flat hf
    unfold Flat at hf' ⊢
    rwa [hpt]

theorem touched_userWrite (hw : w.Wf) (hu : w.Unaliased) (m : ℕ) (a : Addr) (bs : List Byte) :
    Touched m w (userWrite w m a bs).1 := by
  induction bs generalizing w a with
  | nil => exact .refl hw hu m
  | cons b bs ih =>
    have h := touched_store hw hu m a b
    unfold userWrite
    dsimp only
    split
    · exact h
    · exact h.trans (ih h.wf h.unaliased (a + 1))

theorem touched_userWriteString (hw : w.Wf) (hu : w.Unaliased) (m : ℕ) (a : Addr) (string : Str) :
    Touched m w (userWriteString w m a string).1 := by
  unfold userWriteString
  split
  · exact .refl hw hu m
  · exact touched_userWrite hw hu m a _

theorem touched_userStrlenLoop (p : Addr) (fuel : ℕ) (hw : w.Wf) (hu : w.Unaliased) (i : ℕ) :
    Touched m w (userStrlenLoop m p fuel w i).1 := by
  induction fuel generalizing w i with
  | zero => exact .refl hw hu m
  | succ fuel ih =>
    have h : Touched m w (w.load m (p + BitVec.ofNat 32 i)).1 := touched_memPtr hw hu m _ .read
    unfold userStrlenLoop
    dsimp only
    split
    · exact h
    · split
      · exact h.trans (ih h.wf h.unaliased (i + 1))
      · exact h

/-- `user_write` on the view of the guest. -/
theorem view_userWrite (hw : w.Wf) (hu : w.Unaliased) (m : ℕ) (a : Addr) (bs : List Byte) :
    (userWrite w m a bs).1.view m = ((w.view m).userWrite a bs).1 ∧
      (userWrite w m a bs).2 = ((w.view m).userWrite a bs).2 := by
  induction bs generalizing w a with
  | nil => exact ⟨rfl, rfl⟩
  | cons b bs ih =>
    have h := touched_store hw hu m a b
    have hview := hw.view_store hu m a b
    have hsome := hw.memPtr_isSome m a .write
    have hrest := ih h.wf h.unaliased (a + 1)
    unfold userWrite GuestMem.userWrite
    cases hs : (w.view m).store a b with
    | none =>
      have hnone : (w.memPtr m a .write).2 = none := by
        rw [← Option.not_isSome_iff_eq_none, hsome]
        rintro ⟨-, hp⟩
        rw [GuestMem.store, if_pos (hp rfl)] at hs
        cases hs
      rw [hs, Option.getD_none] at hview
      simp only [hnone, Option.isNone_none, if_true, and_true]
      exact hview
    | some g =>
      have hperm := (GuestMem.store_eq_some.mp hs).1
      obtain ⟨q, hq⟩ := Option.isSome_iff_exists.mp
        (hsome.mpr ⟨by rw [hperm]; exact Perm.noConfusion, fun _ ↦ hperm⟩)
      rw [hs, Option.getD_some] at hview
      rw [hview] at hrest
      simp only [hq, Option.isNone_some, Bool.false_eq_true, if_false]
      exact hrest

/-- `user_strlen` finds the end of a string that the view holds. -/
theorem view_userStrlenLoop {n i fuel : ℕ} {string : Str} (hw : w.Wf) (hu : w.Unaliased)
    (hnul : ∀ c ∈ string, c ≠ 0) (hi : i ≤ string.length) (hfuel : string.length - i < fuel)
    (hperm : ∀ j ≤ string.length, (w.view m).perm (page (GuestMem.addrOf (n + j))) ≠ .unmapped)
    (hbytes : (w.view m).Contains n (string ++ [0])) :
    (userStrlenLoop m (GuestMem.addrOf n) fuel w i).1.view m = w.view m ∧
      (userStrlenLoop m (GuestMem.addrOf n) fuel w i).2 = some (string.length : ℤ) := by
  induction fuel generalizing w i with
  | zero => omega
  | succ fuel ih =>
    have hview : (w.load m (GuestMem.addrOf n + BitVec.ofNat 32 i)).1.view m = w.view m :=
      hw.view_memPtr m _ .read m
    have h : Touched m w (w.load m (GuestMem.addrOf n + BitVec.ofNat 32 i)).1 :=
      touched_memPtr hw hu m _ .read
    have hload : (w.load m (GuestMem.addrOf n + BitVec.ofNat 32 i)).2 =
        (string ++ [0])[i]? := by
      have hlen : i < (string ++ [(0 : Byte)]).length := by
        rw [List.length_append, List.length_singleton]
        omega
      rw [hw.load_view, GuestMem.addrOf_add, GuestMem.load, if_neg (hperm i hi), hbytes i hlen,
        List.getElem?_eq_getElem hlen]
    unfold userStrlenLoop
    dsimp only
    obtain rfl | hlt := hi.eq_or_lt
    · rw [List.getElem?_concat_length] at hload
      rw [hload]
      exact ⟨hview, rfl⟩
    · have hc : string[i] ≠ 0 := hnul _ (List.getElem_mem hlt)
      rw [List.getElem?_append_left hlt, List.getElem?_eq_getElem hlt] at hload
      rw [hload]
      dsimp only
      rw [if_pos hc]
      have hrest := ih (i := i + 1) h.wf h.unaliased (by omega) (by omega) (hview ▸ hperm) (hview ▸ hbytes)
      rwa [hview] at hrest

end Copying

/-! Below the stack, nothing that is mapped grows down. -/

section Loading

variable {t : Task} {s : σ} {host : Host σ} {w : World} {m p : ℕ}

structure Sound (t : Task) : Prop where
  wf : t.world.Wf
  unaliased : t.world.Unaliased
  mem_lt : t.mem < t.world.nextMem

structure Loading (t : Task) : Prop extends Sound t where
  flat : Flat t.world t.mem

/-- The calls that map nothing that grows down, and neither replace the address space nor
set the registers. -/
def Plain : ElfOp → Prop
  | .mmap _ _ _ _ flags | .mapNothing _ _ flags => has flags pGrowsdown = false
  | .memNew | .setCpu _ _ => False
  | _ => True

theorem memPt_ptMapFresh {m' start pages : ℕ} {contents : ℤ → Byte} {flags : Flags} {e : PtEntry}
    (h : (w.ptMapFresh m start pages contents flags).1.memPt m' p = some e) :
    w.memPt m' p = some e ∨ e.flags = flags := by
  unfold World.ptMapFresh World.mmap at h
  dsimp only at h
  split at h
  · exact .inl h
  · rw [World.memPt_ptMap] at h
    split at h
    · cases h
      exact .inr rfl
    · exact .inl h

theorem has_anon (flags : Flags) : has (flags ||| pAnon) pGrowsdown = has flags pGrowsdown := by
  have hanon : pAnon &&& pGrowsdown = 0#32 := by decide
  rw [has, has, BitVec.and_or_distrib_right, hanon, BitVec.or_zero]

theorem Loading.touched {w : World} (h : Loading t) (hw : Touched t.mem t.world w) :
    Loading { t with world := w } :=
  ⟨⟨hw.wf, hw.unaliased, h.mem_lt.trans_eq hw.nextMem.symm⟩, hw.flat h.flat⟩

theorem Loading.ptMapFresh (h : Loading t) {start pages : ℕ} (hin : start + pages ≤ memPages)
    (contents : ℤ → Byte) {flags : Flags} (hflags : has flags pGrowsdown = false) :
    Loading { t with world := (t.world.ptMapFresh t.mem start pages contents flags).1 } := by
  have hframe : World.Frame t.mem 0 0 t.world
      (t.world.ptMapFresh t.mem start pages contents flags).1 :=
    World.ptMapFresh_frame (Nat.zero_le _) (Nat.zero_le _) _ _ _ _
  refine ⟨⟨h.wf.ptMapFresh _ _ _ _ _ h.mem_lt hin, h.unaliased.ptMapFresh h.wf _ _ _ _ _,
    h.mem_lt.trans_eq hframe.nextMem.symm⟩, fun p e he ↦ ?_⟩
  obtain hold | hnew := memPt_ptMapFresh he
  · exact h.flat p e hold
  · rwa [hnew]

theorem Loading.ptMapNothing (h : Loading t) {start pages : ℕ} (hin : start + pages ≤ memPages)
    {flags : Flags} (hflags : has flags pGrowsdown = false) :
    Loading { t with world := (t.world.ptMapNothing t.mem start pages flags).1 } := by
  unfold World.ptMapNothing
  split
  · exact h
  · exact h.ptMapFresh hin _ ((has_anon flags).trans hflags)

/-- A mapping keeps what holds where it is inside of the page directory. -/
theorem map_loading {start pages : ℕ} {r : World × ℤ}
    (h : t.lost = false → start + pages ≤ memPages → Loading { t with world := r.1 })
    (hlost : (t.map start pages r).2.lost = false) : Loading (t.map start pages r).2 := by
  unfold Task.map at hlost ⊢
  split
  · rename_i hin
    rw [if_pos hin] at hlost
    exact h hlost hin
  · rename_i hout
    rw [if_neg hout] at hlost
    cases hlost

theorem mmap_loading {file : File} {start pages : ℕ} {offset : Dword} {flags : Flags}
    (h : t.lost = false → Loading t) (hflags : has flags pGrowsdown = false)
    (hlost : (host.mmap s t file start pages offset flags).2.lost = false) :
    Loading (host.mmap s t file start pages offset flags).2 := by
  unfold Host.mmap at hlost ⊢
  dsimp only at hlost ⊢
  split
  · rename_i hzero
    rw [if_pos hzero] at hlost
    exact h hlost
  rename_i hpages
  rw [if_neg hpages] at hlost
  split
  · rename_i hnone
    rw [hnone] at hlost
    exact h hlost
  rename_i contents hsome
  rw [hsome] at hlost
  dsimp only at hlost
  split
  · rename_i hwrap
    rw [if_pos hwrap] at hlost
    cases hlost
  rename_i hwrap
  rw [if_neg hwrap] at hlost
  exact map_loading (fun hl hin ↦ (h hl).ptMapFresh hin _ hflags) hlost

theorem machine_loading (op : ElfOp) (hplain : Plain op) (h : t.lost = false → Loading t)
    (hlost : (host.machine op (s, t)).2.2.lost = false) : Loading (host.machine op (s, t)).2.2 := by
  cases op with
  | memNew => exact hplain.elim
  | mmap file start pages offset flags =>
    simp only [Host.machine] at hlost ⊢
    split
    · rename_i hr
      rw [if_pos hr] at hlost
      exact h hlost
    · rename_i hr
      rw [if_neg hr] at hlost
      exact mmap_loading h hplain hlost
  | mapVdso start pages =>
    simp only [Host.machine] at hlost ⊢
    split
    · rename_i hr
      rw [if_pos hr] at hlost
      exact h hlost
    · rename_i hr
      rw [if_neg hr] at hlost
      exact map_loading (fun hl hin ↦ (h hl).ptMapFresh hin _ (by decide)) hlost
  | mapNothing start pages flags =>
    simp only [Host.machine] at hlost ⊢
    split
    · rename_i hr
      rw [if_pos hr] at hlost
      exact h hlost
    · rename_i hr
      rw [if_neg hr] at hlost
      exact map_loading (fun hl hin ↦ (h hl).ptMapNothing hin hplain) hlost
  | memset start len =>
    have ht := h hlost
    exact ht.touched (touched_userWrite ht.wf ht.unaliased _ _ _)
  | writeString addr string =>
    have ht := h hlost
    exact ht.touched (touched_userWriteString ht.wf ht.unaliased _ _ _)
  | put addr value =>
    have ht := h hlost
    exact ht.touched (touched_userWrite ht.wf ht.unaliased _ _ _)
  | strlen addr =>
    have ht := h (Bool.or_eq_false_iff.mp hlost).1
    have hnext := ht.touched (touched_userStrlenLoop addr (2 ^ 32) ht.wf ht.unaliased 0)
    exact ⟨⟨hnext.wf, hnext.unaliased, hnext.mem_lt⟩, hnext.flat⟩
  | setBrk brk => exact ⟨⟨(h hlost).wf, (h hlost).unaliased, (h hlost).mem_lt⟩, (h hlost).flat⟩
  | setVdso vdso => exact ⟨⟨(h hlost).wf, (h hlost).unaliased, (h hlost).mem_lt⟩, (h hlost).flat⟩
  | setCpu esp eip => exact hplain.elim
  | _ => exact h hlost

theorem map_cpu (t : Task) (start pages : ℕ) (r : World × ℤ) : (t.map start pages r).2.cpu = t.cpu := by
  unfold Task.map
  split <;> rfl

theorem mmap_cpu (host : Host σ) (s : σ) (t : Task) (file : File) (start pages : ℕ) (offset : Dword)
    (flags : Flags) : (host.mmap s t file start pages offset flags).2.cpu = t.cpu := by
  unfold Host.mmap
  dsimp only
  split
  · rfl
  split
  · rfl
  split
  · rfl
  · exact map_cpu _ _ _ _

theorem machine_cpu {op : ElfOp} (hplain : Plain op) (s : σ × Task) :
    (host.machine op s).2.2.cpu = s.2.cpu := by
  cases op with
  | memNew => exact hplain.elim
  | setCpu esp eip => exact hplain.elim
  | mmap file start pages offset flags =>
    simp only [Host.machine]
    split
    · rfl
    · exact mmap_cpu _ _ _ _ _ _ _ _
  | mapVdso start pages =>
    simp only [Host.machine]
    split
    · rfl
    · exact map_cpu _ _ _ _
  | mapNothing start pages flags =>
    simp only [Host.machine]
    split
    · rfl
    · exact map_cpu _ _ _ _
  | _ => rfl

theorem loadEntryFlags_flat (ph : PrgHeader) : has (loadEntryFlags ph) pGrowsdown = false := by
  unfold loadEntryFlags
  split <;> decide

theorem zeroTail_plain (fileEnd : Addr) : Prog.Only Plain (zeroTail fileEnd) :=
  .ite (.perform trivial) (.pure _)

theorem loadBss_plain (ph : PrgHeader) (addr : Addr) : Prog.Only Plain (loadBss ph addr) :=
  .bind (zeroTail_plain _) fun _ ↦
    .ite (.bind (.perform (loadEntryFlags_flat ph)) fun _ ↦ .pure _) (.pure _)

theorem loadEntry_plain (file : File) (ph : PrgHeader) (bias : Addr) :
    Prog.Only Plain (loadEntry file ph bias) :=
  .bind (.perform (loadEntryFlags_flat ph)) fun _ ↦
    .ite (.pure _) (.ite (loadBss_plain ph _) (.pure _))

theorem loadProgram_plain (header : ElfHeader) (phs : List PrgHeader) (l : Loaded) :
    Prog.Only Plain (loadProgram header phs l) := by
  induction phs generalizing l with
  | nil => exact .pure _
  | cons ph phs ih =>
    unfold loadProgram
    refine .ite (ih l) ?_
    refine .bind (loadEntry_plain _ _ _) fun err ↦ .ite (.pure _) ?_
    refine .bind ?_ fun _ ↦ ih _
    exact .bind (.perform trivial) fun start ↦ .ite (.perform trivial) (.pure _)

theorem loadInterpEntries_plain (interpAddr : Addr) (phs : List PrgHeader) :
    Prog.Only Plain (loadInterpEntries interpAddr phs) := by
  induction phs with
  | nil => exact .pure _
  | cons ph phs ih =>
    unfold loadInterpEntries
    refine .ite ih ?_
    exact .bind (loadEntry_plain _ _ _) fun err ↦ .ite (.pure _) ih

theorem loadInterp_plain (entry : Addr) (interp : Interp) :
    Prog.Only Plain (loadInterp entry interp) := by
  unfold loadInterp
  split
  · refine .bind (.perform trivial) fun hole ↦ ?_
    exact .bind (loadInterpEntries_plain _ _) fun err ↦ .pure _
  · exact .pure _

theorem mapVdsoAndVvar_plain : Prog.Only Plain mapVdsoAndVvar := by
  refine .bind (.perform trivial) fun vdsoPage ↦ .ite (.pure _) ?_
  refine .bind (.perform trivial) fun err ↦ .ite (.pure _) ?_
  refine .bind (.perform trivial) fun _ ↦ ?_
  refine .bind (.perform trivial) fun vvarPage ↦ .ite (.pure _) ?_
  have hflags : has 0 pGrowsdown = false := by decide
  exact .bind (.perform hflags) fun err ↦ .pure _

theorem mapSegments_plain (header : ElfHeader) (phs : List PrgHeader) (interp : Interp) :
    Prog.Only Plain (mapSegments header phs interp) := by
  refine .bind (loadProgram_plain header phs _) fun l ↦ ?_
  split
  · exact .pure _
  refine .bind (loadInterp_plain _ interp) fun addrs ↦ ?_
  split
  · exact .pure _
  refine .bind mapVdsoAndVvar_plain fun vdso ↦ ?_
  split
  · exact .pure _
  · exact .pure _

end Loading

end Isl.Kernel.Exec
