import Isl.Kernel.ExecStack
import Isl.Emu.MemAccess
import Isl.Emu.MemoryAlias

/-!
What a new image reads from its stack pointer on: the number of its arguments, the
pointers to them and to the environment, and the auxiliary vector.
-/

namespace Isl.Kernel.Exec

open Isl.Lib Isl.Emu.Memory
open Isl.Emu (GuestMem Perm)
open Isl.Emu.GuestMem (addrOf addrOf_toNat addrOf_add page_addrOf)
open Isl.Kernel.Mmap (Dword badPage foundPage foundPage_spec foundPage_ne_badPage)

variable {σ : Type} {host : Host σ} {s s' : σ} {t t' : Task} {g : GuestMem} {lo n a : ℕ}
  {bs xs ys : List Byte} {string : Str} {strings : List Str}

/-- A copy of a string with its terminator. -/
def CopyAt (g : GuestMem) (a : Addr) (string : Str) : Prop :=
  g.loads a (string.length + 1) = some (terminated string)

/-- The first address and the size of each table: the number of arguments, the two tables of
pointers with their null pointers, and the auxiliary vector. -/
def tableRegions (esp argc envc auxc : ℕ) : List (ℕ × ℕ) :=
  [(esp, 4), (esp + 4, 4 * (argc + 1)), (esp + 4 + 4 * (argc + 1), 4 * (envc + 1)),
    (esp + 4 + 4 * (argc + 1) + 4 * (envc + 1), 8 * auxc)]

def copyRegions (addrs : List Addr) (strings : List Str) : List (ℕ × ℕ) :=
  List.zipWith (fun a string ↦ (a.toNat, string.length + 1)) addrs strings

def Apart (r r' : ℕ × ℕ) : Prop := r.1 + r.2 ≤ r'.1 ∨ r'.1 + r'.2 ≤ r.1

/-- The dwords from the stack pointer on. -/
def stackWords (argc : ℕ) (argvAddrs envpAddrs : List Addr) (aux : List (ℕ × Dword)) : List Dword :=
  BitVec.ofNat 32 argc :: (argvAddrs ++ 0 :: (envpAddrs ++ 0 ::
    aux.flatMap fun ent ↦ [BitVec.ofNat 32 ent.1, ent.2]))

/-- The arguments, the environment and the auxiliary vector are found from `esp`. -/
structure Starts (g : GuestMem) (esp : Addr) (argv envp : List Str) (aux : List (ℕ × Dword))
    (argvAddrs envpAddrs : List Addr) : Prop where
  aligned : esp.toNat % 16 = 0
  count : argv.length < 2 ^ 32
  words : ∀ (i : ℕ) (hi : i < (stackWords argv.length argvAddrs envpAddrs aux).length),
    g.tlbRead (esp + BitVec.ofNat 32 (4 * i)) 32 =
      some (stackWords argv.length argvAddrs envpAddrs aux)[i]
  argvCopies : List.Forall₂ (CopyAt g) argvAddrs argv
  envpCopies : List.Forall₂ (CopyAt g) envpAddrs envp
  tablesApart : (tableRegions esp.toNat argv.length envp.length aux.length).Pairwise Apart
  copiesApart : ∀ r ∈ tableRegions esp.toNat argv.length envp.length aux.length,
    ∀ c ∈ copyRegions argvAddrs argv ++ copyRegions envpAddrs envp, Apart r c
  inside : ∀ r ∈ tableRegions esp.toNat argv.length envp.length aux.length ++
    (copyRegions argvAddrs argv ++ copyRegions envpAddrs envp), r.1 + r.2 ≤ 2 ^ 32

/-! What memory holds is read. -/

theorem holds_of_stack {top : ℕ} (h : g.Stack lo top n bs) : g.Holds (addrOf n) bs := by
  intro i hi
  have hlow := h.low
  have hlen := h.length
  have htop := h.top_le
  have hperm := h.perm (n + i) (by omega) (by omega)
  rw [addrOf_add, GuestMem.load, page_addrOf (by omega), hperm, if_neg Perm.noConfusion, h.bytes i hi]

theorem holds_append : g.Holds (addrOf n) (xs ++ ys) ↔
    g.Holds (addrOf n) xs ∧ g.Holds (addrOf (n + xs.length)) ys := by
  rw [GuestMem.holds_append, addrOf_add]

theorem tlbRead_dword {value : Dword} (h : g.Holds (addrOf n) (dwordBytes value)) :
    g.tlbRead (addrOf n) 32 = some value := by
  have hlt : value.toNat < 256 ^ 4 := value.isLt
  rw [GuestMem.tlbRead_of_holds h (dwordBytes_length value), dwordBytes, Layout.leNat_leBytes,
    Nat.mod_eq_of_lt hlt, BitVec.ofNat_toNat, BitVec.setWidth_eq]

theorem tlbRead_dwords {values : List Dword} (h : g.Holds (addrOf n) (dwords values)) {i : ℕ}
    (hi : i < values.length) : g.tlbRead (addrOf n + BitVec.ofNat 32 (4 * i)) 32 = some values[i] := by
  have hsplit : dwords values = dwords (values.take i) ++ (dwordBytes values[i] ++
      dwords (values.drop (i + 1))) := by
    rw [dwords, dwords, dwords, ← List.flatMap_cons, ← List.flatMap_append,
      List.getElem_cons_drop, List.take_append_drop]
  rw [hsplit] at h
  have hword := (holds_append.mp (holds_append.mp h).2).1
  rw [dwords_length, List.length_take, Nat.min_eq_left hi.le] at hword
  rw [addrOf_add]
  exact tlbRead_dword hword

theorem copyAt_of_holds (h : g.Holds (addrOf n) (copies strings)) :
    List.Forall₂ (CopyAt g) (addrsFrom n strings) strings := by
  induction strings generalizing n with
  | nil => exact .nil
  | cons string strings ih =>
    rw [copies_cons] at h
    obtain ⟨hfirst, hrest⟩ := holds_append.mp h
    rw [terminated_length] at hrest
    refine .cons ?_ (ih hrest)
    have hbytes := GuestMem.loads_of_holds hfirst
    rwa [terminated_length] at hbytes

/-- The copies are where the pointers are. -/
theorem mem_copyRegions {r : ℕ × ℕ} (hlt : n + (copies strings).length ≤ 2 ^ 32)
    (h : r ∈ copyRegions (addrsFrom n strings) strings) :
    n ≤ r.1 ∧ r.1 + r.2 ≤ n + (copies strings).length := by
  induction strings generalizing n with
  | nil => cases h
  | cons string strings ih =>
    rw [copies_cons, List.length_append, terminated_length] at hlt ⊢
    rw [addrsFrom, copyRegions, List.zipWith_cons_cons, List.mem_cons] at h
    obtain rfl | h := h
    · dsimp only
      rw [addrOf_toNat (by omega)]
      omega
    · have hrest := ih (by omega) h
      omega

theorem mem_tableRegions {esp argc envc auxc : ℕ} {r : ℕ × ℕ} (h : r ∈ tableRegions esp argc envc auxc) :
    r.1 + r.2 ≤ esp + 4 * (argc + envc + 3) + 8 * auxc := by
  simp only [tableRegions, List.mem_cons, List.not_mem_nil, or_false] at h
  obtain rfl | rfl | rfl | rfl := h <;> dsimp only <;> omega

/-- The tables follow one another. -/
theorem tableRegions_apart (esp argc envc auxc : ℕ) :
    (tableRegions esp argc envc auxc).Pairwise Apart := by
  simp only [tableRegions, List.pairwise_cons, List.mem_cons, List.not_mem_nil, or_false,
    forall_eq_or_imp, forall_eq, Apart, false_implies, implies_true, List.Pairwise.nil, and_true]
  omega

theorem auxBytes_eq (aux : List (ℕ × Dword)) (haux : ∀ ent ∈ aux, ent.1 < 2 ^ 32) :
    auxBytes aux = dwords (aux.flatMap fun ent ↦ [BitVec.ofNat 32 ent.1, ent.2]) := by
  induction aux with
  | nil => rfl
  | cons ent aux ih =>
    obtain ⟨hent, hrest⟩ := List.forall_mem_cons.mp haux
    have htype : dwordBytes (BitVec.ofNat 32 ent.1) = Layout.leBytes 4 ent.1 := by
      rw [dwordBytes, BitVec.toNat_ofNat, Nat.mod_eq_of_lt hent]
    rw [auxBytes, List.flatMap_cons, List.flatMap_cons, dwords, List.flatMap_append, List.flatMap_cons,
      List.flatMap_cons, List.flatMap_nil, List.append_nil, htype]
    exact congrArg _ (ih hrest)

theorem tables_eq (argv envp : List Str) (argvAddr envpAddr : ℕ) (aux : List (ℕ × Dword))
    (haux : ∀ ent ∈ aux, ent.1 < 2 ^ 32) :
    tables argv envp argvAddr envpAddr aux =
      dwords (stackWords argv.length (addrsFrom argvAddr argv) (addrsFrom envpAddr envp) aux) := by
  have hzero : List.replicate 4 (0 : Byte) = dwordBytes 0 := by decide
  simp only [tables, auxBytes_eq aux haux, hzero, stackWords, dwords, countArgs, List.flatMap_cons,
    List.flatMap_append, List.append_assoc]

theorem stringArea_length (file : Str) (argv envp : List Str) :
    (stringArea file argv envp).length = stringsSize file argv envp := by
  simp only [stringArea, stringsSize, List.length_append, terminated_length, List.length_replicate]
  omega

theorem tables_length (argv envp : List Str) (argvAddr envpAddr : ℕ) (aux : List (ℕ × Dword)) :
    (tables argv envp argvAddr envpAddr aux).length =
      4 * (argv.length + envp.length + 3) + 8 * aux.length := by
  simp only [tables, List.length_append, dwordBytes_length, dwords_length, addrsFrom_length,
    List.length_replicate, auxBytes_length]
  omega

theorem auxv_types (header : ElfHeader) (vdsoEntryPoint : Dword) (image : Image) (loadAddr : Addr)
    (copied : Copied) : ∀ ent ∈ auxv header vdsoEntryPoint image loadAddr copied, ent.1 < 2 ^ 32 := by
  simp [auxv]

/-- The tables and the copies in the bytes from the stack pointer up. -/
theorem starts_of_stack {file : Str} {argv envp : List Str} {aux : List (ℕ × Dword)} {rest : List Byte}
    (haux : ∀ ent ∈ aux, ent.1 < 2 ^ 32)
    (h : g.Stack lo stackEnd (stackEnd - stackUse file argv envp)
      (imageTables file argv envp aux ++ rest ++ stringArea file argv envp)) :
    Starts g (addrOf (stackEnd - stackUse file argv envp)) argv envp aux
      (addrsFrom (stackEnd - stringsSize file argv envp) argv)
      (addrsFrom (stackEnd - (8 + (file.length + 1) + (copies envp).length)) envp) := by
  have hend : stackEnd = 0xffffe000 := rfl
  have hstrings : stringsSize file argv envp =
    8 + (file.length + 1) + (copies envp).length + (copies argv).length := rfl
  have hround : stackUse file argv envp =
    roundUp16 (argumentsSize file argv envp + 4 * (argv.length + envp.length + 3) + sizeofAux) := rfl
  have hlen := h.length
  have htables := tables_length argv envp (stackEnd - stringsSize file argv envp)
    (stackEnd - (8 + (file.length + 1) + (copies envp).length)) aux
  rw [List.length_append, List.length_append, stringArea_length, imageTables, htables] at hlen
  have hloads := holds_of_stack h
  obtain ⟨hlow, hhigh⟩ := holds_append.mp hloads
  obtain ⟨hwords, -⟩ := holds_append.mp hlow
  rw [List.length_append, imageTables, htables] at hhigh
  rw [imageTables, tables_eq _ _ _ _ _ haux] at hwords
  have hbase : stackEnd - stackUse file argv envp + (4 * (argv.length + envp.length + 3) + 8 * aux.length +
      rest.length) = stackEnd - stringsSize file argv envp := by omega
  rw [hbase, stringArea] at hhigh
  obtain ⟨hcopies, -⟩ := holds_append.mp hhigh
  obtain ⟨hargv, henvp⟩ := holds_append.mp hcopies
  have hbase' : stackEnd - stringsSize file argv envp + (copies argv).length =
      stackEnd - (8 + (file.length + 1) + (copies envp).length) := by omega
  rw [hbase'] at henvp
  have hesp : (addrOf (stackEnd - stackUse file argv envp)).toNat = stackEnd - stackUse file argv envp :=
    addrOf_toNat (by omega)
  have hcopy : ∀ c ∈ copyRegions (addrsFrom (stackEnd - stringsSize file argv envp) argv) argv ++
      copyRegions (addrsFrom (stackEnd - (8 + (file.length + 1) + (copies envp).length)) envp) envp,
      stackEnd - stringsSize file argv envp ≤ c.1 ∧ c.1 + c.2 ≤ stackEnd := by
    intro c hc
    obtain hc | hc := List.mem_append.mp hc
    · have hbounds := mem_copyRegions (by omega) hc
      omega
    · have hbounds := mem_copyRegions (by omega) hc
      omega
  refine ⟨?_, ?_, fun i hi ↦ tlbRead_dwords hwords hi, copyAt_of_holds hargv, copyAt_of_holds henvp, ?_, ?_, ?_⟩
  · rw [hesp, hround]
    unfold roundUp16
    omega
  · omega
  · exact tableRegions_apart _ _ _ _
  · intro r hr c hc
    have hbounds := hcopy c hc
    have hr := mem_tableRegions hr
    rw [hesp] at hr
    left
    omega
  · intro r hr
    obtain hr | hr := List.mem_append.mp hr
    · have hr := mem_tableRegions hr
      rw [hesp] at hr
      omega
    · have hbounds := hcopy r hr
      omega

/-! The first page of the stack. -/

/-- The stack is one page of zeros, and nothing else grows down. -/
structure StackMapped (t : Task) : Prop extends Sound t where
  top : ∃ e, t.world.memPt t.mem 0xffffd = some e ∧ has e.flags pWrite ∧ has e.flags pGrowsdown ∧
    ∀ off, t.world.byte (t.world.entryPtr e off).block (t.world.entryPtr e off).off = 0
  flat : ∀ p e, p ≠ 0xffffd → t.world.memPt t.mem p = some e → has e.flags pGrowsdown = false

theorem memPt_ptMapNothing_one (w : World) (m p : ℕ) (flags : Flags) (m' p' : ℕ) :
    (w.ptMapNothing m p 1 flags).1.memPt m' p' =
      if m' = m ∧ p' = p then some ⟨w.nextData, 0, flags ||| pAnon⟩ else w.memPt m' p' :=
  World.memPt_ptMap_one (w.mmap pageSize fun _ ↦ 0).2 m p w.nextBlock (flags ||| pAnon) m' p'

theorem byte_ptMapNothing_one {w : World} (hw : w.Wf) (m p : ℕ) (flags : Flags) (off : ℕ) :
    (w.ptMapNothing m p 1 flags).1.byte
      ((w.ptMapNothing m p 1 flags).1.entryPtr ⟨w.nextData, 0, flags ||| pAnon⟩ off).block
      ((w.ptMapNothing m p 1 flags).1.entryPtr ⟨w.nextData, 0, flags ||| pAnon⟩ off).off = 0 := by
  have hptr : (w.ptMapNothing m p 1 flags).1.entryPtr ⟨w.nextData, 0, flags ||| pAnon⟩ off =
      ⟨w.nextBlock, off⟩ :=
    (hw.mmap pageSize fun _ ↦ 0).ptMap_one_entryPtr m p w.nextBlock (flags ||| pAnon) off
  have hbyte : (w.ptMapNothing m p 1 flags).1.byte = (w.mmap pageSize fun _ ↦ 0).2.byte :=
    World.ptMap_one_byte (w.mmap pageSize fun _ ↦ 0).2 m p w.nextBlock (flags ||| pAnon)
  rw [hptr, hbyte]
  exact congrFun (Function.update_self w.nextBlock (fun _ ↦ (0 : Byte)) w.byte) _

theorem Loading.stackMapped (h : Loading t) : StackMapped { t with
    world := (t.world.ptMapNothing t.mem 0xffffd 1 (pWrite ||| pGrowsdown)).1 } := by
  have hin : 0xffffd + 1 ≤ memPages := by decide
  have hflags : has (pWrite ||| pGrowsdown ||| pAnon) pWrite ∧
    has (pWrite ||| pGrowsdown ||| pAnon) pGrowsdown := by decide
  have hframe : World.Frame t.mem 0 0 t.world
      (t.world.ptMapNothing t.mem 0xffffd 1 (pWrite ||| pGrowsdown)).1 :=
    World.ptMapNothing_frame (Nat.zero_le _) (Nat.zero_le _) _ _ _
  refine ⟨⟨h.wf.ptMapNothing _ _ _ _ h.mem_lt hin, h.unaliased.ptMapNothing h.wf _ _ _ _,
    h.mem_lt.trans_eq hframe.nextMem.symm⟩, ⟨⟨t.world.nextData, 0, pWrite ||| pGrowsdown ||| pAnon⟩, ?_,
    hflags.1, hflags.2, fun off ↦ byte_ptMapNothing_one h.wf _ _ _ off⟩, fun p e hp he ↦ ?_⟩
  · rw [memPt_ptMapNothing_one, if_pos ⟨rfl, rfl⟩]
  · rw [memPt_ptMapNothing_one, if_neg fun hpage ↦ hp hpage.2] at he
    exact h.flat p e he

/-- Where nothing else is mapped, the stack can grow. -/
theorem StackMapped.at_top (h : StackMapped t) (hlo : lo ≤ stackEnd - 8)
    (hfree : ∀ p, lo / pageSize ≤ p → p < 0xffffd → t.world.memPt t.mem p = none) :
    At t lo (stackEnd - 8) (List.replicate 8 0) t := by
  have hend : stackEnd = 0xffffe000 := rfl
  obtain ⟨e, he, hwrite, hdown, hzero⟩ := h.top
  have hgrows {p : ℕ} (hp : lo / pageSize ≤ p) (hlt : p < 0xffffd) : t.world.growsTo t.mem p :=
    World.growsTo_iff.mpr ⟨0xffffd, e, hlt, by decide, he, hdown,
      fun r hr hr' ↦ hfree r (hp.trans hr.le) hr'⟩
  have hpage {a : ℕ} (hlo : lo ≤ a) (ha : a < stackEnd) :
      lo / pageSize ≤ a / pageSize ∧ a / pageSize ≤ 0xffffd := by
    refine ⟨Nat.div_le_div_right hlo, ?_⟩
    have hsize : pageSize = 4096 := rfl
    rw [hsize]
    omega
  refine ⟨h.toSound, ⟨hlo, rfl, by decide, fun a hlow ha ↦ ?_, fun i hi ↦ ?_⟩, rfl, rfl, rfl⟩
  · obtain ⟨hp, hple⟩ := hpage hlow ha
    obtain heq | hlt := hple.eq_or_lt
    · rw [heq, World.view_perm_of he, World.permOf_eq_readWrite.mpr hwrite]
    · rw [World.view_perm_none (hfree _ hp hlt), if_pos (hgrows hp hlt)]
  · have hlen : i < stackEnd - lo := by
      simp only [List.length_append, List.length_replicate] at hi
      omega
    have hzeros : (List.replicate (stackEnd - 8 - lo) (0 : Byte) ++ List.replicate 8 0)[i] = 0 := by
      obtain hmem | hmem := List.mem_append.mp (List.getElem_mem hi)
      · exact List.eq_of_mem_replicate hmem
      · exact List.eq_of_mem_replicate hmem
    rw [hzeros]
    have hp : page (addrOf (lo + i)) = (lo + i) / pageSize := page_addrOf (by omega)
    obtain ⟨hple, hpge⟩ := hpage (a := lo + i) (Nat.le_add_right _ _) (by omega)
    obtain heq | hlt := hpge.eq_or_lt
    · rw [World.view_byte_of (hp.trans heq ▸ he)]
      exact hzero _
    · rw [World.view_byte_none]
      rw [hp]
      exact hfree _ hple hlt

/-! A run. -/

/-- The calls on files and on the lock, which the task has no part in. -/
def HostOnly : ElfOp → Prop
  | .lseek _ _ | .read _ _ _ | .errno | .malloc _ _ | .free _ | .genericOpen _ | .fdClose
  | .writeWrlock | .writeWrunlock => True
  | _ => False

theorem machine_hostOnly {op : ElfOp} (h : HostOnly op) (s : σ × Task) :
    (host.machine op s).2.2 = s.2 := by
  cases op <;> first | exact h.elim | rfl

/-- What a program of such calls finds, it leaves. -/
theorem hostOnly_triple {α : Type} {x : ElfCall α} (hx : Prog.Only HostOnly x) (P : Task → Prop) :
    Prog.Triple host.machine (fun s ↦ P s.2) x fun _ s ↦ P s.2 := by
  intro s hs a s' hrun
  refine hx.invariant (I := fun s ↦ P s.2) (fun op s hop hp ↦ ?_) hs hrun
  rw [machine_hostOnly hop]
  exact hp

theorem readHeader_hostOnly (file : File) : Prog.Only HostOnly (readHeader file) :=
  .bind (.perform trivial) fun _ ↦ .ite (.pure _) <|
    .bind (.perform trivial) fun _ ↦ .ite (.pure _) (.pure _)

theorem readPrgHeaders_hostOnly (file : File) (header : ElfHeader) :
    Prog.Only HostOnly (readPrgHeaders file header) := by
  refine .bind (.perform trivial) fun _ ↦ .ite (.pure _) ?_
  refine .bind (.perform trivial) fun _ ↦ .ite (.bind (.perform trivial) fun _ ↦ .pure _) ?_
  refine .bind (.perform trivial) fun _ ↦ .ite ?_ (.pure _)
  exact .bind (.perform trivial) fun _ ↦ .bind (.perform trivial) fun _ ↦ .pure _

theorem openInterp_hostOnly (ph : PrgHeader) : Prog.Only HostOnly (openInterp ph) := by
  refine .bind (.perform trivial) fun _ ↦ .ite (.pure _) ?_
  refine .bind (.perform trivial) fun _ ↦ .ite (.pure _) ?_
  refine .bind (.perform trivial) fun _ ↦ .ite (.pure _) ?_
  refine .bind (.perform trivial) fun opened ↦ ?_
  split
  · exact .pure _
  refine .bind (readHeader_hostOnly _) fun header ↦ ?_
  split
  · exact .pure _
  refine .bind (readPrgHeaders_hostOnly _ _) fun phs ↦ ?_
  split
  · exact .pure _
  · exact .pure _

theorem findInterp_hostOnly (phs : List PrgHeader) (interp : Interp) :
    Prog.Only HostOnly (findInterp phs interp) := by
  induction phs generalizing interp with
  | nil => exact .pure _
  | cons ph phs ih =>
    unfold findInterp
    refine .ite (ih interp) ?_
    split
    · refine .bind (openInterp_hostOnly ph) fun r ↦ ?_
      split
      · exact .pure _
      · exact ih _
    · exact .pure _

theorem leave_hostOnly (interp : Interp) (exit : Exit) : Prog.Only HostOnly (leave interp exit) := by
  have hfree : Prog.Only HostOnly (freeInterp interp) := by
    cases interp with
    | none => exact .pure _
    | named => exact .perform trivial
    | opened => exact .bind (.perform trivial) fun _ ↦ .perform trivial
    | loaded header ph =>
      exact .bind (.perform trivial) fun _ ↦ .bind (.perform trivial) fun _ ↦ .perform trivial
  cases exit with
  | ret err => exact .pure _
  | outFreePh err => exact .bind (.perform trivial) fun _ ↦ .pure _
  | outFreeInterp err => exact .bind hfree fun _ ↦ .bind (.perform trivial) fun _ ↦ .pure _
  | beyondHope err =>
    exact .bind (.perform trivial) fun _ ↦ .bind hfree fun _ ↦ .bind (.perform trivial) fun _ ↦ .pure _

/-- A task whose image is being mapped. -/
structure Mapping (t : Task) : Prop where
  cpu : t.cpu = none
  loading : t.lost = false → Loading t

theorem mapSegments_triple (header : ElfHeader) (phs : List PrgHeader) (interp : Interp) :
    Prog.Triple host.machine (fun s ↦ Mapping s.2) (mapSegments header phs interp)
      fun _ s ↦ Mapping s.2 := by
  intro s hs a s' hrun
  refine (mapSegments_plain header phs interp).invariant (I := fun s ↦ Mapping s.2)
    (fun op s hop h ↦ ?_) hs hrun
  exact ⟨(machine_cpu hop s).trans h.cpu, machine_loading op hop h.loading⟩

/-- A task whose image is mapped. -/
structure Ready (t : Task) : Prop where
  cpu : t.cpu = none
  stack : t.lost = false → StackMapped t

theorem mapStack_triple : Prog.Triple host.machine (fun s ↦ Mapping s.2) mapStack
    fun r s ↦ s.2.cpu = none ∧ (¬r < 0 → Ready s.2) := by
  refine .perform fun s hs ↦ ?_
  have hin : 0xffffd + 1 ≤ memPages := by decide
  simp only [Host.machine, Task.map, if_pos hin]
  split
  · have hneg : eNomem < 0 := by decide
    exact ⟨hs.cpu, fun hr ↦ absurd hneg hr⟩
  · exact ⟨hs.cpu, fun _ ↦ ⟨hs.cpu, fun hlost ↦ (hs.loading hlost).stackMapped⟩⟩

theorem mapImage_triple (header : ElfHeader) (phs : List PrgHeader) (interp : Interp) :
    Prog.Triple host.machine (fun s ↦ Mapping s.2) (mapImage header phs interp)
      fun r s ↦ s.2.cpu = none ∧ ∀ image, r = .ok image → Ready s.2 := by
  refine (mapSegments_triple header phs interp).bind fun image ↦ ?_
  cases image with
  | error err => exact .pure fun s hs ↦ ⟨hs.cpu, fun image h ↦ by cases h⟩
  | ok image =>
    refine mapStack_triple.bind fun err ↦ .pure fun s hs ↦ ⟨hs.1, fun image' h ↦ ?_⟩
    split at h
    · cases h
    · rename_i hr
      exact hs.2 hr

/-! The stack of a run. -/

/-- The calls that copy to the stack. -/
def Copying : ElfOp → Prop
  | .writeString _ _ | .put _ _ | .strlen _ | .getRandom | .uninitialised | .setCpu _ _ => True
  | _ => False

/-- What copying leaves of a sound task. -/
structure Follows (t t' : Task) : Prop where
  mem : t'.mem = t.mem
  touched : Touched t.mem t.world t'.world

theorem machine_copying {op : ElfOp} (h : Copying op) {u : σ × Task} (hf : Follows t u.2) :
    Follows t (host.machine op u).2.2 := by
  have hwf := hf.touched.wf
  have hun := hf.touched.unaliased
  cases op with
  | writeString addr string =>
    refine ⟨hf.mem, hf.touched.trans ?_⟩
    rw [← hf.mem]
    exact touched_userWriteString hwf hun _ addr string
  | put addr value =>
    refine ⟨hf.mem, hf.touched.trans ?_⟩
    rw [← hf.mem]
    exact touched_userWrite hwf hun _ addr value
  | strlen addr =>
    refine ⟨hf.mem, hf.touched.trans ?_⟩
    rw [← hf.mem]
    exact touched_userStrlenLoop addr (2 ^ 32) hwf hun 0
  | getRandom => exact hf
  | uninitialised => exact hf
  | setCpu esp eip => exact ⟨hf.mem, hf.touched⟩
  | _ => exact h.elim

theorem machine_copying_lost {op : ElfOp} (h : Copying op) {u : σ × Task}
    (hlost : (host.machine op u).2.2.lost = false) : u.2.lost = false := by
  cases op with
  | strlen addr => exact (Bool.or_eq_false_iff.mp hlost).1
  | writeString addr string => exact hlost
  | put addr value => exact hlost
  | getRandom => exact hlost
  | uninitialised => exact hlost
  | setCpu esp eip => exact hlost
  | _ => exact h.elim

theorem copyString_copying (sp : Addr) (string : Str) : Prog.Only Copying (copyString sp string) :=
  .bind (.perform trivial) fun _ ↦ .pure _

theorem copyStringsLoop_copying (strings : List Str) (sp : Addr) :
    Prog.Only Copying (copyStringsLoop strings sp) := by
  induction strings generalizing sp with
  | nil => exact .pure _
  | cons string strings ih =>
    exact .bind (copyString_copying sp string) fun sp ↦ .ite (.pure _) (ih sp)

theorem copyArguments_copying (file : Str) (argv envp : List Str) :
    Prog.Only Copying (copyArguments file argv envp) := by
  refine .bind (copyString_copying _ _) fun _ ↦ .ite (.pure _) ?_
  refine .bind (copyStringsLoop_copying _ _) fun _ ↦ .ite (.pure _) ?_
  refine .bind (copyStringsLoop_copying _ _) fun _ ↦ .ite (.pure _) ?_
  refine .bind (copyString_copying _ _) fun _ ↦ .ite (.pure _) ?_
  refine .bind (.perform trivial) fun _ ↦ ?_
  exact .bind (.perform trivial) fun _ ↦ .ite (.pure _) (.pure _)

theorem putPointers_copying (n : ℕ) (p string : Addr) :
    Prog.Only Copying (putPointers n p string) := by
  induction n generalizing p string with
  | zero => exact .pure _
  | succ n ih =>
    refine .bind (.perform trivial) fun _ ↦ .ite (.pure _) ?_
    exact .bind (.perform trivial) fun _ ↦ ih _ _

theorem putTables_copying (sp : Addr) (argv envp : List Str) (copied : Copied)
    (aux : List (ℕ × Dword)) : Prog.Only Copying (putTables sp argv envp copied aux) := by
  refine .bind (.perform trivial) fun _ ↦ .ite (.pure _) ?_
  refine .bind (putPointers_copying _ _ _) fun p ↦ ?_
  split
  · exact .pure _
  refine .bind (putPointers_copying _ _ _) fun p ↦ ?_
  split
  · exact .pure _
  · exact .bind (.perform trivial) fun _ ↦ .ite (.pure _) (.pure _)

theorem startImage_copying (vdsoEntryPoint : Dword) (file : Str) (argv envp : List Str)
    (header : ElfHeader) (image : Image) :
    Prog.Only Copying (startImage vdsoEntryPoint file argv envp header image) := by
  refine .bind (copyArguments_copying file argv envp) fun copied ↦ ?_
  split
  · exact .pure _
  refine .bind ?_ fun loadAddr ↦ ?_
  · unfold readLoadAddr
    split
    · exact .pure _
    · exact .perform trivial
  refine .bind (putTables_copying _ _ _ _ _) fun r ↦ ?_
  split
  · exact .pure _
  · exact .bind (.perform trivial) fun _ ↦ .pure _

/-- All that is copied fits between the end of the stack and what is mapped below it, if
anything is. -/
def Fits (w : World) (m : ℕ) (file : Str) (argv envp : List Str) : Prop :=
  stackUse file argv envp ≤ stackEnd ∧
    ∀ p e, (stackEnd - stackUse file argv envp) / pageSize ≤ p → p ≤ 0xffffd →
      w.memPt m p = some e → has e.flags pGrowsdown

/-- Once the registers are set, the image finds its arguments. -/
def Started (vdsoEntryPoint : Dword) (file : Str) (argv envp : List Str) (t : Task) : Prop :=
  t.lost = false → Fits t.world t.mem file argv envp → ∀ esp eip, t.cpu = some (esp, eip) →
    ∃ header image loadAddr copied argvAddrs envpAddrs,
      Starts (t.world.view t.mem) esp argv envp (auxv header vdsoEntryPoint image loadAddr copied)
        argvAddrs envpAddrs

theorem startImage_triple (vdsoEntryPoint : Dword) (file : Str) {argv envp : List Str}
    (header : ElfHeader) (image : Image) (hargv : ∀ string ∈ argv, ∀ c ∈ string, c ≠ 0)
    (henvp : ∀ string ∈ envp, ∀ c ∈ string, c ≠ 0) :
    Prog.Triple host.machine (fun s ↦ Ready s.2)
      (startImage vdsoEntryPoint file argv envp header image)
      fun _ s ↦ Started vdsoEntryPoint file argv envp s.2 := by
  intro s hs exit s' hrun hlost hfits esp eip hcpu
  have hcopying := startImage_copying vdsoEntryPoint file argv envp header image
  have hstart : s'.2.lost = false → s.2.lost = false :=
    hcopying.invariant (I := fun u ↦ u.2.lost = false → s.2.lost = false)
      (fun op u hop h hl ↦ h (machine_copying_lost hop hl)) id hrun
  have hstack := hs.stack (hstart hlost)
  have hfollows : Follows s.2 s'.2 :=
    hcopying.invariant (I := fun u ↦ Follows s.2 u.2) (fun op u hop h ↦ machine_copying hop h)
      ⟨rfl, .refl hstack.wf hstack.unaliased _⟩ hrun
  obtain ⟨huse, hpages⟩ := hfits
  rw [hfollows.mem] at hpages
  -- a page that was mapped before does not grow down, and is still mapped
  have hfree : ∀ p, (stackEnd - stackUse file argv envp) / pageSize ≤ p → p < 0xffffd →
      s.2.world.memPt s.2.mem p = none := by
    intro p hlow hlt
    cases he : s.2.world.memPt s.2.mem p with
    | none => rfl
    | some e =>
      obtain ⟨e', he', hdown⟩ := hfollows.touched.keeps p e he
      have hgrows := hpages p e' hlow hlt.le he'
      rw [hdown, hstack.flat p e hlt.ne he] at hgrows
      cases hgrows
  have hmin : 8 ≤ stackUse file argv envp := by
    have h₁ := le_roundUp16 (argumentsSize file argv envp + 4 * (argv.length + envp.length + 3) + sizeofAux)
    have hsize : sizeofAux = 168 := rfl
    unfold stackUse
    omega
  have hat := hstack.at_top (Nat.sub_le_sub_left hmin stackEnd) hfree
  have htotal : Prog.Total host.machine (startImage vdsoEntryPoint file argv envp header image) s _ :=
    startImage_total hargv henvp hat (Nat.sub_add_cancel huse).le
  obtain ⟨exit', u, hrun', -, -, -, -, hcpu', loadAddr, rest, hview⟩ := htotal
  cases hrun.symm.trans hrun'
  cases hcpu'.symm.trans hcpu
  exact ⟨header, image, loadAddr, copiedAt file argv envp, _, _,
    starts_of_stack (auxv_types header vdsoEntryPoint image loadAddr _) hview⟩

/-- A task that calls `execve`. -/
structure Idle (t : Task) : Prop where
  cpu : t.cpu = none
  wf : t.world.Wf
  unaliased : t.world.Unaliased

theorem Idle.memNew (h : Idle t) (startBrk brk vdso : Addr) : Mapping { t with
    world := (t.world.memRelease t.mem).memNew.2, mem := (t.world.memRelease t.mem).memNew.1,
    startBrk := startBrk, brk := brk, vdso := vdso } := by
  have hrelease := h.wf.memRelease t.mem
  have hun : (t.world.memRelease t.mem).Unaliased := h.unaliased.unmap h.wf fun _ ↦ World.memRelease_frame
  refine ⟨h.cpu, fun _ ↦ ⟨⟨hrelease.memNew, ?_, Nat.lt_succ_self _⟩, fun p e he ↦ ?_⟩⟩
  · exact hun.of_old hrelease fun m p e he ↦ ⟨m, e, by rwa [World.memNew_memPt hrelease] at he, rfl, rfl⟩
  · rw [World.memNew_memPt hrelease] at he
    cases (hrelease.memPt_fresh le_rfl p).symm.trans he

theorem started_of_unset {vdsoEntryPoint : Dword} {file : Str} {argv envp : List Str}
    (h : t.cpu = none) : Started vdsoEntryPoint file argv envp t := by
  intro _ _ esp eip hcpu
  cases h.symm.trans hcpu

section Run

variable {argv envp : List Str} (vdsoEntryPoint : Dword) (file : Str)
  (hargv : ∀ string ∈ argv, ∀ c ∈ string, c ≠ 0) (henvp : ∀ string ∈ envp, ∀ c ∈ string, c ≠ 0)

include hargv henvp

theorem load_triple (header : ElfHeader) (phs : List PrgHeader) (interp : Interp) :
    Prog.Triple host.machine (fun s ↦ Idle s.2)
      (load vdsoEntryPoint file argv envp header phs interp)
      fun _ s ↦ Started vdsoEntryPoint file argv envp s.2 := by
  refine Prog.Triple.bind (S := fun _ s ↦ Mapping s.2) (.perform fun s hs ↦ hs.memNew 0 0 0) fun _ ↦ ?_
  refine Prog.Triple.bind (S := fun _ s ↦ Mapping s.2) (.perform fun s hs ↦ hs) fun _ ↦ ?_
  refine (mapImage_triple header phs interp).bind fun image ↦ ?_
  cases image with
  | error err => exact .pure fun s hs ↦ started_of_unset hs.1
  | ok image =>
    refine Prog.Triple.bind (S := fun _ s ↦ Ready s.2) (.perform fun s hs ↦ hs.2 image rfl) fun _ ↦ ?_
    exact startImage_triple vdsoEntryPoint file header image hargv henvp

theorem elfExec_triple :
    Prog.Triple host.machine (fun s ↦ Idle s.2) (elfExec vdsoEntryPoint file argv envp)
      fun _ s ↦ Started vdsoEntryPoint file argv envp s.2 := by
  have hquit {α : Type} (a : α) : Prog.Triple host.machine (fun s ↦ Idle s.2) (pure a : ElfCall α)
      fun _ s ↦ Started vdsoEntryPoint file argv envp s.2 := .pure fun s hs ↦ started_of_unset hs.cpu
  refine (hostOnly_triple (readHeader_hostOnly .program) Idle).bind fun header ↦ ?_
  cases header with
  | error err => exact hquit err
  | ok header =>
    refine (hostOnly_triple (readPrgHeaders_hostOnly .program header) Idle).bind fun phs ↦ ?_
    cases phs with
    | error err => exact hquit err
    | ok phs =>
      refine (hostOnly_triple (findInterp_hostOnly phs .none) Idle).bind fun r ↦ ?_
      split
      · refine Prog.Triple.of_imp (hostOnly_triple (leave_hostOnly _ _) _) fun s hs ↦ ?_
        exact started_of_unset hs.cpu
      · refine (load_triple vdsoEntryPoint file hargv henvp header phs r.1).bind fun exit ↦ ?_
        exact hostOnly_triple (leave_hostOnly _ _) _

end Run

/-- An executable file with no program headers. -/
def bareProgram : List Byte :=
  Layout.image [(4, elfMagic), (1, 1), (1, 1), (1, 1), (9, 0), (2, 2), (2, 3), (4, 1), (4, 0x08048000),
    (4, 52), (4, 0), (4, 0), (2, 52), (2, 32), (2, 0), (2, 0), (2, 0), (2, 0)]

theorem noent_neg : (-2 : ℤ) < 0 := by decide

theorem length_zeros : (List.replicate 16 (0 : Byte)).length = 16 := rfl

/-- A host that grants every request, with this program. -/
def bareHost : Host Unit where
  answer
    | .lseek _ offset, s => ((offset.toNat : ℤ), s)
    | .read _ _ size, s => (((size : ℤ), bareProgram.take size), s)
    | .malloc _ _, s => (true, s)
    | .free _, s | .fdClose, s | .memNew, s | .writeWrlock, s | .writeWrunlock, s | .setBrk _, s
    | .setVdso _, s | .memset _ _, s | .setCpu _ _, s => ((), s)
    | .errno, s | .strlen _, s | .mmap _ _ _ _ _, s | .mapVdso _ _, s | .mapNothing _ _ _, s =>
      ((0 : ℤ), s)
    | .genericOpen _, s => (.error ⟨-2, noent_neg⟩, s)
    | .findHole _ _, s | .writeString _ _, s | .put _ _, s => ((0 : ℕ), s)
    | .startBrk, s | .uninitialised, s => ((0 : Addr), s)
    | .getRandom, s => (⟨List.replicate 16 0, length_zeros⟩, s)
  refuses _ _ := false
  mapFile _ _ _ _ := none
  realPageSize := 4096
  vdsoData _ := 0

/-- A task with an empty address space. -/
def bareTask : Task := ⟨World.init.memNew.2, 0, 0, 0, 0, none, false⟩

theorem readHeader_bare (t : Task) : (readHeader .program).run bareHost.machine ((), t) =
    some (.ok (ElfHeader.decode bareProgram), ((), t)) := by
  have hload : (ElfHeader.decode bareProgram).loadable = true := by decide
  have hbytes : bareProgram.take sizeofElfHeader = bareProgram := by decide
  have hread : (readHeader .program).run bareHost.machine ((), t) =
      some (if (ElfHeader.decode (bareProgram.take sizeofElfHeader)).loadable then
        .ok (ElfHeader.decode (bareProgram.take sizeofElfHeader)) else .error enoexec, ((), t)) := rfl
  rw [hread, hbytes, if_pos hload]

theorem readPrgHeaders_bare (header : ElfHeader) (t : Task) (hcount : header.phentCount = 0) :
    Prog.Total bareHost.machine (readPrgHeaders .program header) ((), t) fun r s ↦
      r = .ok [] ∧ s.2 = t := by
  refine Prog.Total.bind (S := fun r (s : Unit × Task) ↦ r = true ∧ s.2 = t) (.perform ⟨rfl, rfl⟩) ?_
  intro r s₁ h₁
  obtain ⟨rfl, h₁⟩ := h₁
  rw [if_neg (by decide)]
  refine Prog.Total.bind (S := fun r (s : Unit × Task) ↦ ¬r < 0 ∧ s.2 = t)
    (.perform ⟨Int.not_lt.mpr (Int.natCast_nonneg _), h₁⟩) ?_
  intro r s₂ h₂
  rw [if_neg h₂.1]
  refine Prog.Total.bind (S := fun r (s : Unit × Task) ↦
    r.1 = ((sizeofPrgHeader * header.phentCount : ℕ) : ℤ) ∧ s.2 = t) (.perform ⟨rfl, h₂.2⟩) ?_
  intro r s₃ h₃
  rw [if_neg (not_not.mpr h₃.1), hcount]
  exact .pure ⟨rfl, h₃.2⟩

/-- In an empty address space there is room for both. -/
theorem mapVdsoAndVvar_bare (hlost : t.lost = false) (hempty : ∀ p, t.world.memPt t.mem p = none) :
    Prog.Total bareHost.machine mapVdsoAndVvar ((), t) fun r s ↦
      (∃ vdso, r = .ok vdso) ∧ s.2.lost = false := by
  have hvdso : foundPage t.world t.mem 2 ≠ badPage :=
    foundPage_ne_badPage (p := 0x40001) (by decide) (by decide) (by decide) fun q _ _ ↦ hempty q
  obtain ⟨⟨-, hhigh, -⟩, hgreatest⟩ := (foundPage_spec t.world t.mem 2 (by decide)).1 hvdso
  have hlow : 0xf7ffc ≤ foundPage t.world t.mem 2 :=
    hgreatest ⟨by decide, by decide, fun q _ _ ↦ hempty q⟩
  generalize hpage : foundPage t.world t.mem 2 = vdsoPage at hvdso hhigh hlow
  have hfits : vdsoPage + 2 ≤ memPages := hhigh.trans (by decide)
  refine Prog.Total.bind (S := fun r (s : Unit × Task) ↦ r = vdsoPage ∧ s.2 = t)
    (.perform ⟨hpage, rfl⟩) ?_
  rintro r ⟨⟨⟩, u⟩ ⟨rfl, rfl⟩
  rw [if_neg hvdso]
  have hmap : (u.world.ptMapFresh u.mem r 2 (fun _ ↦ 0) 0).2 = 0 := rfl
  have hpages : ∀ q, 0x40001 ≤ q → q < 0x40001 + 3 →
      (u.world.ptMapFresh u.mem r 2 (fun _ ↦ 0) 0).1.memPt u.mem q = none := by
    intro q _ hq
    have hother := World.memPt_ptMap (u.world.mmap (2 * pageSize % 2 ^ 32) fun _ ↦ 0).2 u.mem r 2
      u.world.nextBlock 0 u.mem q
    rw [if_neg (by omega)] at hother
    exact hother.trans (hempty q)
  refine Prog.Total.bind (S := fun r' (s : Unit × Task) ↦ r' = 0 ∧ s.2.lost = false ∧
    foundPage s.2.world s.2.mem 3 ≠ badPage) (.perform ?_) ?_
  · have hrun : bareHost.machine (.mapVdso r vdsoPages) ((), u) = ((0 : ℤ), ((), { u with
        world := (u.world.ptMapFresh u.mem r 2 (fun _ ↦ 0) 0).1 })) :=
      congrArg (fun r : ℤ × Task ↦ (r.1, ((), r.2)))
        (Task.map_of_le (u.world.ptMapFresh u.mem r 2 (fun _ ↦ 0) 0) hfits)
    rw [hrun]
    exact ⟨rfl, hlost, foundPage_ne_badPage (p := 0x40001) (by decide) (by decide) (by decide) hpages⟩
  rintro r' ⟨⟨⟩, u₁⟩ ⟨rfl, hlost₁, hvvar⟩
  rw [if_neg (by decide)]
  refine Prog.Total.bind (S := fun _ (s : Unit × Task) ↦ s.2.lost = false ∧
    foundPage s.2.world s.2.mem 3 ≠ badPage) (.perform ⟨hlost₁, hvvar⟩) ?_
  rintro - ⟨⟨⟩, u₂⟩ ⟨hlost₂, hvvar⟩
  refine Prog.Total.bind (S := fun r (s : Unit × Task) ↦ s.2.lost = false ∧
    r ≠ badPage ∧ r + 3 ≤ memPages) (.perform ?_) ?_
  · obtain ⟨⟨-, hhigh, -⟩, -⟩ := (foundPage_spec u₂.world u₂.mem 3 (by decide)).1 hvvar
    exact ⟨hlost₂, hvvar, hhigh.trans (by decide)⟩
  rintro r' ⟨⟨⟩, u₃⟩ ⟨hlost₃, hne, hfits₃⟩
  rw [if_neg hne]
  refine Prog.Total.bind (S := fun r (s : Unit × Task) ↦ r = 0 ∧ s.2.lost = false) (.perform ?_) ?_
  · have hrun : bareHost.machine (.mapNothing r' 3 0) ((), u₃) = ((0 : ℤ), ((), { u₃ with
        world := (u₃.world.ptMapNothing u₃.mem r' 3 0).1 })) :=
      congrArg (fun r : ℤ × Task ↦ (r.1, ((), r.2)))
        (Task.map_of_le (u₃.world.ptMapNothing u₃.mem r' 3 0) hfits₃)
    rw [hrun]
    exact ⟨rfl, hlost₃⟩
  rintro r'' ⟨⟨⟩, u₄⟩ ⟨rfl, hlost₄⟩
  exact .pure ⟨⟨_, if_neg (by decide)⟩, hlost₄⟩

theorem memNew_bare (h : Idle t) (hlost : t.lost = false) :
    Prog.Total bareHost.machine ElfCall.memNew ((), t) fun _ s ↦
      Mapping s.2 ∧ s.2.lost = false ∧ ∀ p, s.2.world.memPt s.2.mem p = none := by
  have hrelease := h.wf.memRelease t.mem
  refine .perform ⟨h.memNew 0 0 0, hlost, fun p ↦ ?_⟩
  exact (congrFun (congrFun (World.memNew_memPt hrelease) _) p).trans (hrelease.memPt_fresh le_rfl p)

theorem mapImage_bare (header : ElfHeader) (hmapping : Mapping t) (hlost : t.lost = false)
    (hempty : ∀ p, t.world.memPt t.mem p = none) :
    Prog.Total bareHost.machine (mapImage header [] .none) ((), t) fun r s ↦
      (∃ image, r = .ok image) ∧ s.2.lost = false ∧ Ready s.2 := by
  have hmapped : Prog.Total bareHost.machine (mapImage header [] .none) ((), t) fun r s ↦
      (∃ image, r = .ok image) ∧ s.2.lost = false := by
    refine Prog.Total.bind (S := fun r (s : Unit × Task) ↦ (∃ image, r = .ok image) ∧ s.2.lost = false) ?_ ?_
    · refine (mapVdsoAndVvar_bare hlost hempty).bind fun r s₁ h₁ ↦ ?_
      obtain ⟨⟨vdso, rfl⟩, hlost₁⟩ := h₁
      exact .pure ⟨⟨_, rfl⟩, hlost₁⟩
    rintro r ⟨⟨⟩, u⟩ ⟨⟨image, rfl⟩, hlost₁⟩
    refine Prog.Total.bind (S := fun r (s : Unit × Task) ↦ r = 0 ∧ s.2.lost = false) (.perform ⟨rfl, hlost₁⟩) ?_
    rintro r ⟨⟨⟩, u₁⟩ ⟨rfl, hlost₂⟩
    exact .pure ⟨⟨_, if_neg (by decide)⟩, hlost₂⟩
  obtain ⟨r, s', hrun, ⟨image, rfl⟩, hlost'⟩ := hmapped
  exact ⟨_, s', hrun, ⟨image, rfl⟩, hlost',
    (mapImage_triple header [] .none ((), t) hmapping _ s' hrun).2 image rfl⟩

/-- What is copied is within the first page of the stack. -/
theorem startImage_bare (header : ElfHeader) (image : Image) (h : Ready t) (hlost : t.lost = false) :
    Prog.Total bareHost.machine (startImage 0 [0x61] [[0x61]] [[]] header image) ((), t) fun r s ↦
      r = .outFreeInterp 0 ∧ s.2.lost = false ∧ s.2.cpu.isSome ∧
        Fits s.2.world s.2.mem [0x61] [[0x61]] [[]] := by
  have hstack := h.stack hlost
  have huse : stackUse [0x61] [[0x61]] [[]] = 240 := by decide
  have hend : stackEnd = 0xffffe000 := rfl
  have hat : At t 0xffffd000 (stackEnd - 8) (List.replicate 8 0) t := by
    refine hstack.at_top (by decide) fun p hp hlt ↦ ?_
    have hpage : 0xffffd000 / pageSize = 0xffffd := rfl
    omega
  have htotal : Prog.Total bareHost.machine (startImage 0 [0x61] [[0x61]] [[]] header image) ((), t) _ :=
    startImage_total (by decide) (by decide) hat (by decide)
  obtain ⟨r, s', hrun, rfl, -, -, hlost', hcpu, -⟩ := htotal
  have hfollows : Follows t s'.2 :=
    (startImage_copying 0 [0x61] [[0x61]] [[]] header image).invariant (I := fun u ↦ Follows t u.2)
      (fun op u hop h ↦ machine_copying hop h) ⟨rfl, .refl hstack.wf hstack.unaliased _⟩ hrun
  refine ⟨_, s', hrun, rfl, hlost'.trans hlost, hcpu ▸ rfl, by decide, fun p e hp hle he ↦ ?_⟩
  have hpage : (stackEnd - 240) / pageSize = 0xffffd := rfl
  rw [huse, hpage] at hp
  obtain rfl : p = 0xffffd := by omega
  obtain ⟨e₀, he₀, -, hdown, -⟩ := hstack.top
  obtain ⟨e', he', hkept⟩ := hfollows.touched.keeps _ _ he₀
  rw [hfollows.mem] at he
  cases he.symm.trans he'
  rw [hkept, hdown]

theorem bareTask_reaches :
    Run.Reaches World.step (fun _ op ↦ op.InPlace) World.init bareTask.world :=
  .next (a := .new) .start trivial rfl

theorem bareTask_idle : Idle bareTask :=
  ⟨rfl, World.wf_of_reaches (bareTask_reaches.mono fun _ _ _ ↦ trivial),
    World.unaliased_of_reaches bareTask_reaches⟩

theorem elfExec_idle {t : Task} (hidle : Idle t) (hlost : t.lost = false) :
    Prog.Total bareHost.machine (elfExec 0 [0x61] [[0x61]] [[]]) ((), t)
    fun r s ↦ r = 0 ∧ s.2.lost = false ∧ s.2.cpu.isSome ∧ Fits s.2.world s.2.mem [0x61] [[0x61]] [[]] := by
  have hcount : (ElfHeader.decode bareProgram).phentCount = 0 := by decide
  refine Prog.Total.bind (S := fun r (s : Unit × Task) ↦
    r = .ok (ElfHeader.decode bareProgram) ∧ s.2 = t) ⟨_, _, readHeader_bare _, rfl, rfl⟩ ?_
  rintro r ⟨⟨⟩, u⟩ ⟨rfl, rfl⟩
  refine (readPrgHeaders_bare (ElfHeader.decode bareProgram) u hcount).bind ?_
  rintro r ⟨⟨⟩, u⟩ ⟨rfl, rfl⟩
  refine Prog.Total.bind (S := fun r (s : Unit × Task) ↦ r = (.none, none) ∧ s.2 = u)
    (.pure ⟨rfl, rfl⟩) ?_
  rintro r ⟨⟨⟩, u⟩ ⟨rfl, rfl⟩
  refine Prog.Total.bind (S := fun exit (s : Unit × Task) ↦ exit = .outFreeInterp 0 ∧
    s.2.lost = false ∧ s.2.cpu.isSome ∧ Fits s.2.world s.2.mem [0x61] [[0x61]] [[]]) ?_ ?_
  · refine (memNew_bare hidle hlost).bind ?_
    rintro - ⟨⟨⟩, u⟩ ⟨hmapping, hlost, hempty⟩
    refine Prog.Total.bind (S := fun _ (s : Unit × Task) ↦ s.2 = u) (.perform rfl) ?_
    rintro - ⟨⟨⟩, u⟩ ⟨⟩
    refine (mapImage_bare (ElfHeader.decode bareProgram) hmapping hlost hempty).bind ?_
    rintro r ⟨⟨⟩, u⟩ ⟨⟨image, rfl⟩, hlost, hready⟩
    refine Prog.Total.bind (S := fun _ (s : Unit × Task) ↦ s.2 = u) (.perform rfl) ?_
    rintro - ⟨⟨⟩, u⟩ ⟨⟩
    exact startImage_bare _ image hready hlost
  rintro exit ⟨⟨⟩, u⟩ ⟨rfl, hlost, hcpu, hfits⟩
  exact ⟨0, ((), u), rfl, rfl, hlost, hcpu, hfits⟩

theorem elfExec_bare : Prog.Total bareHost.machine (elfExec 0 [0x61] [[0x61]] [[]]) ((), bareTask)
    fun r s ↦ r = 0 ∧ s.2.lost = false ∧ s.2.cpu.isSome ∧ Fits s.2.world s.2.mem [0x61] [[0x61]] [[]] :=
  elfExec_idle bareTask_idle rfl

end Isl.Kernel.Exec
