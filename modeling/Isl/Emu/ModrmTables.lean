import Isl.Emu.Modrm

/-!
The 32-bit addressing forms of the architecture, as its two tables give them, and
that the decoder follows them.
-/

namespace Isl.Emu

/-! The tables. -/

/-- A cell of the table of the ModRM byte. -/
inductive RmForm
  | register (r : Reg32)
  | base (r : Reg32)
  | disp32
  | sib
deriving DecidableEq

/-- The columns of one `mod`, by `rm`. -/
def rmTable (mod : BitVec 2) : List RmForm :=
  match mod.toNat with
  | 0 => [.base .eax, .base .ecx, .base .edx, .base .ebx, .sib, .disp32, .base .esi, .base .edi]
  | 1 | 2 =>
    [.base .eax, .base .ecx, .base .edx, .base .ebx, .sib, .base .ebp, .base .esi, .base .edi]
  | _ =>
    [.register .eax, .register .ecx, .register .edx, .register .ebx, .register .esp,
      .register .ebp, .register .esi, .register .edi]

/-- The bytes of displacement that a `mod` asks for. -/
def modDisp (mod : BitVec 2) : ℕ :=
  match mod.toNat with
  | 1 => 1
  | 2 => 4
  | _ => 0

/-- The bases of the SIB byte, where the sixth has none for `mod` zero. -/
def sibBases (mod : BitVec 2) : List (Option Reg32) :=
  [some .eax, some .ecx, some .edx, some .ebx, some .esp,
    if mod = 0 then none else some .ebp, some .esi, some .edi]

def sibIndices : List (Option Reg32) :=
  [some .eax, some .ecx, some .edx, some .ebx, none, some .ebp, some .esi, some .edi]

/-- An operand in memory: a base, an index with the power of two it is scaled by,
and where in the instruction the displacement lies. -/
structure MemForm where
  base : Option Reg32
  index : Option (Reg32 × ℕ)
  dispAt : ℕ
  dispSize : ℕ

/-- The form that the tables give for some bytes, of which the first is the ModRM
byte. -/
def prescribed (b : ℕ → BitVec 8) : Reg32 ⊕ MemForm :=
  let mod := (b 0).extractLsb' 6 2
  let rm := (b 0).extractLsb' 0 3
  match (rmTable mod).getD rm.toNat .sib with
  | .register r => .inl r
  | .base r => .inr ⟨some r, none, 1, modDisp mod⟩
  | .disp32 => .inr ⟨none, none, 1, 4⟩
  | .sib =>
    let base := (sibBases mod).getD ((b 1).extractLsb' 0 3).toNat none
    let index := sibIndices.getD ((b 1).extractLsb' 3 3).toNat none
    .inr ⟨base, index.map (·, ((b 1).extractLsb' 6 2).toNat), 2,
      if base = none then 4 else modDisp mod⟩

/-- The number of bytes. -/
def prescribedLength (b : ℕ → BitVec 8) : ℕ :=
  match prescribed b with
  | .inl _ => 1
  | .inr form => form.dispAt + form.dispSize

namespace MemForm

/-- The displacement, extended by its sign. -/
def displacement (form : MemForm) (b : ℕ → BitVec 8) : Dword :=
  (BitVec.ofNat (8 * form.dispSize)
    (Isl.Lib.Layout.leNat ((List.range form.dispSize).map fun i ↦ b (form.dispAt + i)))).signExtend 32

def scaled (form : MemForm) (regs : Reg32 → Dword) : Dword :=
  (form.index.map fun i ↦ regs i.1 <<< i.2).getD 0

/-- Offset, base, scaled index and displacement, modulo `2 ^ 32`. -/
def address (form : MemForm) (b : ℕ → BitVec 8) (regs : Reg32 → Dword) (offset : Dword) : Dword :=
  offset + (form.base.map regs).getD 0 + form.scaled regs + form.displacement b

end MemForm

/-- The register operand of `w` bits with a number: of eight bits, the numbers from
four on are the second bytes of the first four registers. -/
def registerOperand (cpu : CpuState) (r : Reg32) (w : ℕ) : BitVec w :=
  if w = 8 then
    ((cpu.regs (Reg32.ofBits (BitVec.ofNat 3 (r.num % 4)))).extractLsb' (8 * (r.num / 4)) 8).setWidth w
  else (cpu.regs r).setWidth w

/-! The tables as conditions. -/

theorem rmTable_eq (mod : BitVec 2) (rm : BitVec 3) : (rmTable mod).getD rm.toNat .sib =
    if mod = 3 then .register (.ofBits rm)
    else if rm = 5 ∧ mod = 0 then .disp32
    else if rm = 4 then .sib
    else .base (.ofBits rm) := by
  revert mod rm
  decide

theorem sibBases_eq (mod : BitVec 2) (n : BitVec 3) : (sibBases mod).getD n.toNat none =
    if n = 5 ∧ mod = 0 then none else some (.ofBits n) := by
  revert mod n
  decide

theorem sibIndices_eq (n : BitVec 3) : sibIndices.getD n.toNat none =
    if n = 4 then none else some (.ofBits n) := by
  revert n
  decide

theorem ofBits_eq_esp (n : BitVec 3) : Reg32.ofBits n = .esp ↔ n = 4 := by
  revert n
  decide

theorem ofBits_eq_ebp (n : BitVec 3) : Reg32.ofBits n = .ebp ↔ n = 5 := by
  revert n
  decide

theorem register_eq (cpu : CpuState) (r : Reg32) {w : ℕ} (hw : w = 8 ∨ w = 16 ∨ w = 32) :
    cpu.register (regptrFromReg r) w = registerOperand cpu r w := by
  rcases hw with rfl | rfl | rfl
  · apply BitVec.eq_of_getLsbD_eq
    intro i hi
    cases r <;>
      simp [CpuState.register, registerOperand, regptrFromReg, Reg32.num, Reg32.ofBits, hi]
  · cases r <;> rfl
  · cases r <;> rfl

/-! The decoder. -/

namespace GuestMem

variable (code : GuestMem) (x : Dword) (n m w : ℕ)

/-- `n` bytes can be read. -/
def Readable : Prop := ∀ i < n, (code.load (x + BitVec.ofNat 32 i)).isSome

variable {code x n m w}

theorem readable_add : code.Readable x (n + m) ↔
    code.Readable x n ∧ code.Readable (x + BitVec.ofNat 32 n) m := by
  constructor
  · intro h
    refine ⟨fun i hi ↦ h i (by omega), fun i hi ↦ ?_⟩
    rw [BitVec.add_assoc, ← BitVec.ofNat_add]
    exact h (n + i) (by omega)
  · rintro ⟨h, h'⟩ i hi
    by_cases hin : i < n
    · exact h i hin
    · have := h' (i - n) (by omega)
      rwa [BitVec.add_assoc, ← BitVec.ofNat_add, Nat.add_sub_cancel' (by omega)] at this

theorem load_of_isSome (h : (code.load x).isSome) : code.load x = some (code.byte x) := by
  rw [load] at h ⊢
  split at h
  · cases h
  · rename_i hp
    rw [if_neg hp]

theorem tlbRead_of_readable (h : code.Readable x (w / 8)) : code.tlbRead x w =
    some (BitVec.ofNat w (Isl.Lib.Layout.leNat
      ((List.range (w / 8)).map fun i ↦ code.byte (x + BitVec.ofNat 32 i)))) := by
  apply tlbRead_of_holds
  · intro i hi
    rw [List.length_map, List.length_range] at hi
    rw [load_of_isSome (h i hi), List.getElem_map, List.getElem_range]
  · rw [List.length_map, List.length_range]

theorem tlbRead_of_not_readable (h : ¬code.Readable x (w / 8)) : code.tlbRead x w = none := by
  rw [tlbRead, Option.map_eq_none_iff, Option.eq_none_iff_forall_ne_some]
  intro bs hbs
  obtain ⟨hlen, hbs⟩ := loads_eq_some.mp hbs
  refine h fun i hi ↦ ?_
  rw [hbs i (hlen ▸ hi)]
  rfl

end GuestMem

/-- The bytes of displacement of a mode. -/
def Mode.size : Mode → ℕ
  | .disp0 | .reg => 0
  | .disp8 => 1
  | .disp32 => 4

/-- A displacement of `n` bytes at an address. -/
def dispAt (code : GuestMem) (x : Dword) (n : ℕ) : Dword :=
  (BitVec.ofNat (8 * n) (Isl.Lib.Layout.leNat
    ((List.range n).map fun i ↦ code.byte (x + BitVec.ofNat 32 i)))).signExtend 32

theorem readOffset_of_readable {mode : Mode} (hmode : mode ≠ .reg) {x : Dword}
    (h : code.Readable x mode.size) : readOffset code x modrm mode =
      .ok ({ modrm with offset := dispAt code x mode.size }, x + BitVec.ofNat 32 mode.size) := by
  cases mode with
  | disp0 => simp [readOffset, dispAt, Mode.size, Isl.Lib.Layout.leNat]
  | disp8 =>
    rw [readOffset, fetch, GuestMem.tlbRead_of_readable (w := 8) h]
    rfl
  | disp32 =>
    rw [readOffset, fetch, GuestMem.tlbRead_of_readable (w := 32) h]
    simp only [dispAt, Mode.size, BitVec.signExtend_eq]
    rfl
  | reg => exact absurd rfl hmode

theorem readOffset_of_not_readable {mode : Mode} {x : Dword} (h : ¬code.Readable x mode.size) :
    readOffset code x modrm mode = .error x := by
  cases mode with
  | disp0 => exact absurd (fun i hi ↦ absurd hi (Nat.not_lt_zero i)) h
  | disp8 =>
    rw [readOffset, fetch, GuestMem.tlbRead_of_not_readable (w := 8) h]
    rfl
  | disp32 =>
    rw [readOffset, fetch, GuestMem.tlbRead_of_not_readable (w := 32) h]
    rfl
  | reg => exact absurd (fun i hi ↦ absurd hi (Nat.not_lt_zero i)) h

theorem Mode.size_ofBits (mod : BitVec 2) : (Mode.ofBits mod).size = modDisp mod := by
  revert mod
  decide

theorem Mode.ofBits_eq_reg (mod : BitVec 2) : Mode.ofBits mod = .reg ↔ mod = 3 := by
  revert mod
  decide

theorem Mode.ofBits_eq_disp0 (mod : BitVec 2) : Mode.ofBits mod = .disp0 ↔ mod = 0 := by
  revert mod
  decide

theorem fetch_byte {x : Dword} (h : code.Readable x 1) :
    fetch code x 8 = .ok (code.byte x, x + 1) := by
  have hsome : (code.load x).isSome := by simpa using h 0 Nat.zero_lt_one
  have hload := GuestMem.load_of_isSome hsome
  rw [fetch, GuestMem.tlbRead_byte, hload]
  rfl

theorem fetch_byte_of_not_readable {x : Dword} (h : ¬code.Readable x 1) :
    fetch code x 8 = .error x := by
  rw [fetch, GuestMem.tlbRead_of_not_readable (w := 8) h]

/-- The bytes of the instruction. -/
def bytesAt (code : GuestMem) (ip : Dword) (i : ℕ) : BitVec 8 := code.byte (ip + BitVec.ofNat 32 i)

/-- The operands of an instruction whose bytes start with `b`. -/
def Yields (cpu : CpuState) (b : ℕ → BitVec 8) (addr : Dword) (modrm : Modrm) (addr' : Dword) :
    Prop :=
  modrm.reg = .ofBits ((b 0).extractLsb' 3 3) ∧
    match prescribed b with
    | .inl r => modrm.type = .modrmReg ∧ modrm.base = some r ∧ addr' = addr ∧
      ∀ w ∈ [8, 16, 32], cpu.register (regptrFromReg r) w = registerOperand cpu r w
    | .inr form => modrm.type ≠ .modrmReg ∧ addr' = form.address b cpu.regs addr

/-- The index of an operand, scaled. -/
def Modrm.scaled (modrm : Modrm) (regs : Reg32 → Dword) : Dword :=
  if modrm.type = .modrmMemSi then regs modrm.index <<< modrm.shift.toNat else 0#32

theorem register_32 (cpu : CpuState) (r : Reg32) : cpu.register (regptrFromReg r) 32 = cpu.regs r := by
  rw [register_eq cpu r (.inr (.inr rfl)), registerOperand, if_neg (by decide), BitVec.setWidth_eq]

theorem modrmCompute_of_decode {modrm' : Modrm} {ip' : Dword}
    (h : modrmDecode32 code ip modrm = .ok (modrm', ip')) (htype : modrm'.type ≠ .modrmReg) :
    modrmCompute code cpu ip addr modrm = .ok (modrm',
      addr + (modrm'.base.map cpu.regs).getD 0 + modrm'.offset + modrm'.scaled cpu.regs, ip') := by
  rw [modrmCompute, h, Modrm.scaled]
  simp only [bind, Except.bind, if_neg htype, register_32]
  cases modrm'.base with
  | none =>
    rw [Option.map_none, Option.getD_none, show (0 : Dword) = 0#32 from rfl, BitVec.add_zero]
    split
    · rfl
    · rw [BitVec.add_zero]
  | some r =>
    simp only [Option.map_some, Option.getD_some]
    split
    · rfl
    · rw [BitVec.add_zero]

/-- The table of the ModRM byte as conditions. -/
theorem prescribed_eq (b : ℕ → BitVec 8) : prescribed b =
    if (b 0).extractLsb' 6 2 = 3 then .inl (.ofBits ((b 0).extractLsb' 0 3))
    else if (b 0).extractLsb' 0 3 = 5 ∧ (b 0).extractLsb' 6 2 = 0 then .inr ⟨none, none, 1, 4⟩
    else if (b 0).extractLsb' 0 3 = 4 then
      .inr ⟨if (b 1).extractLsb' 0 3 = 5 ∧ (b 0).extractLsb' 6 2 = 0 then none
          else some (.ofBits ((b 1).extractLsb' 0 3)),
        if (b 1).extractLsb' 3 3 = 4 then none
          else some (.ofBits ((b 1).extractLsb' 3 3), ((b 1).extractLsb' 6 2).toNat),
        2, if (b 1).extractLsb' 0 3 = 5 ∧ (b 0).extractLsb' 6 2 = 0 then 4
          else modDisp ((b 0).extractLsb' 6 2)⟩
    else .inr ⟨some (.ofBits ((b 0).extractLsb' 0 3)), none, 1, modDisp ((b 0).extractLsb' 6 2)⟩ := by
  simp only [prescribed, rmTable_eq, sibBases_eq, sibIndices_eq]
  by_cases hmod : (b 0).extractLsb' 6 2 = 3
  · rw [if_pos hmod, if_pos hmod]
  rw [if_neg hmod, if_neg hmod]
  by_cases hdisp : (b 0).extractLsb' 0 3 = 5 ∧ (b 0).extractLsb' 6 2 = 0
  · rw [if_pos hdisp, if_pos hdisp]
  rw [if_neg hdisp, if_neg hdisp]
  by_cases hsib : (b 0).extractLsb' 0 3 = 4
  · rw [if_pos hsib, if_pos hsib]
    by_cases hnone : (b 1).extractLsb' 0 3 = 5 ∧ (b 0).extractLsb' 6 2 = 0
    · by_cases hindex : (b 1).extractLsb' 3 3 = 4
      · simp only [if_pos hnone, if_pos hindex, Option.map_none, if_true]
      · simp only [if_pos hnone, if_neg hindex, Option.map_some, if_true]
    · by_cases hindex : (b 1).extractLsb' 3 3 = 4
      · simp only [if_neg hnone, if_pos hindex, Option.map_none, reduceCtorEq, if_false]
      · simp only [if_neg hnone, if_neg hindex, Option.map_some, reduceCtorEq, if_false]
  · rw [if_neg hsib, if_neg hsib]

theorem prescribedLength_pos (b : ℕ → BitVec 8) : 0 < prescribedLength b := by
  rw [prescribedLength, prescribed_eq]
  split
  · exact Nat.zero_lt_one
  · rename_i form hform
    split at hform
    · cases hform
    · split at hform
      · cases hform
        decide
      · split at hform
        · cases hform
          exact Nat.add_pos_left Nat.two_pos _
        · cases hform
          exact Nat.add_pos_left Nat.one_pos _

theorem prescribedLength_memory {b : ℕ → BitVec 8} {form : MemForm}
    (h : prescribed b = .inr form) : prescribedLength b = form.dispAt + form.dispSize := by
  rw [prescribedLength, h]

theorem displacement_eq (form : MemForm) : form.displacement (bytesAt code ip) =
    dispAt code (ip + BitVec.ofNat 32 form.dispAt) form.dispSize := by
  simp only [MemForm.displacement, dispAt, bytesAt, BitVec.ofNat_add, BitVec.add_assoc]

/-- What is left to do when all but the displacement has been read. -/
theorem modrmCompute_memory {form : MemForm} (hpre : prescribed (bytesAt code ip) = .inr form)
    {modrm' : Modrm} {mode : Mode} (hk : code.Readable ip form.dispAt)
    (hdecode : modrmDecode32 code ip modrm
      = readOffset code (ip + BitVec.ofNat 32 form.dispAt) modrm' mode)
    (hmode : mode ≠ .reg) (hsize : mode.size = form.dispSize) (htype : modrm'.type ≠ .modrmReg)
    (hreg : modrm'.reg = .ofBits ((bytesAt code ip 0).extractLsb' 3 3))
    (hbase : modrm'.base = form.base)
    (hindex : modrm'.scaled cpu.regs = form.scaled cpu.regs) :
    (code.Readable ip (prescribedLength (bytesAt code ip)) → ∃ modrm' addr',
      modrmCompute code cpu ip addr modrm
        = .ok (modrm', addr', ip + BitVec.ofNat 32 (prescribedLength (bytesAt code ip))) ∧
      Yields cpu (bytesAt code ip) addr modrm' addr') ∧
    (¬code.Readable ip (prescribedLength (bytesAt code ip)) →
      ∃ ip', modrmCompute code cpu ip addr modrm = .error ip') := by
  rw [prescribedLength_memory hpre, GuestMem.readable_add]
  constructor
  · rintro ⟨-, hdisp⟩
    rw [readOffset_of_readable hmode (hsize.symm ▸ hdisp), hsize, BitVec.add_assoc,
      ← BitVec.ofNat_add] at hdecode
    refine ⟨_, _, modrmCompute_of_decode hdecode htype, hreg, ?_⟩
    rw [hpre]
    refine ⟨htype, ?_⟩
    have hscaled : Modrm.scaled { modrm' with
        offset := dispAt code (ip + BitVec.ofNat 32 form.dispAt) form.dispSize } cpu.regs
        = form.scaled cpu.regs := hindex
    dsimp only
    rw [hscaled, hbase, MemForm.address, displacement_eq]
    ac_rfl
  · intro h
    have hdisp : ¬code.Readable (ip + BitVec.ofNat 32 form.dispAt) mode.size :=
      fun hr ↦ h ⟨hk, hsize ▸ hr⟩
    rw [readOffset_of_not_readable hdisp] at hdecode
    exact ⟨_, by rw [modrmCompute, hdecode]; rfl⟩

/-! The decoder, by the form of the operand. -/

theorem fetch_first (h : code.Readable ip 1) :
    fetch code ip 8 = .ok (bytesAt code ip 0, ip + BitVec.ofNat 32 1) := by
  rw [fetch_byte h, bytesAt, BitVec.add_zero]
  rfl

theorem fetch_second (h : code.Readable (ip + BitVec.ofNat 32 1) 1) :
    fetch code (ip + BitVec.ofNat 32 1) 8 = .ok (bytesAt code ip 1, ip + BitVec.ofNat 32 2) := by
  rw [fetch_byte h, BitVec.add_assoc]
  rfl

theorem mode_ne_reg (hmod : (bytesAt code ip 0).extractLsb' 6 2 ≠ 3) :
    Mode.ofBits (modField (bytesAt code ip 0)) ≠ .reg := mt (Mode.ofBits_eq_reg _).mp hmod

/-- The test for an address without a base. -/
theorem disp32_iff (b b' : BitVec 8) :
    (some (rmField b) = some rmDisp32 ∧ Mode.ofBits (modField b') = .disp0) ↔
      b.extractLsb' 0 3 = 5 ∧ b'.extractLsb' 6 2 = 0 := by
  rw [Option.some_inj]
  exact and_congr (ofBits_eq_ebp _) (Mode.ofBits_eq_disp0 _)

/-- The test for a SIB byte. -/
theorem sib_iff (hmod : (bytesAt code ip 0).extractLsb' 6 2 ≠ 3) :
    (some (rmField (bytesAt code ip 0)) = some rmSib ∧
      Mode.ofBits (modField (bytesAt code ip 0)) ≠ .reg) ↔
        (bytesAt code ip 0).extractLsb' 0 3 = 4 := by
  rw [Option.some_inj, and_iff_left (mode_ne_reg hmod)]
  exact ofBits_eq_esp _

variable (modrm) in
theorem modrmDecode32_register (hbyte : code.Readable ip 1)
    (hmod : (bytesAt code ip 0).extractLsb' 6 2 = 3) :
    modrmDecode32 code ip modrm = .ok ({ modrm with
      type := .modrmReg, reg := .ofBits ((bytesAt code ip 0).extractLsb' 3 3),
      base := some (.ofBits ((bytesAt code ip 0).extractLsb' 0 3)) },
      ip + BitVec.ofNat 32 1) := by
  have hmode : Mode.ofBits (modField (bytesAt code ip 0)) = .reg := (Mode.ofBits_eq_reg _).mpr hmod
  simp only [modrmDecode32, fetch_first hbyte, bind, Except.bind, hmode, if_true]
  rfl

variable (modrm) in
theorem modrmDecode32_disp32 (hbyte : code.Readable ip 1)
    (hmod : (bytesAt code ip 0).extractLsb' 6 2 ≠ 3)
    (hdisp : (bytesAt code ip 0).extractLsb' 0 3 = 5 ∧ (bytesAt code ip 0).extractLsb' 6 2 = 0) :
    modrmDecode32 code ip modrm = readOffset code (ip + BitVec.ofNat 32 1)
      { modrm with type := .modrmMem, reg := regField (bytesAt code ip 0), base := none }
      .disp32 := by
  simp only [modrmDecode32, fetch_first hbyte, bind, Except.bind, if_neg (mode_ne_reg hmod),
    if_pos ((disp32_iff _ _).mpr hdisp)]

variable (modrm) in
theorem modrmDecode32_base (hbyte : code.Readable ip 1)
    (hmod : (bytesAt code ip 0).extractLsb' 6 2 ≠ 3)
    (hdisp : ¬((bytesAt code ip 0).extractLsb' 0 3 = 5 ∧ (bytesAt code ip 0).extractLsb' 6 2 = 0))
    (hsib : (bytesAt code ip 0).extractLsb' 0 3 ≠ 4) :
    modrmDecode32 code ip modrm = readOffset code (ip + BitVec.ofNat 32 1)
      { modrm with
        type := .modrmMem, reg := regField (bytesAt code ip 0),
        base := some (rmField (bytesAt code ip 0)) }
      (Mode.ofBits (modField (bytesAt code ip 0))) := by
  simp only [modrmDecode32, fetch_first hbyte, bind, Except.bind, if_neg (mode_ne_reg hmod),
    if_neg (mt (disp32_iff _ _).mp hdisp), if_neg (mt (sib_iff hmod).mp hsib)]

variable (modrm) in
theorem modrmDecode32_sib (hbyte : code.Readable ip 1)
    (hbyte' : code.Readable (ip + BitVec.ofNat 32 1) 1)
    (hmod : (bytesAt code ip 0).extractLsb' 6 2 ≠ 3)
    (hdisp : ¬((bytesAt code ip 0).extractLsb' 0 3 = 5 ∧ (bytesAt code ip 0).extractLsb' 6 2 = 0))
    (hsib : (bytesAt code ip 0).extractLsb' 0 3 = 4) :
    modrmDecode32 code ip modrm = readOffset code (ip + BitVec.ofNat 32 2)
      { modrm with
        type := if (bytesAt code ip 1).extractLsb' 3 3 = 4 then .modrmMem else .modrmMemSi
        reg := regField (bytesAt code ip 0)
        base := if (bytesAt code ip 1).extractLsb' 0 3 = 5 ∧
          (bytesAt code ip 0).extractLsb' 6 2 = 0 then none
          else some (.ofBits ((bytesAt code ip 1).extractLsb' 0 3))
        index := regField (bytesAt code ip 1)
        shift := modField (bytesAt code ip 1) }
      (if (bytesAt code ip 1).extractLsb' 0 3 = 5 ∧
        (bytesAt code ip 0).extractLsb' 6 2 = 0 then .disp32
        else Mode.ofBits (modField (bytesAt code ip 0))) := by
  simp only [modrmDecode32, fetch_first hbyte, fetch_second hbyte', bind, Except.bind,
    if_neg (mode_ne_reg hmod), if_neg (mt (disp32_iff _ _).mp hdisp),
    if_pos ((sib_iff hmod).mpr hsib)]
  have hfive : (some (Reg32.ofBits ((bytesAt code ip 1).extractLsb' 0 3)) = some rmDisp32) =
      ((bytesAt code ip 1).extractLsb' 0 3 = 5) := by
    rw [Option.some_inj]
    exact propext (ofBits_eq_ebp _)
  have hfour : (regField (bytesAt code ip 1) ≠ rmNone) =
      ¬(bytesAt code ip 1).extractLsb' 3 3 = 4 := propext (not_congr (ofBits_eq_esp _))
  have hzero : (Mode.ofBits (modField (bytesAt code ip 0)) = .disp0) =
      ((bytesAt code ip 0).extractLsb' 6 2 = 0) := propext (Mode.ofBits_eq_disp0 _)
  have hbase : rmField (bytesAt code ip 1) = .ofBits ((bytesAt code ip 1).extractLsb' 0 3) := rfl
  simp only [hfive, hfour, hzero, hbase]
  by_cases h5 : (bytesAt code ip 1).extractLsb' 0 3 = 5
  · have hebp := (ofBits_eq_ebp _).mpr h5
    by_cases h0 : (bytesAt code ip 0).extractLsb' 6 2 = 0
    · by_cases h4 : (bytesAt code ip 1).extractLsb' 3 3 = 4
      · simp only [eq_true h5, eq_true h0, eq_true h4, not_true, and_self, if_true, if_false]
      · simp only [eq_true h5, eq_true h0, eq_false h4, not_false_eq_true, and_self, if_true,
          if_false]
    · by_cases h4 : (bytesAt code ip 1).extractLsb' 3 3 = 4
      · simp only [eq_true h5, eq_false h0, eq_true h4, hebp, not_true, and_false, if_true,
          if_false]
      · simp only [eq_true h5, eq_false h0, eq_false h4, hebp, not_false_eq_true, and_false,
          if_true, if_false]
  · by_cases h4 : (bytesAt code ip 1).extractLsb' 3 3 = 4
    · simp only [eq_false h5, eq_true h4, not_true, false_and, if_true, if_false]
    · simp only [eq_false h5, eq_false h4, not_false_eq_true, false_and, if_true, if_false]

theorem modrmCompute_no_sib (hbyte : code.Readable ip 1)
    (hbyte' : ¬code.Readable (ip + BitVec.ofNat 32 1) 1)
    (hmod : (bytesAt code ip 0).extractLsb' 6 2 ≠ 3)
    (hdisp : ¬((bytesAt code ip 0).extractLsb' 0 3 = 5 ∧ (bytesAt code ip 0).extractLsb' 6 2 = 0))
    (hsib : (bytesAt code ip 0).extractLsb' 0 3 = 4) :
    modrmCompute code cpu ip addr modrm = .error (ip + BitVec.ofNat 32 1) := by
  simp only [modrmCompute, modrmDecode32, fetch_first hbyte, bind, Except.bind,
    if_neg (mode_ne_reg hmod), if_neg (mt (disp32_iff _ _).mp hdisp),
    if_pos ((sib_iff hmod).mpr hsib), fetch_byte_of_not_readable hbyte']

/-- The operand bytes are those of the tables, and so is the operand. A byte that
cannot be read ends the decoding. -/
theorem modrmCompute_prescribed (code : GuestMem) (cpu : CpuState) (ip addr : Dword)
    (modrm : Modrm) :
    (code.Readable ip (prescribedLength (bytesAt code ip)) → ∃ modrm' addr',
      modrmCompute code cpu ip addr modrm
        = .ok (modrm', addr', ip + BitVec.ofNat 32 (prescribedLength (bytesAt code ip))) ∧
      Yields cpu (bytesAt code ip) addr modrm' addr') ∧
    (¬code.Readable ip (prescribedLength (bytesAt code ip)) →
      ∃ ip', modrmCompute code cpu ip addr modrm = .error ip') := by
  have hpre := prescribed_eq (bytesAt code ip)
  by_cases hbyte : code.Readable ip 1
  · by_cases hmod : (bytesAt code ip 0).extractLsb' 6 2 = 3
    · -- a register
      rw [if_pos hmod] at hpre
      have hlen : prescribedLength (bytesAt code ip) = 1 := by
        rw [prescribedLength, hpre]
      rw [hlen]
      refine ⟨fun _ ↦ ?_, fun h ↦ absurd hbyte h⟩
      have hdecode := modrmDecode32_register modrm hbyte hmod
      refine ⟨_, addr, by rw [modrmCompute, hdecode]; rfl, rfl, ?_⟩
      rw [hpre]
      refine ⟨rfl, rfl, rfl, fun w hw ↦ register_eq cpu _ ?_⟩
      simpa using hw
    have hmode := mode_ne_reg hmod
    have hsize := Mode.size_ofBits (modField (bytesAt code ip 0))
    rw [if_neg hmod] at hpre
    by_cases hdisp : (bytesAt code ip 0).extractLsb' 0 3 = 5 ∧
        (bytesAt code ip 0).extractLsb' 6 2 = 0
    · -- no base
      rw [if_pos hdisp] at hpre
      have hdecode := modrmDecode32_disp32 modrm hbyte hmod hdisp
      exact modrmCompute_memory hpre hbyte hdecode (by decide) rfl (by simp) rfl rfl rfl
    rw [if_neg hdisp] at hpre
    by_cases hsib : (bytesAt code ip 0).extractLsb' 0 3 = 4
    · -- a SIB byte
      rw [if_pos hsib] at hpre
      by_cases hbyte' : code.Readable (ip + BitVec.ofNat 32 1) 1
      · have hk : code.Readable ip 2 := GuestMem.readable_add.mpr ⟨hbyte, hbyte'⟩
        have hdecode := modrmDecode32_sib modrm hbyte hbyte' hmod hdisp hsib
        refine modrmCompute_memory hpre hk hdecode ?_ ?_ ?_ rfl rfl ?_
        · split
          · decide
          · exact hmode
        · by_cases hnone : (bytesAt code ip 1).extractLsb' 0 3 = 5 ∧
              (bytesAt code ip 0).extractLsb' 6 2 = 0
          · simp only [if_pos hnone]
            rfl
          · simp only [if_neg hnone]
            exact hsize
        · split <;> simp
        · by_cases hindex : (bytesAt code ip 1).extractLsb' 3 3 = 4
          · simp only [Modrm.scaled, MemForm.scaled, if_pos hindex]
            rfl
          · simp only [Modrm.scaled, MemForm.scaled, if_neg hindex]
            rfl
      · have hne : ¬code.Readable ip (prescribedLength (bytesAt code ip)) := by
          intro h
          rw [prescribedLength_memory hpre, GuestMem.readable_add] at h
          have hk : code.Readable ip (1 + 1) := h.1
          exact hbyte' (GuestMem.readable_add.mp hk).2
        refine ⟨fun h ↦ absurd h hne, fun _ ↦ ⟨ip + BitVec.ofNat 32 1, ?_⟩⟩
        exact modrmCompute_no_sib hbyte hbyte' hmod hdisp hsib
    · -- a base
      rw [if_neg hsib] at hpre
      have hdecode := modrmDecode32_base modrm hbyte hmod hdisp hsib
      exact modrmCompute_memory hpre hbyte hdecode hmode hsize (by simp) rfl rfl rfl
  · have hne : ¬code.Readable ip (prescribedLength (bytesAt code ip)) := by
      intro h
      refine hbyte fun i hi ↦ h i ?_
      have hpos := prescribedLength_pos (bytesAt code ip)
      omega
    refine ⟨fun h ↦ absurd h hne, fun _ ↦ ⟨ip, ?_⟩⟩
    rw [modrmCompute, modrmDecode32, fetch_byte_of_not_readable hbyte]
    rfl

end Isl.Emu
