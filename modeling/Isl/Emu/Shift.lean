import Isl.Emu.Written

/-!
The shifts and rotates, whose macros take the count modulo the width where the
architecture takes it modulo 32.
-/

namespace Isl.Emu

open Isl.Lib Interp

/-! The architecture, for a count that is already masked and is not zero. -/

/-- What an instruction leaves. A flag that is undefined is `none`, and `ZF`, `SF` and
`PF` follow the result or stay. -/
structure Shifted (z : ℕ) where
  result : BitVec z
  cf : Option Bool
  of : Option Bool
  follows : Bool

section

variable {z : ℕ}

def ShiftOp.shifted (v : BitVec z) (c : ℕ) : ShiftOp → Shifted z
  | .rol =>
    let r := v.rotateLeft c
    ⟨r, some (r.getLsbD 0), if c = 1 then some (r.msb ^^ r.getLsbD 0) else none, false⟩
  | .ror =>
    let r := v.rotateRight c
    ⟨r, some r.msb, if c = 1 then some (r.msb ^^ r.getLsbD (z - 2)) else none, false⟩
  | .shl =>
    let r := v <<< c
    ⟨r, if c < z then some (v.getLsbD (z - c)) else none,
      if c = 1 then some (r.msb ^^ v.msb) else none, true⟩
  | .shr =>
    ⟨v >>> c, if c < z then some (v.getLsbD (c - 1)) else none,
      if c = 1 then some v.msb else none, true⟩
  | .sar =>
    ⟨v.sshiftRight c, some ((v.sshiftRight (c - 1)).getLsbD 0),
      if c = 1 then some false else none, true⟩

inductive DoubleOp
  | shld
  | shrd
deriving DecidableEq

/-- The bits that come in are the second operand's. -/
def DoubleOp.shifted (d e : BitVec z) (c : ℕ) : DoubleOp → Shifted z
  | .shld =>
    let r := d <<< c ||| e >>> (z - c)
    ⟨r, some (d.getLsbD (z - c)), if c = 1 then some (r.msb ^^ d.msb) else none, true⟩
  | .shrd =>
    let r := d >>> c ||| e <<< (z - c)
    ⟨r, some (d.getLsbD (c - 1)), if c = 1 then some (r.msb ^^ d.msb) else none, true⟩

def evenLow (r : BitVec z) : Bool := decide ((List.range 8).countP r.getLsbD % 2 = 0)

/-- `ZF`, `SF` and `PF` are those of a value. -/
def CpuState.ShowsResult (cpu : CpuState) (r : BitVec z) : Prop :=
  cpu.ZF = decide (r = 0) ∧ cpu.SF = r.msb ∧ cpu.PF = evenLow r

/-- `ZF`, `SF` and `PF` are as before. -/
def CpuState.ShowsSame (before after : CpuState) : Prop :=
  after.ZF = before.ZF ∧ after.SF = before.SF ∧ after.PF = before.PF

structure Shifted.Shows (e : Shifted z) (before after : CpuState) : Prop where
  cf : ∀ b ∈ e.cf, after.CF = byteOf b
  of : ∀ b ∈ e.of, after.OF = byteOf b
  result : if e.follows then after.ShowsResult e.result else before.ShowsSame after

/-- With a masked count of zero nothing changes. Otherwise the result is in its place
with its flags, and nothing else in the registers and the memory has changed. -/
def Shifted.Right (e : ℕ → Shifted z) (l : Locals) (val : Place) (slot : Slot) (m : Machine)
    (c : ℕ) (o : Outcome Stop Wrong Machine Unit) : Prop :=
  if c = 0 then o = .ok () m
  else ∃ m', o = .ok () m' ∧ get l val z m' = .ok (e c).result m' ∧
    (e c).Shows m.cpu m'.cpu ∧ slot.Frame z m m'

/-- When the macro does what the architecture says, for a masked count that is not zero. -/
def ShiftOp.Meets (oz : ℕ) (v : BitVec z) (c : ℕ) (cpu : CpuState) : ShiftOp → Prop
  | .rol =>
    if z ∣ c then cpu.CF = byteOf (v.getLsbD 0)
    else c = 1 → z ≠ oz → v.getLsbD (z - 2) = false
  | .ror =>
    if z ∣ c then cpu.CF = byteOf v.msb
    else (z ≠ oz → v.getLsbD (c % z - 1) = false) ∧ (c = 1 → v.getLsbD 1 = v.msb)
  | .shl =>
    if c < z then
      (z < 32 → ∀ i, z - c < i → i < z - c + 8 → v.getLsbD i = false) ∧
        (c = 1 → v.msb = v.getLsbD (z - 2))
    else (∀ i < z - c % z, v.getLsbD i = false) ∧ (z ∣ c → cpu.ShowsResult (0 : BitVec z))
  | .shr =>
    c < z ∨ (∀ i, c % z ≤ i → v.getLsbD i = false) ∧ (z ∣ c → cpu.ShowsResult (0 : BitVec z))
  | .sar =>
    c < z ∨ (∀ i < z, c % z - 1 ≤ i → v.getLsbD i = v.msb) ∧
      (z ∣ c → cpu.CF = byteOf v.msb ∧ cpu.ShowsResult v)

/-- The flags that the macro leaves must have been right before, and of 16 bits those of
the `int` that the result is cut from must be those of the result. -/
def DoubleOp.Meets (d e : BitVec z) (c : ℕ) (cpu : CpuState) : DoubleOp → Prop
  | .shld =>
    cpu.CF = byteOf (d.getLsbD (z - c)) ∧
      (c = 1 → cpu.OF = byteOf (d.getLsbD (z - 2) ^^ d.msb)) ∧
      (z = 16 → d.getLsbD (z - 1 - c) = false ∧
        ((∀ i < z - c, d.getLsbD i = false) → (∀ i, z - c ≤ i → e.getLsbD i = false) → d = 0))
  | .shrd =>
    (c = 1 → cpu.OF = byteOf (e.getLsbD 0 ^^ d.msb)) ∧
      (z = 16 → e.getLsbD (c - 1) = false ∧
        ((∀ i, c ≤ i → d.getLsbD i = false) → (∀ i < c, e.getLsbD i = false) → e = 0))

end

/-- The instruction. -/
def DoubleOp.insn (count extra : Operand) (dst : Place) (z : ℕ) : DoubleOp → Insn
  | .shld => .shld count extra dst z
  | .shrd => .shrd count extra dst z

/-! Flags. -/

section

variable {z : ℕ} {cpu : CpuState} {r v : BitVec z}

theorem showsResult_of_res (hlo : 8 ≤ z) (hhi : z ≤ 32) (hres : cpu.res = r.signExtend 32)
    (hlazy : cpu.zfRes = true ∧ cpu.sfRes = true ∧ cpu.pfRes = true) : cpu.ShowsResult r := by
  have hshows : (Effect.logic r).Shows { cpu with cf := 0, of := 0 } :=
    shows_of_res hlo hhi hres hlazy rfl rfl (fun _ h ↦ by cases h)
  exact ⟨hshows.zf, hshows.sf, hshows.pf⟩

theorem byteOf_xor (a b : Bool) : byteOf a ^^^ byteOf b = byteOf (a ^^ b) := by
  cases a <;> cases b <;> rfl

theorem and_one_eq (v : BitVec z) : v.setWidth 8 &&& 1 = byteOf (v.getLsbD 0) := by
  have hbyte : ∀ x : BitVec 8, x &&& 1 = byteOf (x.getLsbD 0) := by decide
  rw [hbyte, BitVec.getLsbD_setWidth]
  rfl

theorem getLsbD_byteOf (b : Bool) {i : ℕ} : (byteOf b).getLsbD i = (decide (i = 0) && b) := by
  rcases Nat.eq_zero_or_pos i with rfl | hpos
  · cases b <;> rfl
  · cases b <;> simp [byteOf, show i ≠ 0 by omega]

/-- The highest bit alone, and nothing of a narrower value. -/
theorem ushiftRight_last (v : BitVec z) {n : ℕ} (hn : z ≤ n + 1) :
    (v >>> n).setWidth 8 = byteOf (v.getLsbD n) := by
  apply BitVec.eq_of_getLsbD_eq
  intro i hi
  rw [BitVec.getLsbD_setWidth, BitVec.getLsbD_ushiftRight, getLsbD_byteOf]
  by_cases h : i = 0
  · simp [h]
  · simp [h, BitVec.getLsbD_of_ge v (n + i) (by omega)]

end

/-! The macros. -/

namespace CpuState

/-- After `ROL` and `ROR`. -/
def rotated (cf : BitVec 8) (of : Option (BitVec 8)) (cpu : CpuState) : CpuState :=
  { cpu with cf := cf, of := of.getD cpu.of }

/-- After `SHL`, `SHR` and `SAR`. -/
def shifted (cf of : BitVec 8) (res : Dword) (cpu : CpuState) : CpuState :=
  { { cpu with cf := cf, of := of, res := res }.withRes.setFlag .af false with afOps := false }

end CpuState

section

variable {h : Host} {l : Locals} {z : ℕ} {count extra : Operand} {val : Place} {slot : Slot}
  {m : Machine} {n : BitVec 8} {v d e : BitVec z}

/-- A count that is a multiple of the width does nothing. -/
theorem execShift_kept (op : ShiftOp) (hn : get l count 8 m = .ok n m) (hcnt : n.toNat % z = 0) :
    execShift l count val z op m = .ok () m := by
  cases op <;> exact Exec.bind_eq hn (by rw [if_neg (not_not.mpr hcnt)]; rfl)

theorem execDouble_kept (op : DoubleOp) (hn : get l count 8 m = .ok n m) (hcnt : n.toNat % z = 0) :
    exec h l (op.insn count extra val z) m = .ok () m := by
  cases op <;> exact Exec.bind_eq hn (by rw [if_neg (not_not.mpr hcnt)]; rfl)

/-- The end of a rotate: the result is stored and read back for the flags. -/
theorem rotate_stores (hz : z = 8 ∨ z = 16 ∨ z = 32) (hval : val.slot l z = some slot)
    (r : BitVec z) (cf : BitVec z → BitVec 8) (of : BitVec 8 → BitVec z → BitVec 8) (cnt : ℕ) :
    slot.Stores m r (CpuState.rotated (cf r) (if cnt = 1 then some (of (cf r) r) else none))
      ((do
        set l val r
        let v ← get l val z
        setCf (cf v)
        if cnt = 1 then do
          let v ← get l val z
          let m ← Exec.get
          setOf (of m.cpu.cf v)
        : Op Unit) m) := by
  rw [Exec.bind_apply, set_slot hval (by omega), Slot.Stores]
  cases hst : slot.store m r with
  | none => exact ⟨m, rfl⟩
  | some m' =>
    have hget : get l val z m' = .ok r m' := get_stored hz hval hst fun _ ↦ rfl
    refine Exec.bind_eq hget (Exec.bind_eq (setCf_apply _ _) ?_)
    split
    · refine Exec.bind_eq (get_stored hz hval hst fun _ ↦ rfl) ?_
      rw [Exec.get_bind_apply, setOf_apply]
      rfl
    · rfl

/-- The end of a shift, once `CF` and `OF` are set. -/
def storeShifted (l : Locals) (val : Place) (r : BitVec z) : Op Unit := do
  set l val r
  setRes (← get l val z)
  zeroAf

theorem storeShifted_stores (hz : z = 8 ∨ z = 16 ∨ z = 32) (hval : val.slot l z = some slot)
    (r : BitVec z) (cf of : BitVec 8) :
    slot.Stores m r (CpuState.shifted cf of (r.signExtend 32))
      (storeShifted l val r (m.mapCpu fun cpu ↦ { cpu with cf := cf, of := of })) := by
  have hkeeps : KeepsRegs fun cpu ↦ { cpu with cf := cf, of := of } := ⟨fun _ ↦ rfl, fun _ _ _ ↦ rfl⟩
  rw [storeShifted, Exec.bind_apply, set_slot hval (by omega), store_mapCpu hkeeps, Slot.Stores]
  cases hst : slot.store m r with
  | none => exact ⟨_, rfl⟩
  | some m' =>
    refine Exec.bind_eq (get_stored hz hval hst fun _ ↦ rfl) ?_
    refine Exec.bind_eq (setRes_apply _ _) ?_
    rfl

section

variable (hz : z = 8 ∨ z = 16 ∨ z = 32) (hval : val.slot l z = some slot)
  (hn : get l count 8 m = .ok n m) (hv : get l val z m = .ok v m) (hcnt : n.toNat % z ≠ 0)

include hz hval hn hv hcnt

theorem rol_stores : ∃ r, r = v <<< (n.toNat % z) ||| v >>> (z - n.toNat % z) ∧
    slot.Stores m r (CpuState.rotated (r.setWidth 8 &&& 1)
      (if n.toNat % z = 1 then some ((r.setWidth 8 &&& 1) ^^^ (r >>> (l.oz - 1)).setWidth 8)
        else none)) (rol l count val z m) := by
  refine ⟨_, rfl, ?_⟩
  rw [rol, Exec.bind_ok hn, if_pos hcnt, Exec.bind_ok hv]
  exact rotate_stores hz hval _ (fun r ↦ r.setWidth 8 &&& 1)
    (fun cf r ↦ cf ^^^ (r >>> (l.oz - 1)).setWidth 8) _

theorem ror_stores : ∃ r, r = v >>> (n.toNat % z) ||| v <<< (z - n.toNat % z) ∧
    slot.Stores m r (CpuState.rotated ((r >>> (l.oz - 1)).setWidth 8)
      (if n.toNat % z = 1 then some ((r >>> (l.oz - 1)).setWidth 8 ^^^ (r.setWidth 8 &&& 1))
        else none)) (ror l count val z m) := by
  refine ⟨_, rfl, ?_⟩
  rw [ror, Exec.bind_ok hn, if_pos hcnt, Exec.bind_ok hv]
  exact rotate_stores hz hval _ (fun r ↦ (r >>> (l.oz - 1)).setWidth 8)
    (fun cf r ↦ cf ^^^ (r.setWidth 8 &&& 1)) _

/-- `OF` is taken from the operand as it was. -/
theorem shl_stores : slot.Stores m (v <<< (n.toNat % z))
    (CpuState.shifted (((v.setWidth 32 <<< (n.toNat % z - 1)) >>> (z - 1)).setWidth 8)
      (((v.setWidth 32 <<< (n.toNat % z - 1)) >>> (z - 1)).setWidth 8 ^^^
        (v >>> (z - 1)).setWidth 8)
      ((v <<< (n.toNat % z)).signExtend 32)) (shl l count val z m) := by
  refine (storeShifted_stores hz hval _ _ _).of_eq ?_
  refine Exec.bind_eq hn ((congrFun (if_pos hcnt) m).trans ?_)
  refine Exec.bind_eq hv (Exec.bind_eq (setCf_apply _ _) ?_)
  refine Exec.bind_eq (get_same hv (Machine.Same.refl m).setCf) ?_
  refine (Exec.get_bind_apply _).trans (Exec.bind_eq (setOf_apply _ _) ?_)
  exact Exec.bind_eq (get_same hv (Machine.Same.refl m).setCf.setOf) rfl

theorem shr_stores : slot.Stores m (v >>> (n.toNat % z))
    (CpuState.shifted ((v >>> (n.toNat % z - 1)).setWidth 8 &&& 1) ((v >>> (z - 1)).setWidth 8)
      ((v >>> (n.toNat % z)).signExtend 32)) (shr l count val z m) := by
  refine (storeShifted_stores hz hval _ _ _).of_eq ?_
  refine Exec.bind_eq hn ((congrFun (if_pos hcnt) m).trans ?_)
  refine Exec.bind_eq hv (Exec.bind_eq (setCf_apply _ _) ?_)
  refine Exec.bind_eq (get_same hv (Machine.Same.refl m).setCf) ?_
  refine Exec.bind_eq (setOf_apply _ _) ?_
  exact Exec.bind_eq (get_same hv (Machine.Same.refl m).setCf.setOf) rfl

theorem sar_stores : slot.Stores m (v.sshiftRight (n.toNat % z))
    (CpuState.shifted ((v >>> (n.toNat % z - 1)).setWidth 8 &&& 1) 0
      ((v.sshiftRight (n.toNat % z)).signExtend 32)) (sar l count val z m) := by
  refine (storeShifted_stores hz hval _ _ _).of_eq ?_
  refine Exec.bind_eq hn ((congrFun (if_pos hcnt) m).trans ?_)
  refine Exec.bind_eq hv (Exec.bind_eq (setCf_apply _ _) (Exec.bind_eq (setOf_apply _ _) ?_))
  exact Exec.bind_eq (get_same hv (Machine.Same.refl m).setCf.setOf) rfl

variable (he : get l extra z m = .ok e m)

include he

theorem shrd_stores : ∃ raw : Dword,
    raw = v.setWidth 32 >>> (n.toNat % z) ||| e.setWidth 32 <<< (z - n.toNat % z) ∧
    slot.Stores m (raw.setWidth z) (fun cpu ↦ CpuState.withRes
      { cpu with cf := (v >>> (n.toNat % z - 1)).setWidth 8 &&& 1, res := raw })
      (shrd l count extra val z m) := by
  refine ⟨_, rfl, ?_⟩
  have hkeeps (cf : BitVec 8) (res : Dword) : KeepsRegs fun cpu ↦ { cpu with cf := cf, res := res } :=
    ⟨fun _ ↦ rfl, fun _ _ _ ↦ rfl⟩
  refine (setFromRes_cut (hkeeps _ _) CpuState.withRes rfl (by omega) hval).of_eq ?_
  refine Exec.bind_eq hn ((congrFun (if_pos hcnt) m).trans ?_)
  refine Exec.bind_eq hv (Exec.bind_eq (setCf_apply _ _) ?_)
  refine Exec.bind_eq (get_same hv (Machine.Same.refl m).setCf) ?_
  exact Exec.bind_eq (get_same he (Machine.Same.refl m).setCf) rfl

/-- `SHLD` leaves `CF` as it was. -/
theorem shld_stores : ∃ raw : Dword,
    raw = v.setWidth 32 <<< (n.toNat % z) ||| e.setWidth 32 >>> (z - n.toNat % z) ∧
    slot.Stores m (raw.setWidth z) (fun cpu ↦ CpuState.withRes { cpu with res := raw })
      (shld l count extra val z m) := by
  refine ⟨_, rfl, ?_⟩
  have hkeeps (res : Dword) : KeepsRegs fun cpu ↦ { cpu with res := res } :=
    ⟨fun _ ↦ rfl, fun _ _ _ ↦ rfl⟩
  refine (setFromRes_cut (hkeeps _) CpuState.withRes rfl (by omega) hval).of_eq ?_
  refine Exec.bind_eq hn ((congrFun (if_pos hcnt) m).trans ?_)
  exact Exec.bind_eq hv (Exec.bind_eq he rfl)

end

end

/-! What is left to compare once an instruction has ended. -/

section

variable {l : Locals} {z c : ℕ} {val : Place} {slot : Slot} {m : Machine} {v r : BitVec z}
  {e : ℕ → Shifted z} {g : CpuState → CpuState} {o : Outcome Stop Wrong Machine Unit}

theorem right_kept (hc : c ≠ 0) (hv : get l val z m = .ok v m) (ho : o = .ok () m) :
    Shifted.Right e l val slot m c o ↔ (e c).result = v ∧ (e c).Shows m.cpu m.cpu := by
  rw [Shifted.Right, if_neg hc]
  constructor
  · rintro ⟨m', hm, hget, hshows, -⟩
    rw [ho] at hm
    cases hm
    rw [hv] at hget
    cases hget
    exact ⟨rfl, hshows⟩
  · rintro ⟨rfl, hshows⟩
    exact ⟨m, ho, hv, hshows, fun _ _ _ _ ↦ rfl, fun _ _ ↦ rfl⟩

theorem right_stored (hc : c ≠ 0) (hz : z = 8 ∨ z = 16 ∨ z = 32)
    (hval : val.slot l z = some slot) (hw : slot.Writable m z) (h : slot.Stores m r g o)
    (hg : ∀ cpu, (g cpu).regs = cpu.regs) :
    ∃ regs, Shifted.Right e l val slot m c o ↔
      (e c).result = r ∧ (e c).Shows m.cpu (g { m.cpu with regs := regs }) := by
  obtain ⟨m', ho, hget, hframe, regs, hcpu⟩ := h.ends hz hval hw hg
  refine ⟨regs, ?_⟩
  rw [Shifted.Right, if_neg hc]
  constructor
  · rintro ⟨m₁, hm, hget', hshows, -⟩
    rw [ho] at hm
    cases hm
    rw [hget] at hget'
    cases hget'
    exact ⟨rfl, hcpu ▸ hshows⟩
  · rintro ⟨rfl, hshows⟩
    exact ⟨m', ho, hget, hcpu ▸ hshows, hframe⟩

end

section

variable {oz z c : ℕ} {cpu : CpuState} {regs : Reg32 → Dword} {v : BitVec z}

theorem last_bit (hz : z = 8 ∨ z = oz) (hoz : oz = 16 ∨ oz = 32) (r : BitVec z) :
    r.getLsbD (oz - 1) = (decide (z = oz) && r.msb) := by
  rw [BitVec.msb_eq_getLsbD_last]
  by_cases h : z = oz
  · simp [h]
  · simp [h, BitVec.getLsbD_of_ge r (oz - 1) (by omega)]

/-- A flag that the architecture defines for a count of one alone. -/
theorem forall_mem_one {x : Bool} {p : Bool → Prop} :
    (∀ b ∈ (if c = 1 then some x else none), p b) ↔ (c = 1 → p x) := by
  by_cases h : c = 1 <;> simp [h]

theorem rotated_shows {e : Shifted z} (he : e.follows = false) {cf : BitVec 8}
    {of : Option (BitVec 8)} :
    e.Shows cpu (CpuState.rotated cf of { cpu with regs := regs }) ↔
      (∀ b ∈ e.cf, cf = byteOf b) ∧ ∀ b ∈ e.of, of.getD cpu.of = byteOf b := by
  constructor
  · exact fun h ↦ ⟨h.cf, h.of⟩
  · rintro ⟨hcf, hof⟩
    refine ⟨hcf, hof, ?_⟩
    rw [he]
    exact ⟨rfl, rfl, rfl⟩

theorem shifted_shows {e : Shifted z} (he : e.follows = true) (hz : z = 8 ∨ z = 16 ∨ z = 32)
    {cf of : BitVec 8} {r : BitVec z} :
    (e.result = r ∧
      e.Shows cpu (CpuState.shifted cf of (r.signExtend 32) { cpu with regs := regs })) ↔
      e.result = r ∧ (∀ b ∈ e.cf, cf = byteOf b) ∧ ∀ b ∈ e.of, of = byteOf b := by
  refine and_congr_right ?_
  rintro rfl
  constructor
  · exact fun h ↦ ⟨h.cf, h.of⟩
  · rintro ⟨hcf, hof⟩
    refine ⟨hcf, hof, ?_⟩
    rw [he]
    exact showsResult_of_res (by omega) (by omega) rfl ⟨rfl, rfl, rfl⟩

theorem kept_shows {e : Shifted z} : e.Shows cpu cpu ↔
    (∀ b ∈ e.cf, cpu.CF = byteOf b) ∧ (∀ b ∈ e.of, cpu.OF = byteOf b) ∧
      (e.follows = true → cpu.ShowsResult e.result) := by
  constructor
  · refine fun h ↦ ⟨h.cf, h.of, fun hf ↦ ?_⟩
    have hres := h.result
    rwa [hf] at hres
  · rintro ⟨hcf, hof, hres⟩
    refine ⟨hcf, hof, ?_⟩
    cases hf : e.follows with
    | false => exact ⟨rfl, rfl, rfl⟩
    | true => exact hres hf

/-! The rotates. -/

theorem rol_iff (hz : z = 8 ∨ z = oz) (hoz : oz = 16 ∨ oz = 32) (hcnt : ¬z ∣ c) {r : BitVec z}
    (hr : r = v.rotateLeft c) :
    (ShiftOp.rol.shifted v c).Shows cpu (CpuState.rotated (r.setWidth 8 &&& 1)
      (if c % z = 1 then some ((r.setWidth 8 &&& 1) ^^^ (r >>> (oz - 1)).setWidth 8) else none)
      { cpu with regs := regs }) ↔ ShiftOp.rol.Meets oz v c cpu := by
  subst hr
  have hmsb (hc : c = 1) : (v.rotateLeft c).msb = v.getLsbD (z - 2) := by
    have hmod : c % z = 1 := by rw [hc, Nat.mod_eq_of_lt (by omega)]
    rw [BitVec.msb_eq_getLsbD_last, BitVec.getLsbD_rotateLeft, hmod]
    have hlt : ¬z - 1 < 1 := by omega
    have hin : z - 1 < z := by omega
    simp [hlt, hin, Nat.sub_sub]
  rw [rotated_shows rfl, ShiftOp.Meets, if_neg hcnt, and_one_eq, ushiftRight_last _ (by omega),
    byteOf_xor, last_bit hz hoz]
  simp only [ShiftOp.shifted, forall_mem_one, Option.mem_some_iff]
  constructor
  · rintro ⟨-, hof⟩ hc hne
    have h := hof hc
    rw [if_pos (by rw [hc, Nat.mod_eq_of_lt (by omega)]), Option.getD_some, byteOf_inj, hmsb hc,
      decide_eq_false hne, Bool.false_and, Bool.xor_false] at h
    revert h
    cases (v.rotateLeft c).getLsbD 0 <;> cases v.getLsbD (z - 2) <;> decide
  · intro h
    refine ⟨fun b hb ↦ hb ▸ rfl, fun hc ↦ ?_⟩
    rw [if_pos (by rw [hc, Nat.mod_eq_of_lt (by omega)]), Option.getD_some, byteOf_inj]
    by_cases hne : z = oz
    · simp [hne, Bool.xor_comm]
    · simp [hne, hmsb hc, h hc hne]

theorem ror_iff (hz : z = 8 ∨ z = oz) (hoz : oz = 16 ∨ oz = 32) (hcnt : ¬z ∣ c) {r : BitVec z}
    (hr : r = v.rotateRight c) :
    (ShiftOp.ror.shifted v c).Shows cpu (CpuState.rotated ((r >>> (oz - 1)).setWidth 8)
      (if c % z = 1 then some ((r >>> (oz - 1)).setWidth 8 ^^^ (r.setWidth 8 &&& 1)) else none)
      { cpu with regs := regs }) ↔ ShiftOp.ror.Meets oz v c cpu := by
  subst hr
  have hpos : 0 < c % z := Nat.pos_of_ne_zero fun h ↦ hcnt (Nat.dvd_of_mod_eq_zero h)
  have hlt : c % z < z := Nat.mod_lt _ (by omega)
  have hmsb : (v.rotateRight c).msb = v.getLsbD (c % z - 1) := by
    rw [BitVec.msb_eq_getLsbD_last, BitVec.getLsbD_rotateRight]
    have hout : ¬z - 1 < z - c % z := by omega
    have hin : z - 1 < z := by omega
    have hsub : z - 1 - (z - c % z) = c % z - 1 := by omega
    simp [hout, hin, hsub]
  have hlow (hc : c = 1) : (v.rotateRight c).getLsbD 0 = v.getLsbD 1 := by
    have hmod : c % z = 1 := by rw [hc, Nat.mod_eq_of_lt (by omega)]
    rw [BitVec.getLsbD_rotateRight, hmod]
    simp [show 0 < z - 1 by omega]
  have hnext (hc : c = 1) : (v.rotateRight c).getLsbD (z - 2) = v.msb := by
    have hmod : c % z = 1 := by rw [hc, Nat.mod_eq_of_lt (by omega)]
    rw [BitVec.getLsbD_rotateRight, hmod, BitVec.msb_eq_getLsbD_last]
    simp [show z - 2 < z - 1 by omega, show 1 + (z - 2) = z - 1 by omega]
  rw [rotated_shows rfl, ShiftOp.Meets, if_neg hcnt, and_one_eq, ushiftRight_last _ (by omega),
    byteOf_xor, last_bit hz hoz, hmsb]
  simp only [ShiftOp.shifted, forall_mem_one, Option.mem_some_iff, hmsb]
  have hcf : (∀ b, v.getLsbD (c % z - 1) = b →
      byteOf (decide (z = oz) && v.getLsbD (c % z - 1)) = byteOf b) ↔
      (z ≠ oz → v.getLsbD (c % z - 1) = false) := by
    by_cases hne : z = oz <;> cases v.getLsbD (c % z - 1) <;> simp [hne, byteOf_inj]
  rw [hcf]
  refine and_congr_right fun hzero ↦ forall_congr' fun hc ↦ ?_
  -- the bit that `CF` is made of is right already
  have hbit : (decide (z = oz) && v.getLsbD (c % z - 1)) = v.getLsbD (c % z - 1) := by
    by_cases hne : z = oz <;> simp [hne, hzero]
  rw [if_pos (by rw [hc, Nat.mod_eq_of_lt (by omega)]), Option.getD_some, byteOf_inj, hbit,
    hlow hc, hnext hc, Bool.xor_right_inj]

/-! The shifts. -/

/-- In an `int` the bits above the last one shifted out are kept. -/
theorem shl_cf_iff (hz : z = 8 ∨ z = 16 ∨ z = 32) (hc : c ≠ 0) (hlt : c < z) :
    ((v.setWidth 32 <<< (c - 1)) >>> (z - 1)).setWidth 8 = byteOf (v.getLsbD (z - c)) ↔
      (z < 32 → ∀ i, z - c < i → i < z - c + 8 → v.getLsbD i = false) := by
  have hbit (j : ℕ) (hj : j < 8) :
      (((v.setWidth 32 <<< (c - 1)) >>> (z - 1)).setWidth 8).getLsbD j =
        (decide (z - 1 + j < 32) && v.getLsbD (z - c + j)) := by
    have hge : ¬z - 1 + j < c - 1 := by omega
    have hsub : z - 1 + j - (c - 1) = z - c + j := by omega
    simp only [BitVec.getLsbD_setWidth, BitVec.getLsbD_ushiftRight, BitVec.getLsbD_shiftLeft, hge,
      hsub, hj, decide_true, decide_false, Bool.true_and, Bool.not_false]
    by_cases hin : z - 1 + j < 32
    · simp [hin, show z - c + j < 32 by omega]
    · simp [hin]
  constructor
  · intro h hwide i hi hi'
    have hj := congrArg (fun x ↦ x.getLsbD (i - (z - c))) h
    simp only [hbit _ (show i - (z - c) < 8 by omega), getLsbD_byteOf] at hj
    simpa [show z - 1 + (i - (z - c)) < 32 by omega, show z - c + (i - (z - c)) = i by omega,
      show i - (z - c) ≠ 0 by omega] using hj
  · intro h
    apply BitVec.eq_of_getLsbD_eq
    intro j hj
    rw [hbit j hj, getLsbD_byteOf]
    rcases Nat.eq_zero_or_pos j with rfl | hpos
    · simp [show z - 1 < 32 by omega]
    · by_cases hwide : z < 32
      · simp [h hwide (z - c + j) (by omega) (by omega), show j ≠ 0 by omega]
      · simp [show ¬z - 1 + j < 32 by omega, show j ≠ 0 by omega]

theorem shiftLeft_eq_zero (k : ℕ) : v <<< k = 0#z ↔ ∀ i < z - k, v.getLsbD i = false := by
  constructor
  · intro h i hi
    have hbit := congrArg (fun x ↦ x.getLsbD (i + k)) h
    rw [BitVec.getLsbD_shiftLeft, Nat.add_sub_cancel, BitVec.getLsbD_zero] at hbit
    simpa [show i + k < z by omega] using hbit
  · intro h
    apply BitVec.eq_of_getLsbD_eq
    intro i hi
    rw [BitVec.getLsbD_shiftLeft]
    by_cases hk : i < k
    · simp [hk]
    · simp [h (i - k) (by omega)]

theorem ushiftRight_eq_zero (k : ℕ) : v >>> k = 0#z ↔ ∀ i, k ≤ i → v.getLsbD i = false := by
  constructor
  · intro h i hi
    have hbit := congrArg (fun x ↦ x.getLsbD (i - k)) h
    rw [BitVec.getLsbD_ushiftRight, BitVec.getLsbD_zero] at hbit
    rwa [show k + (i - k) = i by omega] at hbit
  · intro h
    apply BitVec.eq_of_getLsbD_eq
    intro i _
    rw [BitVec.getLsbD_ushiftRight, h _ (by omega)]
    simp

theorem shl_iff (hz : z = 8 ∨ z = 16 ∨ z = 32) (hc : c ≠ 0) (hcnt : ¬z ∣ c) :
    ((ShiftOp.shl.shifted v c).result = v <<< (c % z) ∧
      (ShiftOp.shl.shifted v c).Shows cpu (CpuState.shifted
        (((v.setWidth 32 <<< (c % z - 1)) >>> (z - 1)).setWidth 8)
        (((v.setWidth 32 <<< (c % z - 1)) >>> (z - 1)).setWidth 8 ^^^ (v >>> (z - 1)).setWidth 8)
        ((v <<< (c % z)).signExtend 32) { cpu with regs := regs })) ↔
      ShiftOp.shl.Meets oz v c cpu := by
  rw [shifted_shows rfl hz, ShiftOp.Meets]
  by_cases hlt : c < z
  · rw [if_pos hlt, Nat.mod_eq_of_lt hlt, ← shl_cf_iff hz hc hlt]
    simp only [ShiftOp.shifted, if_pos hlt, forall_mem_one, Option.mem_some_iff, true_and,
      forall_eq']
    refine and_congr_right fun hcf ↦ forall_congr' fun hone ↦ ?_
    have hmsb : (v <<< c).msb = v.getLsbD (z - 2) := by
      rw [BitVec.msb_eq_getLsbD_last, BitVec.getLsbD_shiftLeft, hone]
      simp [show z - 1 < z by omega, show ¬z - 1 < 1 by omega, Nat.sub_sub]
    rw [hcf, ushiftRight_last v (by omega), byteOf_xor, byteOf_inj, hmsb,
      BitVec.msb_eq_getLsbD_last, hone]
    cases v.getLsbD (z - 1) <;> cases v.getLsbD (z - 2) <;> decide
  · have hzero : v <<< c = 0#z := BitVec.shiftLeft_eq_zero (by omega)
    rw [if_neg hlt, ← shiftLeft_eq_zero]
    simp only [ShiftOp.shifted, if_neg hlt, forall_mem_one, hzero, eq_comm (a := 0#z)]
    simp [hcnt, show c ≠ 1 by omega]

theorem shr_iff (hz : z = 8 ∨ z = 16 ∨ z = 32) (hc : c ≠ 0) (hcnt : ¬z ∣ c) :
    ((ShiftOp.shr.shifted v c).result = v >>> (c % z) ∧
      (ShiftOp.shr.shifted v c).Shows cpu (CpuState.shifted
        ((v >>> (c % z - 1)).setWidth 8 &&& 1) ((v >>> (z - 1)).setWidth 8)
        ((v >>> (c % z)).signExtend 32) { cpu with regs := regs })) ↔
      ShiftOp.shr.Meets oz v c cpu := by
  rw [shifted_shows rfl hz, ShiftOp.Meets, and_one_eq, BitVec.getLsbD_ushiftRight, Nat.add_zero,
    ushiftRight_last v (by omega)]
  by_cases hlt : c < z
  · rw [Nat.mod_eq_of_lt hlt]
    simp only [ShiftOp.shifted, if_pos hlt, forall_mem_one, Option.mem_some_iff, true_and,
      forall_eq']
    simp [hlt, BitVec.msb_eq_getLsbD_last]
  · have hzero : v >>> c = 0#z := BitVec.ushiftRight_eq_zero (by omega)
    rw [← ushiftRight_eq_zero]
    simp only [ShiftOp.shifted, if_neg hlt, forall_mem_one, hzero, eq_comm (a := 0#z)]
    simp [hcnt, hlt, show c ≠ 1 by omega]

theorem sar_iff (hz : z = 8 ∨ z = 16 ∨ z = 32) (hc : c ≠ 0) (hcnt : ¬z ∣ c) :
    ((ShiftOp.sar.shifted v c).result = v.sshiftRight (c % z) ∧
      (ShiftOp.sar.shifted v c).Shows cpu (CpuState.shifted
        ((v >>> (c % z - 1)).setWidth 8 &&& 1) 0
        ((v.sshiftRight (c % z)).signExtend 32) { cpu with regs := regs })) ↔
      ShiftOp.sar.Meets oz v c cpu := by
  have hpos : 0 < c % z := Nat.pos_of_ne_zero fun h ↦ hcnt (Nat.dvd_of_mod_eq_zero h)
  have hmod : c % z < z := Nat.mod_lt _ (by omega)
  rw [shifted_shows rfl hz, ShiftOp.Meets, and_one_eq, BitVec.getLsbD_ushiftRight, Nat.add_zero]
  simp only [ShiftOp.shifted, forall_mem_one, Option.mem_some_iff, forall_eq', byteOf_inj,
    BitVec.getLsbD_sshiftRight, Nat.add_zero, show ¬z ≤ 0 by omega, decide_false, Bool.not_false,
    Bool.true_and]
  have hof : (c = 1 → (0 : BitVec 8) = byteOf false) ↔ True := by simp [byteOf]
  rw [hof, and_true]
  by_cases hlt : c < z
  · rw [Nat.mod_eq_of_lt hlt]
    simp [hlt, show c - 1 < z by omega]
  · have hle : ¬c - 1 < z := fun h ↦ hcnt ⟨1, by omega⟩
    have hfill (i : ℕ) (hi : i < z) : (v.sshiftRight c).getLsbD i = v.msb := by
      rw [BitVec.getLsbD_sshiftRight]
      simp [show ¬z ≤ i by omega, show ¬c + i < z by omega]
    have hbit (i : ℕ) (hi : c % z + i < z) :
        (v.sshiftRight (c % z)).getLsbD i = v.getLsbD (c % z + i) := by
      rw [BitVec.getLsbD_sshiftRight]
      simp [show ¬z ≤ i by omega, hi]
    rw [if_neg hle]
    simp only [hlt, false_or, hcnt, false_implies, and_true]
    constructor
    · rintro ⟨hres, hcf⟩ i hi hge
      rcases Nat.eq_or_lt_of_le hge with rfl | hgt
      · exact hcf
      · have h := congrArg (fun x ↦ x.getLsbD (i - c % z)) hres
        rw [hfill _ (by omega), hbit _ (by omega), show c % z + (i - c % z) = i by omega] at h
        exact h.symm
    · intro h
      refine ⟨BitVec.eq_of_getLsbD_eq fun i hi ↦ ?_, h _ (by omega) (Nat.le_refl _)⟩
      rw [hfill i hi]
      by_cases hin : c % z + i < z
      · rw [hbit i hin, h _ hin (by omega)]
      · rw [BitVec.getLsbD_sshiftRight]
        simp [show ¬z ≤ i by omega, hin]

/-- A count that is a multiple of the width: the machine stays, and the flags are right if
they were so before. -/
theorem kept_iff (hz : z = 8 ∨ z = 16 ∨ z = 32) (hc : c ≠ 0) (hdvd : z ∣ c) (op : ShiftOp) :
    ((op.shifted v c).result = v ∧ (op.shifted v c).Shows cpu cpu) ↔ op.Meets oz v c cpu := by
  have hle : z ≤ c := Nat.le_of_dvd (Nat.pos_of_ne_zero hc) hdvd
  have hmod : c % z = 0 := Nat.mod_eq_zero_of_dvd hdvd
  have hlt : ¬c < z := by omega
  have hone : c ≠ 1 := by omega
  rw [kept_shows, ShiftOp.Meets.eq_def]
  cases op with
  | rol =>
    have hrot : v.rotateLeft c = v := by
      rw [BitVec.rotateLeft_def, hmod, Nat.sub_zero, BitVec.ushiftRight_eq_zero (Nat.le_refl z)]
      simp
    simp [ShiftOp.shifted, hrot, hdvd, hone]
  | ror =>
    have hrot : v.rotateRight c = v := by
      rw [BitVec.rotateRight_def, hmod, Nat.sub_zero, BitVec.shiftLeft_eq_zero (Nat.le_refl z)]
      simp
    simp [ShiftOp.shifted, hrot, hdvd, hone]
  | shl =>
    have hzero : v <<< c = 0#z := BitVec.shiftLeft_eq_zero hle
    have hall : (∀ i < z - c % z, v.getLsbD i = false) ↔ 0#z = v := by
      rw [← shiftLeft_eq_zero, hmod, BitVec.shiftLeft_zero, eq_comm]
    simp [ShiftOp.shifted, hlt, hone, hzero, hall, hdvd]
  | shr =>
    have hzero : v >>> c = 0#z := BitVec.ushiftRight_eq_zero hle
    have hall : (∀ i, c % z ≤ i → v.getLsbD i = false) ↔ 0#z = v := by
      rw [← ushiftRight_eq_zero, hmod, BitVec.ushiftRight_zero, eq_comm]
    simp [ShiftOp.shifted, hlt, hone, hzero, hall, hdvd]
  | sar =>
    have hfill (k i : ℕ) (hk : z ≤ k + i) (hi : i < z) : (v.sshiftRight k).getLsbD i = v.msb := by
      rw [BitVec.getLsbD_sshiftRight]
      simp [show ¬z ≤ i by omega, show ¬k + i < z by omega]
    have hall : (∀ i < z, c % z - 1 ≤ i → v.getLsbD i = v.msb) ↔ v.sshiftRight c = v := by
      rw [hmod]
      constructor
      · intro h
        exact BitVec.eq_of_getLsbD_eq fun i hi ↦ by rw [hfill c i (by omega) hi, h i hi (by omega)]
      · intro h i hi _
        rw [← hfill c i (by omega) hi, h]
    have hlast : (v.sshiftRight (c - 1)).getLsbD 0 = v.msb := by
      rw [BitVec.getLsbD_sshiftRight, BitVec.msb_eq_getLsbD_last]
      by_cases heq : c = z
      · simp [heq, show ¬z ≤ 0 by omega, show z - 1 < z by omega]
      · simp [show ¬z ≤ 0 by omega, show ¬c - 1 < z by omega]
    rw [hall]
    simp only [ShiftOp.shifted, hlt, hone, hdvd, if_false, false_or, true_implies, hlast]
    refine and_congr_right fun hres ↦ ?_
    simp [hres]

/-! The shifts of two operands. -/

/-- The flags of an `int` are those of the result cut from it when its upper bits do
not say otherwise. -/
theorem showsResult_of_raw (hz : 8 ≤ z) {raw : Dword} {r : BitVec z} (hr : raw.setWidth z = r)
    (hzz : z ≤ 32) (hres : cpu.res = raw)
    (hlazy : cpu.zfRes = true ∧ cpu.sfRes = true ∧ cpu.pfRes = true) :
    cpu.ShowsResult r ↔ (r = 0 → raw = 0) ∧ raw.msb = r.msb := by
  obtain ⟨hzf, hsf, hpf⟩ := hlazy
  have hzero : raw = 0 → r = 0 := by
    rintro rfl
    simp [← hr]
  have heven : (!parity raw) = evenLow r := by
    have hcount : (List.range 8).countP raw.getLsbD = (List.range 8).countP r.getLsbD := by
      apply List.countP_congr
      intro i hi
      have hlt : i < 8 := List.mem_range.mp hi
      simp [← hr, show i < z by omega]
    rw [parity, foldl_xor, Bool.false_xor, evenLow, hcount]
    rcases Nat.mod_two_eq_zero_or_one ((List.range 8).countP r.getLsbD) with h | h <;> simp [h]
  rw [CpuState.ShowsResult, CpuState.ZF, CpuState.SF, CpuState.PF, if_pos hzf, if_pos hsf,
    if_pos hpf, hres, heven, Bool.eq_iff_iff, beq_iff_eq, decide_eq_true_iff]
  constructor
  · exact fun h ↦ ⟨h.1.mpr, h.2.1⟩
  · exact fun h ↦ ⟨⟨hzero, h.1⟩, h.2, rfl⟩

theorem double_shows {x : Shifted z} (hx : x.follows = true) (hlo : 8 ≤ z) (hhi : z ≤ 32)
    {cf : BitVec 8} {raw : Dword} (hraw : raw.setWidth z = x.result) :
    x.Shows cpu (CpuState.withRes { cpu with regs := regs, cf := cf, res := raw }) ↔
      (∀ b ∈ x.cf, cf = byteOf b) ∧ (∀ b ∈ x.of, cpu.OF = byteOf b) ∧
        (x.result = 0 → raw = 0) ∧ raw.msb = x.result.msb := by
  have hshows : (CpuState.withRes { cpu with regs := regs, cf := cf, res := raw }).ShowsResult
      x.result ↔ (x.result = 0 → raw = 0) ∧ raw.msb = x.result.msb :=
    showsResult_of_raw hlo hraw hhi rfl ⟨rfl, rfl, rfl⟩
  rw [← hshows]
  constructor
  · intro h
    have hres := h.result
    rw [hx] at hres
    exact ⟨h.cf, h.of, hres⟩
  · rintro ⟨hcf, hof, hres⟩
    refine ⟨hcf, hof, ?_⟩
    rw [hx]
    exact hres

variable {d e : BitVec z}

theorem shrd_raw (hz : z = 16 ∨ z = 32) (hc : c ≠ 0) (hlt : c < z) :
    (d.setWidth 32 >>> c ||| e.setWidth 32 <<< (z - c)).setWidth z = d >>> c ||| e <<< (z - c) := by
  apply BitVec.eq_of_getLsbD_eq
  intro i hi
  simp only [BitVec.getLsbD_setWidth, BitVec.getLsbD_or, BitVec.getLsbD_ushiftRight,
    BitVec.getLsbD_shiftLeft, hi, decide_true, Bool.true_and, show i < 32 by omega]
  by_cases hin : c + i < 32
  · simp [hin, show i - (z - c) < 32 by omega]
  · simp [hin, show i - (z - c) < 32 by omega, BitVec.getLsbD_of_ge d (c + i) (by omega)]

theorem shld_raw (hz : z = 16 ∨ z = 32) (hc : c ≠ 0) (hlt : c < z) :
    (d.setWidth 32 <<< c ||| e.setWidth 32 >>> (z - c)).setWidth z = d <<< c ||| e >>> (z - c) := by
  apply BitVec.eq_of_getLsbD_eq
  intro i hi
  simp only [BitVec.getLsbD_setWidth, BitVec.getLsbD_or, BitVec.getLsbD_ushiftRight,
    BitVec.getLsbD_shiftLeft, hi, decide_true, Bool.true_and, show i < 32 by omega]
  by_cases hin : z - c + i < 32
  · simp [hin, show i - c < 32 by omega]
  · simp [hin, show i - c < 32 by omega, BitVec.getLsbD_of_ge e (z - c + i) (by omega)]

theorem eq_zero_of_bits {w : ℕ} {x : BitVec w} : x = 0#w ↔ ∀ i, x.getLsbD i = false := by
  constructor
  · rintro rfl i
    exact BitVec.getLsbD_zero
  · exact fun h ↦ BitVec.eq_of_getLsbD_eq fun i _ ↦ by rw [h i, BitVec.getLsbD_zero]

/-- A value of 16 bits of which no bit is lost in an `int`. -/
theorem int_shiftLeft_eq_zero {x : BitVec 16} {k : ℕ} (hk : k ≤ 16) :
    x.setWidth 32 <<< k = 0#32 ↔ x = 0#16 := by
  rw [shiftLeft_eq_zero, eq_zero_of_bits]
  constructor
  · intro h i
    by_cases hi : i < 16
    · have hbit := h i (by omega)
      rwa [BitVec.getLsbD_setWidth, decide_eq_true (by omega), Bool.true_and] at hbit
    · exact BitVec.getLsbD_of_ge x i (by omega)
  · intro h i hi
    rw [BitVec.getLsbD_setWidth, h, Bool.and_false]

theorem int_ushiftRight_eq_zero {x : BitVec 16} {k : ℕ} :
    x.setWidth 32 >>> k = 0#32 ↔ ∀ i, k ≤ i → x.getLsbD i = false := by
  rw [ushiftRight_eq_zero]
  refine forall_congr' fun i ↦ forall_congr' fun _ ↦ ?_
  rw [BitVec.getLsbD_setWidth]
  by_cases hi : i < 32
  · simp [hi]
  · simp [hi, BitVec.getLsbD_of_ge x i (by omega)]

theorem shrd_iff (hz : z = 16 ∨ z = 32) (hc : c ≠ 0) (hlt : c < z) {raw : Dword}
    (hraw : raw = d.setWidth 32 >>> c ||| e.setWidth 32 <<< (z - c)) :
    (DoubleOp.shrd.shifted d e c).Shows cpu (CpuState.withRes
      { cpu with regs := regs, cf := (d >>> (c - 1)).setWidth 8 &&& 1, res := raw }) ↔
      DoubleOp.shrd.Meets d e c cpu := by
  have hcut := shrd_raw (d := d) (e := e) hz hc hlt
  have hmsb : (d >>> c ||| e <<< (z - c)).msb = e.getLsbD (c - 1) := by
    rw [BitVec.msb_eq_getLsbD_last, BitVec.getLsbD_or, BitVec.getLsbD_ushiftRight,
      BitVec.getLsbD_of_ge d _ (by omega), BitVec.getLsbD_shiftLeft]
    simp [show z - 1 < z by omega, show ¬z - 1 < z - c by omega,
      show z - 1 - (z - c) = c - 1 by omega]
  rw [← hraw] at hcut
  rw [double_shows rfl (by omega) (by omega) hcut, DoubleOp.Meets, and_one_eq,
    BitVec.getLsbD_ushiftRight, Nat.add_zero]
  simp only [DoubleOp.shifted, forall_mem_one, Option.mem_some_iff, forall_eq', true_and, hmsb]
  refine and_congr (forall_congr' fun hone ↦ by rw [hone]) ?_
  rcases hz with rfl | rfl
  · have htop : raw.msb = false := by
      rw [hraw, BitVec.msb_eq_getLsbD_last, BitVec.getLsbD_or, BitVec.getLsbD_ushiftRight,
        BitVec.getLsbD_shiftLeft, BitVec.getLsbD_setWidth, BitVec.getLsbD_setWidth,
        BitVec.getLsbD_of_ge d _ (by omega), BitVec.getLsbD_of_ge e _ (by omega)]
      simp
    have hzero : raw = 0#32 ↔ (∀ i, c ≤ i → d.getLsbD i = false) ∧ e = 0#16 := by
      rw [hraw, BitVec.or_eq_zero_iff, int_ushiftRight_eq_zero, int_shiftLeft_eq_zero (by omega)]
    have hnil : d >>> c ||| e <<< (16 - c) = 0#16 ↔
        (∀ i, c ≤ i → d.getLsbD i = false) ∧ ∀ i < c, e.getLsbD i = false := by
      rw [BitVec.or_eq_zero_iff, ushiftRight_eq_zero, shiftLeft_eq_zero,
        show 16 - (16 - c) = c by omega]
    simp only [BitVec.ofNat_eq_ofNat, true_implies, hnil, hzero, htop]
    rw [and_comm]
    refine and_congr eq_comm ⟨fun h hd he ↦ (h ⟨hd, he⟩).2, fun h hnil ↦ ?_⟩
    exact ⟨hnil.1, h hnil.1 hnil.2⟩
  · have hwhole : raw.setWidth 32 = raw := BitVec.setWidth_eq raw
    rw [hwhole] at hcut
    simp [hcut, hmsb]

/-- `SHLD` leaves the carry flag that was there. -/
theorem shld_iff (hz : z = 16 ∨ z = 32) (hc : c ≠ 0) (hlt : c < z) {raw : Dword}
    (hraw : raw = d.setWidth 32 <<< c ||| e.setWidth 32 >>> (z - c)) :
    (DoubleOp.shld.shifted d e c).Shows cpu (CpuState.withRes
      { cpu with regs := regs, cf := cpu.cf, res := raw }) ↔ DoubleOp.shld.Meets d e c cpu := by
  have hcut := shld_raw (d := d) (e := e) hz hc hlt
  have hmsb : (d <<< c ||| e >>> (z - c)).msb = d.getLsbD (z - 1 - c) := by
    rw [BitVec.msb_eq_getLsbD_last, BitVec.getLsbD_or, BitVec.getLsbD_ushiftRight,
      BitVec.getLsbD_of_ge e _ (by omega), BitVec.getLsbD_shiftLeft]
    simp [show z - 1 < z by omega, show ¬z - 1 < c by omega]
  rw [← hraw] at hcut
  rw [double_shows rfl (by omega) (by omega) hcut, DoubleOp.Meets]
  simp only [DoubleOp.shifted, forall_mem_one, Option.mem_some_iff, forall_eq', hmsb]
  refine and_congr Iff.rfl (and_congr (forall_congr' fun hone ↦ ?_) ?_)
  · rw [hone, Nat.sub_sub]
  rcases hz with rfl | rfl
  · have htop : raw.msb = false := by
      rw [hraw, BitVec.msb_eq_getLsbD_last, BitVec.getLsbD_or, BitVec.getLsbD_ushiftRight,
        BitVec.getLsbD_shiftLeft, BitVec.getLsbD_setWidth, BitVec.getLsbD_setWidth,
        BitVec.getLsbD_of_ge e _ (by omega), BitVec.getLsbD_of_ge d _ (by omega)]
      simp
    have hzero : raw = 0#32 ↔ d = 0#16 ∧ ∀ i, 16 - c ≤ i → e.getLsbD i = false := by
      rw [hraw, BitVec.or_eq_zero_iff, int_ushiftRight_eq_zero, int_shiftLeft_eq_zero (by omega)]
    have hnil : d <<< c ||| e >>> (16 - c) = 0#16 ↔
        (∀ i < 16 - c, d.getLsbD i = false) ∧ ∀ i, 16 - c ≤ i → e.getLsbD i = false := by
      rw [BitVec.or_eq_zero_iff, ushiftRight_eq_zero, shiftLeft_eq_zero]
    simp only [BitVec.ofNat_eq_ofNat, true_implies, hnil, hzero, htop]
    rw [and_comm]
    refine and_congr eq_comm ⟨fun h hd he ↦ (h ⟨hd, he⟩).1, fun h hnil ↦ ?_⟩
    exact ⟨h hnil.1 hnil.2, hnil.2⟩
  · have hwhole : raw.setWidth 32 = raw := BitVec.setWidth_eq raw
    rw [hwhole] at hcut
    simp [hcut, hmsb]

end

/-! The instructions. -/

section

variable {h : Host} {l : Locals} {z : ℕ} {count extra : Operand} {val : Place} {slot : Slot}
  {m : Machine} {n : BitVec 8} {v d e : BitVec z}

theorem mod_masked (hz : z = 8 ∨ z = 16 ∨ z = 32) (n : ℕ) : n % 32 % z = n % z := by
  apply Nat.mod_mod_of_dvd
  rcases hz with rfl | rfl | rfl <;> decide

theorem shift_right_iff (hoz : l.oz = 16 ∨ l.oz = 32) (hz : z = 8 ∨ z = l.oz) (op : ShiftOp)
    (hval : val.slot l z = some slot) (hn : get l count 8 m = .ok n m)
    (hv : get l val z m = .ok v m) (hw : slot.Writable m z) (hc : n.toNat % 32 ≠ 0) :
    Shifted.Right (op.shifted v) l val slot m (n.toNat % 32)
      (exec h l (.shift op count val z) m) ↔ op.Meets l.oz v (n.toNat % 32) m.cpu := by
  have hz' : z = 8 ∨ z = 16 ∨ z = 32 := by omega
  have hmod := mod_masked hz' n.toNat
  by_cases hdvd : z ∣ n.toNat % 32
  · have hcnt : n.toNat % z = 0 := by rw [← hmod, Nat.mod_eq_zero_of_dvd hdvd]
    exact (right_kept hc hv (execShift_kept op hn hcnt)).trans (kept_iff hz' hc hdvd op)
  · have hcnt : n.toNat % z ≠ 0 := fun hzero ↦ hdvd (Nat.dvd_of_mod_eq_zero (hmod.trans hzero))
    cases op with
    | rol =>
      obtain ⟨r, hr, hstores⟩ := rol_stores hz' hval hn hv hcnt
      obtain ⟨regs, hright⟩ := right_stored (e := (ShiftOp.rol.shifted v)) hc hz' hval hw
        hstores fun _ ↦ rfl
      have hrot : r = v.rotateLeft (n.toNat % 32) := by rw [hr, BitVec.rotateLeft_def, hmod]
      rw [← hmod] at hright
      exact hright.trans ((and_iff_right hrot.symm).trans (rol_iff hz hoz hdvd hrot))
    | ror =>
      obtain ⟨r, hr, hstores⟩ := ror_stores hz' hval hn hv hcnt
      obtain ⟨regs, hright⟩ := right_stored (e := (ShiftOp.ror.shifted v)) hc hz' hval hw
        hstores fun _ ↦ rfl
      have hrot : r = v.rotateRight (n.toNat % 32) := by rw [hr, BitVec.rotateRight_def, hmod]
      rw [← hmod] at hright
      exact hright.trans ((and_iff_right hrot.symm).trans (ror_iff hz hoz hdvd hrot))
    | shl =>
      have hstores := shl_stores hz' hval hn hv hcnt
      obtain ⟨regs, hright⟩ := right_stored (e := (ShiftOp.shl.shifted v)) hc hz' hval hw
        hstores fun _ ↦ rfl
      rw [← hmod] at hright
      exact hright.trans (shl_iff hz' hc hdvd)
    | shr =>
      have hstores := shr_stores hz' hval hn hv hcnt
      obtain ⟨regs, hright⟩ := right_stored (e := (ShiftOp.shr.shifted v)) hc hz' hval hw
        hstores fun _ ↦ rfl
      rw [← hmod] at hright
      exact hright.trans (shr_iff hz' hc hdvd)
    | sar =>
      have hstores := sar_stores hz' hval hn hv hcnt
      obtain ⟨regs, hright⟩ := right_stored (e := (ShiftOp.sar.shifted v)) hc hz' hval hw
        hstores fun _ ↦ rfl
      rw [← hmod] at hright
      exact hright.trans (sar_iff hz' hc hdvd)

theorem double_right_iff (hz : z = 16 ∨ z = 32) (op : DoubleOp)
    (hval : val.slot l z = some slot) (hn : get l count 8 m = .ok n m)
    (hd : get l val z m = .ok d m) (he : get l extra z m = .ok e m) (hw : slot.Writable m z)
    (hc : n.toNat % 32 ≠ 0) (hlt : n.toNat % 32 < z) :
    Shifted.Right (fun c ↦ op.shifted d e c) l val slot m (n.toNat % 32)
      (exec h l (op.insn count extra val z) m) ↔ op.Meets d e (n.toNat % 32) m.cpu := by
  have hz' : z = 8 ∨ z = 16 ∨ z = 32 := .inr hz
  have hmod : n.toNat % z = n.toNat % 32 := by
    rw [← mod_masked hz' n.toNat, Nat.mod_eq_of_lt hlt]
  have hcnt : n.toNat % z ≠ 0 := fun h ↦ hc (hmod.symm.trans h)
  cases op with
  | shrd =>
    obtain ⟨raw, hraw, hstores⟩ := shrd_stores hz' hval hn hd hcnt he
    obtain ⟨regs, hright⟩ := right_stored (e := fun c ↦ DoubleOp.shrd.shifted d e c) hc hz' hval hw
      hstores fun _ ↦ rfl
    rw [hmod] at hraw hright
    have hcut : raw.setWidth z = (DoubleOp.shrd.shifted d e (n.toNat % 32)).result := by
      rw [hraw]
      exact shrd_raw hz hc hlt
    exact hright.trans ((and_iff_right hcut.symm).trans (shrd_iff hz hc hlt hraw))
  | shld =>
    obtain ⟨raw, hraw, hstores⟩ := shld_stores hz' hval hn hd hcnt he
    obtain ⟨regs, hright⟩ := right_stored (e := fun c ↦ DoubleOp.shld.shifted d e c) hc hz' hval hw
      hstores fun _ ↦ rfl
    rw [hmod] at hraw
    have hcut : raw.setWidth z = (DoubleOp.shld.shifted d e (n.toNat % 32)).result := by
      rw [hraw]
      exact shld_raw hz hc hlt
    exact hright.trans ((and_iff_right hcut.symm).trans (shld_iff hz hc hlt hraw))

end

/-- Where the operands are accessible, an instruction is right for a masked count of zero
and where its macro happens to meet the architecture. -/
theorem shifts_iff (h : Host) (l : Locals) (hoz : l.oz = 16 ∨ l.oz = 32) :
    (∀ (op : ShiftOp) {z : ℕ} (count : Operand) (val : Place) (slot : Slot) (m : Machine)
      (n : BitVec 8) (v : BitVec z), z = 8 ∨ z = l.oz → val.slot l z = some slot →
      get l count 8 m = .ok n m → get l val z m = .ok v m → slot.Writable m z →
      (Shifted.Right (op.shifted v) l val slot m (n.toNat % 32)
          (exec h l (.shift op count val z) m) ↔
        n.toNat % 32 = 0 ∨ op.Meets l.oz v (n.toNat % 32) m.cpu)) ∧
    ∀ (op : DoubleOp) (count extra : Operand) (val : Place) (slot : Slot) (m : Machine)
      (n : BitVec 8) (d e : BitVec l.oz), val.slot l l.oz = some slot →
      get l count 8 m = .ok n m → get l val l.oz m = .ok d m → get l extra l.oz m = .ok e m →
      slot.Writable m l.oz → n.toNat % 32 < l.oz →
      (Shifted.Right (fun c ↦ op.shifted d e c) l val slot m (n.toNat % 32)
          (exec h l (op.insn count extra val l.oz) m) ↔
        n.toNat % 32 = 0 ∨ op.Meets d e (n.toNat % 32) m.cpu) := by
  constructor
  · intro op z count val slot m n v hz hval hn hv hw
    by_cases hc : n.toNat % 32 = 0
    · have hcnt : n.toNat % z = 0 := by rw [← mod_masked (by omega), hc, Nat.zero_mod]
      refine iff_of_true ?_ (.inl hc)
      rw [Shifted.Right, if_pos hc]
      exact execShift_kept op hn hcnt
    · rw [or_iff_right hc]
      exact shift_right_iff hoz hz op hval hn hv hw hc
  · intro op count extra val slot m n d e hval hn hd he hw hlt
    by_cases hc : n.toNat % 32 = 0
    · have hcnt : n.toNat % l.oz = 0 := by rw [← mod_masked (by omega), hc, Nat.zero_mod]
      refine iff_of_true ?_ (.inl hc)
      rw [Shifted.Right, if_pos hc]
      exact execDouble_kept op hn hcnt
    · rw [or_iff_right hc]
      exact double_right_iff hoz op hval hn hd he hw hc hlt

/-- An `SHR` by 36, and an `SHRD` of 16 bits whose sign is clear and whose result is not 0. -/
theorem shifts_iff_two :
    Shifted.Right (ShiftOp.shr.shifted 0x80000011#32) .zero (.reg .ebx) (.bits .ebx 0)
      (Machine.zero.mapCpu fun cpu ↦ cpu.setReg .ebx 0x80000011) 4
      (exec .zero .zero (.shift .shr (.const 36) (.reg .ebx) 32)
        (Machine.zero.mapCpu fun cpu ↦ cpu.setReg .ebx 0x80000011)) ∧
    Shifted.Right (fun c ↦ DoubleOp.shrd.shifted 0x1234#16 0x5670#16 c) { Locals.zero with oz := 16 }
      (.reg .ebx) (.bits .ebx 0) (Machine.zero.mapCpu fun cpu ↦ cpu.setReg .ebx 0x1234) 4
      (exec .zero { Locals.zero with oz := 16 } (.shrd (.const 4) (.const 0x5670) (.reg .ebx) 16)
        (Machine.zero.mapCpu fun cpu ↦ cpu.setReg .ebx 0x1234)) := by
  constructor
  · exact ((shifts_iff .zero .zero (.inr rfl)).1 .shr (.const 36) (.reg .ebx) (.bits .ebx 0) _ _ _
      (.inr rfl) rfl rfl rfl trivial).mpr (.inr (.inl (by decide)))
  · refine ((shifts_iff .zero { Locals.zero with oz := 16 } (.inl rfl)).2 .shrd (.const 4)
      (.const 0x5670) (.reg .ebx) (.bits .ebx 0) _ _ _ _ rfl rfl rfl rfl trivial (by decide)).mpr
      (.inr ⟨fun h ↦ absurd h (by decide), fun _ ↦ ⟨by decide, fun hhigh _ ↦ ?_⟩⟩)
    exact absurd (hhigh 4 (by decide)) (by decide)

/-- `rol` of a byte by 8 leaves `CF`, which the lowest bit should go to. -/
theorem not_shift_right : ¬Shifted.Right (ShiftOp.rol.shifted 1#8) .zero (.reg .ebx)
    (.bits .ebx 0) (Machine.zero.mapCpu fun cpu ↦ cpu.setReg .ebx 1) 8
    (exec .zero .zero (.shift .rol (.const 8) (.reg .ebx) 8)
      (Machine.zero.mapCpu fun cpu ↦ cpu.setReg .ebx 1)) := by
  rintro ⟨m', hexec, -, hshows, -⟩
  cases hexec
  exact absurd (hshows.cf true rfl) (by decide)

end Isl.Emu
