import Isl.Emu.Slot

/-!
The bytes `cf` and `of`, which the condition codes combine with single bits. All
macros but `SHL` leave zero or one in them.
-/

namespace Isl.Emu

open Isl.Lib Interp

/-- A property of the two bytes. -/
def Machine.Bytes (p : BitVec 8 → BitVec 8 → Prop) (m : Machine) : Prop := p m.cpu.cf m.cpu.of

/-- Both bytes are zero or one. -/
abbrev Machine.Bits : Machine → Prop :=
  Machine.Bytes fun cf of ↦ cf.toNat ≤ 1 ∧ of.toNat ≤ 1

abbrev KeepsBits {α : Type} (x : Op α) : Prop := Exec.Keeps Machine.Bits x

theorem byteOf_le (b : Bool) : (byteOf b).toNat ≤ 1 := by
  cases b <;> decide

/-- A byte of which only the lowest bit is set. -/
theorem and_one_le (v : BitVec 8) : (v &&& 1).toNat ≤ 1 := by
  rw [BitVec.toNat_and]
  exact Nat.and_le_right

theorem xor_le {a b : BitVec 8} (ha : a.toNat ≤ 1) (hb : b.toNat ≤ 1) : (a ^^^ b).toNat ≤ 1 := by
  rw [BitVec.toNat_xor]
  exact Nat.lt_succ_iff.mp (Nat.xor_lt_two_pow (Nat.lt_succ_of_le ha) (Nat.lt_succ_of_le hb) :
    a.toNat ^^^ b.toNat < 2 ^ 1)

/-- The highest bit. -/
theorem ushiftRight_le {z n : ℕ} (v : BitVec z) (h : z ≤ n + 1) :
    ((v >>> n).setWidth 8).toNat ≤ 1 := by
  rw [BitVec.toNat_setWidth, BitVec.toNat_ushiftRight, Nat.shiftRight_eq_div_pow]
  refine (Nat.mod_le _ _).trans (Nat.lt_succ_iff.mp ?_)
  rw [Nat.div_lt_iff_lt_mul (Nat.two_pow_pos n)]
  calc v.toNat < 2 ^ z := v.isLt
    _ ≤ 2 ^ (n + 1) := Nat.pow_le_pow_right Nat.two_pos h
    _ = 2 * 2 ^ n := Nat.pow_succ'

/-! What the macros are made of. -/

section

variable {l : Locals} {p : BitVec 8 → BitVec 8 → Prop}

theorem keeps_of_same {α : Type} {x : Op α}
    (h : ∀ m, (x m).All fun m' ↦ m'.cpu.cf = m.cpu.cf ∧ m'.cpu.of = m.cpu.of) :
    Exec.Keeps (Machine.Bytes p) x := by
  intro m hm
  have hx := h m
  revert hx
  cases x m with
  | wrong e => exact fun _ ↦ trivial
  | _ =>
    rintro ⟨hcf, hof⟩
    simp only [Outcome.All, Machine.Bytes, hcf, hof]
    exact hm

theorem keeps_memRead (addr : Dword) (w : ℕ) : Exec.Keeps (Machine.Bytes p) (memRead addr w) := by
  apply keeps_of_same
  intro m
  rw [memRead_apply]
  split <;> exact ⟨rfl, rfl⟩

theorem keeps_memWrite (addr : Dword) {w : ℕ} (v : BitVec w) :
    Exec.Keeps (Machine.Bytes p) (memWrite addr v) := by
  apply keeps_of_same
  intro m
  simp only [memWrite]
  split <;> exact ⟨rfl, rfl⟩

theorem keeps_modify {f : CpuState → CpuState}
    (h : ∀ cpu, (f cpu).cf = cpu.cf ∧ (f cpu).of = cpu.of) :
    Exec.Keeps (Machine.Bytes p) (modifyCpu f) :=
  keeps_of_same fun m ↦ h m.cpu

theorem keeps_get (what : Operand) (w : ℕ) :
    Exec.Keeps (Machine.Bytes p) (get l what w) := by
  intro m hm
  rw [get_eq]
  split
  · exact hm
  · exact keeps_memRead _ _ m hm

theorem keeps_setRegister (q : Regptr) {w : ℕ} (v : BitVec w) :
    Exec.Keeps (Machine.Bytes p) (modifyCpu fun cpu ↦ cpu.setRegister q v) := by
  apply keeps_modify
  intro cpu
  rw [CpuState.setRegister]
  split
  · exact ⟨rfl, rfl⟩
  · split
    · exact ⟨rfl, rfl⟩
    · split <;> exact ⟨rfl, rfl⟩

theorem keeps_set (what : Place) {w : ℕ} (v : BitVec w) :
    Exec.Keeps (Machine.Bytes p) (set l what v) := by
  cases what with
  | modrmReg => exact keeps_setRegister _ v
  | modrmVal =>
    simp only [set]
    split
    · exact keeps_setRegister _ v
    · exact keeps_memWrite _ v
  | memAddr => exact keeps_memWrite _ v
  | _ => exact keeps_modify fun _ ↦ ⟨rfl, rfl⟩

theorem keeps_setCf {b : BitVec 8} (hb : b.toNat ≤ 1) : KeepsBits (setCf b) :=
  fun _ hm ↦ ⟨hb, hm.2⟩

theorem keeps_setOf {b : BitVec 8} (hb : b.toNat ≤ 1) : KeepsBits (setOf b) :=
  fun _ hm ↦ ⟨hm.1, hb⟩

theorem returns_unsignedOverflow (what : Arith) {z : ℕ} (a b : BitVec z) :
    Exec.Returns Machine.Bits (·.toNat ≤ 1) (unsignedOverflow what a b) := by
  refine ⟨fun _ hm ↦ hm, fun m c m' _ h ↦ ?_⟩
  cases h
  exact byteOf_le _

theorem returns_signedOverflow (what : Arith) {z : ℕ} (a b : BitVec z) :
    Exec.Returns Machine.Bits (·.toNat ≤ 1) (signedOverflow what a b) := by
  refine ⟨fun _ hm ↦ hm, fun m c m' _ h ↦ ?_⟩
  cases h
  exact byteOf_le _

theorem keeps_setRaw (v : Dword) : Exec.Keeps (Machine.Bytes p) (setRaw v) :=
  keeps_modify fun _ ↦ ⟨rfl, rfl⟩

theorem keeps_setResFlags : Exec.Keeps (Machine.Bytes p) setResFlags :=
  keeps_modify fun _ ↦ ⟨rfl, rfl⟩

theorem keeps_setRes {z : ℕ} (v : BitVec z) : Exec.Keeps (Machine.Bytes p) (setRes v) :=
  (keeps_setRaw _).bind fun _ ↦ keeps_setResFlags

theorem keeps_zeroAf : Exec.Keeps (Machine.Bytes p) zeroAf :=
  keeps_modify fun _ ↦ ⟨rfl, rfl⟩

theorem keeps_clearCfOfAf : KeepsBits clearCfOfAf :=
  keeps_zeroAf.bind fun _ ↦ (keeps_setOf (by decide)).bind fun _ ↦ keeps_setCf (by decide)

theorem keeps_setAf (a b : Operand) (z : ℕ) : KeepsBits (setAf l a b z) := by
  refine (keeps_get a z).bind fun _ ↦ ?_
  refine .bind (keeps_modify fun _ ↦ ⟨rfl, rfl⟩) fun _ ↦ ?_
  refine (keeps_get b z).bind fun _ ↦ ?_
  refine .bind (keeps_modify fun _ ↦ ⟨rfl, rfl⟩) fun _ ↦ ?_
  exact keeps_modify fun _ ↦ ⟨rfl, rfl⟩

theorem keeps_setFromRes (dst : Place) (z : ℕ) : KeepsBits (setFromRes l dst z) :=
  Exec.Keeps.get.bind fun _ ↦ keeps_set dst _

theorem keeps_holds (cond : Cond) (negated : Bool) : KeepsBits (holds cond negated) :=
  Exec.Keeps.get.bind fun _ ↦ .pure _

end

/-! The macros for integers. -/

section

variable {l : Locals}

theorem keeps_mov (src : Operand) (dst : Place) (z : ℕ) : KeepsBits (mov l src dst z) :=
  (keeps_get _ _).bind fun _ ↦ keeps_set _ _

theorem keeps_movzx (src : Operand) (dst : Place) (zs zd : ℕ) :
    KeepsBits (movzx l src dst zs zd) :=
  (keeps_get _ _).bind fun _ ↦ keeps_set _ _

theorem keeps_movsx (src : Operand) (dst : Place) (zs zd : ℕ) :
    KeepsBits (movsx l src dst zs zd) :=
  (keeps_get _ _).bind fun _ ↦ keeps_set _ _

theorem keeps_xchg (src dst : Place) (z : ℕ) : KeepsBits (xchg l src dst z) := by
  refine (keeps_get _ _).bind fun _ ↦ ?_
  refine (keeps_get _ _).bind fun _ ↦ ?_
  exact (keeps_set _ _).bind fun _ ↦ keeps_set _ _

theorem keeps_push (thing : Operand) (z : ℕ) : KeepsBits (push l thing z) := by
  refine (keeps_get _ _).bind fun _ ↦ ?_
  refine Exec.Keeps.get.bind fun _ ↦ ?_
  exact (keeps_memWrite _ _).bind fun _ ↦ keeps_modify fun _ ↦ ⟨rfl, rfl⟩

theorem keeps_pop (thing : Place) (z : ℕ) : KeepsBits (pop l thing z) := by
  refine Exec.Keeps.get.bind fun _ ↦ ?_
  refine (keeps_memRead _ _).bind fun _ ↦ ?_
  exact (keeps_set _ _).bind fun _ ↦ keeps_modify fun _ ↦ ⟨rfl, rfl⟩

theorem keeps_test (src : Operand) (dst : Place) (z : ℕ) : KeepsBits (test l src dst z) := by
  refine (keeps_get _ _).bind fun _ ↦ ?_
  refine (keeps_get _ _).bind fun _ ↦ ?_
  exact (keeps_setRes _).bind fun _ ↦ keeps_clearCfOfAf

theorem keeps_add (src : Operand) (dst : Place) (z : ℕ) : KeepsBits (add l src dst z) := by
  refine (keeps_setAf _ _ _).bind fun _ ↦ ?_
  refine (keeps_get _ _).bind fun _ ↦ (keeps_get _ _).bind fun _ ↦ ?_
  refine (returns_unsignedOverflow _ _ _).bind fun _ hcf ↦ (keeps_setCf hcf).bind fun _ ↦ ?_
  refine (keeps_get _ _).bind fun _ ↦ (keeps_get _ _).bind fun _ ↦ ?_
  refine (returns_signedOverflow _ _ _).bind fun _ hof ↦ (keeps_setOf hof).bind fun _ ↦ ?_
  exact (keeps_setFromRes _ _).bind fun _ ↦ keeps_setResFlags

theorem keeps_sub (src : Operand) (dst : Place) (z : ℕ) : KeepsBits (sub l src dst z) := by
  refine (keeps_setAf _ _ _).bind fun _ ↦ ?_
  refine (keeps_get _ _).bind fun _ ↦ (keeps_get _ _).bind fun _ ↦ ?_
  refine (returns_signedOverflow _ _ _).bind fun _ hof ↦ (keeps_setOf hof).bind fun _ ↦ ?_
  refine (keeps_get _ _).bind fun _ ↦ (keeps_get _ _).bind fun _ ↦ ?_
  refine (returns_unsignedOverflow _ _ _).bind fun _ hcf ↦ (keeps_setCf hcf).bind fun _ ↦ ?_
  exact (keeps_setFromRes _ _).bind fun _ ↦ keeps_setResFlags

theorem keeps_cmp (src dst : Operand) (z : ℕ) : KeepsBits (cmp l src dst z) := by
  refine (keeps_setAf _ _ _).bind fun _ ↦ ?_
  refine (keeps_get _ _).bind fun _ ↦ (keeps_get _ _).bind fun _ ↦ ?_
  refine (returns_unsignedOverflow _ _ _).bind fun _ hcf ↦ (keeps_setCf hcf).bind fun _ ↦ ?_
  refine (keeps_get _ _).bind fun _ ↦ (keeps_get _ _).bind fun _ ↦ ?_
  refine (returns_signedOverflow _ _ _).bind fun _ hof ↦ (keeps_setOf hof).bind fun _ ↦ ?_
  exact keeps_setResFlags

theorem keeps_neg (val : Place) (z : ℕ) : KeepsBits (Interp.neg l val z) := by
  refine (keeps_setAf _ _ _).bind fun _ ↦ (keeps_get _ _).bind fun _ ↦ ?_
  refine (returns_signedOverflow _ _ _).bind fun _ hof ↦ (keeps_setOf hof).bind fun _ ↦ ?_
  refine (keeps_get _ _).bind fun _ ↦ ?_
  refine (returns_unsignedOverflow _ _ _).bind fun _ hcf ↦ (keeps_setCf hcf).bind fun _ ↦ ?_
  exact (keeps_setFromRes _ _).bind fun _ ↦ keeps_setResFlags

theorem keeps_getPlusCf (src : Operand) (z : ℕ) : KeepsBits (getPlusCf l src z) :=
  (keeps_get _ _).bind fun _ ↦ Exec.Keeps.get.bind fun _ ↦ .pure _

theorem returns_orCfAndEq (ov : BitVec 8) (src : Operand) {z : ℕ} (v : BitVec z) :
    Exec.Returns Machine.Bits (·.toNat ≤ 1) (orCfAndEq l ov src v) := by
  constructor
  · refine Exec.Keeps.get.bind fun _ ↦ .ite (.pure _) (.ite (.pure _) ?_)
    exact (keeps_get _ _).bind fun _ ↦ .pure _
  · intro m b m' _ h
    rw [orCfAndEq, Exec.get_bind_apply] at h
    split at h
    · cases h
      decide
    · split at h
      · cases h
        decide
      · obtain ⟨s, _, -, h⟩ := Exec.bind_eq_ok.mp h
        cases h
        exact byteOf_le _

theorem keeps_carry (what : Arith) (src : Operand) (dst : Place) (z : ℕ) :
    KeepsBits (carry l what src dst z) := by
  refine (keeps_setAf _ _ _).bind fun _ ↦ ?_
  refine (keeps_get _ _).bind fun _ ↦ (keeps_getPlusCf _ _).bind fun _ ↦ ?_
  refine (returns_signedOverflow _ _ _).bind fun _ _ ↦ ?_
  refine (returns_orCfAndEq _ _ _).bind fun _ hof ↦ (keeps_setOf hof).bind fun _ ↦ ?_
  refine (keeps_get _ _).bind fun _ ↦ (keeps_getPlusCf _ _).bind fun _ ↦ ?_
  refine (returns_unsignedOverflow _ _ _).bind fun _ _ ↦ ?_
  refine (returns_orCfAndEq _ _ _).bind fun _ hcf ↦ (keeps_setCf hcf).bind fun _ ↦ ?_
  exact (keeps_setFromRes _ _).bind fun _ ↦ keeps_setResFlags

theorem keeps_bitwise (f : {z : ℕ} → BitVec z → BitVec z → BitVec z) (src : Operand)
    (dst : Place) (z : ℕ) : KeepsBits (bitwise l f src dst z) := by
  refine (keeps_get _ _).bind fun _ ↦ (keeps_get _ _).bind fun _ ↦ ?_
  refine (keeps_set _ _).bind fun _ ↦ keeps_clearCfOfAf.bind fun _ ↦ ?_
  exact (keeps_get _ _).bind fun _ ↦ keeps_setRes _

theorem keeps_execArith (op : ArithOp) (src : Operand) (dst : Place) (z : ℕ) :
    KeepsBits (execArith l src dst z op) := by
  cases op with
  | add => exact keeps_add _ _ _
  | or => exact keeps_bitwise (· ||| ·) _ _ _
  | adc => exact keeps_carry _ _ _ _
  | sbb => exact keeps_carry _ _ _ _
  | and => exact keeps_bitwise (· &&& ·) _ _ _
  | sub => exact keeps_sub _ _ _
  | xor => exact keeps_bitwise (· ^^^ ·) _ _ _
  | cmp => exact keeps_cmp _ _ _

/-- The carry flag is put back as it was. -/
theorem keeps_restoreCf {x : Op Unit} (hx : KeepsBits x) :
    KeepsBits (Exec.get >>= fun m ↦ x >>= fun _ ↦ setCf m.cpu.cf) :=
  Exec.Returns.get.bind fun _ hm ↦ hx.bind fun _ ↦ keeps_setCf hm.1

theorem keeps_mul1 (val : Place) (z : ℕ) : KeepsBits (mul1 l val z) := by
  refine (keeps_get _ _).bind fun _ ↦ (keeps_get _ _).bind fun _ ↦ ?_
  refine (keeps_set _ _).bind fun _ ↦ (keeps_set _ _).bind fun _ ↦ ?_
  refine (keeps_setOf (byteOf_le _)).bind fun _ ↦ (keeps_setCf (byteOf_le _)).bind fun _ ↦ ?_
  exact keeps_zeroAf.bind fun _ ↦ keeps_modify fun _ ↦ ⟨rfl, rfl⟩

theorem keeps_imul1 (val : Place) (z : ℕ) : KeepsBits (imul1 l val z) := by
  refine (keeps_get _ _).bind fun _ ↦ (keeps_get _ _).bind fun _ ↦ ?_
  refine (keeps_set _ _).bind fun _ ↦ (keeps_set _ _).bind fun _ ↦ ?_
  refine (keeps_setOf (byteOf_le _)).bind fun _ ↦ (keeps_setCf (byteOf_le _)).bind fun _ ↦ ?_
  exact keeps_modify fun _ ↦ ⟨rfl, rfl⟩

theorem keeps_imul2 (val : Operand) (reg : Place) (z : ℕ) : KeepsBits (imul2 l val reg z) := by
  refine (keeps_get _ _).bind fun _ ↦ (keeps_get _ _).bind fun _ ↦ ?_
  refine (returns_signedOverflow _ _ _).bind fun _ hov ↦ ?_
  refine (keeps_setOf hov).bind fun _ ↦ (keeps_setCf hov).bind fun _ ↦ ?_
  exact (keeps_setFromRes _ _).bind fun _ ↦ keeps_setResFlags

theorem keeps_imul3 (factor src : Operand) (dst : Place) (z : ℕ) :
    KeepsBits (imul3 l factor src dst z) := by
  refine (keeps_get _ _).bind fun _ ↦ (keeps_get _ _).bind fun _ ↦ ?_
  refine (returns_signedOverflow _ _ _).bind fun _ hov ↦ ?_
  refine (keeps_setOf hov).bind fun _ ↦ (keeps_setCf hov).bind fun _ ↦ ?_
  exact (keeps_setFromRes _ _).bind fun _ ↦ keeps_modify fun _ ↦ ⟨rfl, rfl⟩

theorem keeps_divide (rem quot : {n : ℕ} → BitVec n → BitVec n → BitVec n) (val : Place) (z : ℕ) :
    KeepsBits (divide l rem quot val z) := by
  refine (keeps_get _ _).bind fun _ ↦ .ite (.stop _) ?_
  refine (keeps_get _ _).bind fun _ ↦ (keeps_get _ _).bind fun _ ↦ ?_
  refine (keeps_get _ _).bind fun _ ↦ .ite (.wrong _) ?_
  refine (keeps_set _ _).bind fun _ ↦ ?_
  exact (keeps_get _ _).bind fun _ ↦ .ite (.wrong _) (keeps_set _ _)

/-! Control transfer. -/

theorem keeps_fixEip : KeepsBits (fixEip l) :=
  .ite (keeps_modify fun _ ↦ ⟨rfl, rfl⟩) (.pure _)

theorem keeps_jmp (loc : Operand) : KeepsBits (jmp l loc) := by
  refine (keeps_get _ _).bind fun _ ↦ ?_
  exact .bind (keeps_modify fun _ ↦ ⟨rfl, rfl⟩) fun _ ↦ keeps_fixEip

theorem keeps_jmpRel (offset : Operand) : KeepsBits (jmpRel l offset) := by
  refine (keeps_get _ _).bind fun _ ↦ ?_
  exact .bind (keeps_modify fun _ ↦ ⟨rfl, rfl⟩) fun _ ↦ keeps_fixEip

theorem keeps_retNear (args : Operand) : KeepsBits (retNear l args) := by
  refine (keeps_pop _ _).bind fun _ ↦ keeps_fixEip.bind fun _ ↦ ?_
  exact (keeps_get _ _).bind fun _ ↦ keeps_modify fun _ ↦ ⟨rfl, rfl⟩

/-! Shifts. -/

theorem keeps_rol (count : Operand) (val : Place) {z : ℕ} (hz : z ≤ l.oz) :
    KeepsBits (rol l count val z) := by
  refine (keeps_get _ _).bind fun _ ↦ .ite ?_ (.pure _)
  refine (keeps_get _ _).bind fun _ ↦ (keeps_set _ _).bind fun _ ↦ ?_
  refine (keeps_get _ _).bind fun _ ↦ (keeps_setCf (and_one_le _)).bind fun _ ↦ .ite ?_ (.pure _)
  refine (keeps_get _ _).bind fun v ↦ Exec.Returns.get.bind fun _ hm ↦ ?_
  exact keeps_setOf (xor_le hm.1 (ushiftRight_le v (by omega)))

theorem keeps_ror (count : Operand) (val : Place) {z : ℕ} (hz : z ≤ l.oz) :
    KeepsBits (ror l count val z) := by
  refine (keeps_get _ _).bind fun _ ↦ .ite ?_ (.pure _)
  refine (keeps_get _ _).bind fun _ ↦ (keeps_set _ _).bind fun _ ↦ ?_
  refine (keeps_get _ _).bind fun v ↦ ?_
  refine (keeps_setCf (ushiftRight_le v (by omega))).bind fun _ ↦ .ite ?_ (.pure _)
  refine (keeps_get _ _).bind fun _ ↦ Exec.Returns.get.bind fun _ hm ↦ ?_
  exact keeps_setOf (xor_le hm.1 (and_one_le _))

theorem keeps_shr (count : Operand) (val : Place) (z : ℕ) : KeepsBits (shr l count val z) := by
  refine (keeps_get _ _).bind fun _ ↦ .ite ?_ (.pure _)
  refine (keeps_get _ _).bind fun _ ↦ (keeps_setCf (and_one_le _)).bind fun _ ↦ ?_
  refine (keeps_get _ _).bind fun v ↦ (keeps_setOf (ushiftRight_le v (by omega))).bind fun _ ↦ ?_
  refine (keeps_get _ _).bind fun _ ↦ (keeps_set _ _).bind fun _ ↦ ?_
  exact (keeps_get _ _).bind fun _ ↦ (keeps_setRes _).bind fun _ ↦ keeps_zeroAf

theorem keeps_sar (count : Operand) (val : Place) (z : ℕ) : KeepsBits (sar l count val z) := by
  refine (keeps_get _ _).bind fun _ ↦ .ite ?_ (.pure _)
  refine (keeps_get _ _).bind fun _ ↦ (keeps_setCf (and_one_le _)).bind fun _ ↦ ?_
  refine (keeps_setOf (by decide)).bind fun _ ↦ ?_
  refine (keeps_get _ _).bind fun _ ↦ (keeps_set _ _).bind fun _ ↦ ?_
  exact (keeps_get _ _).bind fun _ ↦ (keeps_setRes _).bind fun _ ↦ keeps_zeroAf

theorem keeps_shrd (count extra : Operand) (dst : Place) (z : ℕ) :
    KeepsBits (shrd l count extra dst z) := by
  refine (keeps_get _ _).bind fun _ ↦ .ite ?_ (.pure _)
  refine (keeps_get _ _).bind fun _ ↦ (keeps_setCf (and_one_le _)).bind fun _ ↦ ?_
  refine (keeps_get _ _).bind fun _ ↦ (keeps_get _ _).bind fun _ ↦ (keeps_setRaw _).bind fun _ ↦ ?_
  exact (keeps_setFromRes _ _).bind fun _ ↦ keeps_setResFlags

theorem keeps_shld (count extra : Operand) (dst : Place) (z : ℕ) :
    KeepsBits (shld l count extra dst z) := by
  refine (keeps_get _ _).bind fun _ ↦ .ite ?_ (.pure _)
  refine (keeps_get _ _).bind fun _ ↦ (keeps_get _ _).bind fun _ ↦ (keeps_setRaw _).bind fun _ ↦ ?_
  exact (keeps_setFromRes _ _).bind fun _ ↦ keeps_setResFlags

/-! Bits and strings. -/

theorem keeps_bt (bit : Operand) (val : Place) (z : ℕ) : KeepsBits (bt l bit val z) := by
  have hword (i : ℕ) : KeepsBits (bitWord l i val z) := .ite (keeps_memRead _ _) (keeps_get _ _)
  have hbit : KeepsBits (getBit l bit val z) :=
    (keeps_get _ _).bind fun _ ↦ (hword _).bind fun _ ↦ .pure _
  exact hbit.bind fun _ ↦ keeps_setCf (byteOf_le _)

theorem keeps_btSet (f : {z : ℕ} → BitVec z → BitVec z → BitVec z) (bit : Operand) (val : Place)
    (z : ℕ) : KeepsBits (btSet l f bit val z) := by
  have hmsk : KeepsBits (msk l bit z) := (keeps_get _ _).bind fun _ ↦ .pure _
  refine (keeps_bt _ _ _).bind fun _ ↦ (keeps_get _ _).bind fun _ ↦ ?_
  exact hmsk.bind fun _ ↦ keeps_set _ _

theorem keeps_bitScan (index : {z : ℕ} → BitVec z → BitVec z) (src : Operand) (dst : Place)
    (z : ℕ) : KeepsBits (bitScan l index src dst z) := by
  refine (keeps_get _ _).bind fun _ ↦ .bind (keeps_modify fun _ ↦ ⟨rfl, rfl⟩) fun _ ↦ ?_
  refine Exec.Keeps.get.bind fun _ ↦ .ite ?_ (.pure _)
  exact (keeps_get _ _).bind fun _ ↦ keeps_set _ _

theorem keeps_bump (r : Reg32) (z : ℕ) : KeepsBits (bump r z) := keeps_modify fun _ ↦ ⟨rfl, rfl⟩

theorem keeps_str (op : Str) (z : ℕ) : KeepsBits (str l z op) := by
  cases op with
  | movs =>
    refine Exec.Keeps.get.bind fun _ ↦ (keeps_memRead _ _).bind fun _ ↦ ?_
    refine (keeps_memWrite _ _).bind fun _ ↦ ?_
    exact (keeps_bump _ _).bind fun _ ↦ keeps_bump _ _
  | stos =>
    refine Exec.Keeps.get.bind fun _ ↦ (keeps_get _ _).bind fun _ ↦ ?_
    exact (keeps_memWrite _ _).bind fun _ ↦ keeps_bump _ _
  | lods =>
    refine Exec.Keeps.get.bind fun _ ↦ (keeps_memRead _ _).bind fun _ ↦ ?_
    exact (keeps_set _ _).bind fun _ ↦ keeps_bump _ _
  | scas => exact (keeps_cmp _ _ _).bind fun _ ↦ keeps_bump _ _
  | cmps =>
    exact (keeps_cmp _ _ _).bind fun _ ↦ (keeps_bump _ _).bind fun _ ↦ keeps_bump _ _

theorem keeps_repLoop (kind : Rep) (op : Str) (z n : ℕ) : KeepsBits (repLoop l kind op z n) := by
  induction n with
  | zero => exact .pure _
  | succ n ih =>
    refine Exec.Keeps.get.bind fun _ ↦ .ite ?_ (.pure _)
    refine (keeps_str _ _).bind fun _ ↦ .bind (keeps_modify fun _ ↦ ⟨rfl, rfl⟩) fun _ ↦ ?_
    exact Exec.Keeps.get.bind fun _ ↦ .ite (.pure _) ih

theorem keeps_cmpxchg (src dst : Place) (z : ℕ) : KeepsBits (cmpxchg l src dst z) := by
  refine (keeps_cmp _ _ _).bind fun _ ↦ (keeps_holds _ _).bind fun _ ↦ ?_
  exact .ite (keeps_mov _ _ _) (keeps_mov _ _ _)

theorem bit_le (b : Bool) : (if b then 1 else 0 : BitVec 8).toNat ≤ 1 := by
  cases b <;> decide

theorem keeps_expandFlags : KeepsBits (modifyCpu CpuState.expandFlags) :=
  fun _ _ ↦ ⟨bit_le _, bit_le _⟩

theorem keeps_sahf : KeepsBits sahf := by
  refine .bind (keeps_modify fun _ ↦ ⟨rfl, rfl⟩) fun _ ↦ ?_
  exact .bind (keeps_modify fun _ ↦ ⟨rfl, rfl⟩) fun _ ↦ keeps_expandFlags

theorem keeps_cpuid : KeepsBits cpuid := by
  apply keeps_modify
  intro cpu
  split <;> exact ⟨rfl, rfl⟩

theorem keeps_rdtsc (tsc : Qword) : KeepsBits (rdtsc tsc) :=
  .bind (keeps_modify fun _ ↦ ⟨rfl, rfl⟩) fun _ ↦ keeps_modify fun _ ↦ ⟨rfl, rfl⟩

end

/-! The macros of the two other units. -/

section

variable {h : Host} {l : Locals}

theorem keeps_lanes (f : Qword → Qword → Qword) (src : Operand) (dst : Place) :
    KeepsBits (lanes l f src dst) := by
  refine (keeps_get _ _).bind fun _ ↦ ?_
  exact (keeps_get _ _).bind fun _ ↦ keeps_set _ _

theorem keeps_pcmpeqd (src : Operand) (dst : Place) : KeepsBits (pcmpeqd l src dst) := by
  refine (keeps_get _ _).bind fun _ ↦ ?_
  exact (keeps_get _ _).bind fun _ ↦ keeps_set _ _

theorem keeps_psrlq (count : Operand) (dst : Place) : KeepsBits (psrlq l count dst) := by
  refine (keeps_get _ _).bind fun _ ↦ ?_
  exact (keeps_get _ _).bind fun _ ↦ .ite (.wrong _) (keeps_set _ _)

theorem keeps_movq (src : Operand) (dst : Place) : KeepsBits (movq l src dst) := by
  refine (keeps_get _ _).bind fun _ ↦ ?_
  exact (keeps_get _ _).bind fun _ ↦ keeps_set _ _

theorem keeps_st (i : ℕ) : KeepsBits (st i) := by
  refine Exec.Keeps.get.bind fun m ↦ ?_
  cases stIndex m.cpu i with
  | none => exact .wrong _
  | some j => exact .pure _

theorem keeps_setSt (i : ℕ) (f : Float80) : KeepsBits (setSt i f) := by
  refine Exec.Keeps.get.bind fun m ↦ ?_
  cases stIndex m.cpu i with
  | none => exact .wrong _
  | some j => exact keeps_modify fun _ ↦ ⟨rfl, rfl⟩

theorem keeps_roundingMode : KeepsBits roundingMode := Exec.Keeps.get.bind fun _ ↦ .pure _

theorem keeps_f80 (x : RoundingMode → Option Float80) : KeepsBits (f80 x) :=
  keeps_roundingMode.bind fun _ ↦ .ofOption _ _

theorem keeps_lt (a b : Float80) : KeepsBits (lt a b) :=
  keeps_roundingMode.bind fun _ ↦ .ofOption _ _

theorem keeps_setC (i : ℕ) (b : Bool) : KeepsBits (modifyCpu fun cpu ↦ cpu.setC i b) :=
  keeps_modify fun _ ↦ ⟨rfl, rfl⟩

theorem keeps_getReal (z : Real) : KeepsBits (getReal h l z) :=
  (keeps_get _ _).bind fun _ ↦ keeps_f80 _

theorem keeps_fpush (f : Float80) : KeepsBits (fpush f) :=
  .bind (keeps_modify fun _ ↦ ⟨rfl, rfl⟩) fun _ ↦ keeps_setSt _ _

theorem keeps_fpop : KeepsBits fpop := keeps_modify fun _ ↦ ⟨rfl, rfl⟩

theorem keeps_farith (op : FpuArith) (src dst : ℕ) : KeepsBits (farith op src dst) := by
  refine (keeps_st _).bind fun _ ↦ (keeps_st _).bind fun _ ↦ ?_
  exact (keeps_f80 _).bind fun _ ↦ keeps_setSt _ _

theorem keeps_fiarith (op : FpuArith) (z : ℕ) : KeepsBits (fiarith l op z) := by
  refine (keeps_st _).bind fun _ ↦ (keeps_get _ _).bind fun _ ↦ ?_
  refine (keeps_f80 _).bind fun _ ↦ ?_
  exact (keeps_f80 _).bind fun _ ↦ keeps_setSt _ _

theorem keeps_farithm (op : FpuArith) (z : Real) : KeepsBits (farithm h l op z) := by
  refine (keeps_st _).bind fun _ ↦ (keeps_getReal _).bind fun _ ↦ ?_
  exact (keeps_f80 _).bind fun _ ↦ keeps_setSt _ _

theorem keeps_fucomi : KeepsBits (fucomi l) := by
  refine (keeps_st _).bind fun _ ↦ (keeps_st _).bind fun _ ↦ ?_
  refine .bind (keeps_modify fun _ ↦ ⟨rfl, rfl⟩) fun _ ↦ ?_
  refine (keeps_st _).bind fun _ ↦ (keeps_st _).bind fun _ ↦ (keeps_lt _ _).bind fun _ ↦ ?_
  exact (keeps_setCf (byteOf_le _)).bind fun _ ↦ keeps_modify fun _ ↦ ⟨rfl, rfl⟩

theorem keeps_fCompare {x : Op Float80} (hx : KeepsBits x) : KeepsBits (fCompare x) := by
  refine (keeps_st _).bind fun _ ↦ hx.bind fun _ ↦ (keeps_lt _ _).bind fun _ ↦ ?_
  refine (keeps_setC _ _).bind fun _ ↦ (keeps_setC _ _).bind fun _ ↦ ?_
  refine (keeps_setC _ _).bind fun _ ↦ (keeps_st _).bind fun _ ↦ ?_
  exact hx.bind fun _ ↦ keeps_setC _ _

theorem keeps_fxch : KeepsBits (fxch l) := by
  refine (keeps_st _).bind fun _ ↦ (keeps_st _).bind fun _ ↦ ?_
  exact (keeps_setSt _ _).bind fun _ ↦ keeps_setSt _ _

theorem keeps_execFpu (op : FpuOp) : KeepsBits (execFpu h l op) := by
  cases op with
  | arith op src dst => exact keeps_farith _ _ _
  | iarith op z => exact keeps_fiarith _ _
  | arithm op z => exact keeps_farithm _ _
  | chs => exact (keeps_st _).bind fun _ ↦ keeps_setSt _ _
  | abs => exact (keeps_st _).bind fun _ ↦ keeps_setSt _ _
  | prem =>
    refine (keeps_st _).bind fun _ ↦ (keeps_st _).bind fun _ ↦ ?_
    exact (keeps_f80 _).bind fun _ ↦ keeps_setSt _ _
  | ucomi => exact keeps_fucomi
  | com => exact keeps_fCompare (keeps_st _)
  | comm z => exact keeps_fCompare (keeps_getReal _)
  | ild z => exact (keeps_get _ _).bind fun _ ↦ (keeps_f80 _).bind fun _ ↦ keeps_fpush _
  | ld => exact (keeps_st _).bind fun _ ↦ keeps_fpush _
  | ldm z => exact (keeps_getReal _).bind fun _ ↦ keeps_fpush _
  | ldc what => exact keeps_fpush _
  | stm z =>
    exact (keeps_st _).bind fun _ ↦ keeps_roundingMode.bind fun _ ↦ keeps_set _ _
  | ist z =>
    exact (keeps_st _).bind fun _ ↦ keeps_roundingMode.bind fun _ ↦ keeps_set _ _
  | st => exact (keeps_st _).bind fun _ ↦ keeps_setSt _ _
  | xch => exact keeps_fxch
  | stsw => exact Exec.Keeps.get.bind fun _ ↦ keeps_set _ _
  | stcw => exact Exec.Keeps.get.bind fun _ ↦ keeps_set _ _
  | ldcw => exact (keeps_get _ _).bind fun _ ↦ keeps_modify fun _ ↦ ⟨rfl, rfl⟩
  | patan =>
    refine (keeps_st _).bind fun _ ↦ (keeps_st _).bind fun _ ↦ ?_
    refine keeps_roundingMode.bind fun _ ↦ (keeps_f80 _).bind fun _ ↦ ?_
    exact (keeps_setSt _ _).bind fun _ ↦ keeps_fpop

/-! All instructions. -/

/-- The widths of a shift are a byte's and the operand size. -/
def Insn.Sized (oz : ℕ) : Insn → Prop
  | .shift _ _ val z => val = .modrmVal ∧ (z = 8 ∨ z = oz)
  | _ => True

/-- All but `SHL` keep the bytes. -/
theorem keeps_exec (hoz : l.oz = 16 ∨ l.oz = 32) {insn : Insn} (hsized : insn.Sized l.oz)
    (hshl : ∀ count val z, insn ≠ .shift .shl count val z) : KeepsBits (exec h l insn) := by
  cases insn with
  | nop => exact .pure _
  | undefined => exact .stop _
  | mov src dst z => exact keeps_mov _ _ _
  | movzx src dst zs zd => exact keeps_movzx _ _ _ _
  | movsx src dst zs zd => exact keeps_movsx _ _ _ _
  | xchg src dst z => exact keeps_xchg _ _ _
  | push thing z => exact keeps_push _ _
  | pop thing z => exact keeps_pop _ _
  | leave => exact (keeps_mov _ _ _).bind fun _ ↦ keeps_pop _ _
  | int code => exact (keeps_get _ _).bind fun _ ↦ .stop _
  | test src dst z => exact keeps_test _ _ _
  | arith op src dst z => exact keeps_execArith _ _ _ _
  | inc val z => exact keeps_restoreCf (keeps_add _ _ _)
  | dec val z => exact keeps_restoreCf (keeps_sub _ _ _)
  | not val z => exact (keeps_get _ _).bind fun _ ↦ keeps_set _ _
  | neg val z => exact keeps_neg _ _
  | mul1 val z => exact keeps_mul1 _ _
  | imul1 val z => exact keeps_imul1 _ _
  | imul2 val reg z => exact keeps_imul2 _ _ _
  | imul3 factor src dst z => exact keeps_imul3 _ _ _ _
  | div val z => exact keeps_divide _ _ _ _
  | idiv val z => exact keeps_divide _ _ _ _
  | cvt => exact (keeps_get _ _).bind fun _ ↦ keeps_set _ _
  | cvte => exact (keeps_get _ _).bind fun _ ↦ keeps_set _ _
  | call loc => exact (keeps_push _ _).bind fun _ ↦ keeps_jmp _
  | callRel offset => exact (keeps_push _ _).bind fun _ ↦ keeps_jmpRel _
  | jmp loc => exact keeps_jmp _
  | jmpRel offset => exact keeps_jmpRel _
  | jRel cond negated offset =>
    exact (keeps_holds _ _).bind fun _ ↦ .ite (keeps_jmpRel _) (.pure _)
  | jcxzRel offset => exact (keeps_get _ _).bind fun _ ↦ .ite (keeps_jmpRel _) (.pure _)
  | retNear args => exact keeps_retNear _
  | shift op count val z =>
    have hz : z ≤ l.oz := by
      obtain ⟨-, hz⟩ := hsized
      omega
    cases op with
    | rol => exact keeps_rol _ _ hz
    | ror => exact keeps_ror _ _ hz
    | shl => exact absurd rfl (hshl count val z)
    | shr => exact keeps_shr _ _ _
    | sar => exact keeps_sar _ _ _
  | shrd count extra dst z => exact keeps_shrd _ _ _ _
  | shld count extra dst z => exact keeps_shld _ _ _ _
  | bt bit val z => exact keeps_bt _ _ _
  | btc bit val z => exact keeps_btSet (· ^^^ ·) _ _ _
  | bts bit val z => exact keeps_btSet (· ||| ·) _ _ _
  | btr bit val z => exact keeps_btSet (fun v m ↦ v &&& ~~~m) _ _ _
  | bsf src dst z => exact keeps_bitScan lowest _ _ _
  | bsr src dst z => exact keeps_bitScan highest _ _ _
  | str op z => exact keeps_str _ _
  | repStr kind op z => exact Exec.Keeps.get.bind fun _ ↦ keeps_repLoop _ _ _ _
  | cmpxchg src dst z => exact keeps_cmpxchg _ _ _
  | xadd src dst z => exact (keeps_xchg _ _ _).bind fun _ ↦ keeps_add _ _ _
  | bswap dst => exact (keeps_get _ _).bind fun _ ↦ keeps_set _ _
  | setCond cond negated val => exact (keeps_holds _ _).bind fun _ ↦ keeps_set _ _
  | cmov cond negated dst src z =>
    exact (keeps_holds _ _).bind fun _ ↦ .ite (keeps_mov _ _ _) (.pure _)
  | popf => exact (keeps_pop _ _).bind fun _ ↦ keeps_expandFlags
  | pushf => exact .bind (keeps_modify fun _ ↦ ⟨rfl, rfl⟩) fun _ ↦ keeps_push _ _
  | setDf b => exact keeps_modify fun _ ↦ ⟨rfl, rfl⟩
  | sahf => exact keeps_sahf
  | rdtsc => exact keeps_rdtsc _
  | cpuid => exact keeps_cpuid
  | xorp src dst => exact keeps_lanes _ _ _
  | padd src dst => exact keeps_lanes _ _ _
  | psub src dst => exact keeps_lanes _ _ _
  | psrlq count dst => exact keeps_psrlq _ _
  | pcmpeqd src dst => exact keeps_pcmpeqd _ _
  | movq src dst => exact keeps_movq _ _
  | movd src dst => exact (keeps_get _ _).bind fun _ ↦ keeps_set _ _
  | cvttsd2si dst => exact (keeps_get _ _).bind fun _ ↦ keeps_set _ _
  | fpu op pops => exact (keeps_execFpu _).bind fun _ ↦ keeps_fpop.times _

end

end Isl.Emu
