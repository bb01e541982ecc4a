import Isl.Emu.Slot

/-!
Two ways to name an operand. A macro does the same with either, apart from `eip`,
when both names stand for the same bits.
-/

namespace Isl.Emu

open Isl.Lib Interp

/-- The machines differ in `eip` alone. -/
def Machine.Alike (m m' : Machine) : Prop := m.withEip 0 = m'.withEip 0

/-- The only early returns are faults of the memory. -/
def sameFault (i j : Stop) : Prop := i = j ∧ ∃ addr, i = .gpf addr

abbrev Agree {α : Type} (x y : Op α) : Prop := Exec.Agree sameFault Machine.Alike x y

inductive SamePlace (l l' : Locals) (z : ℕ) (p p' : Place) : Prop
  | slot (s : Slot) (hp : p.slot l z = some s) (hp' : p'.slot l' z = some s)

inductive SameOperand (l l' : Locals) (z : ℕ) : Operand → Operand → Prop
  | place {p p' : Place} (h : SamePlace l l' z p p') : SameOperand l l' z p p'
  | imm (h : l.imm = l'.imm) : SameOperand l l' z .imm .imm
  | const (n : ℕ) : SameOperand l l' z (.const n) (.const n)

section

variable {l l' : Locals} {z : ℕ} {m m' : Machine} {p p' : Place} {what what' src src' : Operand}

namespace Machine.Alike

theorem congr {α : Type} (h : m.Alike m') (f : Machine → α) : f (m.withEip 0) = f (m'.withEip 0) :=
  congrArg f h

theorem regs (h : m.Alike m') : m.cpu.regs = m'.cpu.regs := h.congr fun m ↦ m.cpu.regs

theorem cf (h : m.Alike m') : m.cpu.cf = m'.cpu.cf := h.congr fun m ↦ m.cpu.cf

theorem res (h : m.Alike m') : m.cpu.res = m'.cpu.res := h.congr fun m ↦ m.cpu.res

theorem mem (h : m.Alike m') : m.mem = m'.mem := h.congr Machine.mem

theorem mapCpu (h : m.Alike m') {f : CpuState → CpuState}
    (hf : ∀ cpu, f { cpu with eip := 0 } = { f cpu with eip := 0 }) :
    (m.mapCpu f).Alike (m'.mapCpu f) := by
  have hmap (m : Machine) : (m.withEip 0).mapCpu f = (m.mapCpu f).withEip 0 :=
    congrArg (fun cpu ↦ (⟨cpu, m.mem, m.rounding⟩ : Machine)) (hf m.cpu)
  exact (hmap m).symm.trans ((h.congr (Machine.mapCpu f)).trans (hmap m'))

theorem withMem (h : m.Alike m') (mem : GuestMem) :
    Machine.Alike { m with mem := mem } { m' with mem := mem } :=
  h.congr fun m ↦ (⟨m.cpu, mem, m.rounding⟩ : Machine)

end Machine.Alike

theorem agree_modify {f : CpuState → CpuState}
    (hf : ∀ cpu, f { cpu with eip := 0 } = { f cpu with eip := 0 }) :
    Agree (modifyCpu f) (modifyCpu f) := .modify fun _ _ h ↦ h.mapCpu hf

theorem agree_memRead (addr : Dword) (w : ℕ) : Agree (memRead addr w) (memRead addr w) := by
  intro m m' h
  rw [memRead_apply, memRead_apply, h.mem]
  split
  · exact ⟨rfl, h⟩
  · exact ⟨⟨rfl, addr, rfl⟩, h⟩

theorem agree_memWrite (addr : Dword) {w : ℕ} (v : BitVec w) :
    Agree (memWrite addr v) (memWrite addr v) := by
  intro m m' h
  simp only [memWrite, h.mem]
  split
  · exact ⟨rfl, h.withMem _⟩
  · exact ⟨⟨rfl, addr, rfl⟩, h⟩

theorem agree_get (h : SameOperand l l' z what what') (hz : z ≠ 128) :
    Agree (get l what z) (get l' what' z) := by
  intro m m' hm
  cases h with
  | place h =>
    obtain ⟨s, hp, hp'⟩ := h
    rw [get_slot hp hz, get_slot hp' hz, Slot.value_congr hm.regs hm.mem]
    split
    · exact ⟨rfl, hm⟩
    · exact ⟨⟨rfl, s.address, rfl⟩, hm⟩
  | imm himm =>
    simp only [get, himm]
    exact ⟨rfl, hm⟩
  | const n => exact ⟨rfl, hm⟩

theorem agree_set (h : SamePlace l l' z p p') (hz : z ≠ 128) (v : BitVec z) :
    Agree (set l p v) (set l' p' v) := by
  intro m m' hm
  obtain ⟨s, hp, hp'⟩ := h
  rw [set_slot hp hz, set_slot hp' hz]
  cases s with
  | bits r k => exact ⟨rfl, hm.mapCpu fun _ ↦ rfl⟩
  | memory addr =>
    simp only [Slot.store, hm.mem]
    cases m'.mem.tlbWrite addr v with
    | none => exact ⟨⟨rfl, addr, rfl⟩, hm⟩
    | some mem => exact ⟨rfl, hm.withMem mem⟩

/-! The macros. -/

theorem agree_mov (h : SameOperand l l' z src src') (hp : SamePlace l l' z p p') (hz : z ≠ 128) :
    Agree (mov l src p z) (mov l' src' p' z) :=
  (agree_get h hz).bind fun v ↦ agree_set hp hz v

theorem agree_setAf (hs : SameOperand l l' z src src') (hw : SameOperand l l' z what what')
    (hz : z ≠ 128) : Agree (setAf l src what z) (setAf l' src' what' z) := by
  refine (agree_get hs hz).bind fun _ ↦ .bind (agree_modify fun _ ↦ rfl) fun _ ↦ ?_
  refine (agree_get hw hz).bind fun _ ↦ .bind (agree_modify fun _ ↦ rfl) fun _ ↦ ?_
  exact agree_modify fun _ ↦ rfl

theorem agree_setCf (b : BitVec 8) : Agree (setCf b) (setCf b) := agree_modify fun _ ↦ rfl

theorem agree_setOf (b : BitVec 8) : Agree (setOf b) (setOf b) := agree_modify fun _ ↦ rfl

theorem agree_clearCfOfAf : Agree clearCfOfAf clearCfOfAf := by
  refine .bind (agree_modify fun _ ↦ rfl) fun _ ↦ ?_
  exact (agree_setOf _).bind fun _ ↦ agree_setCf _

theorem agree_setRes (v : BitVec z) : Agree (setRes v) (setRes v) :=
  .bind (agree_modify fun _ ↦ rfl) fun _ ↦ agree_modify fun _ ↦ rfl

theorem agree_setResFlags : Agree setResFlags setResFlags := agree_modify fun _ ↦ rfl

theorem agree_unsignedOverflow (op : Arith) (a b : BitVec z) :
    Agree (unsignedOverflow op a b) (unsignedOverflow op a b) :=
  .bind (agree_modify fun _ ↦ rfl) fun _ ↦ .pure _

theorem agree_signedOverflow (op : Arith) (a b : BitVec z) :
    Agree (signedOverflow op a b) (signedOverflow op a b) :=
  .bind (agree_modify fun _ ↦ rfl) fun _ ↦ .pure _

theorem agree_setFromRes (hp : SamePlace l l' z p p') (hz : z ≠ 128) :
    Agree (setFromRes l p z) (setFromRes l' p' z) := by
  refine .get_bind fun m m' hm ↦ ?_
  rw [hm.res]
  exact agree_set hp hz _ m m' hm

section

variable (hs : SameOperand l l' z src src') (hp : SamePlace l l' z p p') (hz : z ≠ 128)

include hs hp hz

theorem agree_add : Agree (add l src p z) (add l' src' p' z) := by
  refine (agree_setAf hs (.place hp) hz).bind fun _ ↦ ?_
  refine (agree_get (.place hp) hz).bind fun _ ↦ (agree_get hs hz).bind fun _ ↦ ?_
  refine (agree_unsignedOverflow _ _ _).bind fun _ ↦ (agree_setCf _).bind fun _ ↦ ?_
  refine (agree_get (.place hp) hz).bind fun _ ↦ (agree_get hs hz).bind fun _ ↦ ?_
  refine (agree_signedOverflow _ _ _).bind fun _ ↦ (agree_setOf _).bind fun _ ↦ ?_
  exact (agree_setFromRes hp hz).bind fun _ ↦ agree_setResFlags

theorem agree_sub : Agree (sub l src p z) (sub l' src' p' z) := by
  refine (agree_setAf hs (.place hp) hz).bind fun _ ↦ ?_
  refine (agree_get (.place hp) hz).bind fun _ ↦ (agree_get hs hz).bind fun _ ↦ ?_
  refine (agree_signedOverflow _ _ _).bind fun _ ↦ (agree_setOf _).bind fun _ ↦ ?_
  refine (agree_get (.place hp) hz).bind fun _ ↦ (agree_get hs hz).bind fun _ ↦ ?_
  refine (agree_unsignedOverflow _ _ _).bind fun _ ↦ (agree_setCf _).bind fun _ ↦ ?_
  exact (agree_setFromRes hp hz).bind fun _ ↦ agree_setResFlags

theorem agree_cmp : Agree (cmp l src p z) (cmp l' src' p' z) := by
  refine (agree_setAf hs (.place hp) hz).bind fun _ ↦ ?_
  refine (agree_get (.place hp) hz).bind fun _ ↦ (agree_get hs hz).bind fun _ ↦ ?_
  refine (agree_unsignedOverflow _ _ _).bind fun _ ↦ (agree_setCf _).bind fun _ ↦ ?_
  refine (agree_get (.place hp) hz).bind fun _ ↦ (agree_get hs hz).bind fun _ ↦ ?_
  refine (agree_signedOverflow _ _ _).bind fun _ ↦ (agree_setOf _).bind fun _ ↦ ?_
  exact agree_setResFlags

omit hp in
theorem agree_getPlusCf : Agree (getPlusCf l src z) (getPlusCf l' src' z) :=
  (agree_get hs hz).bind fun _ ↦ .get_bind fun _ _ hm ↦ ⟨by rw [hm.cf], hm⟩

omit hp in
theorem agree_orCfAndEq (ov : BitVec 8) (v : BitVec z) :
    Agree (orCfAndEq l ov src v) (orCfAndEq l' ov src' v) := by
  refine .get_bind fun m m' hm ↦ ?_
  rw [hm.cf]
  refine Exec.Agree.ite (.pure _) (.ite (.pure _) ?_) m m' hm
  exact (agree_get hs hz).bind fun _ ↦ .pure _

theorem agree_carry (op : Arith) : Agree (carry l op src p z) (carry l' op src' p' z) := by
  refine (agree_setAf hs (.place hp) hz).bind fun _ ↦ ?_
  refine (agree_get (.place hp) hz).bind fun _ ↦ (agree_getPlusCf hs hz).bind fun _ ↦ ?_
  refine (agree_signedOverflow _ _ _).bind fun _ ↦ (agree_orCfAndEq hs hz _ _).bind fun _ ↦ ?_
  refine (agree_setOf _).bind fun _ ↦ ?_
  refine (agree_get (.place hp) hz).bind fun _ ↦ (agree_getPlusCf hs hz).bind fun _ ↦ ?_
  refine (agree_unsignedOverflow _ _ _).bind fun _ ↦ (agree_orCfAndEq hs hz _ _).bind fun _ ↦ ?_
  refine (agree_setCf _).bind fun _ ↦ ?_
  exact (agree_setFromRes hp hz).bind fun _ ↦ agree_setResFlags

theorem agree_bitwise (f : {z : ℕ} → BitVec z → BitVec z → BitVec z) :
    Agree (bitwise l f src p z) (bitwise l' f src' p' z) := by
  refine (agree_get (.place hp) hz).bind fun _ ↦ (agree_get hs hz).bind fun _ ↦ ?_
  refine (agree_set hp hz _).bind fun _ ↦ ?_
  refine agree_clearCfOfAf.bind fun _ ↦ ?_
  exact (agree_get (.place hp) hz).bind fun _ ↦ agree_setRes _

theorem agree_execArith (op : ArithOp) :
    Agree (execArith l src p z op) (execArith l' src' p' z op) := by
  cases op with
  | add => exact agree_add hs hp hz
  | or => exact agree_bitwise hs hp hz (· ||| ·)
  | adc => exact agree_carry hs hp hz .add
  | sbb => exact agree_carry hs hp hz .sub
  | and => exact agree_bitwise hs hp hz (· &&& ·)
  | sub => exact agree_sub hs hp hz
  | xor => exact agree_bitwise hs hp hz (· ^^^ ·)
  | cmp => exact agree_cmp hs hp hz

end

/-- The carry flag is put back. -/
theorem agree_restoreCf {x y : Op Unit} (h : Agree x y) :
    Agree (Exec.get >>= fun m ↦ x >>= fun _ ↦ setCf m.cpu.cf)
      (Exec.get >>= fun m ↦ y >>= fun _ ↦ setCf m.cpu.cf) := by
  refine .get_bind fun m m' hm ↦ ?_
  rw [hm.cf]
  exact h.bind (fun _ ↦ agree_setCf _) m m' hm

theorem agree_inc (hp : SamePlace l l' z p p') (hz : z ≠ 128) :
    Agree (inc l p z) (inc l' p' z) := agree_restoreCf (agree_add (.const 1) hp hz)

theorem agree_dec (hp : SamePlace l l' z p p') (hz : z ≠ 128) :
    Agree (dec l p z) (dec l' p' z) := agree_restoreCf (agree_sub (.const 1) hp hz)

theorem agree_push (hs : SameOperand l l' z src src') (hz : z ≠ 128) (hoz : l.oz = l'.oz) :
    Agree (push l src z) (push l' src' z) := by
  refine (agree_get hs hz).bind fun v ↦ .get_bind fun m m' hm ↦ ?_
  rw [hm.regs, hoz]
  refine Exec.Agree.bind (agree_memWrite _ v) (fun _ ↦ ?_) m m' hm
  exact agree_modify fun _ ↦ rfl

theorem agree_pop (hp : SamePlace l l' z p p') (hz : z ≠ 128) (hoz : l.oz = l'.oz) :
    Agree (pop l p z) (pop l' p' z) := by
  refine .get_bind fun m m' hm ↦ ?_
  rw [hm.regs, hoz]
  refine Exec.Agree.bind (agree_memRead _ z) (fun v ↦ ?_) m m' hm
  exact (agree_set hp hz v).bind fun _ ↦ agree_modify fun _ ↦ rfl

theorem agree_xchg {q q' : Place} (hp : SamePlace l l' z p p') (hq : SamePlace l l' z q q')
    (hz : z ≠ 128) : Agree (xchg l p q z) (xchg l' p' q' z) := by
  refine (agree_get (.place hp) hz).bind fun v ↦ (agree_get (.place hq) hz).bind fun w ↦ ?_
  exact (agree_set hp hz w).bind fun _ ↦ agree_set hq hz v

end

end Isl.Emu
