import Isl.Emu.Written
import Isl.Lib.Ripple

/-!
`ADC` and `SBB`. Their macros add the carry to the source before they test for an
overflow, and then look for the sources that the carry wraps.
-/

namespace Isl.Emu

open Isl.Lib Interp

namespace Effect

variable {z : ℕ}

/-- The operands and the carry, added. -/
def carrySum (d s : BitVec z) (c : Bool) : Effect z where
  result := d + s + BitVec.ofNat z c.toNat
  cf := byteOf (decide (2 ^ z ≤ d.toNat + s.toNat + c.toNat))
  of := decide (d.toInt + s.toInt + c.toNat < -2 ^ (z - 1) ∨
    2 ^ (z - 1) ≤ d.toInt + s.toInt + c.toNat)
  af := some (decide (16 ≤ d.toNat % 16 + s.toNat % 16 + c.toNat))

/-- The same for borrows. -/
def borrowDifference (d s : BitVec z) (c : Bool) : Effect z where
  result := d - s - BitVec.ofNat z c.toNat
  cf := byteOf (decide (d.toNat < s.toNat + c.toNat))
  of := decide (d.toInt - s.toInt - c.toNat < -2 ^ (z - 1) ∨
    2 ^ (z - 1) ≤ d.toInt - s.toInt - c.toNat)
  af := some (decide (d.toNat % 16 < s.toNat % 16 + c.toNat))

end Effect

inductive CarryOp
  | adc
  | sbb
deriving DecidableEq

namespace CarryOp

variable {z : ℕ}

def insn (src : Operand) (dst : Place) (z : ℕ) : CarryOp → Insn
  | .adc => .arith .adc src dst z
  | .sbb => .arith .sbb src dst z

def effect (d s : BitVec z) (c : Bool) : CarryOp → Effect z
  | .adc => .carrySum d s c
  | .sbb => .borrowDifference d s c

def arith : CarryOp → Arith
  | .adc => .add
  | .sbb => .sub

/-- What the special case of the signed overflow reports although the result fits. -/
def Misreports (d s : BitVec z) (c : Bool) : CarryOp → Prop
  | .adc => c = true ∧ s.toInt = 2 ^ (z - 1) - 1 ∧ d.toInt < 0
  | .sbb => c = true ∧ s.toInt = 2 ^ (z - 1) - 1 ∧ 0 ≤ d.toInt

/-- The overflow flags as the macros compute them. -/
def unsigned (d s : BitVec z) (c : Bool) (op : CarryOp) : Bool :=
  op.arith.uoverflow d (s + BitVec.ofNat z c.toNat) || (c && s == BitVec.allOnes z)

def signed (d s : BitVec z) (c : Bool) (op : CarryOp) : Bool :=
  op.arith.soverflow d (s + BitVec.ofNat z c.toNat) || (c && s == BitVec.allOnes z / 2)

end CarryOp

/-! Numbers. -/

section

variable {z : ℕ}

theorem ofNat_toNat_bool (c : Bool) : BitVec.ofNat z c.toNat = (BitVec.ofBool c).setWidth z := by
  apply BitVec.eq_of_toNat_eq
  cases c <;> simp

theorem byteOf_setWidth (c : Bool) :
    (byteOf c).setWidth z = BitVec.ofNat z c.toNat := by
  apply BitVec.eq_of_toNat_eq
  rw [BitVec.toNat_setWidth, BitVec.toNat_ofNat]
  cases c <;> rfl

theorem toInt_cases (hz : z = 8 ∨ z = 16 ∨ z = 32) (v : BitVec z) :
    (v.toInt = v.toNat ∧ (v.toNat : ℤ) < 2 ^ (z - 1)) ∨
      (v.toInt = v.toNat - 2 ^ z ∧ (2 : ℤ) ^ (z - 1) ≤ v.toNat) := by
  have hlt := v.isLt
  rw [BitVec.toInt_eq_toNat_cond]
  rcases hz with rfl | rfl | rfl <;> split <;> omega

theorem carryWord_toNat (hz : z = 8 ∨ z = 16 ∨ z = 32) (s : BitVec z) (c : Bool) :
    (s + BitVec.ofNat z c.toNat).toNat = (s.toNat + c.toNat) % 2 ^ z := by
  rw [BitVec.toNat_add, BitVec.toNat_ofNat]
  rcases hz with rfl | rfl | rfl <;> cases c <;> simp

/-- The carry out is right, the sources that wrap included. -/
theorem unsigned_eq (hz : z = 8 ∨ z = 16 ∨ z = 32) (op : CarryOp) (d s : BitVec z) (c : Bool) :
    byteOf (op.unsigned d s c) = (op.effect d s c).cf := by
  have hd := d.isLt
  have hs := s.isLt
  have hc := c.toNat_le
  have hw := carryWord_toNat hz s c
  have hall : (s == BitVec.allOnes z) = decide (s.toNat + 1 = 2 ^ z) := by
    rw [Bool.eq_iff_iff, beq_iff_eq, decide_eq_true_iff, ← BitVec.toNat_inj, BitVec.toNat_allOnes]
    omega
  cases op with
  | adc =>
    simp only [CarryOp.unsigned, CarryOp.effect, CarryOp.arith, Arith.uoverflow, Effect.carrySum,
      BitVec.uaddOverflow, hw, hall]
    congr 1
    rw [Bool.eq_iff_iff]
    simp only [Bool.or_eq_true, Bool.and_eq_true, decide_eq_true_iff]
    rcases hz with rfl | rfl | rfl <;> cases c <;> simp <;> omega
  | sbb =>
    simp only [CarryOp.unsigned, CarryOp.effect, CarryOp.arith, Arith.uoverflow,
      Effect.borrowDifference, BitVec.usubOverflow, hw, hall]
    congr 1
    rw [Bool.eq_iff_iff]
    simp only [Bool.or_eq_true, Bool.and_eq_true, decide_eq_true_iff]
    rcases hz with rfl | rfl | rfl <;> cases c <;> simp <;> omega

theorem half_iff (hz : z = 8 ∨ z = 16 ∨ z = 32) (s : BitVec z) :
    s = BitVec.allOnes z / 2 ↔ s.toInt = 2 ^ (z - 1) - 1 := by
  have hs := s.isLt
  have hcases := toInt_cases hz s
  have htwo : (2 : BitVec z).toNat = 2 := by rcases hz with rfl | rfl | rfl <;> rfl
  rw [← BitVec.toNat_inj, BitVec.toNat_udiv, BitVec.toNat_allOnes, htwo]
  rcases hz with rfl | rfl | rfl <;> omega

/-- The signed overflow is right unless the special case misreports it. -/
theorem signed_iff (hz : z = 8 ∨ z = 16 ∨ z = 32) (op : CarryOp) (d s : BitVec z) (c : Bool) :
    op.signed d s c = (op.effect d s c).of ↔ ¬op.Misreports d s c := by
  have hs := s.isLt
  have hd := d.isLt
  have hcd := toInt_cases hz d
  have hcs := toInt_cases hz s
  have hct := toInt_cases hz (s + BitVec.ofNat z c.toNat)
  rw [carryWord_toNat hz] at hct
  have hhalf : (s == BitVec.allOnes z / 2) = decide (s.toInt = 2 ^ (z - 1) - 1) := by
    rw [Bool.eq_iff_iff, beq_iff_eq, decide_eq_true_iff, half_iff hz]
  cases op with
  | adc =>
    simp only [CarryOp.signed, CarryOp.effect, CarryOp.arith, Arith.soverflow, Effect.carrySum,
      BitVec.saddOverflow, hhalf, CarryOp.Misreports]
    rw [Bool.eq_iff_iff]
    simp only [Bool.or_eq_true, Bool.and_eq_true, decide_eq_true_iff]
    rcases hz with rfl | rfl | rfl <;> cases c <;> simp at * <;> omega
  | sbb =>
    simp only [CarryOp.signed, CarryOp.effect, CarryOp.arith, Arith.soverflow,
      Effect.borrowDifference, BitVec.ssubOverflow, hhalf, CarryOp.Misreports]
    rw [Bool.eq_iff_iff]
    simp only [Bool.or_eq_true, Bool.and_eq_true, decide_eq_true_iff]
    rcases hz with rfl | rfl | rfl <;> cases c <;> simp at * <;> omega

theorem result_eq (op : CarryOp) (d s : BitVec z) (c : Bool) :
    op.arith.eval d (s + BitVec.ofNat z c.toNat) = (op.effect d s c).result := by
  cases op with
  | adc => exact (BitVec.add_assoc d s _).symm
  | sbb => exact sub_add_eq_sub_sub d s _

/-- The carry into the fourth bit is what makes it differ from the operands'. -/
theorem carry_into_four (hz : 8 ≤ z) (x y : BitVec z) (c : Bool) :
    (y.getLsbD 4 ^^ x.getLsbD 4 ^^ (x + y + BitVec.ofNat z c.toNat).getLsbD 4) =
      decide (16 ≤ x.toNat % 16 + y.toNat % 16 + c.toNat) := by
  rw [ofNat_toNat_bool, BitVec.getLsbD_add_add_bool (by omega)]
  have hcarry : BitVec.carry 4 x y c = decide (16 ≤ x.toNat % 16 + y.toNat % 16 + c.toNat) := rfl
  rw [hcarry]
  cases x.getLsbD 4 <;> cases y.getLsbD 4 <;> simp

theorem aux_eq (hz : z = 8 ∨ z = 16 ∨ z = 32) (op : CarryOp) (d s : BitVec z) (c b : Bool)
    (hb : b ∈ (op.effect d s c).af) :
    ((s.setWidth 32 ^^^ d.setWidth 32) ^^^ (op.effect d s c).result.signExtend 32).getLsbD 4 =
      b := by
  have hfour : (4 < 32) = True := by simp
  rw [BitVec.getLsbD_xor, BitVec.getLsbD_xor, BitVec.getLsbD_setWidth, BitVec.getLsbD_setWidth,
    BitVec.getLsbD_signExtend, if_pos (by omega)]
  simp only [hfour, decide_true, Bool.true_and]
  cases op with
  | adc =>
    cases hb
    rw [CarryOp.effect, Effect.carrySum, ← carry_into_four (by omega) d s c]
  | sbb =>
    cases hb
    have hd : d - s - BitVec.ofNat z c.toNat + s + BitVec.ofNat z c.toNat = d := by
      rw [add_right_comm, BitVec.sub_add_cancel, BitVec.sub_add_cancel]
    have hinto := carry_into_four (by omega) (d - s - BitVec.ofNat z c.toNat) s c
    rw [hd] at hinto
    have hflip (p q r : Bool) : (p ^^ q ^^ r) = (p ^^ r ^^ q) := by
      cases p <;> cases q <;> cases r <;> rfl
    rw [CarryOp.effect, Effect.borrowDifference, hflip, hinto]
    have hs := s.isLt
    have hdl := d.isLt
    have hnat := congrArg BitVec.toNat hd
    rw [BitVec.toNat_add, BitVec.toNat_add, BitVec.toNat_ofNat] at hnat
    congr 1
    rw [eq_iff_iff]
    rcases hz with rfl | rfl | rfl <;> cases c <;> simp at hnat ⊢ <;> omega

end

/-! The macros. -/

section

variable {h : Host} {l : Locals} {z : ℕ} {src : Operand} {dst : Place} {slot : Slot}
  {m m' : Machine} {d s : BitVec z} {c : Bool}

theorem getPlusCf_ok (hs : get l src z m = .ok s m) (hc : m.cpu.cf = byteOf c) (hm : m.Same m')
    (hcf : m'.cpu.cf = m.cpu.cf) :
    getPlusCf l src z m' = .ok (s + BitVec.ofNat z c.toNat) m' := by
  refine Exec.bind_eq (get_same hs hm) ?_
  rw [Exec.get_bind_apply, hcf, hc, byteOf_setWidth]
  rfl

theorem orCfAndEq_ok {ov : Bool} {v : BitVec z} (hs : get l src z m = .ok s m)
    (hc : m.cpu.cf = byteOf c) (hm : m.Same m') (hcf : m'.cpu.cf = m.cpu.cf) :
    orCfAndEq l (byteOf ov) src v m' = .ok (byteOf (ov || (c && s == v))) m' := by
  rw [orCfAndEq, Exec.get_bind_apply, hcf, hc]
  cases ov with
  | true => rfl
  | false =>
    cases c with
    | false => rfl
    | true => exact Exec.bind_eq (get_same hs hm) rfl

/-- The instruction stores the sum of three, with the flags as the macros compute them. -/
theorem carry_stores (hz : z ≤ 32) (op : CarryOp) (hdst : dst.slot l z = some slot)
    (hc : m.cpu.cf = byteOf c) (hd : get l dst z m = .ok d m) (hs : get l src z m = .ok s m) :
    slot.Stores m (op.effect d s c).result (fun cpu ↦ (cpu.withAlu (s.setWidth 32)
      (d.setWidth 32) ((op.effect d s c).result.signExtend 32) (op.unsigned d s c)
      (op.signed d s c)).withRes) (exec h l (op.insn src dst z) m) := by
  have hexec : exec h l (op.insn src dst z) m = carry l op.arith src dst z m := by
    cases op <;> rfl
  have hrun : carry l op.arith src dst z m = (setFromRes l dst z >>= fun _ ↦ setResFlags)
      (m.mapCpu fun cpu ↦ cpu.withAlu (s.setWidth 32) (d.setWidth 32)
        ((op.effect d s c).result.signExtend 32) (op.unsigned d s c) (op.signed d s c)) := by
    have hm := Machine.Same.refl m
    refine Exec.bind_eq (setAf_ok hs hd) ?_
    refine Exec.bind_eq (get_same hd hm.setAf) ?_
    refine Exec.bind_eq (getPlusCf_ok hs hc hm.setAf rfl) ?_
    refine Exec.bind_eq (signedOverflow_apply _ _ _ _) ?_
    refine Exec.bind_eq (orCfAndEq_ok hs hc hm.setAf.setRaw rfl) ?_
    refine Exec.bind_eq (setOf_apply _ _) ?_
    refine Exec.bind_eq (get_same hd hm.setAf.setRaw.setOf) ?_
    -- the carry flag is still the one from before
    refine Exec.bind_eq (getPlusCf_ok hs hc hm.setAf.setRaw.setOf rfl) ?_
    refine Exec.bind_eq (unsignedOverflow_apply _ _ _ _) ?_
    refine Exec.bind_eq (orCfAndEq_ok hs hc hm.setAf.setRaw.setOf.setRaw rfl) ?_
    refine Exec.bind_eq (setCf_apply _ _) ?_
    simp only [Machine.mapCpu, CpuState.withAlu, result_eq]
    rfl
  rw [hexec, hrun]
  exact setFromRes_stores hz hdst _ _ _ _ _

/-- The flags are the architecture's, the signed overflow where it is not misreported. -/
theorem carry_shows (hz : z = 8 ∨ z = 16 ∨ z = 32) (op : CarryOp) (cpu : CpuState) :
    (op.effect d s c).Shows (cpu.withAlu (s.setWidth 32) (d.setWidth 32)
        ((op.effect d s c).result.signExtend 32) (op.unsigned d s c) (op.signed d s c)).withRes ↔
      ¬op.Misreports d s c := by
  rw [← signed_iff hz]
  constructor
  · intro hshows
    have hof : byteOf (op.signed d s c) = byteOf (op.effect d s c).of := hshows.of
    revert hof
    cases op.signed d s c <;> cases (op.effect d s c).of <;> decide
  · intro hof
    refine shows_of_res (by omega) (by omega) rfl ⟨rfl, rfl, rfl⟩ (unsigned_eq hz op d s c) ?_ ?_
    · exact congrArg byteOf hof
    · exact fun b hb ↦ aux_eq hz op d s c b hb

end

/-! The instructions. -/

/-- The instruction ends with its result in its place and its flags, and has changed
nothing else in the registers and the memory. -/
def CarryOp.Right (op : CarryOp) (h : Host) (l : Locals) (src : Operand) (dst : Place)
    (slot : Slot) (m : Machine) {z : ℕ} (d s : BitVec z) (c : Bool) : Prop :=
  ∃ m', exec h l (op.insn src dst z) m = .ok () m' ∧
    get l dst z m' = .ok (op.effect d s c).result m' ∧ (op.effect d s c).Shows m'.cpu ∧
    slot.Frame z m m'

/-- Instructions on the words of two numbers from the lowest up, with the word that each
leaves. What is done between two of them keeps the carry flag. -/
inductive CarryOp.Chain (h : Host) (z : ℕ) (op : CarryOp) :
    Machine → List (BitVec z × BitVec z × BitVec z) → Machine → Prop
  | nil (m : Machine) : Chain h z op m [] m
  | cons {l : Locals} {src : Operand} {dst : Place} {slot : Slot} {m m₁ m₂ m' : Machine}
      {d s r : BitVec z} {ws : List (BitVec z × BitVec z × BitVec z)} :
      dst.slot l z = some slot → get l dst z m = .ok d m → get l src z m = .ok s m →
      exec h l (op.insn src dst z) m = .ok () m₁ → get l dst z m₁ = .ok r m₁ →
      m₂.cpu.cf = m₁.cpu.cf → Chain h z op m₂ ws m' → Chain h z op m ((d, s, r) :: ws) m'

/-- The number that some words are. -/
def wordsNat {z : ℕ} (ws : List (BitVec z)) : ℕ := Nat.ofDigits (2 ^ z) (ws.map BitVec.toNat)

/-- The sum of the two numbers and the carry that goes in, or their difference, together
with the carry that comes out. -/
def CarryOp.Exact {z : ℕ} (ws : List (BitVec z × BitVec z × BitVec z)) (c c' : Bool) :
    CarryOp → Prop
  | .adc => wordsNat (ws.map fun w ↦ w.2.2) + (2 ^ z) ^ ws.length * c'.toNat =
      wordsNat (ws.map fun w ↦ w.1) + wordsNat (ws.map fun w ↦ w.2.1) + c.toNat
  | .sbb => wordsNat (ws.map fun w ↦ w.1) + (2 ^ z) ^ ws.length * c'.toNat =
      wordsNat (ws.map fun w ↦ w.2.2) + wordsNat (ws.map fun w ↦ w.2.1) + c.toNat

section

variable {h : Host} {l : Locals} {z : ℕ} {src : Operand} {dst : Place} {slot : Slot}
  {m m' : Machine} {d s : BitVec z} {c : Bool}

/-- Where the operands are accessible, all but the signed overflow is right. -/
theorem carry_ends (hz : z = 8 ∨ z = 16 ∨ z = 32) (op : CarryOp) (hdst : dst.slot l z = some slot)
    (hc : m.cpu.cf = byteOf c) (hd : get l dst z m = .ok d m) (hs : get l src z m = .ok s m)
    (hw : slot.Writable m z) :
    ∃ m', exec h l (op.insn src dst z) m = .ok () m' ∧
      get l dst z m' = .ok (op.effect d s c).result m' ∧ slot.Frame z m m' ∧
      m'.cpu.cf = (op.effect d s c).cf ∧
      ((op.effect d s c).Shows m'.cpu ↔ ¬op.Misreports d s c) := by
  have hstores := carry_stores (h := h) (by omega) op hdst hc hd hs
  obtain ⟨m', hexec, hget, hframe, regs, hcpu⟩ := hstores.ends hz hdst hw fun _ ↦ rfl
  refine ⟨m', hexec, hget, hframe, ?_, ?_⟩
  · rw [hcpu]
    exact unsigned_eq hz op d s c
  · rw [hcpu]
    exact carry_shows hz op _

/-- The places of an addition: of a difference, the word left and the source are added. -/
def CarryOp.places (w : BitVec z × BitVec z × BitVec z) : CarryOp → ℕ × ℕ × ℕ
  | .adc => (w.1.toNat, w.2.1.toNat, w.2.2.toNat)
  | .sbb => (w.2.2.toNat, w.2.1.toNat, w.1.toNat)

theorem place_exact (hz : z = 8 ∨ z = 16 ∨ z = 32) (op : CarryOp) (d s : BitVec z) (c : Bool) :
    ∃ c' : Bool, (op.effect d s c).cf = byteOf c' ∧
      (op.places (d, s, (op.effect d s c).result)).2.2 + 2 ^ z * c'.toNat =
        (op.places (d, s, (op.effect d s c).result)).1 +
          (op.places (d, s, (op.effect d s c).result)).2.1 + c.toNat := by
  have hd := d.isLt
  have hs := s.isLt
  have htoNat (p : Prop) [Decidable p] : (decide p).toNat = if p then 1 else 0 := by
    by_cases hp : p <;> simp [hp]
  cases op with
  | adc =>
    refine ⟨_, rfl, ?_⟩
    simp only [CarryOp.places, CarryOp.effect, Effect.carrySum, BitVec.toNat_add,
      BitVec.toNat_ofNat, htoNat]
    rcases hz with rfl | rfl | rfl <;> cases c <;> split <;> simp at * <;> omega
  | sbb =>
    refine ⟨_, rfl, ?_⟩
    simp only [CarryOp.places, CarryOp.effect, Effect.borrowDifference, BitVec.toNat_sub,
      BitVec.toNat_ofNat, htoNat]
    rcases hz with rfl | rfl | rfl <;> cases c <;> split <;> simp at * <;> omega

/-- From the lowest words up, the carries make the whole addition. -/
theorem CarryOp.Chain.adds (hz : z = 8 ∨ z = 16 ∨ z = 32) {op : CarryOp}
    {ws : List (BitVec z × BitVec z × BitVec z)} (hchain : op.Chain h z m ws m')
    (hc : m.cpu.cf = byteOf c) : ∃ c', m'.cpu.cf = byteOf c' ∧
      Ripple.Adds (2 ^ z) c.toNat (ws.map op.places) c'.toNat := by
  induction hchain generalizing c with
  | nil m => exact ⟨c, hc, .nil _⟩
  | cons hdst hd hs hexec hr hcf _ ih =>
    have hw := (hexec ▸ carry_stores (h := h) (by omega) op hdst hc hd hs).writable
    obtain ⟨m₁, hexec', hget, -, hcf', -⟩ := carry_ends (h := h) hz op hdst hc hd hs hw
    rw [hexec] at hexec'
    cases hexec'
    rw [hr] at hget
    cases hget
    obtain ⟨c₁, hc₁, hplace⟩ := place_exact hz op _ _ c
    obtain ⟨c', hc', hadds⟩ := ih ((hcf.trans hcf').trans hc₁)
    exact ⟨c', hc', .cons hplace hadds⟩

end

/-- The instruction is right but for the special case of the signed overflow, and numbers
of any length come out exact. -/
theorem adc_sbb_iff (h : Host) (op : CarryOp) {z : ℕ} (hz : z = 8 ∨ z = 16 ∨ z = 32) :
    (∀ (l : Locals) (src : Operand) (dst : Place) (slot : Slot) (m : Machine) (d s : BitVec z)
      (c : Bool), dst.slot l z = some slot → m.cpu.cf = byteOf c → get l dst z m = .ok d m →
      get l src z m = .ok s m → slot.Writable m z →
      (op.Right h l src dst slot m d s c ↔ ¬op.Misreports d s c)) ∧
    ∀ (m m' : Machine) (ws : List (BitVec z × BitVec z × BitVec z)) (c : Bool),
      op.Chain h z m ws m' → m.cpu.cf = byteOf c →
      ∃ c', m'.cpu.cf = byteOf c' ∧ op.Exact ws c c' := by
  constructor
  · intro l src dst slot m d s c hdst hc hd hs hw
    obtain ⟨m', hexec, hget, hframe, -, hshows⟩ := carry_ends (h := h) hz op hdst hc hd hs hw
    rw [← hshows]
    constructor
    · rintro ⟨m₁, hexec', -, hshows', -⟩
      rw [hexec] at hexec'
      cases hexec'
      exact hshows'
    · exact fun hshows' ↦ ⟨m', hexec, hget, hshows', hframe⟩
  · intro m m' ws c hchain hc
    obtain ⟨c', hc', hadds⟩ := hchain.adds hz hc
    refine ⟨c', hc', ?_⟩
    have hexact := hadds.exact
    cases op <;>
      simpa [CarryOp.Exact, CarryOp.places, wordsNat, Function.comp_def] using hexact

/-- The words of `0xffffffff` and 5 take a carry in, on which the special case has no say. -/
theorem adc_sbb_iff_two :
    CarryOp.adc.Right .zero .zero (.const 0) (.reg .ecx) (.bits .ecx 0)
      (Machine.zero.mapCpu fun cpu ↦ { cpu.setReg .ecx 0xffffffff with cf := 1 })
      (0xffffffff#32) 0 true ∧
    ∃ m' c', CarryOp.adc.Chain .zero 32
      (Machine.zero.mapCpu fun cpu ↦ { (cpu.setReg .ecx 0xffffffff).setReg .edx 5 with cf := 1 })
      [(0xffffffff#32, 0, 0), (5, 0, 6)] m' ∧ m'.cpu.cf = byteOf c' ∧
      CarryOp.adc.Exact [(0xffffffff#32, 0#32, 0#32), (5, 0, 6)] true c' := by
  have hz : 32 = 8 ∨ 32 = 16 ∨ 32 = 32 := .inr (.inr rfl)
  obtain ⟨hright, hchain⟩ := adc_sbb_iff .zero .adc hz
  constructor
  · have hfits := hright .zero (.const 0) (.reg .ecx) (.bits .ecx 0)
      (Machine.zero.mapCpu fun cpu ↦ { cpu.setReg .ecx 0xffffffff with cf := 1 })
      (0xffffffff#32) 0 true rfl rfl rfl rfl trivial
    refine hfits.mpr fun hmis ↦ ?_
    exact absurd hmis.2.1 (by decide)
  · obtain ⟨m', hrun⟩ : ∃ m', CarryOp.adc.Chain .zero 32
        (Machine.zero.mapCpu fun cpu ↦ { (cpu.setReg .ecx 0xffffffff).setReg .edx 5 with cf := 1 })
        [(0xffffffff#32, 0, 0), (5, 0, 6)] m' :=
      ⟨_, @CarryOp.Chain.cons _ _ _ .zero (.const 0) (.reg .ecx) _ _ _ _ _ _ _ _ _ rfl rfl rfl rfl rfl rfl
        (@CarryOp.Chain.cons _ _ _ .zero (.const 0) (.reg .edx) _ _ _ _ _ _ _ _ _ rfl rfl rfl rfl rfl rfl
          (.nil _))⟩
    obtain ⟨c', hc', hexact⟩ := hchain _ _ _ true hrun rfl
    exact ⟨m', c', hrun, hc', hexact⟩

/-- `adc` of 127 and the carry to -128 gives 0, and reports a signed overflow. -/
theorem not_adc_right : ¬CarryOp.adc.Right .zero .zero (.const 0x7f) (.reg .ecx)
    (.bits .ecx 0) (Machine.zero.mapCpu fun cpu ↦ { cpu.setReg .ecx 0x80 with cf := 1 })
    (0x80#8) 0x7f true := by
  rintro ⟨m', hexec, -, hshows, -⟩
  cases hexec
  exact absurd hshows.of (by decide)

end Isl.Emu
