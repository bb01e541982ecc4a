import Isl.Emu.Written

/-!
The bit scans. `BSF` counts the zeros below the lowest bit, and `BSR` takes those above the
highest bit of an `int` from the width.
-/

namespace Isl.Emu

open Isl.Lib Interp

inductive ScanOp
  | bsf
  | bsr
deriving DecidableEq

namespace ScanOp

variable {z : ℕ}

def insn (src : Operand) (dst : Place) (z : ℕ) : ScanOp → Insn
  | .bsf => .bsf src dst z
  | .bsr => .bsr src dst z

/-- The lowest or the highest of the bits that are set. -/
def Index (s : BitVec z) (n : ℕ) : ScanOp → Prop
  | .bsf => s.getLsbD n = true ∧ ∀ j < n, s.getLsbD j = false
  | .bsr => s.getLsbD n = true ∧ ∀ j, n < j → s.getLsbD j = false

def Right (h : Host) (l : Locals) (src : Operand) (dst : Place) (slot : Slot) (m : Machine)
    (s : BitVec z) (op : ScanOp) : Prop :=
  ∃ m', exec h l (op.insn src dst z) m = .ok () m' ∧
    if s = 0 then m'.cpu.ZF = true ∧ m'.cpu.regs = m.cpu.regs ∧ m'.mem = m.mem
    else m'.cpu.ZF = false ∧ slot.Frame z m m' ∧
      ∃ n < z, get l dst z m' = .ok (BitVec.ofNat z n) m' ∧ op.Index s n

end ScanOp

section

variable {w z : ℕ}

theorem builtinCtz_spec {x : BitVec w} (hx : x ≠ 0) :
    builtinCtz x < w ∧ ScanOp.bsf.Index x (builtinCtz x) := by
  obtain ⟨i, hi⟩ : ∃ i, x.getLsbD i = true := by
    by_contra hnone
    exact hx (BitVec.eq_of_getLsbD_eq fun i _ ↦ by simpa using not_exists.mp hnone i)
  rw [builtinCtz]
  cases hfind : (List.range w).find? x.getLsbD with
  | none =>
    have hw := BitVec.lt_of_getLsbD hi
    exact absurd hi (List.find?_eq_none.mp hfind i (List.mem_range.mpr hw))
  | some n =>
    obtain ⟨hn, hmem, hbelow⟩ := List.find?_range_eq_some.mp hfind
    exact ⟨List.mem_range.mp hmem, hn, fun j hj ↦ by simpa using hbelow j hj⟩

theorem size_spec {x : BitVec w} (hx : x ≠ 0) :
    ∃ n < w, x.toNat.size = n + 1 ∧ ScanOp.bsr.Index x n := by
  have hpos : 0 < x.toNat.size := by
    rw [Nat.size_pos, Nat.pos_iff_ne_zero]
    exact fun h ↦ hx (BitVec.eq_of_toNat_eq h)
  obtain ⟨n, hn⟩ : ∃ n, x.toNat.size = n + 1 := ⟨x.toNat.size - 1, by omega⟩
  have hlow : 2 ^ n ≤ x.toNat := Nat.lt_size.mp (by omega)
  have hhigh : x.toNat < 2 ^ (n + 1) := Nat.size_le.mp hn.le
  have hw : x.toNat.size ≤ w := Nat.size_le.mpr x.isLt
  refine ⟨n, by omega, hn, ?_, fun j hj ↦ ?_⟩
  · have hdiv : x.toNat / 2 ^ n = 1 := by
      rw [Nat.div_eq_iff (Nat.two_pow_pos n)]
      rw [pow_succ] at hhigh
      omega
    rw [BitVec.getLsbD, Nat.testBit_eq_decide_div_mod_eq, hdiv]
    rfl
  · exact Nat.testBit_lt_two_pow (hhigh.trans_le (Nat.pow_le_pow_right (by decide) hj))

end

section

variable {h : Host} {l : Locals} {z : ℕ} {src dst : Place} {slot srcSlot : Slot} {m m' : Machine}
  {s : BitVec z}

/-- The macro up to the index. -/
def scanned (s : BitVec z) (cpu : CpuState) : CpuState :=
  { cpu.setFlag .zf (s == 0) with zfRes := false }

theorem scanned_zf (s : BitVec z) (cpu : CpuState) : (scanned s cpu).ZF = (s == 0) :=
  CpuState.flag_setFlag_self cpu .zf _

theorem scan_zero (index : {z : ℕ} → BitVec z → BitVec z) (hs : get l src z m = .ok 0 m) :
    bitScan l index src dst z m = .ok () (m.mapCpu (scanned (0 : BitVec z))) := by
  refine Exec.bind_eq hs (Exec.bind_eq rfl ((Exec.get_bind_apply _).trans ?_))
  have hzf : (!(m.mapCpu (scanned (0 : BitVec z))).cpu.flag .zf) = false := by
    rw [show (m.mapCpu (scanned (0 : BitVec z))).cpu.flag .zf = _ from scanned_zf 0 m.cpu]
    simp
  exact congrFun (if_neg fun h ↦ absurd (hzf.symm.trans h) (by decide)) _

theorem scan_stores (hz : z = 8 ∨ z = 16 ∨ z = 32) (index : {z : ℕ} → BitVec z → BitVec z)
    (hsrc : src.slot l z = some srcSlot) (hdst : dst.slot l z = some slot)
    (hs : get l src z m = .ok s m) (hne : s ≠ 0) :
    slot.Stores m (index s) (scanned s) (bitScan l index src dst z m) := by
  have hkeeps : KeepsRegs (scanned s) := ⟨fun _ ↦ rfl, fun _ _ _ ↦ rfl⟩
  have hscan : bitScan l index src dst z m = set l dst (index s) (m.mapCpu (scanned s)) := by
    refine Exec.bind_eq hs (Exec.bind_eq rfl ((Exec.get_bind_apply _).trans ?_))
    have hzf : (!(m.mapCpu (scanned s)).cpu.flag .zf) = true := by
      rw [show (m.mapCpu (scanned s)).cpu.flag .zf = _ from scanned_zf s m.cpu]
      simpa using hne
    have hget : get l src z (m.mapCpu (scanned s)) = .ok s (m.mapCpu (scanned s)) := by
      rw [get_mapCpu (scanned s) (by omega) hsrc fun _ ↦ rfl, value_of_get (by omega) hsrc hs]
    exact (congrFun (if_pos hzf) _).trans (Exec.bind_eq hget rfl)
  rw [hscan, set_slot hdst (by omega), store_mapCpu hkeeps, Slot.Stores]
  cases slot.store m (index s) with
  | none => exact ⟨_, rfl⟩
  | some m' => rfl

theorem bsf_index (hz : z ≤ 32) (hne : s ≠ 0) :
    ∃ n < z, lowest s = BitVec.ofNat z n ∧ ScanOp.bsf.Index s n := by
  have hbit (j : ℕ) : (s.setWidth 32).getLsbD j = s.getLsbD j := by
    rw [BitVec.getLsbD_setWidth]
    by_cases hj : j < 32
    · simp [hj]
    · simp [hj, BitVec.getLsbD_of_ge s j (by omega)]
  have hwide : s.setWidth 32 ≠ 0 := by
    intro hzero
    refine hne (BitVec.eq_of_getLsbD_eq fun j _ ↦ ?_)
    rw [← hbit, hzero]
    simp
  obtain ⟨-, hset, hbelow⟩ := builtinCtz_spec hwide
  refine ⟨_, BitVec.lt_of_getLsbD ((hbit _).symm.trans hset), rfl, (hbit _).symm.trans hset, ?_⟩
  exact fun j hj ↦ (hbit j).symm.trans (hbelow j hj)

/-- The result of `BSR` is never the index. -/
theorem bsr_index (hz : z = 16 ∨ z = 32) (hne : s ≠ 0) {n : ℕ} (hidx : ScanOp.bsr.Index s n) :
    highest s ≠ BitVec.ofNat z n := by
  obtain ⟨k, hk, hsize, hset, habove⟩ := size_spec hne
  have hkn : k = n := by
    rcases Nat.lt_trichotomy k n with hlt | heq | hgt
    · exact absurd (hidx.1.symm.trans (habove n hlt)) (by decide)
    · exact heq
    · exact absurd (hset.symm.trans (hidx.2 k hgt)) (by decide)
  have hclz : builtinClz (s.setWidth 32) = 32 - (n + 1) := by
    have hnat : (s.setWidth 32).toNat = s.toNat := by
      rw [BitVec.toNat_setWidth, Nat.mod_eq_of_lt (s.isLt.trans_le (Nat.pow_le_pow_right (by decide)
        (by omega)))]
    rw [builtinClz, hnat, hsize, hkn]
  intro heq
  have htoNat := congrArg BitVec.toNat heq
  rw [highest, hclz, BitVec.toNat_ofInt, BitVec.toNat_ofNat] at htoNat
  rcases hz with rfl | rfl <;> push_cast at htoNat <;> omega

/-- The scans, where the source can be read and the destination written. -/
theorem bit_scans_iff (h : Host) (l : Locals) (op : ScanOp) {z : ℕ} (hz : z = 16 ∨ z = 32)
    (src dst : Place) (srcSlot slot : Slot) (m : Machine) (s : BitVec z)
    (hsrc : src.slot l z = some srcSlot) (hdst : dst.slot l z = some slot)
    (hs : get l src z m = .ok s m) (hw : slot.Writable m z) :
    op.Right h l src dst slot m s ↔ op = .bsf ∨ s = 0 := by
  have hz' : z = 8 ∨ z = 16 ∨ z = 32 := .inr hz
  by_cases hzero : s = 0
  · subst hzero
    refine iff_of_true ⟨m.mapCpu (scanned (0 : BitVec z)), ?_, ?_⟩ (.inr rfl)
    · cases op with
      | bsf => exact scan_zero lowest hs
      | bsr => exact scan_zero highest hs
    · rw [if_pos rfl]
      exact ⟨(scanned_zf 0 m.cpu).trans (by simp), rfl, rfl⟩
  · rw [or_iff_left hzero]
    cases op with
    | bsf =>
      refine iff_of_true ?_ rfl
      have hstores := scan_stores hz' lowest hsrc hdst hs hzero
      obtain ⟨m', hexec, hget, hframe, regs, hcpu⟩ := hstores.ends hz' hdst hw fun _ ↦ rfl
      obtain ⟨n, hn, hlow, hidx⟩ := bsf_index (by omega) hzero
      refine ⟨m', hexec, ?_⟩
      rw [if_neg hzero, hcpu, scanned_zf]
      exact ⟨by simpa using hzero, hframe, n, hn, hlow ▸ hget, hidx⟩
    | bsr =>
      refine iff_of_false ?_ (by simp)
      have hstores := scan_stores hz' highest hsrc hdst hs hzero
      obtain ⟨m', hexec, hget, -⟩ := hstores.ends hz' hdst hw fun _ ↦ rfl
      rintro ⟨m₁, hexec', hright⟩
      rw [if_neg hzero] at hright
      obtain ⟨-, -, n, -, hget', hidx⟩ := hright
      rw [show exec h l (ScanOp.bsr.insn src dst z) m = bitScan l highest src dst z m from rfl,
        hexec] at hexec'
      cases hexec'
      rw [hget] at hget'
      exact bsr_index hz hzero hidx (by injection hget')

end

/-- `bsf` of 40. -/
theorem bit_scans_iff_forty : ScanOp.bsf.Right .zero .zero (Place.reg .ebx) (.reg .ecx)
    (.bits .ecx 0) (Machine.zero.mapCpu fun cpu ↦ cpu.setReg .ebx 40) 40#32 :=
  (bit_scans_iff .zero .zero .bsf (.inr rfl) (.reg .ebx) (.reg .ecx) (.bits .ebx 0) (.bits .ecx 0)
    _ _ rfl rfl rfl trivial).mpr (.inl rfl)

/-- The highest bit of 1 is bit 0, and `bsr` gives 1. -/
theorem not_scan_right : ¬ScanOp.bsr.Right .zero .zero (Place.reg .ebx) (.reg .ecx)
    (.bits .ecx 0) (Machine.zero.mapCpu fun cpu ↦ cpu.setReg .ebx 1) 1#32 := by
  rintro ⟨m', hexec, hright⟩
  rw [if_neg (by decide)] at hright
  obtain ⟨-, -, n, -, hget, hidx⟩ := hright
  cases hexec
  injection hget with hn
  exact bsr_index (.inr rfl) (by decide) hidx hn

end Isl.Emu
