import Isl.Emu.ModrmTables
import Isl.Emu.Written

/-!
The packed instructions, on operands of 128 bits: an `xmm` register or 16 bytes in the
memory. `CMPEQ` puts the source where it should put zero, `SRL` shifts by any count, and
`MOVQ` takes all of an operand of which it needs the lower half.
-/

namespace Isl.Emu

open Isl.Lib Interp

/-- Where an operand of 128 bits lies. -/
inductive Wide
  | xmm (i : Fin 8)
  | memory (addr : Dword)
deriving DecidableEq

def Place.wide (l : Locals) : Place → Option Wide
  | .modrmReg => some (.xmm l.modrmRegptr.reg128)
  | .modrmVal =>
    some (if l.modrm.type = .modrmReg then .xmm l.modrmBase.reg128 else .memory l.addr)
  | .memAddr => some (.memory l.addr)
  | _ => none

namespace Wide

/-- The value of `w` bits, from the lowest on. -/
def value (m : Machine) (w : ℕ) : Wide → Option (BitVec w)
  | .xmm i => some ((m.cpu.xmm i).setWidth w)
  | .memory addr => m.mem.tlbRead addr w

def Writable (m : Machine) (w : ℕ) : Wide → Prop
  | .xmm _ => True
  | .memory addr => m.mem.writable addr (w / 8)

def store (m : Machine) (v : BitVec 128) : Wide → Option Machine
  | .xmm i => some (m.mapCpu fun cpu ↦ { cpu with xmm := Function.update cpu.xmm i v })
  | .memory addr => (m.mem.tlbWrite addr v).map fun mem ↦ { m with mem := mem }

def isMemory : Wide → Bool
  | .xmm _ => false
  | .memory _ => true

def address : Wide → Dword
  | .xmm _ => 0
  | .memory addr => addr

/-- Nothing else has changed, and of the memory no more than `w` bits. -/
structure Frame (p : Wide) (w : ℕ) (m m' : Machine) : Prop where
  cpu : m'.cpu = { m.cpu with xmm := m'.cpu.xmm }
  xmm : ∀ i, p ≠ .xmm i → m'.cpu.xmm i = m.cpu.xmm i
  mem : ∀ x, (∀ addr, p = .memory addr → w / 8 ≤ GuestMem.dist addr x) →
    m'.mem.load x = m.mem.load x
  rounding : m'.rounding = m.rounding

end Wide

/-! The architecture. -/

def lane (x : BitVec 128) (i : ℕ) : Dword := x.extractLsb' (32 * i) 32

/-- The instructions that combine their two operands lane by lane. -/
inductive PackedOp
  | xorp
  | padd
  | psub
  | pcmpeqd
deriving DecidableEq

namespace PackedOp

def insn (src : Operand) (dst : Place) : PackedOp → Insn
  | .xorp => .xorp src dst
  | .padd => .padd src dst
  | .psub => .psub src dst
  | .pcmpeqd => .pcmpeqd src dst

/-- The law of the lanes of source, destination and result. -/
def Law (s d r : BitVec 128) : PackedOp → Prop
  | .xorp => ∀ i < 2, qw r i = qw d i ^^^ qw s i
  | .padd => ∀ i < 2, qw r i = qw d i + qw s i
  | .psub => ∀ i < 2, qw r i = qw d i - qw s i
  | .pcmpeqd => ∀ i < 4, lane r i = if lane d i = lane s i then BitVec.allOnes 32 else 0

/-- When the macro follows the law. -/
def Meets (s d : BitVec 128) : PackedOp → Prop
  | .pcmpeqd => ∀ i < 4, lane d i = lane s i ∨ lane s i = 0
  | _ => True

end PackedOp

/-- The instruction leaves a value in `p` that meets the law, and changes nothing else. -/
def LeavesIn (h : Host) (l : Locals) (insn : Insn) (p : Wide) (m : Machine)
    (law : BitVec 128 → Prop) : Prop :=
  ∃ m' r, exec h l insn m = .ok () m' ∧ p.value m' 128 = some r ∧ law r ∧ p.Frame 128 m m'

/-- `MOVQ`: to a register with zeros above, and to the memory without what is there. -/
def MovqRight (h : Host) (l : Locals) (src : Operand) (dst : Place) (p : Wide) (q : Qword)
    (m : Machine) : Prop :=
  ∃ m', exec h l (.movq src dst) m = .ok () m' ∧ p.Frame 64 m m' ∧
    match p with
    | .xmm i => m'.cpu.xmm i = 0#64 ++ q
    | .memory addr => m'.mem.tlbRead addr 64 = some q

/-! Operands. -/

section

variable {l : Locals} {m m' : Machine} {dst : Place} {p : Wide} {v : BitVec 128} {w : ℕ}

theorem get_wide (hp : dst.wide l = some p) (m : Machine) : get l dst 128 m =
    match p.value m 128 with
    | some v => .ok v m
    | none => .stop (.gpf p.address) m := by
  have hmemory (addr : Dword) : memRead addr 128 m =
      match (Wide.memory addr).value m 128 with
      | some v => .ok v m
      | none => .stop (.gpf addr) m := by
    rw [memRead, Wide.value]
    cases m.mem.tlbRead addr 128 <;> rfl
  cases dst with
  | modrmReg =>
    cases hp
    rfl
  | modrmVal =>
    cases hp
    simp only [get]
    split
    · rfl
    · exact hmemory l.addr
  | memAddr =>
    cases hp
    exact hmemory l.addr
  | _ => cases hp

theorem set_wide (hp : dst.wide l = some p) (v : BitVec 128) (m : Machine) : set l dst v m =
    match p.store m v with
    | some m' => .ok () m'
    | none => .stop (.gpf p.address) m := by
  have hregister (q : Regptr) (cpu : CpuState) : cpu.setRegister q v =
      { cpu with xmm := Function.update cpu.xmm q.reg128 v } :=
    congrArg (fun v ↦ { cpu with xmm := Function.update cpu.xmm q.reg128 v }) (BitVec.setWidth_eq v)
  have hmemory (addr : Dword) : memWrite addr v m =
      match (Wide.memory addr).store m v with
      | some m' => .ok () m'
      | none => .stop (.gpf addr) m := by
    rw [memWrite, Wide.store]
    cases m.mem.tlbWrite addr v <;> rfl
  cases dst with
  | modrmReg =>
    cases hp
    simp only [set, hregister]
    rfl
  | modrmVal =>
    cases hp
    simp only [set]
    split
    · simp only [hregister]
      rfl
    · exact hmemory l.addr
  | memAddr =>
    cases hp
    exact hmemory l.addr
  | _ => cases hp

theorem Wide.writable_iff (v : BitVec 128) : p.Writable m 128 ↔ ∃ m', p.store m v = some m' := by
  cases p with
  | xmm i => exact ⟨fun _ ↦ ⟨_, rfl⟩, fun _ ↦ trivial⟩
  | memory addr =>
    simp only [Writable, store, GuestMem.tlbWrite]
    split
    · exact ⟨fun _ ↦ ⟨_, rfl⟩, fun _ ↦ ‹_›⟩
    · refine ⟨fun hw ↦ absurd hw ‹_›, ?_⟩
      rintro ⟨_, hst⟩
      cases hst

theorem writable_of_set (hp : dst.wide l = some p) (h : set l dst v m = .ok () m') :
    p.Writable m 128 := by
  rw [set_wide hp] at h
  cases hst : p.store m v with
  | none =>
    rw [hst] at h
    cases h
  | some m₁ => exact (Wide.writable_iff v).mpr ⟨m₁, hst⟩

theorem Wide.value_store (h : p.store m v = some m') : p.value m' 128 = some v := by
  cases p with
  | xmm i =>
    cases h
    simp [value, Machine.mapCpu]
  | memory addr =>
    obtain ⟨mem, hmem, rfl⟩ := Option.map_eq_some_iff.mp h
    exact GuestMem.tlbRead_tlbWrite hmem (by decide) (by decide)

theorem Wide.frame_store (h : p.store m v = some m') : p.Frame 128 m m' := by
  cases p with
  | xmm i =>
    cases h
    refine ⟨rfl, fun j hj ↦ Function.update_of_ne (fun hji ↦ hj (congrArg _ hji.symm)) _ _,
      fun _ _ ↦ rfl, rfl⟩
  | memory addr =>
    obtain ⟨mem, hmem, rfl⟩ := Option.map_eq_some_iff.mp h
    exact ⟨rfl, fun _ _ ↦ rfl, fun x hx ↦ GuestMem.load_tlbWrite_of_outside hmem (hx addr rfl), rfl⟩

end

/-! The macros. -/

section

variable {h : Host} {l : Locals} {m m' : Machine} {src count : Operand} {dst : Place} {p : Wide}
  {s d r : BitVec 128} {law : BitVec 128 → Prop}

theorem getLsbD_halves (a b : Qword) (i : ℕ) : (a ++ b : BitVec 128).getLsbD i =
    if i < 64 then b.getLsbD i else a.getLsbD (i - 64) := BitVec.getLsbD_append

theorem qw_append (a b : Qword) : qw (a ++ b) 0 = b ∧ qw (a ++ b) 1 = a := by
  constructor <;> apply BitVec.eq_of_getLsbD_eq <;> intro i hi
  · simp [qw, getLsbD_halves, hi]
  · simp [qw, getLsbD_halves, hi]

theorem eq_of_qw (h₀ : qw r 0 = qw s 0) (h₁ : qw r 1 = qw s 1) : r = s := by
  apply BitVec.eq_of_getLsbD_eq
  intro i hi
  by_cases hlow : i < 64
  · have hbit := congrArg (fun q ↦ q.getLsbD i) h₀
    simpa [qw, hlow] using hbit
  · have hbit := congrArg (fun q ↦ q.getLsbD (i - 64)) h₁
    simpa [qw, show i - 64 < 64 by omega, show 64 + (i - 64) = i by omega] using hbit

/-- The lane of a word made of four. -/
theorem lane_append (f : ℕ → Dword) {i : ℕ} (hi : i < 4) :
    lane (f 3 ++ f 2 ++ f 1 ++ f 0) i = f i := by
  have hbit (k : ℕ) : (f 3 ++ f 2 ++ f 1 ++ f 0 : BitVec 128).getLsbD k =
      if k < 32 then (f 0).getLsbD k else if k - 32 < 32 then (f 1).getLsbD (k - 32)
      else if k - 32 - 32 < 32 then (f 2).getLsbD (k - 32 - 32)
      else (f 3).getLsbD (k - 32 - 32 - 32) := by
    refine BitVec.getLsbD_append.trans ?_
    rw [BitVec.getLsbD_append, BitVec.getLsbD_append]
  apply BitVec.eq_of_getLsbD_eq
  intro j hj
  rw [lane, BitVec.getLsbD_extractLsb', hbit]
  have hcases : i = 0 ∨ i = 1 ∨ i = 2 ∨ i = 3 := by omega
  rcases hcases with rfl | rfl | rfl | rfl
  · simp [hj]
  · simp [hj, show ¬32 + j < 32 by omega]
  · simp [hj, show ¬32 * 2 + j < 32 by omega, show ¬32 * 2 + j - 32 < 32 by omega,
      show 32 * 2 + j - 32 - 32 = j by omega]
  · simp [hj, show ¬32 * 3 + j < 32 by omega, show ¬32 * 3 + j - 32 < 32 by omega,
      show ¬32 * 3 + j - 32 - 32 < 32 by omega, show 32 * 3 + j - 32 - 32 - 32 = j by omega]

/-- A macro that ends with a store leaves what it stores. -/
theorem leavesIn_iff {insn : Insn} (hdst : dst.wide l = some p) (hw : p.Writable m 128)
    (hrun : exec h l insn m = set l dst r m) : LeavesIn h l insn p m law ↔ law r := by
  obtain ⟨m₁, hst⟩ := (Wide.writable_iff r).mp hw
  rw [set_wide hdst, hst] at hrun
  constructor
  · rintro ⟨m', r', hm', hr', hlaw, -⟩
    rw [hrun] at hm'
    cases hm'
    rw [Wide.value_store hst] at hr'
    cases hr'
    exact hlaw
  · exact fun hlaw ↦ ⟨m₁, r, hrun, Wide.value_store hst, hlaw, Wide.frame_store hst⟩

theorem get_of_value (hdst : dst.wide l = some p) (hd : p.value m 128 = some d) :
    get l dst 128 m = .ok d m := by
  rw [get_wide hdst, hd]

theorem lanes_run (f : Qword → Qword → Qword) (hs : get l src 128 m = .ok s m)
    (hd : get l dst 128 m = .ok d m) : ∃ r : BitVec 128,
    lanes l f src dst m = set l dst r m ∧ ∀ i < 2, qw r i = f (qw d i) (qw s i) := by
  refine ⟨f (qw d 1) (qw s 1) ++ f (qw d 0) (qw s 0), Exec.bind_eq hs (Exec.bind_eq hd rfl),
    fun i hi ↦ ?_⟩
  obtain ⟨hlow, hhigh⟩ := qw_append (f (qw d 1) (qw s 1)) (f (qw d 0) (qw s 0))
  have hcases : i = 0 ∨ i = 1 := by omega
  rcases hcases with rfl | rfl
  · exact hlow
  · exact hhigh

theorem cmpeq_iff (s d : Dword) :
    (cmpeq s d = if d = s then BitVec.allOnes 32 else 0) ↔ d = s ∨ s = 0 := by
  rw [cmpeq]
  by_cases hds : d = s <;> simp [hds]

theorem pcmpeqd_run (hs : get l src 128 m = .ok s m) (hd : get l dst 128 m = .ok d m) :
    ∃ r : BitVec 128, exec h l (.pcmpeqd src dst) m = set l dst r m ∧
      ∀ i < 4, lane r i = cmpeq (lane s i) (lane d i) :=
  ⟨_, Exec.bind_eq hs (Exec.bind_eq hd rfl),
    fun _ hi ↦ lane_append (fun i ↦ cmpeq (lane s i) (lane d i)) hi⟩

/-- What the macro stores, and when it meets the law. -/
theorem packed_run (op : PackedOp) (hs : get l src 128 m = .ok s m)
    (hd : get l dst 128 m = .ok d m) :
    ∃ r : BitVec 128, exec h l (op.insn src dst) m = set l dst r m ∧
      (op.Law s d r ↔ op.Meets s d) := by
  have hlanes (f : Qword → Qword → Qword) := lanes_run f hs hd
  cases op with
  | xorp =>
    obtain ⟨r, hrun, hlaw⟩ := hlanes (· ^^^ ·)
    exact ⟨r, hrun, iff_of_true hlaw trivial⟩
  | padd =>
    obtain ⟨r, hrun, hlaw⟩ := hlanes (· + ·)
    exact ⟨r, hrun, iff_of_true hlaw trivial⟩
  | psub =>
    obtain ⟨r, hrun, hlaw⟩ := hlanes (· - ·)
    exact ⟨r, hrun, iff_of_true hlaw trivial⟩
  | pcmpeqd =>
    obtain ⟨r, hrun, hlanes⟩ := pcmpeqd_run (h := h) hs hd
    refine ⟨r, hrun, forall_congr' fun i ↦ forall_congr' fun hi ↦ ?_⟩
    rw [hlanes i hi]
    exact cmpeq_iff _ _

theorem psrlq_iff {n : BitVec l.oz} (hdst : dst.wide l = some p)
    (hd : p.value m 128 = some d) (hw : p.Writable m 128) (hn : get l count l.oz m = .ok n m) :
    LeavesIn h l (.psrlq count dst) p m (fun r ↦ ∀ i < 2, qw r i = qw d i >>> n.toNat) ↔
      n.toNat < 64 := by
  have hget := get_of_value hdst hd
  by_cases hlt : n.toNat < 64
  · have hrun : exec h l (.psrlq count dst) m =
        set l dst (qw d 1 >>> n.toNat ++ qw d 0 >>> n.toNat) m := by
      refine Exec.bind_eq hget (Exec.bind_eq hn ?_)
      rw [if_neg (Nat.not_le.mpr hlt)]
    refine (leavesIn_iff hdst hw hrun).trans (iff_of_true (fun i hi ↦ ?_) hlt)
    obtain ⟨hlow, hhigh⟩ := qw_append (qw d 1 >>> n.toNat) (qw d 0 >>> n.toNat)
    have hcases : i = 0 ∨ i = 1 := by omega
    rcases hcases with rfl | rfl
    · exact hlow
    · exact hhigh
  · have hrun : exec h l (.psrlq count dst) m = .wrong .shiftTooFar := by
      refine Exec.bind_eq hget (Exec.bind_eq hn ?_)
      rw [if_pos (Nat.not_lt.mp hlt)]
      rfl
    refine iff_of_false ?_ hlt
    rintro ⟨m', r, hm', -⟩
    rw [hrun] at hm'
    cases hm'

/-! `MOVQ`. -/

variable {sp : Wide} {sp' : Place} {q : Qword}

theorem isMemory_wide (hdst : dst.wide l = some p) : isMemory l dst = p.isMemory := by
  cases dst with
  | modrmVal =>
    cases hdst
    by_cases hreg : l.modrm.type = .modrmReg <;> simp [isMemory, Wide.isMemory, hreg]
  | _ => cases hdst <;> rfl

theorem qw_split (d : BitVec 128) : d = qw d 1 ++ qw d 0 := by
  obtain ⟨hlow, hhigh⟩ := qw_append (qw d 1) (qw d 0)
  exact eq_of_qw hlow.symm hhigh.symm

theorem memory_halves {g : GuestMem} {addr : Dword} {u v : Qword} :
    g.tlbRead addr 128 = some (u ++ v) ↔
      g.tlbRead addr 64 = some v ∧ g.tlbRead (addr + BitVec.ofNat 32 8) 64 = some u :=
  GuestMem.tlbRead_append (k := 64) (w := 64) (by decide) (by decide)

/-- The lower half of what is read. -/
theorem Wide.value_low (h : p.value m 128 = some d) : p.value m 64 = some (qw d 0) := by
  cases p with
  | xmm i =>
    cases h
    refine congrArg some (BitVec.eq_of_getLsbD_eq fun i hi ↦ ?_)
    simp [qw, hi, show i < 128 by omega]
  | memory addr =>
    rw [value, qw_split d] at h
    exact (memory_halves.mp h).1

theorem Wide.readable (h : p.Writable m 128) : ∃ d, p.value m 128 = some d := by
  cases p with
  | xmm i => exact ⟨_, rfl⟩
  | memory addr =>
    refine ⟨_, GuestMem.tlbRead_of_readable fun i hi ↦ ?_⟩
    rw [GuestMem.load, if_neg]
    · rfl
    · rw [h i hi]
      decide

/-- The upper half is written back. -/
theorem frame_low (hd : p.value m 128 = some d) {v : BitVec 128} (hst : p.store m v = some m')
    (hv : ∀ addr, p = .memory addr → qw v 1 = qw d 1) : p.Frame 64 m m' := by
  have hframe := Wide.frame_store hst
  refine ⟨hframe.cpu, hframe.xmm, fun x hx ↦ ?_, hframe.rounding⟩
  cases p with
  | xmm i => exact hframe.mem x fun addr haddr ↦ nomatch haddr
  | memory addr =>
    by_cases hout : 16 ≤ GuestMem.dist addr x
    · exact hframe.mem x fun addr' haddr ↦ by
        cases haddr
        exact hout
    have hlow : 8 ≤ GuestMem.dist addr x := hx addr rfl
    obtain ⟨k, hk⟩ := Nat.exists_eq_add_of_le hlow
    have hxk : x = addr + BitVec.ofNat 32 8 + BitVec.ofNat 32 k := by
      rw [BitVec.add_assoc, ← BitVec.ofNat_add, ← hk, GuestMem.add_dist]
    have hnew := Wide.value_store hst
    rw [Wide.value, qw_split v, hv addr rfl] at hnew
    rw [Wide.value, qw_split d] at hd
    rw [hxk]
    exact GuestMem.load_eq_of_tlbRead (memory_halves.mp hd).2 (memory_halves.mp hnew).2 (by decide)
      (by omega)

/-- `MOVQ` needs all of both operands. -/
theorem movq_iff (hsrc : src = .place sp') (hsp : sp'.wide l = some sp)
    (hdst : dst.wide l = some p) (hq : sp.value m 64 = some q) :
    MovqRight h l src dst p q m ↔ (∃ s, sp.value m 128 = some s) ∧ p.Writable m 128 := by
  subst hsrc
  constructor
  · rintro ⟨m', hm', -⟩
    obtain ⟨d, md, hd, hrest⟩ := Exec.bind_eq_ok.mp hm'
    obtain ⟨s, ms, hs, hset⟩ := Exec.bind_eq_ok.mp hrest
    cases get_state hd
    cases get_state hs
    rw [get_wide hsp] at hs
    refine ⟨?_, writable_of_set hdst hset⟩
    cases hsv : sp.value m 128 with
    | none =>
      rw [hsv] at hs
      cases hs
    | some s => exact ⟨s, rfl⟩
  · rintro ⟨⟨s, hs⟩, hw⟩
    obtain ⟨d, hd⟩ := Wide.readable hw
    have hqs : qw s 0 = q := by
      have hlow := Wide.value_low hs
      rw [hq] at hlow
      exact (Option.some.inj hlow).symm
    obtain ⟨m', hst⟩ := (Wide.writable_iff ((if isMemory l dst then qw d 1 else 0) ++ q)).mp hw
    obtain ⟨hvlow, hvhigh⟩ := qw_append (if isMemory l dst then qw d 1 else 0) q
    refine ⟨m', ?_, frame_low hd hst ?_, ?_⟩
    · refine Exec.bind_eq (get_of_value hdst hd) (Exec.bind_eq (get_of_value hsp hs) ?_)
      rw [hqs, set_wide hdst, hst]
    · rintro addr rfl
      rw [hvhigh, isMemory_wide hdst]
      rfl
    · have hnew := Wide.value_store hst
      cases p with
      | xmm i =>
        rw [isMemory_wide hdst] at hnew
        exact (BitVec.setWidth_eq _).symm.trans (Option.some.inj hnew)
      | memory addr => exact (memory_halves.mp hnew).1

/-! `PCMPEQD` as it is decoded, with the register for the source. -/

theorem eq_of_lane (hr : ∀ i < 4, lane r i = lane s i) : r = s := by
  apply BitVec.eq_of_getLsbD_eq
  intro i hi
  have hbit := congrArg (fun q ↦ q.getLsbD (i % 32)) (hr (i / 32) (by omega))
  simpa [lane, show i % 32 < 32 by omega, Nat.div_add_mod] using hbit

theorem lane_allOnes {i : ℕ} (hi : i < 4) : lane (BitVec.allOnes 128) i = BitVec.allOnes 32 := by
  revert i
  decide

/-- To store what is there changes nothing. -/
theorem store_same (hd : p.value m 128 = some d) (hst : p.store m d = some m') :
    m'.cpu = m.cpu ∧ (∀ x, m'.mem.load x = m.mem.load x) ∧ m'.rounding = m.rounding := by
  have hnew := Wide.value_store hst
  have hframe := Wide.frame_store hst
  cases p with
  | xmm i =>
    cases hst
    have hold : d = m.cpu.xmm i := (Option.some.inj hd).symm.trans (BitVec.setWidth_eq _)
    refine ⟨?_, fun _ ↦ rfl, rfl⟩
    rw [hold]
    exact congrArg (fun xmm ↦ { m.cpu with xmm := xmm }) (Function.update_eq_self i m.cpu.xmm)
  | memory addr =>
    obtain ⟨mem, hmem, rfl⟩ := Option.map_eq_some_iff.mp hst
    refine ⟨rfl, fun x ↦ ?_, rfl⟩
    by_cases hout : 16 ≤ GuestMem.dist addr x
    · exact GuestMem.load_tlbWrite_of_outside hmem hout
    · rw [← GuestMem.add_dist addr x]
      exact GuestMem.load_eq_of_tlbRead hd hnew (by decide) (by omega)

theorem value_frame {w : ℕ} (hne : p ≠ sp) (hsp : ∀ addr, sp ≠ .memory addr)
    (hframe : sp.Frame 128 m m') : p.value m' w = p.value m w := by
  cases p with
  | xmm i => exact congrArg (fun v ↦ some (v.setWidth w)) (hframe.xmm i hne.symm)
  | memory addr =>
    exact GuestMem.tlbRead_congr fun i _ ↦ hframe.mem _ fun addr' haddr ↦ absurd haddr (hsp addr')

/-- The architecture's destination is the register. -/
theorem pcmpeqd_decoded_iff {e : BitVec 128} (hp : Place.modrmVal.wide l = some p)
    (he : p.value m 128 = some e) (hd : m.cpu.xmm l.modrmRegptr.reg128 = d) :
    LeavesIn h l (.pcmpeqd (.place .modrmReg) .modrmVal) (.xmm l.modrmRegptr.reg128) m
        (fun r ↦ PackedOp.pcmpeqd.Law e d r) ↔
      p = .xmm l.modrmRegptr.reg128 ∨
        p.Writable m 128 ∧ d = BitVec.allOnes 128 ∧ e = BitVec.allOnes 128 := by
  have hvalue : (Wide.xmm l.modrmRegptr.reg128).value m 128 = some d :=
    congrArg some ((BitVec.setWidth_eq _).trans hd)
  have hget : get l (.place .modrmReg) 128 m = .ok d m :=
    get_of_value (p := .xmm l.modrmRegptr.reg128) rfl hvalue
  obtain ⟨v, hrun, hlanes⟩ := pcmpeqd_run (h := h) hget (get_of_value hp he)
  by_cases hsame : p = .xmm l.modrmRegptr.reg128
  · have hde : e = d := by
      rw [hsame, hvalue] at he
      exact (Option.some.inj he).symm
    refine iff_of_true ((leavesIn_iff (p := .xmm l.modrmRegptr.reg128) ?_ trivial hrun).mpr
      fun i hi ↦ ?_) (.inl hsame)
    · rw [hp, hsame]
    · rw [hlanes i hi, hde, cmpeq, if_pos rfl, if_pos rfl]
  constructor
  · rintro ⟨m', r, hm', hr, hlaw, hframe⟩
    rw [hrun] at hm'
    have hw := writable_of_set hp hm'
    obtain ⟨m₁, hst⟩ := (Wide.writable_iff v).mp hw
    rw [set_wide hp, hst] at hm'
    cases hm'
    have hkept := value_frame (w := 128) hsame (fun _ h ↦ nomatch h) hframe
    rw [Wide.value_store hst, he] at hkept
    cases hkept
    have hones (i : ℕ) (hi : i < 4) :
        lane d i = BitVec.allOnes 32 ∧ lane e i = BitVec.allOnes 32 := by
      have hlane := hlanes i hi
      by_cases heq : lane e i = lane d i
      · rw [cmpeq, if_pos heq] at hlane
        exact ⟨heq.symm.trans hlane, hlane⟩
      · rw [cmpeq, if_neg heq] at hlane
        exact absurd hlane heq
    refine .inr ⟨hw, eq_of_lane fun i hi ↦ ?_, eq_of_lane fun i hi ↦ ?_⟩
    · rw [(hones i hi).1, lane_allOnes hi]
    · rw [(hones i hi).2, lane_allOnes hi]
  · rintro (hp' | ⟨hw, rfl, rfl⟩)
    · exact absurd hp' hsame
    have hv : v = BitVec.allOnes 128 := eq_of_lane fun i hi ↦ by
      rw [hlanes i hi, cmpeq, if_pos rfl, lane_allOnes hi]
    rw [hv] at hrun
    obtain ⟨m₁, hst⟩ := (Wide.writable_iff (BitVec.allOnes 128)).mp hw
    obtain ⟨hcpu, hmem, hrounding⟩ := store_same he hst
    rw [set_wide hp, hst] at hrun
    refine ⟨m₁, BitVec.allOnes 128, hrun, ?_, fun i hi ↦ ?_, ?_⟩
    · rw [Wide.value, hcpu]
      exact hvalue
    · rw [if_pos rfl, lane_allOnes hi]
    · exact ⟨by rw [hcpu], fun _ _ ↦ by rw [hcpu], fun x _ ↦ hmem x, hrounding⟩

end

/-- The packed instructions where their operands are accessible: of the lanes that are
combined, `PCMPEQD` goes wrong where they differ and the source is not zero, and as it is
decoded wherever it has two different operands; `PSRLQ` goes wrong from a count of 64 on,
and `MOVQ` where it cannot have all 16 bytes. -/
theorem packed_iff (h : Host) (l : Locals) (m : Machine) :
    (∀ (op : PackedOp) (src : Operand) (dst : Place) (p : Wide) (s d : BitVec 128),
      dst.wide l = some p → get l src 128 m = .ok s m → p.value m 128 = some d →
      p.Writable m 128 →
      (LeavesIn h l (op.insn src dst) p m (fun r ↦ op.Law s d r) ↔ op.Meets s d)) ∧
    (∀ (p : Wide) (s d : BitVec 128), Place.modrmVal.wide l = some p →
      p.value m 128 = some d → m.cpu.xmm l.modrmRegptr.reg128 = s →
      (LeavesIn h l (.pcmpeqd (.place .modrmReg) .modrmVal) (.xmm l.modrmRegptr.reg128) m
          (fun r ↦ PackedOp.pcmpeqd.Law d s r) ↔
        p = .xmm l.modrmRegptr.reg128 ∨
          p.Writable m 128 ∧ s = BitVec.allOnes 128 ∧ d = BitVec.allOnes 128)) ∧
    (∀ (count : Operand) (dst : Place) (p : Wide) (n : BitVec l.oz) (d : BitVec 128),
      dst.wide l = some p → get l count l.oz m = .ok n m → p.value m 128 = some d →
      p.Writable m 128 →
      (LeavesIn h l (.psrlq count dst) p m (fun r ↦ ∀ i < 2, qw r i = qw d i >>> n.toNat) ↔
        n.toNat < 64)) ∧
    ∀ (src dst : Place) (sp p : Wide) (q : Qword), src.wide l = some sp → dst.wide l = some p →
      sp.value m 64 = some q →
      (MovqRight h l (.place src) dst p q m ↔
        (∃ s, sp.value m 128 = some s) ∧ p.Writable m 128) := by
  refine ⟨?_, ?_, ?_, ?_⟩
  · intro op src dst p s d hdst hs hd hw
    obtain ⟨r, hrun, hmeets⟩ := packed_run (h := h) op hs (get_of_value hdst hd)
    exact (leavesIn_iff hdst hw hrun).trans hmeets
  · exact fun p s d hp hd hs ↦ pcmpeqd_decoded_iff hp hd hs
  · exact fun count dst p n d hdst hn hd hw ↦ psrlq_iff hdst hd hw hn
  · exact fun src dst sp p q hsrc hdst hq ↦ movq_iff rfl hsrc hdst hq

/-- Lanes of zeros, in a register and in the memory. -/
theorem packed_iff_zero :
    LeavesIn .zero .zero (.pcmpeqd (.place .modrmReg) .memAddr) (.memory 0) Machine.zero
      (fun r ↦ PackedOp.pcmpeqd.Law 0 0 r) ∧
    LeavesIn .zero .zero (.psrlq (.const 5) .modrmReg) (.xmm 0) Machine.zero
      (fun r ↦ ∀ i < 2, qw r i = qw 0 i >>> 5) ∧
    MovqRight .zero .zero (.place .modrmReg) .memAddr (.memory 0) 0 Machine.zero := by
  obtain ⟨hop, -, hshift, hmovq⟩ := packed_iff .zero .zero Machine.zero
  have hw (n : ℕ) : (Wide.memory 0).Writable Machine.zero n := fun _ _ ↦ rfl
  refine ⟨?_, ?_, ?_⟩
  · exact (hop .pcmpeqd (.place .modrmReg) .memAddr (.memory 0) 0 0 rfl rfl rfl (hw 128)).mpr
      fun i hi ↦ .inl rfl
  · exact (hshift (.const 5) .modrmReg (.xmm 0) 5 0 rfl rfl rfl trivial).mpr (by decide)
  · exact (hmovq .modrmReg .memAddr (.xmm 0) (.memory 0) 0 rfl rfl rfl).mpr
      ⟨⟨0, rfl⟩, hw 128⟩

/-- Lanes of 1 and 0 differ, and `PCMPEQD` leaves 1. -/
theorem not_packed_right : ¬LeavesIn .zero { Locals.zero with addr := 0x10 }
    (.pcmpeqd (.place .modrmReg) .memAddr) (.memory 0x10)
    (Machine.zero.mapCpu fun cpu ↦ { cpu with xmm := fun _ ↦ 1 })
    (fun r ↦ PackedOp.pcmpeqd.Law 1 0 r) := by
  rintro ⟨m', r, hm', hr, hlaw, -⟩
  cases hm'
  cases hr
  exact absurd (hlaw 0 (by decide)) (by decide)

end Isl.Emu
