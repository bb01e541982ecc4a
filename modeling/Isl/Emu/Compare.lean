import Isl.Emu.Written
import Isl.Lib.Scan

/-!
The instructions that compare. All of them end in the macro `CMP`, to which `CMPXCHG` and
`SCAS` give the accumulator as what is taken away.
-/

namespace Isl.Emu

open Isl.Lib Interp

/-! The architecture. -/

section

variable {z : ℕ}

/-- `CMPXCHG`: the flags, and the source in place of what is equal to the accumulator, or
the accumulator loaded. -/
def CmpxchgRight (h : Host) (l : Locals) (src dst : Place) (slot : Slot) (m : Machine)
    (d s : BitVec z) : Prop :=
  ∃ m', exec h l (.cmpxchg src dst z) m = .ok () m' ∧
    (Effect.difference ((m.cpu.regs .eax).setWidth z) d).Shows m'.cpu ∧
    if (m.cpu.regs .eax).setWidth z = d then get l dst z m' = .ok s m' ∧ slot.Frame z m m'
    else (m'.cpu.regs .eax).setWidth z = d ∧ (Slot.bits .eax 0).Frame z m m'

inductive CompareOp
  | scas
  | cmps
deriving DecidableEq

def CompareOp.str : CompareOp → Str
  | .scas => .scas
  | .cmps => .cmps

/-- How far a pointer is after some elements. -/
def advance (z k : ℕ) (cpu : CpuState) : Dword :=
  if cpu.flag .df then -BitVec.ofNat 32 (k * (z / 8)) else BitVec.ofNat 32 (k * (z / 8))

/-- The pair that is compared after some others, the second to be taken from the first. -/
def CompareOp.pair (z : ℕ) (m : Machine) (k : ℕ) : CompareOp → Option (BitVec z × BitVec z)
  | .scas => (m.mem.tlbRead (m.cpu.regs .edi + advance z k m.cpu) z).map fun y ↦
      ((m.cpu.regs .eax).setWidth z, y)
  | .cmps => do
    let x ← m.mem.tlbRead (m.cpu.regs .esi + advance z k m.cpu) z
    let y ← m.mem.tlbRead (m.cpu.regs .edi + advance z k m.cpu) z
    some (x, y)

def CompareOp.Right (h : Host) (l : Locals) (m : Machine) (p : BitVec z × BitVec z)
    (op : CompareOp) : Prop :=
  ∃ m', exec h l (.str op.str z) m = .ok () m' ∧ (Effect.difference p.1 p.2).Shows m'.cpu

/-- Whether a repetition ends after a pair. -/
def Interp.Rep.Stops (p : BitVec z × BitVec z) : Rep → Prop
  | .rep => False
  | .repnz => p.1 = p.2
  | .repz => p.1 ≠ p.2

/-- The flags are those of the last pair, and `ecx` counts the pairs. -/
def CompareOp.RepRight (h : Host) (l : Locals) (kind : Rep) (m : Machine) (n : ℕ)
    (pairs : ℕ → BitVec z × BitVec z) (op : CompareOp) : Prop :=
  ∃ m', exec h l (.repStr kind op.str z) m = .ok () m' ∧
    m'.cpu.regs .ecx = m.cpu.regs .ecx - BitVec.ofNat 32 n ∧
    if n = 0 then m' = m
    else (Effect.difference (pairs (n - 1)).1 (pairs (n - 1)).2).Shows m'.cpu

end

/-! One comparison. -/

section

variable {h : Host} {l : Locals} {z : ℕ} {src dst : Place} {slot : Slot} {m : Machine}
  {x y d s : BitVec z} {cpu : CpuState}

/-- After `CMP`. -/
def CpuState.compared (d s : BitVec z) (cpu : CpuState) : CpuState :=
  (cpu.withAlu (s.setWidth 32) (d.setWidth 32) ((d - s).signExtend 32) (d.usubOverflow s)
    (d.ssubOverflow s)).withRes

theorem compared_keeps : KeepsRegs (CpuState.compared d s) := ⟨fun _ ↦ rfl, fun _ _ _ ↦ rfl⟩

theorem compared_same : m.Same (m.mapCpu (CpuState.compared d s)) := ⟨rfl, rfl, rfl, rfl, rfl, rfl⟩

/-- Flags know nothing of the registers. -/
theorem Effect.Shows.of_flags {e : Effect z} {cpu' : CpuState} (he : e.Shows cpu)
    (h : cpu' = { cpu with regs := cpu'.regs }) : e.Shows cpu' := by
  rw [h]
  exact ⟨he.cf, he.of, he.zf, he.sf, he.pf, he.af⟩

/-- The flags of a difference are those of the difference the other way round only when
there is none. -/
theorem shows_swapped (h : (Effect.difference y x).Shows cpu) :
    (Effect.difference x y).Shows cpu ↔ x = y := by
  constructor
  · intro h'
    have hcf := byteOf_inj.mp (h.cf.symm.trans h'.cf)
    rw [decide_eq_decide] at hcf
    apply BitVec.eq_of_toNat_eq
    omega
  · rintro rfl
    exact h

theorem cmp_compared {a b : Operand} (hd : get l b z m = .ok d m) (hs : get l a z m = .ok s m) :
    cmp l a b z m = .ok () (m.mapCpu (CpuState.compared d s)) := cmp_ok hd hs

theorem compared_shows (hz : z = 8 ∨ z = 16 ∨ z = 32) (cpu : CpuState) (d s : BitVec z) :
    (Effect.difference d s).Shows (cpu.compared d s) := shows_difference hz cpu d s

theorem mov_stores (hz : z ≠ 128) {src : Operand} (hs : get l src z m = .ok s m)
    (hdst : dst.slot l z = some slot) {g : CpuState → CpuState} (hg : KeepsRegs g)
    (hsame : m.Same (m.mapCpu g)) : slot.Stores m s g (mov l src dst z (m.mapCpu g)) := by
  have hmov : mov l src dst z (m.mapCpu g) = set l dst s (m.mapCpu g) :=
    Exec.bind_eq (get_same hs hsame) rfl
  rw [hmov, set_slot hdst hz, store_mapCpu hg, Slot.Stores]
  cases slot.store m s with
  | none => exact ⟨_, rfl⟩
  | some m' => rfl

theorem cmpxchg_apply (h : Host) (src : Place) (hz : z = 8 ∨ z = 16 ∨ z = 32) (hd : get l dst z m = .ok d m) {a : BitVec z}
    (ha : (m.cpu.regs .eax).setWidth z = a) : exec h l (.cmpxchg src dst z) m =
      if a = d then mov l src dst z (m.mapCpu (CpuState.compared d a))
      else mov l dst (.reg .eax) z (m.mapCpu (CpuState.compared d a)) := by
  have hget : get l (Place.reg .eax) z m = .ok a m := by rw [← ha]; rfl
  refine Exec.bind_eq (cmp_compared hd hget) (Exec.bind_eq rfl ?_)
  have hzf := (compared_shows hz m.cpu d a).zf
  have hequal : d - a = 0 ↔ a = d := by rw [sub_eq_zero, eq_comm]
  have hcond : ((Cond.E.eval (m.mapCpu (CpuState.compared d a)).cpu) ^^ false) = decide (a = d) := by
    rw [Bool.xor_false, ← decide_eq_decide.mpr hequal]
    exact hzf
  by_cases heq : a = d
  · rw [if_pos heq]
    exact congrFun (if_pos (hcond.trans (decide_eq_true heq))) _
  · rw [if_neg heq]
    refine congrFun (if_neg fun h ↦ ?_) _
    exact heq (of_decide_eq_true (hcond.symm.trans h))

theorem cmpxchg_iff (hz : z = 8 ∨ z = 16 ∨ z = 32) (hdst : dst.slot l z = some slot)
    (hd : get l dst z m = .ok d m) (hs : get l src z m = .ok s m)
    (hw : (m.cpu.regs .eax).setWidth z = d → slot.Writable m z) :
    CmpxchgRight h l src dst slot m d s ↔ (m.cpu.regs .eax).setWidth z = d := by
  obtain ⟨a, ha⟩ : ∃ a, (m.cpu.regs .eax).setWidth z = a := ⟨_, rfl⟩
  have hexec := cmpxchg_apply h src hz hd ha
  rw [CmpxchgRight, ha]
  by_cases heq : a = d
  · refine iff_of_true ?_ heq
    rw [if_pos heq] at hexec
    have hstores := mov_stores (by omega) hs hdst compared_keeps (compared_same (d := d) (s := a))
    obtain ⟨m', ho, hget, hframe, regs, hcpu⟩ := hstores.ends hz hdst (hw (ha.trans heq)) fun _ ↦ rfl
    refine ⟨m', hexec.trans ho, ?_, ?_⟩
    · rw [hcpu, heq]
      exact compared_shows hz _ d d
    · rw [if_pos heq]
      exact ⟨hget, hframe⟩
  · refine iff_of_false ?_ heq
    rw [if_neg heq] at hexec
    have hacc : Place.slot l z (.reg .eax) = some (.bits .eax 0) := rfl
    have hstores := mov_stores (by omega) hd hacc compared_keeps (compared_same (d := d) (s := a))
    obtain ⟨m', ho, -, -, regs, hcpu⟩ := hstores.ends hz hacc trivial fun _ ↦ rfl
    rintro ⟨m₁, hexec', hshows, -⟩
    rw [hexec.trans ho] at hexec'
    cases hexec'
    rw [hcpu] at hshows
    exact heq ((shows_swapped (compared_shows hz _ d a)).mp hshows)

end

/-! The strings. -/

section

variable {h : Host} {l : Locals} {z : ℕ} {m m' : Machine} {p : BitVec z × BitVec z} {op : CompareOp}

/-- The flags that the macro leaves for a pair. -/
def CompareOp.shown (p : BitVec z × BitVec z) : CompareOp → Effect z
  | .scas => Effect.difference p.2 p.1
  | .cmps => Effect.difference p.1 p.2

/-- The two orders agree for equal operands. -/
theorem CompareOp.shown_iff {cpu : CpuState} (h : (op.shown p).Shows cpu) :
    (Effect.difference p.1 p.2).Shows cpu ↔ op = .cmps ∨ p.1 = p.2 := by
  cases op with
  | scas => exact (shows_swapped h).trans (by simp)
  | cmps => exact iff_of_true h (.inl rfl)

theorem CompareOp.shown_zf {cpu : CpuState} (h : (op.shown p).Shows cpu) :
    cpu.ZF = decide (p.1 = p.2) := by
  rw [h.zf, decide_eq_decide]
  cases op with
  | scas => exact sub_eq_zero.trans eq_comm
  | cmps => exact sub_eq_zero

theorem advance_zero (z : ℕ) (cpu : CpuState) : advance z 0 cpu = 0#32 := by
  rw [advance, Nat.zero_mul]
  split <;> rfl

theorem advance_add (z j k : ℕ) (cpu : CpuState) :
    advance z (j + k) cpu = advance z j cpu + advance z k cpu := by
  rw [advance, advance, advance, Nat.add_mul, BitVec.ofNat_add]
  split
  · rw [neg_add]
  · rfl

theorem advance_congr {cpu cpu' : CpuState} (h : cpu'.eflags = cpu.eflags) (z k : ℕ) :
    advance z k cpu' = advance z k cpu := by
  rw [advance, advance, CpuState.flag, CpuState.flag, h]

theorem bump_apply (r : Reg32) (z : ℕ) (m : Machine) :
    bump r z m = .ok () (m.mapCpu fun cpu ↦ cpu.setReg r (cpu.regs r + advance z 1 cpu)) := by
  rw [bump, modifyCpu, Exec.modify_apply]
  congr 2
  funext cpu
  rw [advance, Nat.one_mul]
  cases cpu.flag .df <;> simp [sub_eq_add_neg]

/-- What one comparison leaves for the next ones. -/
theorem pair_succ (hmem : m'.mem = m.mem) (hflags : m'.cpu.eflags = m.cpu.eflags)
    (hacc : m'.cpu.regs .eax = m.cpu.regs .eax)
    (hdi : m'.cpu.regs .edi = m.cpu.regs .edi + advance z 1 m.cpu)
    (hsi : op = .cmps → m'.cpu.regs .esi = m.cpu.regs .esi + advance z 1 m.cpu) (k : ℕ) :
    op.pair z m' k = op.pair z m (k + 1) := by
  have hadvance := advance_congr hflags z k
  have hnext : advance z (k + 1) m.cpu = advance z 1 m.cpu + advance z k m.cpu := by
    rw [Nat.add_comm, advance_add]
  cases op with
  | scas =>
    rw [CompareOp.pair, CompareOp.pair, hmem, hacc, hdi, hadvance, hnext,
      BitVec.add_assoc]
  | cmps =>
    rw [CompareOp.pair, CompareOp.pair, hmem, hdi, hsi rfl, hadvance, hnext,
      BitVec.add_assoc, BitVec.add_assoc]

theorem compare_step (hz : z = 8 ∨ z = 16 ∨ z = 32) (hp : op.pair z m 0 = some p) :
    ∃ m', str l z op.str m = .ok () m' ∧ (op.shown p).Shows m'.cpu ∧
      m'.cpu.regs .ecx = m.cpu.regs .ecx ∧ ∀ k, op.pair z m' k = op.pair z m (k + 1) := by
  cases op with
  | scas =>
    rw [CompareOp.pair, advance_zero, BitVec.add_zero] at hp
    obtain ⟨y, hy, rfl⟩ := Option.map_eq_some_iff.mp hp
    have hget : get l .memDi z m = .ok y m := by rw [get, memRead, hy]
    refine ⟨_, Exec.bind_eq (cmp_compared hget rfl) (bump_apply _ _ _), ?_, rfl,
      pair_succ rfl rfl rfl rfl fun hop ↦ by cases hop⟩
    exact (compared_shows hz m.cpu y _).of_flags rfl
  | cmps =>
    rw [CompareOp.pair, advance_zero, BitVec.add_zero, BitVec.add_zero] at hp
    obtain ⟨x, hx, hp⟩ := Option.bind_eq_some_iff.mp hp
    obtain ⟨y, hy, hp⟩ := Option.bind_eq_some_iff.mp hp
    cases hp
    have hgetx : get l .memSi z m = .ok x m := by rw [get, memRead, hx]
    have hgety : get l .memDi z m = .ok y m := by rw [get, memRead, hy]
    refine ⟨_, Exec.bind_eq (cmp_compared hgetx hgety)
      (Exec.bind_eq (bump_apply _ _ _) (bump_apply _ _ _)), ?_, rfl,
      pair_succ rfl rfl rfl rfl fun _ ↦ rfl⟩
    exact (compared_shows hz m.cpu x y).of_flags rfl

theorem Interp.Rep.breaks_iff {kind : Rep} {cpu : CpuState} (hzf : cpu.ZF = decide (p.1 = p.2)) :
    kind.breaks cpu = true ↔ kind.Stops p := by
  cases kind with
  | rep => exact iff_of_false (by simp [Rep.breaks]) id
  | repnz => rw [Rep.breaks, hzf, decide_eq_true_iff, Rep.Stops]
  | repz => rw [Rep.breaks, hzf, Bool.not_eq_true', decide_eq_false_iff_not, Rep.Stops]

/-- The loop compares the pairs in order, as many as are visited before one that ends it. -/
theorem repLoop_compares (hz : z = 8 ∨ z = 16 ∨ z = 32) (kind : Rep) (c : ℕ) {n : ℕ}
    {pairs : ℕ → BitVec z × BitVec z} (hcount : (m.cpu.regs .ecx).toNat = c)
    (hpairs : ∀ k < n, op.pair z m k = some (pairs k))
    (hvisits : Scan.Visits (fun k ↦ kind.Stops (pairs k)) c n) :
    ∃ m', repLoop l kind op.str z c m = .ok () m' ∧
      m'.cpu.regs .ecx = m.cpu.regs .ecx - BitVec.ofNat 32 n ∧ (n = 0 → m' = m) ∧
      (0 < n → (op.shown (pairs (n - 1))).Shows m'.cpu) := by
  induction c generalizing m n pairs with
  | zero =>
    obtain rfl := hvisits.zero
    exact ⟨m, rfl, (BitVec.sub_zero _).symm, fun _ ↦ rfl, fun h ↦ absurd h (by decide)⟩
  | succ c ih =>
    have hpos : 0 < n := by
      rcases hvisits.succ with ⟨-, rfl⟩ | ⟨-, n', rfl, -⟩ <;> omega
    obtain ⟨m₁, hstr, hshows, hecx, hrest⟩ := compare_step (l := l) hz (hpairs 0 hpos)
    obtain ⟨m₂, hm₂⟩ : ∃ m₂, m₂ = m₁.mapCpu fun cpu ↦ cpu.setReg .ecx (cpu.regs .ecx - 1) :=
      ⟨_, rfl⟩
    have hne : m.cpu.regs .ecx ≠ 0 := by
      intro h
      rw [h] at hcount
      simp at hcount
    have hshows₂ : (op.shown (pairs 0)).Shows m₂.cpu := by
      rw [hm₂]
      exact hshows.of_flags rfl
    have hecx₂ : m₂.cpu.regs .ecx = m.cpu.regs .ecx - BitVec.ofNat 32 1 := by
      rw [hm₂, ← hecx]
      rfl
    have hbreaks : kind.breaks m₂.cpu = true ↔ kind.Stops (pairs 0) :=
      Rep.breaks_iff (CompareOp.shown_zf hshows₂)
    have hloop : repLoop l kind op.str z (c + 1) m =
        if kind.breaks m₂.cpu then .ok () m₂ else repLoop l kind op.str z c m₂ := by
      refine (Exec.get_bind_apply _).trans ((congrFun (if_pos hne) m).trans ?_)
      refine Exec.bind_eq hstr (Exec.bind_eq rfl ((Exec.get_bind_apply _).trans ?_))
      rw [← hm₂]
      split <;> rfl
    rcases hvisits.succ with ⟨hstop, rfl⟩ | ⟨hstop, n', rfl, hvisits'⟩
    · refine ⟨m₂, hloop.trans (if_pos (hbreaks.mpr hstop)), hecx₂, ?_, fun _ ↦ hshows₂⟩
      exact fun h ↦ absurd h (by decide)
    · have hpairs₂ (k : ℕ) (hk : k < n') : op.pair z m₂ k = some (pairs (k + 1)) := by
        have hpair : op.pair z m₂ k = op.pair z m₁ k := by rw [hm₂]; cases op <;> rfl
        rw [hpair, hrest, hpairs _ (Nat.succ_lt_succ hk)]
      have hcount₂ : (m₂.cpu.regs .ecx).toNat = c := by
        rw [hecx₂, BitVec.toNat_sub_of_le, hcount]
        · rfl
        · rw [BitVec.le_def, hcount]
          exact Nat.succ_le_succ (Nat.zero_le c)
      obtain ⟨m', hexec, hecx', hnone, hlast⟩ := ih hcount₂ hpairs₂ hvisits'
      refine ⟨m', ?_, ?_, fun h ↦ absurd h (by simp), fun _ ↦ ?_⟩
      · exact (hloop.trans (if_neg fun h ↦ hstop (hbreaks.mp h))).trans hexec
      · rw [hecx', hecx₂, BitVec.sub_sub, ← BitVec.ofNat_add, Nat.add_comm]
      · cases n' with
        | zero =>
          rw [hnone rfl]
          exact hshows₂
        | succ k => exact hlast (Nat.succ_pos k)

theorem compareOp_iff (hz : z = 8 ∨ z = 16 ∨ z = 32) (hp : op.pair z m 0 = some p) :
    op.Right h l m p ↔ op = .cmps ∨ p.1 = p.2 := by
  obtain ⟨m', hexec, hshows, -⟩ := compare_step (l := l) hz hp
  rw [← CompareOp.shown_iff hshows]
  constructor
  · rintro ⟨m₁, hexec', hright⟩
    rw [show exec h l (.str op.str z) m = str l z op.str m from rfl, hexec] at hexec'
    cases hexec'
    exact hright
  · intro hright
    exact ⟨m', hexec, hright⟩

theorem rep_compare_iff (hz : z = 8 ∨ z = 16 ∨ z = 32) {kind : Rep} {n : ℕ}
    {pairs : ℕ → BitVec z × BitVec z} (hpairs : ∀ k < n, op.pair z m k = some (pairs k))
    (hvisits : Scan.Visits (fun k ↦ kind.Stops (pairs k)) (m.cpu.regs .ecx).toNat n) :
    op.RepRight h l kind m n pairs ↔
      n = 0 ∨ op = .cmps ∨ (pairs (n - 1)).1 = (pairs (n - 1)).2 := by
  obtain ⟨m', hexec, hecx, hnone, hlast⟩ := repLoop_compares (l := l) hz kind _ rfl hpairs hvisits
  rcases Nat.eq_zero_or_pos n with hn | hn
  · refine iff_of_true ⟨m', hexec, hecx, ?_⟩ (.inl hn)
    rw [if_pos hn]
    exact hnone hn
  · rw [or_iff_right hn.ne', ← CompareOp.shown_iff (hlast hn)]
    constructor
    · rintro ⟨m₁, hexec', -, hright⟩
      rw [show exec h l (.repStr kind op.str z) m = repLoop l kind op.str z _ m from rfl,
        hexec] at hexec'
      cases hexec'
      rw [if_neg hn.ne'] at hright
      exact hright
    · intro hright
      refine ⟨m', hexec, hecx, ?_⟩
      rw [if_neg hn.ne']
      exact hright

/-- The comparisons, where their operands can be read and the destination written. -/
theorem compares_iff (h : Host) (l : Locals) {z : ℕ} (hz : z = 8 ∨ z = 16 ∨ z = 32) (m : Machine) :
    (∀ (src : Operand) (dst : Place) (d s : BitVec z), get l dst z m = .ok d m →
      get l src z m = .ok s m → ∃ m', exec h l (.arith .cmp src dst z) m = .ok () m' ∧
        (Effect.difference d s).Shows m'.cpu ∧ m'.cpu.regs = m.cpu.regs ∧ m'.mem = m.mem) ∧
    (∀ (src dst : Place) (slot : Slot) (d s : BitVec z), dst.slot l z = some slot →
      get l dst z m = .ok d m → get l src z m = .ok s m →
      ((m.cpu.regs .eax).setWidth z = d → slot.Writable m z) →
      (CmpxchgRight h l src dst slot m d s ↔ (m.cpu.regs .eax).setWidth z = d)) ∧
    (∀ (op : CompareOp) (p : BitVec z × BitVec z), op.pair z m 0 = some p →
      (op.Right h l m p ↔ op = .cmps ∨ p.1 = p.2)) ∧
    ∀ (op : CompareOp) (kind : Rep) (n : ℕ) (pairs : ℕ → BitVec z × BitVec z),
      (∀ k < n, op.pair z m k = some (pairs k)) →
      Scan.Visits (fun k ↦ kind.Stops (pairs k)) (m.cpu.regs .ecx).toNat n →
      (op.RepRight h l kind m n pairs ↔
        n = 0 ∨ op = .cmps ∨ (pairs (n - 1)).1 = (pairs (n - 1)).2) := by
  refine ⟨fun src dst d s hd hs ↦ ?_, fun _ _ _ _ _ hdst hd hs hw ↦ cmpxchg_iff hz hdst hd hs hw,
    fun _ _ hp ↦ compareOp_iff hz hp, fun _ _ _ _ hpairs hvisits ↦ rep_compare_iff hz hpairs hvisits⟩
  exact ⟨_, cmp_compared hd hs, compared_shows hz m.cpu d s, rfl, rfl⟩

end

def counted : Machine := Machine.zero.mapCpu fun cpu ↦ cpu.setReg .ecx 2

/-- In a memory of zeros `repnz scasb` finds one at once. -/
theorem compares_iff_counted :
    (∃ m', exec .zero .zero (.arith .cmp (Place.reg .ecx) (.reg .eax) 32) counted = .ok () m' ∧
      (Effect.difference 0#32 2#32).Shows m'.cpu ∧ m'.cpu.regs = counted.cpu.regs ∧
      m'.mem = counted.mem) ∧
    CmpxchgRight .zero .zero (.reg .ecx) (.reg .ebx) (.bits .ebx 0) counted 0#32 2#32 ∧
    CompareOp.cmps.Right .zero .zero counted (0#32, 0#32) ∧
    CompareOp.scas.RepRight .zero .zero .repnz counted 1 fun _ ↦ (0#8, 0#8) := by
  have hz8 : 8 = 8 ∨ 8 = 16 ∨ 8 = 32 := .inl rfl
  have hz32 : 32 = 8 ∨ 32 = 16 ∨ 32 = 32 := .inr (.inr rfl)
  have hpair (k : ℕ) (hk : k < 1) : CompareOp.scas.pair 8 counted k = some (0, 0) := by
    obtain rfl : k = 0 := by omega
    rfl
  have hvisits : Scan.Visits (fun _ ↦ Rep.Stops (0#8, 0#8) .repnz)
      (counted.cpu.regs .ecx).toNat 1 :=
    ⟨by decide, fun k hk ↦ absurd hk (by omega), .inr ⟨by decide, rfl⟩⟩
  obtain ⟨hcmp, hcmpxchg, hcompare, -⟩ := compares_iff .zero .zero hz32 counted
  refine ⟨hcmp _ _ _ _ rfl rfl, ?_, ?_, ?_⟩
  · exact (hcmpxchg _ (.reg .ebx) (.bits .ebx 0) _ _ rfl rfl rfl fun _ ↦ trivial).mpr rfl
  · exact (hcompare .cmps _ rfl).mpr (.inl rfl)
  · exact ((compares_iff .zero .zero hz8 counted).2.2.2 .scas .repnz 1 _ hpair hvisits).mpr
      (.inr (.inr rfl))

/-- `scasb` takes the accumulator from the memory, which borrows here where the architecture
does not. -/
theorem not_compare_right : ¬CompareOp.scas.Right .zero .zero
    (Machine.zero.mapCpu fun cpu ↦ cpu.setReg .eax 1) (1#8, 0#8) := by
  rintro ⟨m', hexec, hright⟩
  cases hexec
  exact absurd hright.cf (by decide)

end Isl.Emu
