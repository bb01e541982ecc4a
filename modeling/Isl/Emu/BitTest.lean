import Isl.Emu.Multiply

/-!
The bit tests. The macros read the word that an unsigned offset lies in, and write the one
at the operand's address whatever the offset.
-/

namespace Isl.Emu

open Isl.Lib Interp

/-! The architecture. -/

inductive BitOp
  | bt
  | btc
  | bts
  | btr
deriving DecidableEq

namespace BitOp

def insn (bit : Operand) (val : Place) (z : ℕ) : BitOp → Insn
  | .bt => .bt bit val z
  | .btc => .btc bit val z
  | .bts => .bts bit val z
  | .btr => .btr bit val z

def update (b : Bool) : BitOp → Bool
  | .bt => b
  | .btc => !b
  | .bts => true
  | .btr => false

end BitOp

section

variable {z : ℕ}

/-- The place of a bit in its word. -/
def bitIndex (i : BitVec z) : ℕ := (i.toInt % z).toNat

/-- The address of a word before or behind another one. -/
def wordAt (z : ℕ) (addr : Dword) (q : ℤ) : Dword := addr + BitVec.ofInt 32 (q * (z / 8 : ℕ))

/-- The word that the bit at an offset lies in. -/
def Slot.word (i : BitVec z) : Slot → Slot
  | .bits r k => .bits r k
  | .memory addr => .memory (wordAt z addr (i.toInt / z))

/-- `CF` has the bit, and it alone has changed in the registers and the memory. -/
def BitOp.Right (h : Host) (l : Locals) (bit : Operand) (val : Place) (slot : Slot) (m : Machine)
    (i t : BitVec z) (op : BitOp) : Prop :=
  ∃ m' t', exec h l (op.insn bit val z) m = .ok () m' ∧
    m'.cpu.CF = byteOf (t.getLsbD (bitIndex i)) ∧ (slot.word i).value m' z = some t' ∧
    (∀ j < z, t'.getLsbD j =
      if j = bitIndex i then op.update (t.getLsbD j) else t.getLsbD j) ∧
    (slot.word i).Frame z m m'

/-- When the macro does what the architecture says: always for a register. Of an operand in
memory, the word that is read has the right bit, and the word that is written is the right
one or changes as little as that. -/
def BitOp.Meets (m : Machine) (i t : BitVec z) (op : BitOp) : Slot → Prop
  | .bits _ _ => True
  | .memory addr =>
    (0 ≤ i.toInt ∨ ∃ u, m.mem.tlbRead (addr + BitVec.ofNat 32 (i.toNat / z * (z / 8))) z = some u ∧
      u.getLsbD (bitIndex i) = t.getLsbD (bitIndex i)) ∧
    (op = .bt ∨ (0 ≤ i.toInt ∧ i.toInt < z) ∨
      m.mem.writable addr (z / 8) ∧ ∃ w, m.mem.tlbRead addr z = some w ∧
        op.update (w.getLsbD (bitIndex i)) = w.getLsbD (bitIndex i) ∧
        op.update (t.getLsbD (bitIndex i)) = t.getLsbD (bitIndex i))

end

/-! Offsets and words. -/

section

variable {z : ℕ} {i : BitVec z}

theorem bitIndex_eq (hz : z = 8 ∨ z = 16 ∨ z = 32) (i : BitVec z) : bitIndex i = i.toNat % z := by
  have hi := i.isLt
  rw [bitIndex, BitVec.toInt_eq_toNat_cond]
  rcases hz with rfl | rfl | rfl <;> split <;> omega

/-- An offset that is not negative is read in its own word. -/
theorem word_of_nonneg (hpos : 0 ≤ i.toInt) (addr : Dword) :
    addr + BitVec.ofNat 32 (i.toNat / z * (z / 8)) = wordAt z addr (i.toInt / z) := by
  have hnat : i.toInt = i.toNat := by
    rw [BitVec.toInt_eq_toNat_cond] at hpos ⊢
    split at hpos
    · next hlt => rw [if_pos hlt]
    · have hi := i.isLt
      omega
  rw [wordAt, hnat, ← Int.natCast_ediv, ← Nat.cast_mul, BitVec.ofInt_natCast]

theorem wordAt_zero (addr : Dword) : wordAt z addr 0 = addr := by
  rw [wordAt, Int.zero_mul]
  exact BitVec.add_zero addr

/-- Two words do not overlap. -/
theorem dist_wordAt (hz : z = 8 ∨ z = 16 ∨ z = 32) (addr : Dword) {q q' : ℤ} (hne : q ≠ q')
    (hle : |q - q'| ≤ 2 ^ 28) {k : ℕ} (hk : k < z / 8) :
    z / 8 ≤ GuestMem.dist (wordAt z addr q) (wordAt z addr q' + BitVec.ofNat 32 k) := by
  have hdiff : wordAt z addr q' + BitVec.ofNat 32 k - wordAt z addr q =
      BitVec.ofInt 32 ((q' - q) * (z / 8 : ℕ) + k) := by
    have hsum : (q' - q) * (z / 8 : ℕ) + k = q' * (z / 8 : ℕ) + k + -(q * (z / 8 : ℕ)) := by
      rw [sub_mul]
      ring
    rw [hsum, BitVec.ofInt_add, BitVec.ofInt_add, BitVec.ofInt_neg, BitVec.ofInt_natCast, wordAt,
      wordAt]
    ring
  have hbound := abs_le.mp hle
  rw [GuestMem.dist, hdiff, BitVec.toNat_ofInt]
  rcases hz with rfl | rfl | rfl <;> simp at * <;> omega

theorem abs_word_sub (hz : z = 8 ∨ z = 16 ∨ z = 32) (i j : BitVec z) :
    |i.toInt / z - j.toInt / z| ≤ 2 ^ 28 := by
  obtain ⟨hi, hi'⟩ := toInt_bounds (show 0 < z by omega) i
  obtain ⟨hj, hj'⟩ := toInt_bounds (show 0 < z by omega) j
  rw [abs_le]
  rcases hz with rfl | rfl | rfl <;> simp at * <;> omega

theorem word_zero_iff (hz : z = 8 ∨ z = 16 ∨ z = 32) (i : BitVec z) :
    i.toInt / z = 0 ↔ 0 ≤ i.toInt ∧ i.toInt < z := by
  rcases hz with rfl | rfl | rfl <;> omega

end

/-! The macros. -/

/-- What the macro makes of the word that it writes, with the mask. -/
def BitOp.apply {z : ℕ} (w mask : BitVec z) : BitOp → BitVec z
  | .bt => w
  | .btc => w ^^^ mask
  | .bts => w ||| mask
  | .btr => w &&& ~~~mask

/-- The slot that the macro reads the bit from. -/
def Slot.readWord {z : ℕ} (i : BitVec z) : Slot → Slot
  | .bits r k => .bits r k
  | .memory addr => .memory (addr + BitVec.ofNat 32 (i.toNat / z * (z / 8)))

section

variable {h : Host} {l : Locals} {z : ℕ} {bit : Operand} {val : Place} {slot : Slot}
  {m m' : Machine} {i t u w : BitVec z} {op : BitOp}

theorem apply_bit (op : BitOp) (w : BitVec z) {p j : ℕ} (hj : j < z) :
    (op.apply w (1#z <<< p)).getLsbD j = if j = p then op.update (w.getLsbD j) else w.getLsbD j := by
  have hmask : (1#z <<< p).getLsbD j = decide (j = p) := by
    rw [BitVec.getLsbD_shiftLeft, BitVec.getLsbD_one]
    by_cases hp : j = p
    · simp [hp ▸ hj, hp, show 0 < z by omega]
    · by_cases hlt : j < p
      · simp [hlt, hp]
      · simp [hp, show j - p ≠ 0 by omega]
  generalize 1#z <<< p = mask at hmask ⊢
  by_cases hp : j = p
  · subst hp
    rw [decide_eq_true rfl] at hmask
    rw [if_pos rfl]
    cases op with
    | bt => rfl
    | _ =>
      simp only [BitOp.apply, BitOp.update, BitVec.getLsbD_xor, BitVec.getLsbD_or,
        BitVec.getLsbD_and, BitVec.getLsbD_not, hmask, hj]
      simp
  · rw [if_neg hp]
    cases op <;> simp only [BitOp.apply, BitVec.getLsbD_xor, BitVec.getLsbD_or,
      BitVec.getLsbD_and, BitVec.getLsbD_not, hmask, hp, hj] <;> simp

theorem readWord_register (i : BitVec z) (p : Regptr) : (p.slot z).readWord i = p.slot z := by
  rw [Regptr.slot]
  split
  · rfl
  · split <;> rfl

theorem bitWord_slot (hval : val.slot l z = some slot) (hz : z ≠ 128) (i : BitVec z) (m : Machine) :
    bitWord l i.toNat val z m =
      match (slot.readWord i).value m z with
      | some v => .ok v m
      | none => .stop (.gpf (slot.readWord i).address) m := by
  cases val with
  | modrmReg =>
    have hget := get_slot hval hz m
    cases hval
    rw [bitWord, if_neg (by simp [isMemory]), readWord_register]
    exact hget
  | modrmVal =>
    by_cases hreg : l.modrm.type = .modrmReg
    · have hget := get_slot hval hz m
      rw [Place.slot, if_pos hreg] at hval
      cases hval
      rw [bitWord, if_neg (by simp [isMemory, hreg]), readWord_register]
      exact hget
    · rw [bitWord, if_pos (by simpa [isMemory] using hreg)]
      rw [Place.slot, if_neg hreg] at hval
      cases hval
      rfl
  | memAddr =>
    cases hval
    rfl
  | reg r =>
    rw [bitWord, if_neg (by simp [isMemory]), get_slot hval hz]
    cases hval
    rfl
  | _ => cases hval

/-- With the bit that has been read. -/
def CpuState.seen (b : Bool) (cpu : CpuState) : CpuState := { cpu with cf := byteOf b }

theorem bt_ends (hz : z = 8 ∨ z = 16 ∨ z = 32) (hval : val.slot l z = some slot)
    (hi : get l bit z m = .ok i m) (hu : (slot.readWord i).value m z = some u) :
    bt l bit val z m =
      .ok () (m.mapCpu (CpuState.seen (u.getLsbD (bitIndex i)))) := by
  have hword : bitWord l i.toNat val z m = .ok u m := by rw [bitWord_slot hval (by omega), hu]
  have hbit : getBit l bit val z m = .ok (u.getLsbD (bitIndex i)) m := by
    rw [bitIndex_eq hz]
    exact Exec.bind_eq hi (Exec.bind_eq hword rfl)
  exact Exec.bind_eq hbit rfl

theorem bt_stops (hz : z ≠ 128) (hval : val.slot l z = some slot) (hi : get l bit z m = .ok i m)
    (hu : (slot.readWord i).value m z = none) : ∃ e m', bt l bit val z m = .stop e m' := by
  have hword : bitWord l i.toNat val z m = .stop (.gpf (slot.readWord i).address) m := by
    rw [bitWord_slot hval hz, hu]
  refine ⟨_, m, Exec.bind_stop (Exec.bind_eq hi (Exec.bind_stop hword _)) _⟩

theorem set_stores (hz : z = 8 ∨ z = 16 ∨ z = 32) (hop : op ≠ .bt)
    (hval : val.slot l z = some slot) (hi : get l bit z m = .ok i m)
    (hu : (slot.readWord i).value m z = some u) (hw : slot.value m z = some w) :
    slot.Stores m (op.apply w (1#z <<< bitIndex i))
      (CpuState.seen (u.getLsbD (bitIndex i)))
      (exec h l (op.insn bit val z) m) := by
  have hkeeps : KeepsRegs (CpuState.seen (u.getLsbD (bitIndex i))) :=
    ⟨fun _ ↦ rfl, fun _ _ _ ↦ rfl⟩
  have hget : get l val z (m.mapCpu (CpuState.seen (u.getLsbD (bitIndex i)))) =
      .ok w (m.mapCpu (CpuState.seen (u.getLsbD (bitIndex i)))) := by
    rw [get_mapCpu (CpuState.seen _) (by omega) hval fun _ ↦ rfl, hw]
  have hset : exec h l (op.insn bit val z) m = set l val (op.apply w (1#z <<< bitIndex i))
      (m.mapCpu (CpuState.seen (u.getLsbD (bitIndex i)))) := by
    have hi' : get l bit z (m.mapCpu (CpuState.seen (u.getLsbD (bitIndex i)))) = .ok i _ :=
      get_same hi (Machine.Same.refl m).setCf
    rw [bitIndex_eq hz] at *
    have hbt := bt_ends hz hval hi hu
    rw [bitIndex_eq hz] at hbt
    cases op with
    | bt => exact absurd rfl hop
    | _ => exact Exec.bind_eq hbt (Exec.bind_eq hget (Exec.bind_eq (Exec.bind_eq hi' rfl) rfl))
  rw [hset, set_slot hval (by omega), store_mapCpu hkeeps, Slot.Stores]
  cases slot.store m (op.apply w (1#z <<< bitIndex i)) with
  | none => exact ⟨_, rfl⟩
  | some m' => rfl

/-- Reads that fail stop the macro. -/
theorem insn_reads (hz : z = 8 ∨ z = 16 ∨ z = 32) (hval : val.slot l z = some slot)
    (hi : get l bit z m = .ok i m) (hexec : exec h l (op.insn bit val z) m = .ok () m') :
    (∃ u, (slot.readWord i).value m z = some u) ∧ (op ≠ .bt → ∃ w, slot.value m z = some w) := by
  have hread : ∃ u, (slot.readWord i).value m z = some u := by
    rw [← Option.isSome_iff_exists, ← Option.ne_none_iff_isSome]
    intro hnone
    obtain ⟨e, m₁, hstop⟩ := bt_stops (by omega) hval hi hnone
    cases op with
    | bt =>
      rw [show exec h l (BitOp.bt.insn bit val z) m = bt l bit val z m from rfl, hstop] at hexec
      cases hexec
    | _ =>
      have hset := (Exec.bind_stop hstop _).symm.trans hexec
      cases hset
  refine ⟨hread, fun hop ↦ ?_⟩
  obtain ⟨u, hu⟩ := hread
  rw [← Option.isSome_iff_exists, ← Option.ne_none_iff_isSome]
  intro hnone
  have hbt := bt_ends hz hval hi hu
  have hget : get l val z (m.mapCpu (CpuState.seen (u.getLsbD (bitIndex i)))) =
      .stop (.gpf slot.address)
        (m.mapCpu (CpuState.seen (u.getLsbD (bitIndex i)))) := by
    rw [get_mapCpu (CpuState.seen _) (by omega) hval fun _ ↦ rfl, hnone]
  cases op with
  | bt => exact hop rfl
  | _ =>
    have hset := (Exec.bind_eq hbt (Exec.bind_stop hget _)).symm.trans hexec
    cases hset

theorem bt_right (hz : z = 8 ∨ z = 16 ∨ z = 32) (hval : val.slot l z = some slot)
    (hi : get l bit z m = .ok i m) (ht : (slot.word i).value m z = some t)
    (hu : (slot.readWord i).value m z = some u)
    (hbit : u.getLsbD (bitIndex i) = t.getLsbD (bitIndex i)) :
    BitOp.bt.Right h l bit val slot m i t := by
  refine ⟨_, t, bt_ends hz hval hi hu, congrArg byteOf hbit, ?_, fun j _ ↦ ?_, fun _ _ _ _ ↦ rfl,
    fun _ _ ↦ rfl⟩
  · rw [← ht]
    exact Slot.value_congr rfl rfl
  · rw [BitOp.update, ite_self]

/-- The word that is written is the right one. -/
theorem set_right (hz : z = 8 ∨ z = 16 ∨ z = 32) (hop : op ≠ .bt) (hval : val.slot l z = some slot)
    (hi : get l bit z m = .ok i m) (hword : slot.word i = slot) (ht : slot.value m z = some t)
    (hw : slot.Writable m z) (hu : (slot.readWord i).value m z = some u)
    (hbit : u.getLsbD (bitIndex i) = t.getLsbD (bitIndex i)) :
    op.Right h l bit val slot m i t := by
  have hstores := set_stores (h := h) hz hop hval hi hu ht
  obtain ⟨m', hexec, hget, hframe, regs, hcpu⟩ := hstores.ends hz hval hw fun _ ↦ rfl
  refine ⟨m', _, hexec, ?_, ?_, fun j hj ↦ apply_bit op t hj, ?_⟩
  · rw [hcpu, ← hbit]
    rfl
  · rw [hword]
    exact value_of_get (by omega) hval hget
  · rwa [hword]

/-- The bytes are the same after a store that leaves its value as it was. -/
theorem load_of_unchanged (hz : z = 8 ∨ z = 16 ∨ z = 32) {addr : Dword}
    (hw : m.mem.tlbRead addr z = some w) (hw' : m'.mem.tlbRead addr z = some w)
    (hframe : (Slot.memory addr).Frame z m m') (x : Dword) : m'.mem.load x = m.mem.load x := by
  have hdvd : 8 ∣ z := by rcases hz with rfl | rfl | rfl <;> decide
  by_cases htouch : GuestMem.dist addr x < z / 8
  · rw [← GuestMem.add_dist addr x]
    exact GuestMem.load_eq_of_tlbRead hw hw' hdvd htouch
  · exact hframe.mem x htouch

/-- Neither the word that is written nor the right one changes. -/
theorem settled_right (hz : z = 8 ∨ z = 16 ∨ z = 32) (hop : op ≠ .bt) {addr : Dword}
    (hval : val.slot l z = some (.memory addr)) (hi : get l bit z m = .ok i m)
    (ht : ((Slot.memory addr).word i).value m z = some t)
    (hw : m.mem.tlbRead addr z = some w) (hwr : m.mem.writable addr (z / 8))
    (hu : ((Slot.memory addr).readWord i).value m z = some u)
    (hbit : u.getLsbD (bitIndex i) = t.getLsbD (bitIndex i))
    (hwbit : op.update (w.getLsbD (bitIndex i)) = w.getLsbD (bitIndex i))
    (htbit : op.update (t.getLsbD (bitIndex i)) = t.getLsbD (bitIndex i)) :
    op.Right h l bit val (.memory addr) m i t := by
  have hsame : op.apply w (1#z <<< bitIndex i) = w := by
    apply BitVec.eq_of_getLsbD_eq
    intro j hj
    rw [apply_bit op w hj]
    split
    · next hidx => rw [hidx, hwbit]
    · rfl
  have hstores := set_stores (h := h) hz hop hval hi hu hw
  rw [hsame] at hstores
  obtain ⟨m', hexec, hget, hframe, regs, hcpu⟩ := hstores.ends hz hval hwr fun _ ↦ rfl
  have hload := load_of_unchanged hz hw (value_of_get (by omega) hval hget) hframe
  refine ⟨m', t, hexec, ?_, ?_, fun j hj ↦ ?_, ?_, fun x _ ↦ hload x⟩
  · rw [hcpu, ← hbit]
    rfl
  · rw [← ht]
    exact GuestMem.tlbRead_congr fun k _ ↦ hload _
  · split
    · next hidx => rw [hidx, htbit]
    · rfl
  · exact fun r j hj _ ↦ hframe.regs r j hj id

/-- What an instruction has done that ends. -/
theorem insn_done (hz : z = 8 ∨ z = 16 ∨ z = 32) (hval : val.slot l z = some slot)
    (hi : get l bit z m = .ok i m) (hexec : exec h l (op.insn bit val z) m = .ok () m') :
    ∃ u, (slot.readWord i).value m z = some u ∧ m'.cpu.cf = byteOf (u.getLsbD (bitIndex i)) ∧
      (op = .bt ∨ ∃ w, slot.value m z = some w ∧ slot.Writable m z ∧
        slot.value m' z = some (op.apply w (1#z <<< bitIndex i)) ∧ slot.Frame z m m') := by
  obtain ⟨⟨u, hu⟩, hread⟩ := insn_reads hz hval hi hexec
  refine ⟨u, hu, ?_⟩
  by_cases hop : op = .bt
  · subst hop
    have hbt := (bt_ends hz hval hi hu).symm.trans hexec
    cases hbt
    exact ⟨rfl, .inl rfl⟩
  · obtain ⟨w, hw⟩ := hread hop
    have hstores := set_stores (h := h) hz hop hval hi hu hw
    have hwr := (hexec ▸ hstores).writable
    obtain ⟨m₁, hexec', hget, hframe, regs, hcpu⟩ := hstores.ends hz hval hwr fun _ ↦ rfl
    rw [hexec] at hexec'
    cases hexec'
    exact ⟨by rw [hcpu]; rfl, .inr ⟨w, hw, hwr, value_of_get (by omega) hval hget, hframe⟩⟩

/-- A word is as it was after a store to another one. -/
theorem tlbRead_other (hz : z = 8 ∨ z = 16 ∨ z = 32) {addr : Dword} {q q' : ℤ} (hne : q ≠ q')
    (hle : |q - q'| ≤ 2 ^ 28) (hframe : (Slot.memory (wordAt z addr q)).Frame z m m') :
    m'.mem.tlbRead (wordAt z addr q') z = m.mem.tlbRead (wordAt z addr q') z := by
  apply GuestMem.tlbRead_congr
  intro k hk
  exact hframe.mem _ (Nat.not_lt.mpr (dist_wordAt hz addr hne hle hk))

theorem meets_of_right (hz : z = 8 ∨ z = 16 ∨ z = 32) {addr : Dword}
    (hval : val.slot l z = some (.memory addr)) (hi : get l bit z m = .ok i m)
    (ht : ((Slot.memory addr).word i).value m z = some t)
    (hright : op.Right h l bit val (.memory addr) m i t) : op.Meets m i t (.memory addr) := by
  obtain ⟨m', t', hexec, hcf, ht', hbits, hframe⟩ := hright
  have hidx : bitIndex i < z := by
    rw [bitIndex_eq hz]
    exact Nat.mod_lt _ (by omega)
  obtain ⟨u, hu, hcf', hset⟩ := insn_done hz hval hi hexec
  refine ⟨.inr ⟨u, hu, byteOf_inj.mp (hcf'.symm.trans hcf)⟩, ?_⟩
  rcases hset with hbt | ⟨w, hw, hwr, hw', hframe'⟩
  · exact .inl hbt
  · by_cases hown : i.toInt / z = 0
    · exact .inr (.inl ((word_zero_iff hz i).mp hown))
    · have hle := abs_word_sub hz i (0 : BitVec z)
      rw [BitVec.ofNat_eq_ofNat, BitVec.toInt_zero, Int.zero_ediv] at hle
      rw [← wordAt_zero (z := z) addr] at hframe'
      have hright := tlbRead_other hz (Ne.symm hown) (by rwa [abs_sub_comm]) hframe'
      have hbase := tlbRead_other hz hown hle hframe
      rw [wordAt_zero] at hbase
      have hwsame : op.apply w (1#z <<< bitIndex i) = w :=
        Option.some.inj (hw'.symm.trans (hbase.trans hw))
      have htsame : t' = t := Option.some.inj (ht'.symm.trans (hright.trans ht))
      refine .inr (.inr ⟨hwr, w, hw, ?_, ?_⟩)
      · have hbit := congrArg (fun x ↦ x.getLsbD (bitIndex i)) hwsame
        simpa [apply_bit op w hidx] using hbit
      · have hbit := hbits _ hidx
        rw [if_pos rfl, htsame] at hbit
        exact hbit.symm

theorem bit_right_iff (hz : z = 8 ∨ z = 16 ∨ z = 32) (hval : val.slot l z = some slot)
    (hi : get l bit z m = .ok i m) (ht : (slot.word i).value m z = some t)
    (hwr : op ≠ .bt → (slot.word i).Writable m z) :
    op.Right h l bit val slot m i t ↔ op.Meets m i t slot := by
  cases slot with
  | bits r k =>
    refine iff_of_true ?_ trivial
    by_cases hop : op = .bt
    · subst hop
      exact bt_right hz hval hi ht ht rfl
    · exact set_right hz hop hval hi rfl ht (hwr hop) ht rfl
  | memory addr =>
    refine ⟨meets_of_right hz hval hi ht, ?_⟩
    rintro ⟨hread, hset⟩
    obtain ⟨u, hu, hbit⟩ : ∃ u, ((Slot.memory addr).readWord i).value m z = some u ∧
        u.getLsbD (bitIndex i) = t.getLsbD (bitIndex i) := by
      rcases hread with hpos | hread
      · refine ⟨t, ?_, rfl⟩
        rw [Slot.readWord, word_of_nonneg hpos]
        exact ht
      · exact hread
    by_cases hop : op = .bt
    · subst hop
      exact bt_right hz hval hi ht hu hbit
    · rcases hset.resolve_left hop with hown | ⟨hwr', w, hw, hwbit, htbit⟩
      · have hword : (Slot.memory addr).word i = .memory addr := by
          rw [Slot.word, (word_zero_iff hz i).mpr hown, wordAt_zero]
        rw [hword] at ht hwr
        exact set_right hz hop hval hi hword ht (hwr hop) hu hbit
      · exact settled_right hz hop hval hi ht hw hwr' hu hbit hwbit htbit

end

/-! A bitmap. -/

section

variable {z : ℕ}

/-- The bit at an offset from an address, where it can be read. -/
def Machine.bitAt (m : Machine) (addr : Dword) (i : BitVec z) : Option Bool :=
  (((Slot.memory addr).word i).value m z).map fun t ↦ t.getLsbD (bitIndex i)

/-- Instructions on the bits at one address, with what each has put into `CF`. What is done
between two of them keeps the memory. -/
inductive BitRun (h : Host) (z : ℕ) (addr : Dword) :
    Machine → List (BitOp × BitVec z × Bool) → Machine → Prop
  | nil (m : Machine) : BitRun h z addr m [] m
  | cons {l : Locals} {bit : Operand} {val : Place} {op : BitOp} {m m₁ m₂ m' : Machine}
      {i t : BitVec z} {b : Bool} {steps : List (BitOp × BitVec z × Bool)} :
      val.slot l z = some (.memory addr) → get l bit z m = .ok i m →
      ((Slot.memory addr).word i).value m z = some t →
      (op ≠ .bt → ((Slot.memory addr).word i).Writable m z) → op.Meets m i t (.memory addr) →
      exec h l (op.insn bit val z) m = .ok () m₁ → m₁.cpu.CF = byteOf b → m₂.mem = m₁.mem →
      BitRun h z addr m₂ steps m' → BitRun h z addr m ((op, i, b) :: steps) m'

/-- The same on an array of independent bits. -/
def OnArray : List (BitOp × BitVec z × Bool) → (BitVec z → Option Bool) →
    (BitVec z → Option Bool) → Prop
  | [], a, a' => a' = a
  | (op, i, b) :: steps, a, a' =>
    a i = some b ∧ OnArray steps (Function.update a i (some (op.update b))) a'

variable {h : Host} {addr : Dword} {m m' : Machine} {i j t : BitVec z} {op : BitOp}

/-- Two offsets with one place in one word are the same. -/
theorem offset_ext (hz : 0 < z) (hword : i.toInt / z = j.toInt / z)
    (hidx : bitIndex i = bitIndex j) : i = j := by
  have hne : (z : ℤ) ≠ 0 := by omega
  have hmod : i.toInt % z = j.toInt % z := by
    rw [← Int.toNat_of_nonneg (Int.emod_nonneg i.toInt hne),
      ← Int.toNat_of_nonneg (Int.emod_nonneg j.toInt hne)]
    exact congrArg Int.ofNat hidx
  apply BitVec.toInt_inj.mp
  rw [← Int.emod_add_mul_ediv i.toInt z, ← Int.emod_add_mul_ediv j.toInt z, hmod, hword]

/-- One bit changes, and every other one stays. -/
theorem bitAt_update (hz : z = 8 ∨ z = 16 ∨ z = 32) {t' : BitVec z}
    (ht' : ((Slot.memory addr).word i).value m' z = some t')
    (ht : ((Slot.memory addr).word i).value m z = some t)
    (hbits : ∀ k < z, t'.getLsbD k = if k = bitIndex i then op.update (t.getLsbD k) else t.getLsbD k)
    (hframe : ((Slot.memory addr).word i).Frame z m m') (j : BitVec z) :
    m'.bitAt addr j =
      Function.update (m.bitAt addr) i (some (op.update (t.getLsbD (bitIndex i)))) j := by
  have hidx (k : BitVec z) : bitIndex k < z := by
    rw [bitIndex_eq hz]
    exact Nat.mod_lt _ (by omega)
  by_cases hij : j = i
  · subst hij
    rw [Function.update_self, Machine.bitAt, ht', Option.map_some, hbits _ (hidx _), if_pos rfl]
  · rw [Function.update_of_ne hij]
    by_cases hword : i.toInt / z = j.toInt / z
    · have hsame : (Slot.memory addr).word j = (Slot.memory addr).word i := by
        rw [Slot.word, Slot.word, hword]
      rw [Machine.bitAt, Machine.bitAt, hsame, ht', ht, Option.map_some, Option.map_some,
        hbits _ (hidx j), if_neg fun h ↦ hij (offset_ext (by omega) hword.symm h)]
    · have hother := tlbRead_other hz hword (abs_word_sub hz i j) hframe
      exact congrArg (Option.map fun t ↦ t.getLsbD (bitIndex j)) hother

theorem BitRun.onArray (hz : z = 8 ∨ z = 16 ∨ z = 32) {steps : List (BitOp × BitVec z × Bool)}
    (hrun : BitRun h z addr m steps m') : OnArray steps (m.bitAt addr) (m'.bitAt addr) := by
  induction hrun with
  | nil m => rfl
  | @cons l bit val op m m₁ m₂ m' i t b steps hval hi ht hwr hmeets hexec hcf hmem _ ih =>
    obtain ⟨m₁', t', hexec', hcf', ht', hbits, hframe⟩ :=
      (bit_right_iff (h := h) hz hval hi ht hwr).mpr hmeets
    rw [hexec] at hexec'
    cases hexec'
    have hb : t.getLsbD (bitIndex i) = b := byteOf_inj.mp (hcf'.symm.trans hcf)
    have hbits₂ : m₂.bitAt addr = Function.update (m.bitAt addr) i (some (op.update b)) := by
      funext j
      have hsame : m₂.bitAt addr j = m₁.bitAt addr j := by
        rw [Machine.bitAt, Machine.bitAt, Slot.word, Slot.value, Slot.value, hmem]
      rw [hsame, bitAt_update hz ht' ht hbits hframe, hb]
    rw [hbits₂] at ih
    refine ⟨?_, ih⟩
    rw [Machine.bitAt, ht, Option.map_some, hb]

end

/-- The bit tests, where the right word is accessible, and runs of them on a bitmap. -/
theorem bit_tests_iff (h : Host) {z : ℕ} (hz : z = 16 ∨ z = 32) :
    (∀ (op : BitOp) (l : Locals) (bit : Operand) (val : Place) (slot : Slot) (m : Machine)
      (i t : BitVec z), val.slot l z = some slot → get l bit z m = .ok i m →
      (slot.word i).value m z = some t → (op ≠ .bt → (slot.word i).Writable m z) →
      (op.Right h l bit val slot m i t ↔ op.Meets m i t slot)) ∧
    ∀ (addr : Dword) (m m' : Machine) (steps : List (BitOp × BitVec z × Bool)),
      BitRun h z addr m steps m' → OnArray steps (m.bitAt addr) (m'.bitAt addr) :=
  ⟨fun _ _ _ _ _ _ _ _ hval hi ht hwr ↦ bit_right_iff (.inr hz) hval hi ht hwr,
    fun _ _ _ _ hrun ↦ hrun.onArray (.inr hz)⟩

def bitmap : Locals := { Locals.zero with addr := 0x100 }

def withOffset (i : Dword) : Machine := Machine.zero.mapCpu fun cpu ↦ cpu.setReg .ecx i

/-- Bit 5 of a bitmap, set and then read. -/
theorem bit_tests_iff_five :
    BitOp.btc.Right .zero bitmap (Place.reg .ecx) .memAddr (.memory 0x100) (withOffset 5) 5#32 0 ∧
    ∃ m', BitRun .zero 32 0x100 (withOffset 5) [(.bts, 5, false), (.bt, 5, true)] m' ∧
      OnArray [(.bts, 5#32, false), (.bt, 5, true)] ((withOffset 5).bitAt 0x100)
        (m'.bitAt 0x100) := by
  have hz : 32 = 16 ∨ 32 = 32 := .inr rfl
  constructor
  · exact ((bit_tests_iff .zero hz).1 .btc bitmap (Place.reg .ecx) .memAddr (.memory 0x100) _ _ _
      rfl rfl rfl fun _ _ _ ↦ rfl).mpr ⟨.inl (by decide), .inr (.inl (by decide))⟩
  · obtain ⟨m', hrun⟩ : ∃ m', BitRun .zero 32 0x100 (withOffset 5)
        [(.bts, 5#32, false), (.bt, 5, true)] m' :=
      ⟨_, @BitRun.cons _ _ _ bitmap (Place.reg .ecx) .memAddr _ _ _ _ _ _ 0 _ _ rfl rfl rfl
        (fun _ _ _ ↦ rfl) ⟨.inl (by decide), .inr (.inl (by decide))⟩ rfl rfl rfl
        (@BitRun.cons _ _ _ bitmap (Place.reg .ecx) .memAddr _ _ _ _ _ _ 32 _ _ rfl rfl rfl
          (fun _ _ _ ↦ rfl) ⟨.inl (by decide), .inl rfl⟩ rfl rfl rfl (.nil _))⟩
    exact ⟨m', hrun, (bit_tests_iff .zero hz).2 _ _ _ _ hrun⟩

/-- `bts` of bit 32 sets bit 0 instead. -/
theorem not_bit_right : ¬BitOp.bts.Right .zero bitmap (Place.reg .ecx) .memAddr (.memory 0x100)
    (withOffset 32) 32#32 0 := by
  intro h
  obtain ⟨-, hset⟩ := meets_of_right (.inr (.inr rfl)) rfl rfl rfl h
  rcases hset with hop | hown | ⟨-, w, -, -, htbit⟩
  · cases hop
  · exact absurd hown (by decide)
  · exact absurd htbit (by decide)

end Isl.Emu
