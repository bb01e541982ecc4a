import Isl.Emu.FlagRun
import Isl.Emu.Restart

/-!
`REP MOVS` and `REP STOS` on whole blocks of memory, in either direction.
-/

namespace Isl.Emu

open Isl.Lib Interp Memory

namespace GuestMem

def filled (g : GuestMem) (a : Addr) (bs : List Byte) (lo hi : ℕ) : GuestMem :=
  { g with byte := fun x ↦
      if lo ≤ dist a x ∧ dist a x < hi then bs.getD (dist a x) 0 else g.byte x }

section

variable {g : GuestMem} {a x : Addr} {bs xs : List Byte} {lo hi lo' hi' c n : ℕ}

theorem byte_userWrite_of_writable (hw : g.writable a xs.length) (hlen : xs.length ≤ 2 ^ 32)
    (x : Addr) :
    (g.userWrite a xs).1.byte x =
      if dist a x < xs.length then xs.getD (dist a x) 0 else g.byte x := by
  induction xs generalizing g a with
  | nil => exact (if_neg (Nat.not_lt_zero _)).symm
  | cons b xs ih =>
    have hperm : g.perm (page a) = .readWrite := by
      have h := hw 0 (Nat.succ_pos _)
      rwa [BitVec.add_zero] at h
    have hs : g.store a b = some { g with byte := Function.update g.byte a b } :=
      store_eq_some.mpr ⟨hperm, rfl⟩
    rw [List.length_cons] at hlen hw ⊢
    rw [userWrite, hs]
    refine (ih (writable_succ_of_store hs hw) (by omega)).trans ?_
    by_cases hx : x = a
    · subst hx
      have hfar : ¬dist (x + 1) x < xs.length := by
        have hxl := x.isLt
        have h1 : (1 : Addr).toNat = 1 := rfl
        simp only [dist, BitVec.toNat_sub, BitVec.toNat_add, h1]
        omega
      have hself : dist x x = 0 := by simp [dist]
      rw [if_neg hfar, hself, if_pos (Nat.succ_pos _), List.getD_cons_zero]
      exact Function.update_self ..
    · rw [dist_succ hx, List.getD_cons_succ]
      simp only [Nat.succ_lt_succ_iff, Function.update_of_ne hx]

theorem userWrite_eq_filled (hw : g.writable a xs.length) (hlen : xs.length ≤ 2 ^ 32) :
    (g.userWrite a xs).1 = g.filled a xs 0 xs.length := by
  have hbyte : (g.userWrite a xs).1.byte = (g.filled a xs 0 xs.length).byte := by
    funext x
    rw [byte_userWrite_of_writable hw hlen, filled]
    simp only [Nat.zero_le, true_and]
  calc (g.userWrite a xs).1
    _ = ⟨(g.userWrite a xs).1.perm, (g.userWrite a xs).1.byte⟩ := rfl
    _ = _ := by rw [perm_userWrite, hbyte]; rfl

theorem dist_add_left (hc : c ≤ 2 ^ 32) (hx : c ≤ dist a x) :
    dist (a + BitVec.ofNat 32 c) x = dist a x - c := by
  have hxl := x.isLt
  have hal := a.isLt
  simp only [dist, BitVec.toNat_sub, BitVec.toNat_add, BitVec.toNat_ofNat] at hx ⊢
  omega

theorem dist_add_left_of_lt (hc : c ≤ 2 ^ 32) (hx : dist a x < c) :
    dist (a + BitVec.ofNat 32 c) x = 2 ^ 32 + dist a x - c := by
  have hxl := x.isLt
  have hal := a.isLt
  simp only [dist, BitVec.toNat_sub, BitVec.toNat_add, BitVec.toNat_ofNat] at hx ⊢
  omega

theorem filled_self : g.filled a bs n n = g := by
  rw [filled]
  have hnone (x : Addr) : ¬(n ≤ dist a x ∧ dist a x < n) := by omega
  simp only [hnone, if_false]

theorem tlbWrite_filled {w : ℕ} {v : BitVec w} (hw : g.writable a bs.length)
    (hlen : bs.length ≤ 2 ^ 32) (hc : c + w / 8 ≤ bs.length)
    (hv : Layout.leBytes (w / 8) v.toNat = (bs.drop c).take (w / 8))
    (hunion : ∀ i, lo' ≤ i ∧ i < hi' ↔ lo ≤ i ∧ i < hi ∨ c ≤ i ∧ i < c + w / 8) :
    (g.filled a bs lo hi).tlbWrite (a + BitVec.ofNat 32 c) v = some (g.filled a bs lo' hi') := by
  have hlen' : (Layout.leBytes (w / 8) v.toNat).length = w / 8 := Layout.leBytes_length _ _
  have hwrite : (g.filled a bs lo hi).writable (a + BitVec.ofNat 32 c) (w / 8) := by
    intro i hi
    rw [BitVec.add_assoc, ← BitVec.ofNat_add]
    exact hw (c + i) (by omega)
  rw [tlbWrite, if_pos hwrite, userWrite_eq_filled (hlen'.symm ▸ hwrite) (by omega), hlen']
  congr 1
  rw [filled, filled, filled]
  congr 1
  funext x
  dsimp only
  have hget (i : ℕ) (hi : i < w / 8) :
      (Layout.leBytes (w / 8) v.toNat).getD i 0 = bs.getD (c + i) 0 := by
    rw [hv, List.getD_eq_getElem?_getD, List.getD_eq_getElem?_getD, List.getElem?_take_of_lt hi,
      List.getElem?_drop]
  by_cases hx : c ≤ dist a x
  · rw [dist_add_left (by omega) hx]
    by_cases hin : dist a x - c < w / 8
    · rw [if_pos ⟨Nat.zero_le _, hin⟩, if_pos ((hunion _).mpr (.inr ⟨hx, by omega⟩)), hget _ hin,
        Nat.add_sub_cancel' hx]
    · rw [if_neg fun h ↦ hin h.2]
      refine if_congr ((hunion _).trans (or_iff_left ?_)).symm rfl rfl
      omega
  · rw [dist_add_left_of_lt (by omega) (not_le.mp hx)]
    have hout : ¬(0 ≤ 2 ^ 32 + dist a x - c ∧ 2 ^ 32 + dist a x - c < w / 8) := by omega
    rw [if_neg hout]
    exact if_congr ((hunion _).trans (or_iff_left fun h ↦ hx h.1)).symm rfl rfl

theorem load_filled (hx : dist a x < lo ∨ hi ≤ dist a x) :
    (g.filled a bs lo hi).load x = g.load x := by
  have hout : ¬(lo ≤ dist a x ∧ dist a x < hi) := by omega
  rw [load, load, filled]
  simp only [if_neg hout]

end

end GuestMem

/-- The lowest address of a block that a register goes through in `n` steps. -/
def CpuState.low (z n : ℕ) (cpu : CpuState) (r : Reg32) : Addr :=
  if cpu.flag .df then cpu.regs r - BitVec.ofNat 32 ((n - 1) * (z / 8)) else cpu.regs r

/-- The element that step `j` is at, counted in bytes from the lowest address. -/
def CpuState.offset (z n j : ℕ) (cpu : CpuState) : ℕ :=
  if cpu.flag .df then (n - 1 - j) * (z / 8) else j * (z / 8)

def CpuState.after (z j : ℕ) (op : MoveOp) (cpu : CpuState) : CpuState :=
  { cpu with regs := fun r ↦
      if r = .ecx then cpu.regs .ecx - BitVec.ofNat 32 j
      else if r = .esi ∧ op ≠ .stos ∨ r = .edi ∧ op ≠ .lods then cpu.regs r + advance z j cpu
      else cpu.regs r }

/-- The block after `j` of `n` iterations. -/
def Machine.midway (z n j : ℕ) (op : MoveOp) (bs : List Byte) (m : Machine) : Machine where
  cpu := m.cpu.after z j op
  mem :=
    if m.cpu.flag .df then m.mem.filled (m.cpu.low z n .edi) bs ((n - j) * (z / 8)) (n * (z / 8))
    else m.mem.filled (m.cpu.low z n .edi) bs 0 (j * (z / 8))
  rounding := m.rounding

section

variable {z n j k : ℕ} {op : MoveOp} {cpu : CpuState} {m : Machine} {bs : List Byte} {r : Reg32}

theorem low_add_offset (hj : j < n) :
    cpu.low z n r + BitVec.ofNat 32 (cpu.offset z n j) = cpu.regs r + advance z j cpu := by
  rw [CpuState.low, CpuState.offset, advance]
  cases cpu.flag .df with
  | false => rfl
  | true =>
    have hsplit : (n - 1) * (z / 8) = (n - 1 - j) * (z / 8) + j * (z / 8) := by
      rw [← Nat.add_mul, Nat.sub_add_cancel (by omega)]
    simp only [if_true]
    rw [hsplit, BitVec.ofNat_add]
    grind

theorem after_zero : cpu.after z 0 op = cpu := by
  have hregs : (cpu.after z 0 op).regs = cpu.regs := by
    funext r
    simp only [CpuState.after, advance_zero, BitVec.add_zero, BitVec.sub_zero, ite_self]
    split
    · rw [‹r = .ecx›]
    · rfl
  exact congrArg (fun regs ↦ { cpu with regs := regs }) hregs

/-- The registers that an iteration moves on. -/
def MoveOp.bump (z : ℕ) (m : Machine) : MoveOp → Machine
  | .movs => (m.bumped z .esi).bumped z .edi
  | .stos => m.bumped z .edi
  | .lods => m.bumped z .esi

variable (op) in
theorem after_succ (g : GuestMem) (ρ : RoundingMode) :
    (op.bump z ⟨cpu.after z j op, g, ρ⟩).counted = ⟨cpu.after z (j + 1) op, g, ρ⟩ := by
  have hadvance : advance z (j + 1) cpu = advance z j cpu + advance z 1 cpu := advance_add z j 1 cpu
  have hone : BitVec.ofNat 32 (j + 1) = BitVec.ofNat 32 j + 1 := BitVec.ofNat_add j 1
  have hdf (regs : Reg32 → Dword) : advance z 1 { cpu with regs := regs } = advance z 1 cpu := rfl
  have hregs : (op.bump z ⟨cpu.after z j op, g, ρ⟩).counted.cpu.regs = (cpu.after z (j + 1) op).regs := by
    funext r
    cases op <;> cases r <;> simp [MoveOp.bump, Machine.bumped, Machine.counted, Machine.mapCpu,
      CpuState.setReg, CpuState.after, Function.update, hadvance, hone, hdf, BitVec.add_assoc,
      BitVec.sub_sub]
  cases op <;> exact congrArg (fun regs ↦ Machine.mk { cpu with regs := regs } g ρ) hregs

def element (z : ℕ) (bs : List Byte) (c : ℕ) : BitVec z :=
  BitVec.ofNat z (Layout.leNat ((bs.drop c).take (z / 8)))

theorem pow_bytes (hz : 8 ∣ z) : 256 ^ (z / 8) = 2 ^ z := by
  rw [show 256 = 2 ^ 8 from rfl, ← Nat.pow_mul, Nat.mul_div_cancel' hz]

theorem leBytes_element (hz : 8 ∣ z) {c : ℕ} (hc : c + z / 8 ≤ bs.length) :
    Layout.leBytes (z / 8) (element z bs c).toNat = (bs.drop c).take (z / 8) := by
  have hlen : ((bs.drop c).take (z / 8)).length = z / 8 := by
    rw [List.length_take, List.length_drop]
    omega
  rw [element, BitVec.toNat_ofNat, ← pow_bytes hz, Layout.leBytes_mod]
  nth_rewrite 1 [← hlen]
  exact Layout.leBytes_leNat _

variable (z cpu) in
theorem offset_eq (hj : j < n) : ∃ q < n, cpu.offset z n j = q * (z / 8) := by
  rw [CpuState.offset]
  split
  · exact ⟨n - 1 - j, by omega, rfl⟩
  · exact ⟨j, hj, rfl⟩

variable (z cpu) in
theorem offset_le (hj : j < n) : cpu.offset z n j + z / 8 ≤ n * (z / 8) := by
  obtain ⟨q, hq, heq⟩ := offset_eq z cpu hj
  rw [heq, ← Nat.succ_mul]
  exact Nat.mul_le_mul_right _ hq

theorem midway_zero : m.midway z n 0 op bs = m := by
  rw [Machine.midway, after_zero, Nat.sub_zero, Nat.zero_mul, GuestMem.filled_self,
    GuestMem.filled_self, ite_self]

variable (op) in
theorem midway_write (hz : 8 ∣ z) (hj : j < n) (hlen : bs.length = n * (z / 8))
    (hsize : bs.length ≤ 2 ^ 32) (hw : m.mem.writable (m.cpu.low z n .edi) bs.length) :
    (m.midway z n j op bs).mem.tlbWrite (m.cpu.low z n .edi + BitVec.ofNat 32 (m.cpu.offset z n j))
      (element z bs (m.cpu.offset z n j)) = some (m.midway z n (j + 1) op bs).mem := by
  have hc := hlen ▸ offset_le z m.cpu hj
  have hv := leBytes_element hz hc
  rw [Machine.midway, Machine.midway]
  dsimp only
  cases hdf : m.cpu.flag .df with
  | true =>
    have hlow : n - j = n - 1 - j + 1 := by omega
    have hoffset : m.cpu.offset z n j = (n - 1 - j) * (z / 8) := by rw [CpuState.offset, if_pos hdf]
    have hnext : n - (j + 1) = n - 1 - j := by omega
    simp only [if_true]
    refine GuestMem.tlbWrite_filled hw hsize hc hv fun i ↦ ?_
    have hle := hlen ▸ hc
    rw [hoffset] at hle ⊢
    rw [hnext, hlow, Nat.succ_mul]
    omega
  | false =>
    have hoffset : m.cpu.offset z n j = j * (z / 8) := by
      rw [CpuState.offset, hdf]
      rfl
    simp only [Bool.false_eq_true, if_false]
    refine GuestMem.tlbWrite_filled hw hsize hc hv fun i ↦ ?_
    rw [hoffset, Nat.succ_mul]
    omega

variable (z n m) in
/-- No element is overwritten before it is read. -/
def Separate : Prop :=
  m.cpu.low z n .esi = m.cpu.low z n .edi ∨
    if m.cpu.flag .df then n * (z / 8) ≤ GuestMem.dist (m.cpu.low z n .edi) (m.cpu.low z n .esi)
    else n * (z / 8) ≤ GuestMem.dist (m.cpu.low z n .esi) (m.cpu.low z n .edi)

theorem outside_forward {a x : Addr} {c b len : ℕ} (hb : c ≤ b) (hlen : b < len)
    (hsize : len ≤ 2 ^ 32) (h : x = a ∨ len ≤ GuestMem.dist x a) :
    c ≤ GuestMem.dist a (x + BitVec.ofNat 32 b) := by
  have hal := a.isLt
  have hxl := x.isLt
  simp only [GuestMem.dist, BitVec.toNat_sub, BitVec.toNat_add, BitVec.toNat_ofNat] at h ⊢
  rcases h with rfl | h <;> omega

theorem outside_backward {a x : Addr} {c b len : ℕ} (hb : b < c) (hlen : c ≤ len)
    (h : x = a ∨ len ≤ GuestMem.dist a x) : GuestMem.dist a (x + BitVec.ofNat 32 b) < c ∨
      len ≤ GuestMem.dist a (x + BitVec.ofNat 32 b) := by
  have hal := a.isLt
  have hxl := x.isLt
  simp only [GuestMem.dist, BitVec.toNat_sub, BitVec.toNat_add, BitVec.toNat_ofNat] at h ⊢
  rcases h with rfl | h <;> omega

variable (op) in
theorem midway_read (hz : 8 ∣ z) (hj : j < n) (hlen : bs.length = n * (z / 8))
    (hsize : bs.length ≤ 2 ^ 32) (hsrc : m.mem.Holds (m.cpu.low z n .esi) bs) (hsep : Separate z n m) :
    (m.midway z n j op bs).mem.tlbRead (m.cpu.low z n .esi + BitVec.ofNat 32 (m.cpu.offset z n j)) z =
      some (element z bs (m.cpu.offset z n j)) := by
  have hc := hlen ▸ offset_le z m.cpu hj
  rw [GuestMem.tlbRead_eq_iff hz, leBytes_element hz hc]
  intro i hi
  have hi' := hi
  rw [List.length_take, List.length_drop] at hi'
  have hin : m.cpu.offset z n j + i < bs.length := by omega
  rw [List.getElem_take, List.getElem_drop, BitVec.add_assoc, ← BitVec.ofNat_add, ← hsrc _ hin,
    Machine.midway]
  dsimp only
  rw [Separate, ← hlen] at hsep
  cases hdf : m.cpu.flag .df with
  | true =>
    have hoffset : m.cpu.offset z n j = (n - 1 - j) * (z / 8) := by rw [CpuState.offset, if_pos hdf]
    have hlow : (n - j) * (z / 8) = m.cpu.offset z n j + z / 8 := by
      rw [hoffset, ← Nat.succ_mul]
      congr 1
      omega
    rw [hdf] at hsep
    rw [if_pos rfl, hlow, ← hlen]
    exact GuestMem.load_filled (outside_backward (by omega) hc hsep)
  | false =>
    have hoffset : m.cpu.offset z n j = j * (z / 8) := by
      rw [CpuState.offset, hdf]
      rfl
    rw [hdf] at hsep
    rw [if_neg Bool.false_ne_true, ← hoffset]
    exact GuestMem.load_filled (.inr (outside_forward (Nat.le_add_right _ i) (by omega) hsize hsep))

theorem midway_end (hlen : bs.length = n * (z / 8)) (hsize : bs.length ≤ 2 ^ 32)
    (hw : m.mem.writable (m.cpu.low z n .edi) bs.length) : m.midway z n n op bs =
      ⟨m.cpu.after z n op, (m.mem.userWrite (m.cpu.low z n .edi) bs).1, m.rounding⟩ := by
  rw [Machine.midway, Nat.sub_self, Nat.zero_mul, ite_self, ← hlen,
    GuestMem.userWrite_eq_filled hw hsize]

theorem drop_replicate_flatten (xs : List Byte) {q : ℕ} (hq : q < n) :
    (((List.replicate n xs).flatten).drop (q * xs.length)).take xs.length = xs := by
  induction q generalizing n with
  | zero =>
    obtain ⟨n, rfl⟩ := Nat.exists_eq_succ_of_ne_zero hq.ne'
    rw [List.replicate_succ, List.flatten_cons, Nat.zero_mul, List.drop_zero, List.take_left]
  | succ q ih =>
    obtain ⟨n, rfl⟩ := Nat.exists_eq_succ_of_ne_zero (Nat.ne_zero_of_lt hq)
    rw [List.replicate_succ, List.flatten_cons, Nat.succ_mul, Nat.add_comm, ← List.drop_drop,
      List.drop_left]
    exact ih (Nat.lt_of_succ_lt_succ hq)

variable (z m) in
def MoveOp.Block (op : MoveOp) (bs : List Byte) : Prop :=
  let n := (m.cpu.regs .ecx).toNat
  match op with
  | .movs => bs.length = n * (z / 8) ∧ m.mem.Holds (m.cpu.low z n .esi) bs ∧ Separate z n m
  | .stos => bs =
    (List.replicate n (Layout.leBytes (z / 8) ((m.cpu.regs .eax).setWidth z).toNat)).flatten
  | .lods => False

theorem iteration_movs (hz : 8 ∣ z) (hj : j < n) (hlen : bs.length = n * (z / 8))
    (hsize : bs.length ≤ 2 ^ 32) (hw : m.mem.writable (m.cpu.low z n .edi) bs.length)
    (hsrc : m.mem.Holds (m.cpu.low z n .esi) bs) (hsep : Separate z n m) :
    MoveOp.movs.iteration z (m.midway z n j .movs bs) = .ok () (m.midway z n (j + 1) .movs bs) := by
  have hread := midway_read .movs hz hj hlen hsize hsrc hsep
  have hwrite := midway_write .movs hz hj hlen hsize hw
  rw [low_add_offset hj] at hread hwrite
  exact (movs_ok hread hwrite).trans (congrArg _ (after_succ .movs _ _))

theorem iteration_stos (hz : 8 ∣ z) (hj : j < n) (hsize : bs.length ≤ 2 ^ 32)
    (hw : m.mem.writable (m.cpu.low z n .edi) bs.length)
    (hbs : bs =
      (List.replicate n (Layout.leBytes (z / 8) ((m.cpu.regs .eax).setWidth z).toNat)).flatten) :
    MoveOp.stos.iteration z (m.midway z n j .stos bs) = .ok () (m.midway z n (j + 1) .stos bs) := by
  have hlen : bs.length = n * (z / 8) := by
    rw [hbs]
    simp
  have hwrite := midway_write .stos hz hj hlen hsize hw
  have hvalue : element z bs (m.cpu.offset z n j) = (m.cpu.regs .eax).setWidth z := by
    obtain ⟨q, hq, hoffset⟩ := offset_eq z m.cpu hj
    have hxs := drop_replicate_flatten
      (Layout.leBytes (z / 8) ((m.cpu.regs .eax).setWidth z).toNat) hq
    rw [Layout.leBytes_length, ← hbs, ← hoffset] at hxs
    rw [element, hxs, Layout.leNat_leBytes, pow_bytes hz, Nat.mod_eq_of_lt (BitVec.isLt _),
      BitVec.ofNat_toNat, BitVec.setWidth_eq]
  rw [low_add_offset hj, hvalue] at hwrite
  exact (stos_ok hwrite).trans (congrArg _ (after_succ .stos _ _))

theorem times_block (hz : 8 ∣ z) (hn : (m.cpu.regs .ecx).toNat = n) (hblock : op.Block z m bs)
    (hsize : bs.length ≤ 2 ^ 32) (hw : m.mem.writable (m.cpu.low z n .edi) bs.length) :
    (op.iteration z).times n m =
      .ok () ⟨m.cpu.after z n op, (m.mem.userWrite (m.cpu.low z n .edi) bs).1, m.rounding⟩ := by
  subst hn
  have hlen : bs.length = (m.cpu.regs .ecx).toNat * (z / 8) := by
    cases op with
    | movs => exact hblock.1
    | stos =>
      rw [show bs = _ from hblock]
      simp
    | lods => exact hblock.elim
  have hsteps : ∀ j < (m.cpu.regs .ecx).toNat, op.iteration z
      (m.midway z (m.cpu.regs .ecx).toNat j op bs) =
      .ok () (m.midway z (m.cpu.regs .ecx).toNat (j + 1) op bs) := by
    intro j hj
    cases op with
    | movs => exact iteration_movs hz hj hlen hsize hw hblock.2.1 hblock.2.2
    | stos => exact iteration_stos hz hj hsize hw hblock
    | lods => exact hblock.elim
  have htimes := Exec.times_of_steps (op.iteration z)
    (fun j ↦ m.midway z (m.cpu.regs .ecx).toNat j op bs) hsteps
  rwa [midway_zero, midway_end hlen hsize hw] at htimes

end

/-- A machine that is to run `rep movsb` downwards, from a block to one that overlaps it. -/
def moveDown : Machine where
  cpu := (((CpuState.zero.setReg .ecx 3).setReg .esi 0x12).setReg .edi 0x13).setFlag .df true
  mem := ⟨fun _ ↦ .readWrite, fun a ↦
    if a = 0 then 0xf3 else if a = 1 then 0xa4 else a.setWidth 8⟩
  rounding := .roundToNearest

end Isl.Emu
