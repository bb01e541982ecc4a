import Isl.Emu.Slot

/-!
The decoder reads no more than twelve bytes from the opcode on, and no register but
those of an address.
-/

namespace Isl.Emu

open Isl.Lib
open Memory (Byte)

/-- The memories hold the same in `k` bytes from an address on. -/
def SameBytes (code code' : GuestMem) (ip : Dword) (k : ℕ) : Prop :=
  ∀ i < k, code.load (ip + BitVec.ofNat 32 i) = code'.load (ip + BitVec.ofNat 32 i)

section

variable {code code' : GuestMem} {ip : Dword} {j k w : ℕ}

theorem SameBytes.mono (h : SameBytes code code' ip j) (hk : k ≤ j) : SameBytes code code' ip k :=
  fun i hi ↦ h i (Nat.lt_of_lt_of_le hi hk)

theorem SameBytes.drop (h : SameBytes code code' ip j) {n : ℕ} (hk : n + k ≤ j) :
    SameBytes code code' (ip + BitVec.ofNat 32 n) k := by
  intro i hi
  rw [BitVec.add_assoc, ← BitVec.ofNat_add]
  exact h (n + i) (by omega)

/-- What two readings end in: the same, with `k` more bytes that are the same. -/
def Within {ε α : Type} (code code' : GuestMem) (k : ℕ) (x x' : Except ε (α × Dword)) : Prop :=
  x = x' ∧ ∀ a ip, x = .ok (a, ip) → SameBytes code code' ip k

theorem Within.ok {ε α : Type} {a : α} (h : SameBytes code code' ip k) :
    Within code code' k (.ok (a, ip) : Except ε (α × Dword)) (.ok (a, ip)) := by
  refine ⟨rfl, fun b x hx ↦ ?_⟩
  cases hx
  exact h

theorem Within.bind {ε α β : Type} {x x' : Except ε (α × Dword)}
    {f f' : α × Dword → Except ε (β × Dword)} (hx : Within code code' j x x')
    (hf : ∀ a ip, SameBytes code code' ip j → Within code code' k (f (a, ip)) (f' (a, ip))) :
    Within code code' k (x >>= f) (x' >>= f') := by
  obtain ⟨rfl, hsame⟩ := hx
  cases x with
  | error e => exact ⟨rfl, fun a ip h ↦ nomatch h⟩
  | ok r => exact hf r.1 r.2 (hsame r.1 r.2 rfl)

theorem Within.fetch (h : SameBytes code code' ip j) (hj : w / 8 + k ≤ j) :
    Within code code' k (fetch code ip w) (fetch code' ip w) := by
  have hread : code.tlbRead ip w = code'.tlbRead ip w :=
    GuestMem.tlbRead_congr fun i hi ↦ h i (by omega)
  rw [Emu.fetch, Emu.fetch, hread]
  cases code'.tlbRead ip w with
  | none => exact ⟨rfl, fun a ip h ↦ nomatch h⟩
  | some v => exact .ok (h.drop hj)

theorem within_readOffset (modrm : Modrm) (mode : Mode) (h : SameBytes code code' ip j)
    (hj : 4 + k ≤ j) :
    Within code code' k (readOffset code ip modrm mode) (readOffset code' ip modrm mode) := by
  cases mode with
  | disp0 => exact .ok (h.mono (by omega))
  | disp8 => exact (Within.fetch h (by omega)).bind fun _ _ h ↦ .ok h
  | disp32 => exact (Within.fetch h (by omega)).bind fun _ _ h ↦ .ok h
  | reg => exact .ok (h.mono (by omega))

theorem Within.ite {ε α : Type} {c : Prop} [Decidable c] {x x' y y' : Except ε (α × Dword)}
    (hx : Within code code' k x x') (hy : Within code code' k y y') :
    Within code code' k (if c then x else y) (if c then x' else y') := by
  split
  · exact hx
  · exact hy

theorem within_modrmDecode32 (modrm : Modrm) (h : SameBytes code code' ip j) (hj : 6 + k ≤ j) :
    Within code code' k (modrmDecode32 code ip modrm) (modrmDecode32 code' ip modrm) := by
  refine (Within.fetch (k := 5 + k) h (by omega)).bind fun byte ip h ↦ ?_
  refine .ite (within_readOffset _ _ h (by omega)) (.ite (within_readOffset _ _ h (by omega)) ?_)
  refine .ite ?_ (within_readOffset _ _ h (by omega))
  refine (Within.fetch (k := 4 + k) h (by omega)).bind fun sib ip h ↦ ?_
  exact within_readOffset _ _ h (by omega)

end

theorem modrmCompute_eq_ok {code : GuestMem} {cpu : CpuState} {ip addr : Dword} {modrm : Modrm}
    {r : Modrm × Dword} (h : modrmDecode32 code ip modrm = .ok r) :
    ∃ addr', modrmCompute code cpu ip addr modrm = .ok (r.1, addr', r.2) := by
  rw [modrmCompute, h]
  simp only [bind, Except.bind]
  split
  · exact ⟨_, rfl⟩
  · split <;> exact ⟨_, rfl⟩

/-! The decoder, from either memory and with registers that are the same. -/

section

variable {code code' : GuestMem} {cpu cpu' : CpuState} {j k l w oz : ℕ} {α β : Type}

/-- An early return that puts `eip` back. -/
def Stop.PutsBack : Stop → Prop
  | .gpf _ => True
  | .fetch => True
  | .undefined => True
  | .div => False
  | .int _ => False

/-- Where the decoder has come to, `k` more bytes are the same. -/
def Decoded (code code' : GuestMem) (k : ℕ) : Except Stop (α × Cursor) → Prop
  | .ok r => SameBytes code code' r.2.ip k
  | .error i => i.PutsBack

/-- The same is decoded, in `j - k` bytes at most. -/
def Local (code code' : GuestMem) (j k : ℕ) (d d' : Decode α) : Prop :=
  ∀ c, SameBytes code code' c.ip j → d c = d' c ∧ Decoded code code' k (d c)

namespace Local

theorem pure (a : α) (hk : k ≤ j) : Local code code' j k (Pure.pure a) (Pure.pure a) :=
  fun _ h ↦ ⟨rfl, h.mono hk⟩

theorem bind {d d' : Decode α} {f f' : α → Decode β} (hd : Local code code' j k d d')
    (hf : ∀ a, Local code code' k l (f a) (f' a)) :
    Local code code' j l (d >>= f) (d' >>= f') := by
  intro c h
  obtain ⟨heq, hsame⟩ := hd c h
  change (d c >>= fun p ↦ f p.1 p.2) = (d' c >>= fun p ↦ f' p.1 p.2) ∧
    Decoded code code' l (d c >>= fun p ↦ f p.1 p.2)
  rw [← heq]
  cases hc : d c with
  | error i =>
    rw [hc] at hsame
    exact ⟨rfl, hsame⟩
  | ok p =>
    rw [hc] at hsame
    exact hf p.1 p.2 hsame

theorem ite {p : Prop} [Decidable p] {d d' e e' : Decode α} (hd : Local code code' j k d d')
    (he : Local code code' j k e e') :
    Local code code' j k (if p then d else e) (if p then d' else e') := by
  split
  · exact hd
  · exact he

theorem readBits (hj : w / 8 + k ≤ j) :
    Local code code' j k (Emu.readBits code w) (Emu.readBits code' w) := by
  intro c h
  obtain ⟨heq, hsame⟩ := Within.fetch h hj
  have hread : Emu.readBits code w c = Emu.readBits code' w c := by
    unfold Emu.readBits
    rw [heq]
  refine ⟨hread, ?_⟩
  unfold Emu.readBits
  cases hc : fetch code c.ip w with
  | error e => trivial
  | ok r => exact hsame r.1 r.2 hc

/-- What changes the locals alone. -/
theorem locals {f : Cursor → Cursor} (hf : ∀ c, (f c).ip = c.ip) :
    Local code code' j j (modify f : Decode Unit) (modify f) := by
  refine fun c h ↦ ⟨rfl, ?_⟩
  change SameBytes code code' (f c).ip j
  rwa [hf]

theorem readImm8 (hj : 1 + k ≤ j) :
    Local code code' j k (Emu.readImm8 code) (Emu.readImm8 code') :=
  (readBits hj).bind fun _ ↦ locals fun _ ↦ rfl

theorem readImm (hj : w / 8 + k ≤ j) :
    Local code code' j k (Emu.readImm code w) (Emu.readImm code' w) :=
  (readBits hj).bind fun _ ↦ locals fun _ ↦ rfl

theorem readAddr (hj : 4 + k ≤ j) :
    Local code code' j k (Emu.readAddr code) (Emu.readAddr code') :=
  (readBits hj).bind fun _ ↦ locals fun _ ↦ rfl

theorem readModrm (hregs : cpu.regs = cpu'.regs) (hj : 6 + k ≤ j) :
    Local code code' j k (Emu.readModrm code cpu) (Emu.readModrm code' cpu') := by
  intro c h
  obtain ⟨heq, hsame⟩ := within_modrmDecode32 c.modrm h hj
  have hreg (p : Regptr) : cpu.register p 32 = cpu'.register p 32 := by
    simp [CpuState.register, hregs]
  have hcompute : modrmCompute code cpu c.ip c.addr c.modrm =
      modrmCompute code' cpu' c.ip c.addr c.modrm := by
    simp only [modrmCompute, heq, hreg]
  have hread : Emu.readModrm code cpu c = Emu.readModrm code' cpu' c := by
    unfold Emu.readModrm
    rw [hcompute]
  refine ⟨hread, ?_⟩
  unfold Emu.readModrm
  cases hd : modrmDecode32 code c.ip c.modrm with
  | error e =>
    rw [modrmCompute, hd]
    trivial
  | ok r =>
    obtain ⟨addr, hr⟩ : ∃ addr, modrmCompute code cpu c.ip c.addr c.modrm = .ok (r.1, addr, r.2) :=
      modrmCompute_eq_ok hd
    rw [hr]
    exact hsame r.1 r.2 hd

theorem get : Local code code' j j (MonadState.get : Decode Cursor) MonadState.get :=
  fun _ h ↦ ⟨rfl, h⟩

theorem undefined : Local code code' j k (throwThe Stop .undefined : Decode α)
    (throwThe Stop .undefined) := fun _ _ ↦ ⟨rfl, trivial⟩

theorem opcode : Local code code' j j Emu.opcode Emu.opcode :=
  get.bind fun _ ↦ .pure _ (Nat.le_refl j)

section

variable (hregs : cpu.regs = cpu'.regs) (insn : Insn)

include hregs

theorem readModrmMem (hj : 6 + k ≤ j) :
    Local code code' j k (Emu.readModrmMem code cpu) (Emu.readModrmMem code' cpu') := by
  refine (readModrm hregs hj).bind fun _ ↦ get.bind fun c ↦ ?_
  exact .ite .undefined (.pure _ (Nat.le_refl k))

theorem withModrm (hj : 6 + k ≤ j) :
    Local code code' j k (Emu.withModrm code cpu insn) (Emu.withModrm code' cpu' insn) :=
  (readModrm hregs hj).bind fun _ ↦ .pure _ (Nat.le_refl k)

theorem withModrmMem (hj : 6 + k ≤ j) :
    Local code code' j k (Emu.withModrmMem code cpu insn) (Emu.withModrmMem code' cpu' insn) :=
  (readModrmMem hregs hj).bind fun _ ↦ .pure _ (Nat.le_refl k)

omit hregs in
theorem withImm (hj : w / 8 + k ≤ j) :
    Local code code' j k (Emu.withImm code w insn) (Emu.withImm code' w insn) :=
  (readImm hj).bind fun _ ↦ .pure _ (Nat.le_refl k)

omit hregs in
theorem withImm8 (hj : 1 + k ≤ j) :
    Local code code' j k (Emu.withImm8 code insn) (Emu.withImm8 code' insn) :=
  (readImm8 hj).bind fun _ ↦ .pure _ (Nat.le_refl k)

theorem withModrmImm (hj : 6 + w / 8 + k ≤ j) : Local code code' j k
    (Emu.withModrmImm code cpu w insn) (Emu.withModrmImm code' cpu' w insn) :=
  (readModrm (k := w / 8 + k) hregs (by omega)).bind fun _ ↦ withImm insn (Nat.le_refl _)

theorem withModrmImm8 (hj : 7 + k ≤ j) : Local code code' j k
    (Emu.withModrmImm8 code cpu insn) (Emu.withModrmImm8 code' cpu' insn) :=
  (readModrm (k := 1 + k) hregs (by omega)).bind fun _ ↦ withImm8 insn (Nat.le_refl _)

theorem segment (hj : 6 + k ≤ j) :
    Local code code' j k (Emu.segment code cpu insn) (Emu.segment code' cpu' insn) := by
  refine (readModrm hregs hj).bind fun _ ↦ get.bind fun c ↦ ?_
  exact .ite (.pure _ (Nat.le_refl k)) (.pure _ (Nat.le_refl k))

omit hregs in
theorem grp1 (src : Operand) (dst : Place) (z : ℕ) :
    Local code code' k 0 (Emu.grp1 src dst z) (Emu.grp1 src dst z) :=
  opcode.bind fun _ ↦ .pure _ (Nat.zero_le k)

theorem makeOp (op : ArithOp) (n : ℕ) (hoz : oz ≤ 32) (hj : 6 ≤ j) :
    Local code code' j 0 (Emu.makeOp code cpu oz op n) (Emu.makeOp code' cpu' oz op n) := by
  unfold Emu.makeOp
  split
  all_goals first
    | exact withModrm hregs _ hj
    | exact withImm8 _ (by omega)
    | exact withImm _ (by omega)

omit hregs in
theorem grp2 (count : Operand) (val : Place) (z : ℕ) :
    Local code code' k 0 (Emu.grp2 count val z) (Emu.grp2 count val z) := by
  refine opcode.bind fun n ↦ ?_
  split <;> exact .pure _ (Nat.zero_le k)

omit hregs in
theorem grp3 {d d' : Decode Unit} (hd : Local code code' j 0 d d') (val : Place) (z : ℕ) :
    Local code code' j 0 (Emu.grp3 d val z) (Emu.grp3 d' val z) := by
  refine opcode.bind fun n ↦ ?_
  split <;> first
    | exact .pure _ (Nat.zero_le j)
    | exact hd.bind fun _ ↦ .pure _ (Nat.le_refl 0)

omit hregs in
theorem grp5 (val : Place) (z : ℕ) :
    Local code code' k 0 (Emu.grp5 val z) (Emu.grp5 val z) := by
  refine opcode.bind fun n ↦ ?_
  split <;> exact .pure _ (Nat.zero_le k)

omit hregs in
theorem grp8 (bit : Operand) (val : Place) (z : ℕ) :
    Local code code' k 0 (Emu.grp8 bit val z) (Emu.grp8 bit val z) := by
  refine opcode.bind fun n ↦ ?_
  split <;> exact .pure _ (Nat.zero_le k)

theorem fpu (n : ℕ) (hj : 6 ≤ j) :
    Local code code' j 0 (Emu.fpu code cpu n) (Emu.fpu code' cpu' n) := by
  refine (readModrm (k := 0) hregs hj).bind fun _ ↦ get.bind fun c ↦ ?_
  exact .ite (.pure _ (Nat.le_refl 0)) (.pure _ (Nat.le_refl 0))

theorem twoByte (hoz : oz ≤ 32) (b : Byte) (hj : 11 ≤ j) :
    Local code code' j 0 (Emu.twoByte code cpu oz b) (Emu.twoByte code' cpu' oz b) := by
  have h6 : 6 + 0 ≤ j := by omega
  unfold Emu.twoByte
  dsimp only
  split
  all_goals first
    | with_reducible exact withModrm hregs _ h6
    | with_reducible exact .pure _ (Nat.zero_le j)
    | with_reducible exact withModrmImm8 hregs _ (by omega)
    | with_reducible exact .ite (withModrm hregs _ h6) (.pure _ (Nat.zero_le j))
    | skip
  · refine (readModrm (k := 1) hregs (by omega)).bind fun _ ↦ ?_
    exact (readImm8 (k := 0) (by omega)).bind fun _ ↦ grp8 _ _ _
  · refine .ite (withModrm hregs _ h6) (.ite (withModrm hregs _ h6) ?_)
    refine .ite (withImm _ (by omega)) (.ite (withModrm hregs _ h6) ?_)
    exact .ite (.pure _ (Nat.zero_le j)) (.pure _ (Nat.zero_le j))

theorem repnz (hj : 12 ≤ j) :
    Local code code' j 0 (Emu.repnz code cpu oz) (Emu.repnz code' cpu' oz) := by
  refine (readBits (k := 11) (by omega)).bind fun b ↦ ?_
  split
  · refine (readBits (k := 10) (by omega)).bind fun b ↦ ?_
    refine .ite (withModrmMem hregs _ (by omega)) (.ite (withModrm hregs _ (by omega)) ?_)
    exact .pure _ (Nat.zero_le _)
  all_goals exact .pure _ (Nat.zero_le _)

theorem repz (hj : 12 ≤ j) :
    Local code code' j 0 (Emu.repz code cpu oz) (Emu.repz code' cpu' oz) := by
  refine (readBits (k := 11) (by omega)).bind fun b ↦ ?_
  split
  · refine (readBits (k := 10) (by omega)).bind fun b ↦ ?_
    refine .ite (withModrm hregs _ (by omega)) (.ite (withModrm hregs _ (by omega)) ?_)
    refine .ite (withModrm hregs _ (by omega)) (.ite (withModrm hregs _ (by omega)) ?_)
    exact .pure _ (Nat.zero_le _)
  all_goals exact .pure _ (Nat.zero_le _)

/-- An instruction without a prefix is decoded from the next twelve bytes. -/
theorem oneByte (hoz : oz ≤ 32) (b : Byte) (hj : 12 ≤ j) :
    Local code code' j 0 (Emu.oneByte code cpu oz b) (Emu.oneByte code' cpu' oz b) := by
  have h6 : 6 + 0 ≤ j := by omega
  have h1 : 1 + 0 ≤ j := by omega
  have himm (w : ℕ) (hw : w ≤ 32) : w / 8 + 0 ≤ j := by omega
  unfold Emu.oneByte
  dsimp only
  split
  all_goals first
    | with_reducible exact withModrm hregs _ h6
    | with_reducible exact .pure _ (Nat.zero_le j)
    | with_reducible exact withModrmMem hregs _ h6
    | with_reducible exact withImm8 _ h1
    | with_reducible exact withImm _ (himm _ hoz)
    | with_reducible exact withImm _ (himm 16 (by decide))
    | with_reducible exact withModrmImm8 hregs _ (by omega)
    | with_reducible exact withModrmImm hregs _ (by omega)
    | with_reducible exact segment hregs _ h6
    | with_reducible exact repnz hregs hj
    | with_reducible exact repz hregs hj
    | with_reducible exact (readAddr (k := 0) (by omega)).bind fun _ ↦ .pure _ (Nat.zero_le _)
    -- a group, after the ModRM byte
    | with_reducible refine (readModrm (k := 5) hregs (by omega)).bind fun _ ↦ ?_
    | skip
  all_goals first
    | with_reducible exact grp5 _ _
    | with_reducible exact grp2 _ _ _
    | with_reducible exact grp3 (readImm8 (by omega)) _ _
    | with_reducible exact grp3 (readImm (by omega)) _ _
    | with_reducible exact (readImm8 (k := 0) (by omega)).bind fun _ ↦ grp1 _ _ _
    | with_reducible exact (readImm (k := 0) (by omega)).bind fun _ ↦ grp1 _ _ _
    | with_reducible exact (readImm8 (k := 0) (by omega)).bind fun _ ↦ grp2 _ _ _
    | skip
  · exact (readBits (k := 11) (by omega)).bind fun b ↦ twoByte hregs hoz b (Nat.le_refl _)
  · refine .ite (makeOp hregs _ _ hoz (by omega)) (.ite (.pure _ (Nat.zero_le j)) ?_)
    refine .ite (.pure _ (Nat.zero_le j)) (.ite (.pure _ (Nat.zero_le j)) ?_)
    refine .ite (.pure _ (Nat.zero_le j)) (.ite (withImm8 _ h1) (.ite (.pure _ (Nat.zero_le j)) ?_))
    refine .ite (withImm8 _ h1) (.ite (withImm _ (himm _ hoz)) ?_)
    exact .ite (fpu hregs _ (by omega)) (.pure _ (Nat.zero_le j))

end

end Local

end

end Isl.Emu
