import Isl.Emu.Slot

/-! The prefixes before an instruction, apart from `REP` and `LOCK`. -/

namespace Isl.Emu

open Isl.Lib
open Memory (Byte)

inductive Prefix
  | gs
  | opSize
  | addrSize
  | cs
deriving DecidableEq

def Prefix.byte : Prefix → Byte
  | .gs => 0x65
  | .opSize => 0x66
  | .addrSize => 0x67
  | .cs => 0x2e

/-- The first byte of an instruction of the tables of one and two bytes. -/
def IsOpcode (b : Byte) : Prop := (∀ x : Prefix, b ≠ x.byte) ∧ b ≠ 0xf0 ∧ b ≠ 0xf2 ∧ b ≠ 0xf3

theorem IsOpcode.of_ne {b : Byte} (hb : b ≠ 0x65 ∧ b ≠ 0x66 ∧ b ≠ 0x67 ∧ b ≠ 0x2e ∧ b ≠ 0xf0 ∧
    b ≠ 0xf2 ∧ b ≠ 0xf3) : IsOpcode b := by
  obtain ⟨hgs, hop, haddr, hcs, hrest⟩ := hb
  exact ⟨fun x ↦ by cases x <;> assumption, hrest⟩

/-- What the decoder does at a prefix. -/
def Front.past (cpu : CpuState) (f : Front) : Prefix → Front
  | .gs => { f with ip := f.ip + 1, addr := f.addr + cpu.tlsPtr }
  | .opSize => .enter (if f.oz = 32 then 16 else 32) (f.ip + 1)
  | .addrSize => { f with ip := f.ip + 1 }
  | .cs => { f with ip := f.ip + 1 }

/-- A byte further. -/
def Front.next (f : Front) : Front := { f with ip := f.ip + 1 }

section

variable {code : GuestMem} {cpu : CpuState} {f : Front} {ps : List Prefix} {b : Byte}

theorem fetch_byte_of_load {ip : Dword} (h : code.load ip = some b) :
    fetch code ip 8 = .ok (b, ip + 1) := by
  rw [fetch, GuestMem.tlbRead_byte, h]
  rfl

theorem restart_prefix (x : Prefix) (hlock : f.lock = false) (h : code.load f.ip = some x.byte) :
    restart code cpu f = .inl (f.past cpu x) := by
  unfold restart
  rw [fetch_byte_of_load h]
  cases x <;> simp [Prefix.byte, Front.past, hlock]

theorem restart_last (hpre : ∀ x : Prefix, b ≠ x.byte) (hb : b ≠ 0xf0) (hlock : f.lock = false)
    (h : code.load f.ip = some b) : restart code cpu f = .inr (f.next, some b) := by
  have hgs : b ≠ 0x65 := hpre .gs
  have hop : b ≠ 0x66 := hpre .opSize
  have hnocs : ¬(b = 0x2e ∨ b = 0x67) := not_or.mpr ⟨hpre .cs, hpre .addrSize⟩
  have hnolock : ¬f.lock = true := hlock ▸ Bool.false_ne_true
  unfold restart
  rw [fetch_byte_of_load h]
  dsimp only
  rw [if_neg hgs, if_neg hnolock, if_neg hnocs, if_neg hop, if_neg hb]
  rfl

theorem restart_opcode (hb : IsOpcode b) (hlock : f.lock = false) (h : code.load f.ip = some b) :
    restart code cpu f = .inr (f.next, some b) := restart_last hb.1 hb.2.1 hlock h

theorem past_lock (x : Prefix) (hlock : f.lock = false) : (f.past cpu x).lock = false := by
  cases x <;> first | rfl | exact hlock

theorem past_ip (x : Prefix) : (f.past cpu x).ip = f.ip + 1 := by
  cases x <;> rfl

theorem foldl_past_lock (hlock : f.lock = false) : (ps.foldl (Front.past cpu) f).lock = false := by
  induction ps generalizing f with
  | nil => exact hlock
  | cons x ps ih => exact ih (past_lock x hlock)

theorem foldl_past_ip : (ps.foldl (Front.past cpu) f).ip = f.ip + BitVec.ofNat 32 ps.length := by
  induction ps generalizing f with
  | nil => simp
  | cons x ps ih =>
    rw [List.foldl_cons, ih, past_ip, GuestMem.add_one_add, List.length_cons]

/-- Prefixes that lie before another byte leave room for it. -/
theorem length_lt_of_last {a : Dword} {bs : List Byte} (hpre : ∀ x : Prefix, b ≠ x.byte)
    (hcode : code.Holds a (ps.map Prefix.byte ++ b :: bs)) : ps.length < 2 ^ 32 := by
  by_contra hge
  obtain ⟨hps, hlast⟩ := GuestMem.holds_append.mp hcode
  have hi : ps.length - 2 ^ 32 < (ps.map Prefix.byte).length := by
    rw [List.length_map]
    omega
  have hbyte := hps (ps.length - 2 ^ 32) hi
  have hsame : BitVec.ofNat 32 (ps.length - 2 ^ 32) =
      BitVec.ofNat 32 (ps.map Prefix.byte).length := by
    apply BitVec.eq_of_toNat_eq
    rw [BitVec.toNat_ofNat, BitVec.toNat_ofNat, List.length_map]
    omega
  rw [hsame, (GuestMem.holds_cons.mp hlast).1, List.getElem_map] at hbyte
  exact hpre _ (Option.some.inj hbyte)

/-- The decoder reads the prefixes one by one, up to the opcode. -/
theorem run_prefixes {n : ℕ} (hlock : f.lock = false)
    (h : code.Holds f.ip (ps.map Prefix.byte ++ [b])) (hb : IsOpcode b) (hn : ps.length < n) :
    Loop.run (restart code cpu) n f = some ((ps.foldl (Front.past cpu) f).next, some b) := by
  induction ps generalizing f n with
  | nil =>
    obtain ⟨n, rfl⟩ := Nat.exists_eq_succ_of_ne_zero (Nat.ne_zero_of_lt hn)
    rw [Loop.run, restart_opcode hb hlock (GuestMem.holds_cons.mp h).1]
    rfl
  | cons x ps ih =>
    obtain ⟨n, rfl⟩ := Nat.exists_eq_succ_of_ne_zero (Nat.ne_zero_of_lt hn)
    obtain ⟨hx, hrest⟩ := GuestMem.holds_cons.mp h
    rw [Loop.run, restart_prefix x hlock hx]
    exact ih (past_lock x hlock) (by rwa [past_ip]) (Nat.lt_of_succ_lt_succ hn)

/-- The decoder at the byte after the prefixes. -/
def afterPrefixes (cpu : CpuState) (ps : List Prefix) : Front :=
  ps.foldl (Front.past cpu) (.enter 32 cpu.eip)

theorem cpuStepOn_prefixes (h : Host) {m : Machine}
    (hcode : code.Holds m.cpu.eip (ps.map Prefix.byte ++ [b])) (hb : IsOpcode b)
    (hlen : ps.length < 2 ^ 32) :
    cpuStepOn h code m = (afterPrefixes m.cpu ps).next.step h code (some b) m := by
  unfold cpuStepOn
  rw [run_prefixes rfl hcode hb hlen]
  rfl

end

end Isl.Emu
