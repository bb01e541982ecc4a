import Isl.Emu.GuestMem

/-!
Values in the memory of a task. `tlb_read` and `tlb_write` look at all pages of a
value before they copy a byte, and the address of a byte wraps around.
-/

namespace Isl.Emu.GuestMem

open Memory Isl.Lib

/-- The bytes from an address on, if all of them can be read. -/
def loads (g : GuestMem) (addr : Addr) : ℕ → Option (List Byte)
  | 0 => some []
  | n + 1 => do
    let b ← g.load addr
    let bs ← g.loads (addr + 1) n
    some (b :: bs)

/-- `tlb_read` of `w` bits. -/
def tlbRead (g : GuestMem) (addr : Addr) (w : ℕ) : Option (BitVec w) :=
  (g.loads addr (w / 8)).map fun bs ↦ BitVec.ofNat w (Layout.leNat bs)

instance (g : GuestMem) (addr : Addr) (size : ℕ) : Decidable (g.writable addr size) :=
  inferInstanceAs (Decidable (∀ i < size, g.perm (page (addr + BitVec.ofNat 32 i)) = .readWrite))

def tlbWrite (g : GuestMem) (addr : Addr) {w : ℕ} (v : BitVec w) : Option GuestMem :=
  if g.writable addr (w / 8) then some (g.userWrite addr (Layout.leBytes (w / 8) v.toNat)).1
  else none

/-- The bytes `bs` lie at an address. -/
def Holds (g : GuestMem) (addr : Addr) (bs : List Byte) : Prop :=
  ∀ (i : ℕ) (hi : i < bs.length), g.load (addr + BitVec.ofNat 32 i) = some bs[i]

variable {g g' : GuestMem} {addr x : Addr} {b : Byte} {bs cs : List Byte} {n w : ℕ}

theorem holds_cons : g.Holds addr (b :: bs) ↔ g.load addr = some b ∧ g.Holds (addr + 1) bs := by
  constructor
  · intro h
    refine ⟨?_, fun i hi ↦ ?_⟩
    · simpa using h 0 (Nat.succ_pos _)
    · rw [add_one_add]
      exact h (i + 1) (Nat.succ_lt_succ hi)
  · rintro ⟨hb, hbs⟩ i hi
    cases i with
    | zero => simpa using hb
    | succ i =>
      rw [← add_one_add]
      exact hbs i (Nat.lt_of_succ_lt_succ hi)

theorem holds_append : g.Holds addr (bs ++ cs) ↔
    g.Holds addr bs ∧ g.Holds (addr + BitVec.ofNat 32 bs.length) cs := by
  induction bs generalizing addr with
  | nil => simp [Holds]
  | cons b bs ih =>
    rw [List.cons_append, holds_cons, holds_cons, ih, List.length_cons, add_one_add, and_assoc]

theorem loads_eq_some : g.loads addr n = some bs ↔ bs.length = n ∧ g.Holds addr bs := by
  induction n generalizing addr bs with
  | zero =>
    constructor
    · intro h
      cases h
      exact ⟨rfl, fun i hi ↦ absurd hi (Nat.not_lt_zero i)⟩
    · rintro ⟨hlen, -⟩
      rw [List.length_eq_zero_iff.mp hlen]
      rfl
  | succ n ih =>
    constructor
    · intro h
      obtain ⟨b, hb, h⟩ := Option.bind_eq_some_iff.mp h
      obtain ⟨cs, hcs, h⟩ := Option.bind_eq_some_iff.mp h
      cases h
      obtain ⟨hlen, hcs⟩ := ih.mp hcs
      exact ⟨congrArg Nat.succ hlen, holds_cons.mpr ⟨hb, hcs⟩⟩
    · rintro ⟨hlen, h⟩
      cases bs with
      | nil => cases hlen
      | cons b bs =>
        obtain ⟨hb, hbs⟩ := holds_cons.mp h
        rw [loads, hb, Option.bind_eq_bind, Option.bind_some, ih.mpr ⟨Nat.succ.inj hlen, hbs⟩]
        rfl

theorem loads_of_holds (h : g.Holds addr bs) : g.loads addr bs.length = some bs :=
  loads_eq_some.mpr ⟨rfl, h⟩

theorem loads_congr (h : ∀ i < n, g.load (addr + BitVec.ofNat 32 i) = g'.load (x + BitVec.ofNat 32 i)) :
    g.loads addr n = g'.loads x n := by
  ext bs
  rw [loads_eq_some, loads_eq_some]
  refine and_congr_right fun hlen ↦ forall_congr' fun i ↦ forall_congr' fun hi ↦ ?_
  rw [h i (hlen ▸ hi)]

theorem tlbRead_congr
    (h : ∀ i < w / 8, g.load (addr + BitVec.ofNat 32 i) = g'.load (x + BitVec.ofNat 32 i)) :
    g.tlbRead addr w = g'.tlbRead x w := by
  rw [tlbRead, tlbRead, loads_congr h]

theorem tlbRead_of_holds (h : g.Holds addr bs) (hw : bs.length = w / 8) :
    g.tlbRead addr w = some (BitVec.ofNat w (Layout.leNat bs)) := by
  rw [tlbRead, ← hw, loads_of_holds h]
  rfl

/-- What is read are the bytes that lie there. -/
theorem holds_of_tlbRead {v : BitVec w} (h : g.tlbRead addr w = some v) (hw : 8 ∣ w) :
    g.Holds addr (Layout.leBytes (w / 8) v.toNat) := by
  obtain ⟨bs, hbs, rfl⟩ := Option.map_eq_some_iff.mp h
  obtain ⟨hlen, hholds⟩ := loads_eq_some.mp hbs
  have hpow : 256 ^ (w / 8) = 2 ^ w := by
    rw [show 256 = 2 ^ 8 from rfl, ← pow_mul, Nat.mul_div_cancel' hw]
  have hlt := Layout.leNat_lt bs
  rw [hlen, hpow] at hlt
  rwa [BitVec.toNat_ofNat, Nat.mod_eq_of_lt hlt, ← hlen, Layout.leBytes_leNat]

theorem tlbRead_eq_iff {v : BitVec w} (hw : 8 ∣ w) :
    g.tlbRead addr w = some v ↔ g.Holds addr (Layout.leBytes (w / 8) v.toNat) := by
  refine ⟨fun h ↦ holds_of_tlbRead h hw, fun h ↦ ?_⟩
  have hpow : 256 ^ (w / 8) = 2 ^ w := by
    rw [show 256 = 2 ^ 8 from rfl, ← pow_mul, Nat.mul_div_cancel' hw]
  rw [tlbRead_of_holds h (Layout.leBytes_length _ _), Layout.leNat_leBytes, hpow,
    Nat.mod_eq_of_lt v.isLt, BitVec.ofNat_toNat, BitVec.setWidth_eq]

/-- A value and the one above it. -/
theorem tlbRead_append {k : ℕ} {u : BitVec k} {v : BitVec w} (hk : 8 ∣ k) (hw : 8 ∣ w) :
    g.tlbRead addr (k + w) = some (u ++ v) ↔
      g.tlbRead addr w = some v ∧ g.tlbRead (addr + BitVec.ofNat 32 (w / 8)) k = some u := by
  have hpow : 256 ^ (w / 8) = 2 ^ w := by
    rw [show 256 = 2 ^ 8 from rfl, ← pow_mul, Nat.mul_div_cancel' hw]
  have hnat : (u ++ v).toNat = v.toNat + 2 ^ w * u.toNat := by
    rw [BitVec.toNat_append, ← Nat.shiftLeft_add_eq_or_of_lt v.isLt, Nat.shiftLeft_eq]
    ring
  have hbytes : Layout.leBytes ((k + w) / 8) (u ++ v).toNat =
      Layout.leBytes (w / 8) v.toNat ++ Layout.leBytes (k / 8) u.toNat := by
    rw [show (k + w) / 8 = w / 8 + k / 8 by omega, Layout.leBytes_add, ← Layout.leBytes_mod (w / 8),
      hnat, hpow, Nat.add_mul_mod_self_left, Nat.mod_eq_of_lt v.isLt,
      Nat.add_mul_div_left _ _ (Nat.two_pow_pos w), Nat.div_eq_of_lt v.isLt, Nat.zero_add]
  rw [tlbRead_eq_iff (Nat.dvd_add hk hw), tlbRead_eq_iff hw, tlbRead_eq_iff hk, hbytes,
    holds_append, Layout.leBytes_length]

/-- The same value comes from the same bytes. -/
theorem load_eq_of_tlbRead {v : BitVec w} (h : g.tlbRead addr w = some v)
    (h' : g'.tlbRead addr w = some v) (hw : 8 ∣ w) {i : ℕ} (hi : i < w / 8) :
    g'.load (addr + BitVec.ofNat 32 i) = g.load (addr + BitVec.ofNat 32 i) := by
  have hlen : i < (Layout.leBytes (w / 8) v.toNat).length := by rwa [Layout.leBytes_length]
  rw [holds_of_tlbRead h hw i hlen, holds_of_tlbRead h' hw i hlen]

/-- One byte. -/
theorem tlbRead_byte (g : GuestMem) (addr : Addr) : g.tlbRead addr 8 = g.load addr := by
  have hloads : g.loads addr 1 = (g.load addr).map fun b ↦ [b] := by
    rw [loads]
    cases g.load addr <;> rfl
  rw [tlbRead, hloads, Option.map_map]
  cases g.load addr with
  | none => rfl
  | some b => simp [Layout.leNat]

/-- What has been written is read back. -/
theorem tlbRead_tlbWrite {v : BitVec w} (h : g.tlbWrite addr v = some g') (hw : 8 ∣ w)
    (hlen : w ≤ 2 ^ 32) : g'.tlbRead addr w = some v := by
  rw [tlbWrite] at h
  split at h
  case isFalse => cases h
  rename_i hwritable
  cases h
  have hbytes : (Layout.leBytes (w / 8) v.toNat).length = w / 8 := Layout.leBytes_length _ _
  have hok : (g.userWrite addr (Layout.leBytes (w / 8) v.toNat)).2 = 0 :=
    userWrite_ok (hbytes.symm ▸ hwritable)
  have hholds : (g.userWrite addr (Layout.leBytes (w / 8) v.toNat)).1.Holds addr
      (Layout.leBytes (w / 8) v.toNat) := fun i hi ↦ load_userWrite hok (by omega) hi
  exact (tlbRead_eq_iff hw).mpr hholds

/-- The other bytes stay as they were. -/
theorem load_tlbWrite_of_outside {v : BitVec w} (h : g.tlbWrite addr v = some g')
    (hx : w / 8 ≤ dist addr x) : g'.load x = g.load x := by
  rw [tlbWrite] at h
  split at h
  case isFalse => cases h
  cases h
  exact load_userWrite_of_outside _ (by rwa [Layout.leBytes_length])

end Isl.Emu.GuestMem
