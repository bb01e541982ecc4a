import Isl.Emu.Memory
import Isl.Lib.Layout

/-!
The memory of a task as the guest sees it: pages with a protection and the
bytes in them. `kernel/user.c` copies to and from it.
-/

namespace Isl.Emu

open Memory

inductive Perm
  | unmapped
  | readOnly
  | readWrite
deriving DecidableEq

structure GuestMem where
  perm : ℕ → Perm
  byte : Addr → Byte

namespace GuestMem

def load (g : GuestMem) (addr : Addr) : Option Byte :=
  if g.perm (page addr) = .unmapped then none else some (g.byte addr)

def store (g : GuestMem) (addr : Addr) (v : Byte) : Option GuestMem :=
  if g.perm (page addr) = .readWrite then some { g with byte := Function.update g.byte addr v }
  else none

/-- `user_read` into a buffer. The bytes after a failing one are left as they
were, and addresses wrap around. -/
def userRead (g : GuestMem) (addr : Addr) : List Byte → List Byte × ℕ
  | [] => ([], 0)
  | b :: buf =>
    match g.load addr with
    | none => (b :: buf, 1)
    | some v =>
      let r := g.userRead (addr + 1) buf
      (v :: r.1, r.2)

/-- `user_write`. The bytes before a failing one are written. -/
def userWrite (g : GuestMem) (addr : Addr) : List Byte → GuestMem × ℕ
  | [] => (g, 0)
  | b :: buf =>
    match g.store addr b with
    | none => (g, 1)
    | some g => g.userWrite (addr + 1) buf

def writable (g : GuestMem) (addr : Addr) (size : ℕ) : Prop :=
  ∀ i < size, g.perm (page (addr + BitVec.ofNat 32 i)) = .readWrite

variable {g g' : GuestMem} {addr a x : Addr} {v : Byte}

theorem store_eq_some : g.store addr v = some g' ↔
    g.perm (page addr) = .readWrite ∧ g' = { g with byte := Function.update g.byte addr v } := by
  simp only [store, Option.ite_none_right_eq_some, Option.some.injEq]
  exact and_congr_right fun _ ↦ eq_comm

theorem load_store_self (h : g.store addr v = some g') : g'.load addr = some v := by
  obtain ⟨hp, rfl⟩ := store_eq_some.mp h
  simp [load, hp]

theorem load_store_of_ne (h : g.store addr v = some g') (hx : x ≠ addr) :
    g'.load x = g.load x := by
  obtain ⟨-, rfl⟩ := store_eq_some.mp h
  simp [load, hx]

theorem sub_and_not (x m : Addr) : x &&& ~~~m = x - (x &&& m) := by
  have hz : (x &&& ~~~m) &&& (x &&& m) = 0#32 := by
    apply BitVec.eq_of_getLsbD_eq
    intro i hi
    simp only [BitVec.getLsbD_and, BitVec.getLsbD_not, hi, decide_true, Bool.true_and,
      BitVec.getLsbD_zero]
    cases x.getLsbD i <;> cases m.getLsbD i <;> rfl
  have hor : (x &&& ~~~m) ||| (x &&& m) = x := by
    apply BitVec.eq_of_getLsbD_eq
    intro i hi
    simp only [BitVec.getLsbD_or, BitVec.getLsbD_and, BitVec.getLsbD_not, hi, decide_true,
      Bool.true_and]
    cases x.getLsbD i <;> cases m.getLsbD i <;> rfl
  exact eq_sub_of_add_eq ((BitVec.add_eq_or_of_and_eq_zero _ _ hz).trans hor)

/-- The distance from `a` up to `x`, around the end of the address space. -/
def dist (a x : Addr) : ℕ := (x - a).toNat

theorem dist_add (a : Addr) {i : ℕ} (hi : i < 2 ^ 32) : dist a (a + BitVec.ofNat 32 i) = i := by
  have h : a + BitVec.ofNat 32 i - a = BitVec.ofNat 32 i := by
    rw [BitVec.add_comm, BitVec.add_sub_cancel]
  rw [dist, h, BitVec.toNat_ofNat, Nat.mod_eq_of_lt hi]

theorem add_dist (a x : Addr) : a + BitVec.ofNat 32 (dist a x) = x := by
  rw [dist, BitVec.ofNat_toNat, BitVec.setWidth_eq, BitVec.add_comm, BitVec.sub_add_cancel]

theorem add_one_add (a : Addr) (i : ℕ) : a + 1 + BitVec.ofNat 32 i = a + BitVec.ofNat 32 (i + 1) := by
  rw [BitVec.add_assoc, Nat.add_comm i, BitVec.ofNat_add]
  rfl

theorem dist_succ (hx : x ≠ a) : dist a x = dist (a + 1) x + 1 := by
  have hne : x.toNat ≠ a.toNat := fun h ↦ hx (BitVec.eq_of_toNat_eq h)
  have hxl := x.isLt
  have hal := a.isLt
  have h1 : (1 : Addr).toNat = 1 := rfl
  simp only [dist, BitVec.toNat_sub, BitVec.toNat_add, h1]
  omega

/-- A write leaves every byte outside of its range as it was. -/
theorem load_userWrite_of_outside (bs : List Byte) (hx : bs.length ≤ dist a x) :
    (g.userWrite a bs).1.load x = g.load x := by
  induction bs generalizing g a with
  | nil => rfl
  | cons b bs ih =>
    unfold userWrite
    cases hs : g.store a b with
    | none => rfl
    | some g' =>
      have hne : x ≠ a := by
        rintro rfl
        simp [dist] at hx
      have hd := dist_succ hne
      rw [List.length_cons] at hx
      refine (ih ?_).trans (load_store_of_ne hs hne)
      omega

theorem userWrite_ok {bs : List Byte} (hw : g.writable a bs.length) :
    (g.userWrite a bs).2 = 0 := by
  induction bs generalizing g a with
  | nil => rfl
  | cons b bs ih =>
    have hp : g.perm (page a) = .readWrite := by
      have h := hw 0 (Nat.succ_pos _)
      rwa [BitVec.add_zero] at h
    have hs : g.store a b = some { g with byte := Function.update g.byte a b } :=
      store_eq_some.mpr ⟨hp, rfl⟩
    unfold userWrite
    rw [hs]
    apply ih
    intro i hi
    rw [add_one_add]
    exact hw (i + 1) (Nat.succ_lt_succ hi)

/-- A write that meets no error is read back. -/
theorem load_userWrite {bs : List Byte} (hok : (g.userWrite a bs).2 = 0)
    (hlen : bs.length ≤ 2 ^ 32) {i : ℕ} (hi : i < bs.length) :
    (g.userWrite a bs).1.load (a + BitVec.ofNat 32 i) = some bs[i] := by
  induction bs generalizing g a i with
  | nil => exact absurd hi (Nat.not_lt_zero i)
  | cons b bs ih =>
    rw [List.length_cons] at hlen hi
    unfold userWrite at hok ⊢
    cases hs : g.store a b with
    | none => simp [hs] at hok
    | some g' =>
      simp only [hs] at hok ⊢
      cases i with
      | zero =>
        have hd : bs.length ≤ dist (a + 1) a := by
          have hal := a.isLt
          have h1 : (1 : Addr).toNat = 1 := rfl
          simp only [dist, BitVec.toNat_sub, BitVec.toNat_add, h1]
          omega
        rw [BitVec.add_zero, load_userWrite_of_outside bs hd, load_store_self hs]
        rfl
      | succ i =>
        have h := ih hok (by omega) (Nat.lt_of_succ_lt_succ hi)
        rwa [add_one_add] at h

theorem userRead_of_load {bs buf : List Byte} (hlen : buf.length = bs.length)
    (h : ∀ (i : ℕ) (hi : i < bs.length), g.load (a + BitVec.ofNat 32 i) = some bs[i]) :
    g.userRead a buf = (bs, 0) := by
  induction bs generalizing a buf with
  | nil =>
    obtain rfl := List.length_eq_zero_iff.mp hlen
    rfl
  | cons b bs ih =>
    cases buf with
    | nil => cases hlen
    | cons c buf =>
      have h₀ := h 0 (Nat.succ_pos _)
      rw [BitVec.add_zero] at h₀
      have hrest := ih (a := a + 1) (Nat.succ.inj hlen) fun i hi ↦ by
        rw [add_one_add]
        exact h (i + 1) (Nat.succ_lt_succ hi)
      simp only [userRead, h₀, hrest]
      rfl

end GuestMem

end Isl.Emu
