import Mathlib.Data.Nat.Notation
import Mathlib.Data.List.Basic
import Mathlib.Tactic.Ring

/-!
Little-endian numbers and packed records: the memory image of a list of
fields, each a size in bytes and a value.
-/

namespace Isl.Lib.Layout

def leBytes : ℕ → ℕ → List (BitVec 8)
  | 0, _ => []
  | n + 1, v => BitVec.ofNat 8 v :: leBytes n (v / 256)

def leNat : List (BitVec 8) → ℕ
  | [] => 0
  | b :: bs => b.toNat + 256 * leNat bs

@[simp] theorem leBytes_length (n v : ℕ) : (leBytes n v).length = n := by
  induction n generalizing v with
  | zero => rfl
  | succ n ih => simp [leBytes, ih]

theorem leNat_leBytes (n v : ℕ) : leNat (leBytes n v) = v % 256 ^ n := by
  induction n generalizing v with
  | zero => simp [leBytes, leNat, Nat.mod_one]
  | succ n ih =>
    have hb : (BitVec.ofNat 8 v).toNat = v % 256 := BitVec.toNat_ofNat v 8
    rw [leBytes, leNat, ih, hb, pow_succ', Nat.mod_mul]

theorem leBytes_leNat (bs : List (BitVec 8)) : leBytes bs.length (leNat bs) = bs := by
  induction bs with
  | nil => rfl
  | cons b bs ih =>
    have hb : BitVec.ofNat 8 (b.toNat + 256 * leNat bs) = b := by
      apply BitVec.eq_of_toNat_eq
      rw [BitVec.toNat_ofNat, Nat.add_mul_mod_self_left, Nat.mod_eq_of_lt b.isLt]
    have hrest : (b.toNat + 256 * leNat bs) / 256 = leNat bs := by
      have hlt := b.isLt
      omega
    rw [List.length_cons, leNat, leBytes, hb, hrest, ih]

theorem leBytes_mod (n v : ℕ) : leBytes n (v % 256 ^ n) = leBytes n v := by
  have h := leBytes_leNat (leBytes n v)
  rwa [leBytes_length, leNat_leBytes] at h

/-- The first bytes of a number, and the others. -/
theorem leBytes_add (n k v : ℕ) : leBytes (n + k) v = leBytes n v ++ leBytes k (v / 256 ^ n) := by
  induction n generalizing v with
  | zero => simp [leBytes]
  | succ n ih =>
    rw [Nat.succ_add, leBytes, ih, leBytes, List.cons_append, Nat.div_div_eq_div_mul, pow_succ']

theorem leNat_lt (bs : List (BitVec 8)) : leNat bs < 256 ^ bs.length := by
  induction bs with
  | nil => exact Nat.one_pos
  | cons b bs ih =>
    have hlt := b.isLt
    rw [leNat, List.length_cons, pow_succ']
    omega

/-- The image of consecutive fields without padding. -/
def image (fields : List (ℕ × ℕ)) : List (BitVec 8) := fields.flatMap fun f ↦ leBytes f.1 f.2

/-- The values of consecutive fields of the given sizes. -/
def values : List ℕ → List (BitVec 8) → List ℕ
  | [], _ => []
  | n :: sizes, bs => leNat (bs.take n) :: values sizes (bs.drop n)

@[simp] theorem image_length (fields : List (ℕ × ℕ)) :
    (image fields).length = (fields.map Prod.fst).sum := by
  induction fields with
  | nil => rfl
  | cons f fields ih => simp [image]

/-- A record of fields that hold their values reads back as it was written. -/
theorem values_image {fields : List (ℕ × ℕ)} (h : ∀ f ∈ fields, f.2 < 256 ^ f.1) :
    values (fields.map Prod.fst) (image fields) = fields.map Prod.snd := by
  induction fields with
  | nil => rfl
  | cons f fields ih =>
    obtain ⟨hf, hfields⟩ := List.forall_mem_cons.mp h
    have htake : (image (f :: fields)).take f.1 = leBytes f.1 f.2 := by simp [image]
    have hdrop : (image (f :: fields)).drop f.1 = image fields := by simp [image]
    rw [List.map_cons, values, htake, hdrop, ih hfields, leNat_leBytes, Nat.mod_eq_of_lt hf,
      List.map_cons]

end Isl.Lib.Layout
