import Mathlib.Data.BitVec
import Mathlib.Data.List.GetD

/-! Bits in an array of bytes: `util/bits.h`. -/

namespace Isl.Util

/-- `BITS_SIZE`, for a number of bits that is not zero. -/
def bitsSize (bits : ℕ) : ℕ := (bits - 1) / 8 + 1

abbrev Bits := List (BitVec 8)

/-- `1 << (i & 7)` -/
def bitMask (i : ℕ) : BitVec 8 := 1#8 <<< (i &&& 7)

/-! A byte outside of the array has no result. -/

def bitTest (i : ℕ) (data : Bits) : Option Bool := do
  let c ← data[i >>> 3]?
  some (c &&& bitMask i != 0)

def bitSet (i : ℕ) (data : Bits) : Option Bits := do
  let c ← data[i >>> 3]?
  some (data.set (i >>> 3) (c ||| bitMask i))

def bitClear (i : ℕ) (data : Bits) : Option Bits := do
  let c ← data[i >>> 3]?
  some (data.set (i >>> 3) (c &&& ~~~bitMask i))

/-- `memcpy` between arrays of these sizes. -/
def memcpy {α : Type*} (dst src : List α) (n : ℕ) : Option (List α) :=
  if n ≤ dst.length ∧ n ≤ src.length then some (src.take n ++ dst.drop n) else none

/-- The bit with a number, zero past the end. -/
def bitAt (data : Bits) (i : ℕ) : Bool := (data.getD (i / 8) 0).getLsbD (i % 8)

variable {data data' src : Bits} {i j n size : ℕ}

theorem shiftRight_three (i : ℕ) : i >>> 3 = i / 8 := Nat.shiftRight_eq_div_pow i 3

theorem and_seven (i : ℕ) : i &&& 7 = i % 8 := Nat.and_two_pow_sub_one_eq_mod i 3

theorem getLsbD_bitMask (i : ℕ) {k : ℕ} (hk : k < 8) :
    (bitMask i).getLsbD k = decide (k = i % 8) := by
  rw [bitMask, and_seven, BitVec.getLsbD_shiftLeft, BitVec.getLsbD_one]
  by_cases h : k = i % 8
  · simp [hk, ← h]
  · have hne : k < i % 8 ∨ k - i % 8 ≠ 0 := by omega
    obtain hlt | hne := hne
    · simp [h, hlt]
    · simp [h, hne]

theorem and_bitMask (c : BitVec 8) (i : ℕ) : (c &&& bitMask i != 0) = c.getLsbD (i % 8) := by
  have hi : i % 8 < 8 := Nat.mod_lt i (by omega)
  by_cases hc : c.getLsbD (i % 8) = true
  · rw [hc, bne_iff_ne]
    intro h
    have hbit := congrArg (BitVec.getLsbD · (i % 8)) h
    rw [BitVec.getLsbD_and, getLsbD_bitMask i hi, hc] at hbit
    simp at hbit
  · rw [Bool.not_eq_true] at hc
    rw [hc, bne_eq_false_iff_eq]
    apply BitVec.eq_of_getLsbD_eq
    intro k hk
    rw [BitVec.getLsbD_and, getLsbD_bitMask i hk]
    by_cases h : k = i % 8
    · simp [h, hc]
    · simp [h]

theorem bitTest_eq_some {b : Bool} :
    bitTest i data = some b ↔ i < 8 * data.length ∧ bitAt data i = b := by
  rw [bitTest, shiftRight_three, bitAt]
  by_cases h : i / 8 < data.length
  · have hi : i < 8 * data.length := by omega
    rw [List.getElem?_eq_getElem h, List.getD_eq_getElem _ _ h, Option.bind_eq_bind,
      Option.bind_some, and_bitMask, Option.some.injEq]
    exact (and_iff_right hi).symm
  · have hi : ¬i < 8 * data.length := by omega
    rw [List.getElem?_eq_none (Nat.not_lt.mp h)]
    exact iff_of_false nofun fun hb ↦ hi hb.1

theorem getD_set_div (hi : i < 8 * data.length) (j : ℕ) (c : BitVec 8) :
    (data.set (i / 8) c).getD (j / 8) 0 = if j / 8 = i / 8 then c else data.getD (j / 8) 0 := by
  rw [List.getD_eq_getElem?_getD, List.getD_eq_getElem?_getD, List.getElem?_set]
  by_cases h : i / 8 = j / 8
  · have hlt : j / 8 < data.length := by omega
    simp [h, hlt]
  · simp [h, Ne.symm h]

/-- A store of one bit changes this bit only. -/
theorem bitAt_set {c : BitVec 8} {b : Bool} (hi : i < 8 * data.length)
    (hc : ∀ k < 8, c.getLsbD k = if k = i % 8 then b else (data.getD (i / 8) 0).getLsbD k) :
    bitAt (data.set (i / 8) c) j = if j = i then b else bitAt data j := by
  rw [bitAt, getD_set_div hi]
  by_cases hdiv : j / 8 = i / 8
  · rw [if_pos hdiv, hc _ (Nat.mod_lt j (by omega)), bitAt, hdiv]
    by_cases hmod : j % 8 = i % 8
    · rw [if_pos hmod, if_pos (by omega)]
    · rw [if_neg hmod, if_neg fun h ↦ hmod (by rw [h])]
  · rw [if_neg hdiv, if_neg fun h ↦ hdiv (by rw [h]), bitAt]

theorem byte_eq_some {c : BitVec 8} (h : data[i >>> 3]? = some c) :
    i < 8 * data.length ∧ data.getD (i / 8) 0 = c := by
  rw [shiftRight_three] at h
  obtain ⟨hlt, hc⟩ := List.getElem?_eq_some_iff.mp h
  exact ⟨by omega, by rw [List.getD_eq_getElem _ _ hlt, hc]⟩

theorem bitSet_spec (h : bitSet i data = some data') :
    data'.length = data.length ∧ ∀ j, bitAt data' j = if j = i then true else bitAt data j := by
  obtain ⟨c, hc, h⟩ := Option.bind_eq_some_iff.mp h
  cases h
  obtain ⟨hi, hget⟩ := byte_eq_some hc
  refine ⟨List.length_set, fun j ↦ ?_⟩
  rw [shiftRight_three]
  apply bitAt_set hi
  intro k hk
  rw [hget, BitVec.getLsbD_or, getLsbD_bitMask i hk]
  by_cases hki : k = i % 8 <;> simp [hki]

theorem bitClear_spec (h : bitClear i data = some data') :
    data'.length = data.length ∧ ∀ j, bitAt data' j = if j = i then false else bitAt data j := by
  obtain ⟨c, hc, h⟩ := Option.bind_eq_some_iff.mp h
  cases h
  obtain ⟨hi, hget⟩ := byte_eq_some hc
  refine ⟨List.length_set, fun j ↦ ?_⟩
  rw [shiftRight_three]
  apply bitAt_set hi
  intro k hk
  rw [hget, BitVec.getLsbD_and, BitVec.getLsbD_not, getLsbD_bitMask i hk]
  by_cases hki : k = i % 8 <;> simp [hki, hk]

theorem bitClear_isSome (h : i < 8 * data.length) : ∃ data', bitClear i data = some data' := by
  have hlt : i >>> 3 < data.length := by
    rw [shiftRight_three]
    omega
  rw [bitClear, List.getElem?_eq_getElem hlt]
  exact ⟨_, rfl⟩

/-- The bytes for that many bits hold them. -/
theorem lt_bitsSize (h : i < size) : i < 8 * bitsSize size := by
  rw [bitsSize]
  omega

theorem bitAt_nil (i : ℕ) : bitAt [] i = false := by
  rw [bitAt]
  simp

theorem bitAt_replicate (n i : ℕ) : bitAt (List.replicate n 0#8) i = false := by
  rw [bitAt, List.getD_eq_getElem?_getD, List.getElem?_replicate]
  split <;> simp

/-- A copy into zeros has the bits of the source. -/
theorem bitAt_memcpy (hn : src.length = n) (h : memcpy (List.replicate size 0#8) src n = some data) :
    data.length = size ∧ ∀ i, bitAt data i = bitAt src i := by
  obtain ⟨⟨hle, -⟩, heq⟩ := Option.ite_none_right_eq_some.mp h
  cases heq
  rw [List.length_replicate] at hle
  subst hn
  refine ⟨by simp; omega, fun i ↦ ?_⟩
  rw [bitAt, bitAt, List.take_length, List.drop_replicate]
  by_cases hi : i / 8 < src.length
  · rw [List.getD_append _ _ _ _ hi]
  · have hout := Nat.not_lt.mp hi
    rw [List.getD_append_right _ _ _ _ hout, List.getD_eq_default src _ hout,
      List.getD_eq_getElem?_getD, List.getElem?_replicate]
    split <;> simp

/-- A copy of a whole array over one of the same size. -/
theorem memcpy_all {α : Type*} {dst src out : List α} (hd : dst.length = n) (hs : src.length = n)
    (h : memcpy dst src n = some out) : out = src := by
  obtain ⟨-, heq⟩ := Option.ite_none_right_eq_some.mp h
  cases heq
  rw [List.drop_eq_nil_of_le hd.le, List.append_nil, ← hs, List.take_length]

end Isl.Util
