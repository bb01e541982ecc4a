import Isl.Emu.GuestMem

/-!
A range of guest memory as a list of bytes, and a stack in it that data are
pushed to from its top, or written to in place. Addresses are numbers here, and
a range does not go around the end of the address space.
-/

namespace Isl.Emu.GuestMem

open Memory

variable {g : GuestMem} {a k lo n top : ℕ} {bs data old pre post xs ys : List Byte}

def addrOf (n : ℕ) : Addr := BitVec.ofNat 32 n

theorem addrOf_toNat (h : n < 2 ^ 32) : (addrOf n).toNat = n := by
  rw [addrOf, BitVec.toNat_ofNat, Nat.mod_eq_of_lt h]

theorem addrOf_add (n k : ℕ) : addrOf n + BitVec.ofNat 32 k = addrOf (n + k) :=
  (BitVec.ofNat_add n k).symm

theorem page_addrOf (h : n < 2 ^ 32) : page (addrOf n) = n / pageSize := by
  rw [page, addrOf_toNat h]

/-- The bytes from `n` on. -/
def Contains (g : GuestMem) (n : ℕ) (bs : List Byte) : Prop :=
  ∀ (i : ℕ) (hi : i < bs.length), g.byte (addrOf (n + i)) = bs[i]

/-- What is known of the elements of two lists, one after the other. -/
theorem forall_getElem_append {α β : Type*} {f : ℕ → β} {φ : α → β} {xs ys : List α} :
    (∀ (i : ℕ) (hi : i < (xs ++ ys).length), f (n + i) = φ (xs ++ ys)[i]) ↔
      (∀ (i : ℕ) (hi : i < xs.length), f (n + i) = φ xs[i]) ∧
        ∀ (i : ℕ) (hi : i < ys.length), f (n + xs.length + i) = φ ys[i] := by
  constructor
  · intro h
    refine ⟨fun i hi ↦ ?_, fun i hi ↦ ?_⟩
    · rw [h i (by rw [List.length_append]; omega), List.getElem_append_left hi]
    · have hb := h (xs.length + i) (by rw [List.length_append]; omega)
      rw [List.getElem_append_right (Nat.le_add_right _ _)] at hb
      simpa [Nat.add_assoc] using hb
  · rintro ⟨hx, hy⟩ i hi
    rw [List.getElem_append]
    split
    · exact hx i _
    · rename_i hlen
      have hb := hy (i - xs.length) (by rw [List.length_append] at hi; omega)
      rwa [Nat.add_assoc, Nat.add_sub_cancel' (Nat.le_of_not_lt hlen)] at hb

theorem contains_append : g.Contains n (xs ++ ys) ↔ g.Contains n xs ∧ g.Contains (n + xs.length) ys :=
  forall_getElem_append (f := fun a ↦ g.byte (addrOf a)) (φ := id)

/-- Memory with some bytes put over it. -/
def overlay (g : GuestMem) (n : ℕ) (bs : List Byte) : GuestMem where
  perm := g.perm
  byte x := if n ≤ x.toNat then (bs[x.toNat - n]?).getD (g.byte x) else g.byte x

theorem overlay_nil (g : GuestMem) (n : ℕ) : g.overlay n [] = g := by
  refine congrArg (GuestMem.mk g.perm) (funext fun x ↦ ?_)
  split <;> rfl

theorem overlay_byte_of_outside {x : Addr} (h : x.toNat < n ∨ n + bs.length ≤ x.toNat) :
    (g.overlay n bs).byte x = g.byte x := by
  unfold overlay
  dsimp only
  split
  · rw [List.getElem?_eq_none (by omega)]
    rfl
  · rfl

theorem overlay_cons {b : Byte} (hn : n < 2 ^ 32) :
    overlay { g with byte := Function.update g.byte (addrOf n) b } (n + 1) bs =
      g.overlay n (b :: bs) := by
  refine congrArg (GuestMem.mk g.perm) (funext fun x ↦ ?_)
  by_cases hx : x = addrOf n
  · subst hx
    simp [addrOf_toNat hn]
  · have hne : x.toNat ≠ n := fun h ↦ hx (BitVec.eq_of_toNat_eq (h.trans (addrOf_toNat hn).symm))
    simp only [Function.update_of_ne hx]
    by_cases hle : n ≤ x.toNat
    · obtain ⟨j, hj⟩ : ∃ j, x.toNat - n = j + 1 := ⟨x.toNat - n - 1, by omega⟩
      have hj' : x.toNat - (n + 1) = j := by omega
      rw [if_pos (by omega), if_pos hle, hj, hj', List.getElem?_cons_succ]
    · rw [if_neg (by omega), if_neg hle]

/-- A write to memory that can be written. -/
theorem userWrite_eq (hw : g.writable (addrOf n) bs.length) (hn : n + bs.length ≤ 2 ^ 32) :
    g.userWrite (addrOf n) bs = (g.overlay n bs, 0) := by
  induction bs generalizing g n with
  | nil => rw [overlay_nil, userWrite]
  | cons b bs ih =>
    rw [List.length_cons] at hn hw
    have hp : g.perm (page (addrOf n)) = .readWrite := by
      have h := hw 0 (Nat.succ_pos _)
      rwa [BitVec.add_zero] at h
    have hs : g.store (addrOf n) b = some { g with byte := Function.update g.byte (addrOf n) b } :=
      store_eq_some.mpr ⟨hp, rfl⟩
    have hnext : addrOf n + 1 = addrOf (n + 1) := addrOf_add n 1
    rw [userWrite, hs]
    dsimp only
    rw [hnext, ih ?_ (by omega), overlay_cons (by omega)]
    intro i hi
    rw [← hnext, add_one_add]
    exact hw (i + 1) (Nat.succ_lt_succ hi)

theorem contains_overlay (h : n + bs.length ≤ 2 ^ 32) : (g.overlay n bs).Contains n bs := by
  intro i hi
  have hlt : n + i < 2 ^ 32 := by omega
  simp [overlay, addrOf_toNat hlt, hi]

theorem Contains.overlay (h : g.Contains n xs) (hx : n + xs.length ≤ 2 ^ 32)
    (hout : n + xs.length ≤ k ∨ k + bs.length ≤ n) : (g.overlay k bs).Contains n xs := by
  intro i hi
  rw [overlay_byte_of_outside, h i hi]
  rw [addrOf_toNat (by omega)]
  omega

/-- Bytes that are written over others of the same number. -/
theorem Contains.write (h : g.Contains n (pre ++ old ++ post)) (hlen : data.length = old.length)
    (hn : n + (pre ++ old ++ post).length ≤ 2 ^ 32) :
    (g.overlay (n + pre.length) data).Contains n (pre ++ data ++ post) := by
  simp only [List.length_append] at hn
  rw [contains_append, contains_append] at h ⊢
  obtain ⟨⟨hpre, -⟩, hpost⟩ := h
  refine ⟨⟨?_, ?_⟩, ?_⟩
  · exact hpre.overlay (by omega) (.inl le_rfl)
  · exact contains_overlay (by omega)
  · rw [List.length_append] at hpost ⊢
    rw [hlen]
    exact hpost.overlay (by omega) (.inr (by omega))

/-! The stack. -/

/-- Writable memory from `lo` up to `top`, zero below `n` and with known bytes from there. -/
structure Stack (g : GuestMem) (lo top n : ℕ) (bs : List Byte) : Prop where
  low : lo ≤ n
  length : n + bs.length = top
  top_le : top ≤ 2 ^ 32
  perm : ∀ a, lo ≤ a → a < top → g.perm (a / pageSize) = .readWrite
  contents : g.Contains lo (List.replicate (n - lo) 0 ++ bs)

/-- Zeros below the stack pointer as a part of the stack. -/
theorem Stack.extend (h : g.Stack lo top n bs) (hlo : lo ≤ k) (hn : k ≤ n) :
    g.Stack lo top k (List.replicate (n - k) 0 ++ bs) := by
  refine ⟨hlo, ?_, h.top_le, h.perm, ?_⟩
  · have hlen := h.length
    rw [List.length_append, List.length_replicate]
    omega
  · have hsplit : n - lo = (k - lo) + (n - k) := by omega
    rw [← List.append_assoc, List.replicate_append_replicate, ← hsplit]
    exact h.contents

theorem Stack.bytes (h : g.Stack lo top n bs) : g.Contains n bs := by
  have hbytes := (contains_append.mp h.contents).2
  rwa [List.length_replicate, Nat.add_sub_cancel' h.low] at hbytes

theorem Stack.write (h : g.Stack lo top n (pre ++ old ++ post)) (hlen : data.length = old.length) :
    ∃ g', g.userWrite (addrOf (n + pre.length)) data = (g', 0) ∧
      g'.Stack lo top n (pre ++ data ++ post) := by
  have hl := h.length
  have htop := h.top_le
  have hlow := h.low
  have hsame : (pre ++ data ++ post).length = (pre ++ old ++ post).length := by simp [hlen]
  simp only [List.length_append] at hl
  refine ⟨g.overlay (n + pre.length) data, userWrite_eq (fun i hi ↦ ?_) (by omega), ?_⟩
  · rw [addrOf_add, page_addrOf (by omega)]
    exact h.perm _ (by omega) (by omega)
  · refine ⟨h.low, hsame ▸ h.length, h.top_le, h.perm, ?_⟩
    have hbytes := h.contents
    rw [← List.append_assoc, ← List.append_assoc] at hbytes ⊢
    have hbase : lo + (List.replicate (n - lo) (0 : Byte) ++ pre).length = n + pre.length := by
      rw [List.length_append, List.length_replicate]
      omega
    rw [← hbase]
    refine hbytes.write hlen ?_
    simp only [List.length_append, List.length_replicate]
    omega

theorem Stack.push (h : g.Stack lo top n bs) (hroom : lo + data.length ≤ n) :
    ∃ g', g.userWrite (addrOf (n - data.length)) data = (g', 0) ∧
      g'.Stack lo top (n - data.length) (data ++ bs) := by
  have hext := h.extend (k := n - data.length) (by omega) (Nat.sub_le n _)
  have hsub : n - (n - data.length) = data.length := by omega
  rw [hsub] at hext
  have hzeros : (List.replicate data.length (0 : Byte)).length = data.length := List.length_replicate
  have hwrite : ∃ g', g.userWrite (addrOf (n - data.length + ([] : List Byte).length)) data = (g', 0) ∧
      g'.Stack lo top (n - data.length) ([] ++ data ++ bs) := hext.write hzeros.symm
  exact hwrite

end Isl.Emu.GuestMem
