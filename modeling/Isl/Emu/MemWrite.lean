import Isl.Emu.MemAccess

/-! What a write of `kernel/user.c` does to the memory of a task. -/

namespace Isl.Emu.GuestMem

open Memory

variable {g g' : GuestMem} {a x : Addr} {xs ys : List Byte} {b : Byte} {n : ℕ}

theorem perm_store (h : g.store a b = some g') : g'.perm = g.perm := by
  obtain ⟨-, rfl⟩ := store_eq_some.mp h
  rfl

theorem perm_userWrite (g : GuestMem) (a : Addr) (xs : List Byte) :
    (g.userWrite a xs).1.perm = g.perm := by
  induction xs generalizing g a with
  | nil => rfl
  | cons b xs ih =>
    rw [userWrite]
    cases hs : g.store a b with
    | none => rfl
    | some g' => exact (ih g' (a + 1)).trans (perm_store hs)

/-- A write meets no error where the guest can write. -/
theorem userWrite_ok_iff : (g.userWrite a xs).2 = 0 ↔ g.writable a xs.length := by
  refine ⟨fun hok ↦ ?_, userWrite_ok⟩
  induction xs generalizing g a with
  | nil => exact fun i hi ↦ absurd hi (Nat.not_lt_zero i)
  | cons b xs ih =>
    unfold userWrite at hok
    cases hs : g.store a b with
    | none =>
      rw [hs] at hok
      cases hok
    | some g' =>
      rw [hs] at hok
      intro i hi
      cases i with
      | zero =>
        rw [BitVec.add_zero]
        exact (store_eq_some.mp hs).1
      | succ i =>
        have hrest := ih hok i (Nat.lt_of_succ_lt_succ hi)
        rwa [perm_store hs, add_one_add] at hrest

theorem userWrite_append (hok : (g.userWrite a xs).2 = 0) : g.userWrite a (xs ++ ys) =
    (g.userWrite a xs).1.userWrite (a + BitVec.ofNat 32 xs.length) ys := by
  induction xs generalizing g a with
  | nil =>
    have hzero : a + BitVec.ofNat 32 ([] : List Byte).length = a := BitVec.add_zero a
    rw [hzero]
    rfl
  | cons b xs ih =>
    rw [List.cons_append, userWrite]
    unfold userWrite at hok
    cases hs : g.store a b with
    | none =>
      rw [hs] at hok
      cases hok
    | some g' =>
      rw [hs] at hok
      have hwrite : g.userWrite a (b :: xs) = g'.userWrite (a + 1) xs := by
        rw [userWrite, hs]
      rw [hwrite, List.length_cons, ← add_one_add]
      exact ih hok

theorem writable_mono {k : ℕ} (h : g.writable a n) (hk : k ≤ n) : g.writable a k :=
  fun i hi ↦ h i (Nat.lt_of_lt_of_le hi hk)

theorem writable_rest {k : ℕ} (h : g.writable a n) (hk : k ≤ n) (hperm : g'.perm = g.perm) :
    g'.writable (a + BitVec.ofNat 32 k) (n - k) := by
  intro i hi
  rw [hperm, BitVec.add_assoc, ← BitVec.ofNat_add]
  exact h (k + i) (by omega)

theorem writable_succ_of_store (hs : g.store a b = some g') (hw : g.writable a (n + 1)) :
    g'.writable (a + 1) n := by
  obtain ⟨-, rfl⟩ := store_eq_some.mp hs
  intro i hi
  rw [add_one_add]
  exact hw (i + 1) (Nat.succ_lt_succ hi)

/-- What can be written is written alike, whatever can be written besides. -/
theorem byte_userWrite (hbyte : g.byte = g'.byte) (hw : g.writable a xs.length)
    (hw' : g'.writable a xs.length) : (g.userWrite a xs).1.byte = (g'.userWrite a xs).1.byte := by
  induction xs generalizing g g' a with
  | nil => exact hbyte
  | cons b xs ih =>
    have hstore {f : GuestMem} (hf : f.writable a (b :: xs).length) :
        f.store a b = some { f with byte := Function.update f.byte a b } := by
      have hperm := hf 0 (Nat.succ_pos _)
      rw [BitVec.add_zero] at hperm
      exact store_eq_some.mpr ⟨hperm, rfl⟩
    rw [userWrite, userWrite, hstore hw, hstore hw']
    refine ih ?_ (writable_succ_of_store (hstore hw) hw) (writable_succ_of_store (hstore hw') hw')
    rw [hbyte]

/-- A write that fails has written the bytes before one that it cannot write. -/
theorem load_userWrite_cases (hlen : xs.length ≤ 2 ^ 32) (hx : dist a x < xs.length) :
    (g.userWrite a xs).1.load x = xs[dist a x]? ∨
      ¬g.writable a (dist a x + 1) ∧ (g.userWrite a xs).1.load x = g.load x := by
  induction xs generalizing g a with
  | nil => exact absurd hx (Nat.not_lt_zero _)
  | cons b xs ih =>
    rw [List.length_cons] at hlen hx
    unfold userWrite
    cases hs : g.store a b with
    | none =>
      refine .inr ⟨fun hw ↦ ?_, rfl⟩
      have hperm := hw 0 (Nat.succ_pos _)
      rw [BitVec.add_zero] at hperm
      rw [GuestMem.store, if_pos hperm] at hs
      cases hs
    | some g' =>
      dsimp only
      by_cases hxa : x = a
      · subst hxa
        have hd : xs.length ≤ dist (x + 1) x := by
          have hxl := x.isLt
          have h1 : (1 : Addr).toNat = 1 := rfl
          simp only [dist, BitVec.toNat_sub, BitVec.toNat_add, h1]
          omega
        have hzero : dist x x = 0 := by
          rw [dist, BitVec.sub_self]
          rfl
        rw [load_userWrite_of_outside xs hd, load_store_self hs, hzero]
        exact .inl rfl
      · have hd := dist_succ hxa
        rw [hd] at hx ⊢
        rcases ih (g := g') (by omega) (Nat.lt_of_succ_lt_succ hx) with h | ⟨hnot, h⟩
        · exact .inl h
        · refine .inr ⟨fun hw ↦ hnot (writable_succ_of_store hs hw), ?_⟩
          rw [h, load_store_of_ne hs hxa]

end Isl.Emu.GuestMem
