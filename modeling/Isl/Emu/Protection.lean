import Isl.Emu.Steady
import Isl.Emu.Written

/-! The pages of a task that the code it runs cannot change. -/

namespace Isl.Emu

open Isl.Lib
open Memory (Addr Byte page)

namespace GuestMem

/-- The protection of all pages is the same, and all bytes are but those of the
writable pages. -/
structure Confined (g g' : GuestMem) : Prop where
  perm : g'.perm = g.perm
  byte : ∀ x, g.perm (page x) ≠ .readWrite → g'.byte x = g.byte x

variable {g g' g'' : GuestMem}

theorem Confined.refl (g : GuestMem) : Confined g g := ⟨rfl, fun _ _ ↦ rfl⟩

theorem Confined.trans (h : Confined g g') (h' : Confined g' g'') : Confined g g'' := by
  refine ⟨h'.perm.trans h.perm, fun x hx ↦ ?_⟩
  rw [h'.byte x (by rwa [h.perm]), h.byte x hx]

theorem confined_store {addr : Addr} {v : Byte} (h : g.store addr v = some g') : Confined g g' := by
  obtain ⟨hw, rfl⟩ := store_eq_some.mp h
  refine ⟨rfl, fun x hx ↦ ?_⟩
  have hne : x ≠ addr := by
    rintro rfl
    exact hx hw
  exact Function.update_of_ne hne v g.byte

/-- The bytes before one that cannot be written are on writable pages too. -/
theorem confined_userWrite (g : GuestMem) (addr : Addr) (bs : List Byte) :
    Confined g (g.userWrite addr bs).1 := by
  induction bs generalizing g addr with
  | nil => exact .refl g
  | cons b bs ih =>
    unfold userWrite
    cases hs : g.store addr b with
    | none => exact .refl g
    | some g' => exact (confined_store hs).trans (ih g' (addr + 1))

theorem confined_tlbWrite {addr : Addr} {w : ℕ} {v : BitVec w} (h : g.tlbWrite addr v = some g') :
    Confined g g' := by
  obtain ⟨-, h⟩ := Option.ite_none_right_eq_some.mp h
  cases h
  exact confined_userWrite g addr _

end GuestMem

theorem steady_confined (g : GuestMem) : Steady fun m ↦ g.Confined m.mem where
  memWrite addr w v m hm := by
    cases hw : m.mem.tlbWrite addr v with
    | none =>
      rw [memWrite_stop hw]
      exact hm
    | some mem =>
      rw [memWrite_ok hw]
      exact hm.trans (GuestMem.confined_tlbWrite hw)
  plain _ _ _ hm := hm

/-- Whatever a task executes, and wherever it faults, the protection of its pages stays
as it is and so does every byte that is not on a writable page. -/
theorem confined_along_run {m m' : Machine} {hosts : List Host}
    (he : Run.exec Machine.next m hosts = some m') : m.mem.Confined m'.mem := by
  have hall : Run.AllAlong Machine.next (fun _ ↦ True) m hosts := fun _ _ _ _ ↦ trivial
  have hstep (s : Machine) (h : Host) (t : Machine) (hs : m.mem.Confined s.mem) (_ : True)
      (ht : s.next h = some t) : m.mem.Confined t.mem :=
    ((steady_confined m.mem).step h hs (.inr fun _ _ hm ↦ hm)).state? ht
  exact hall.keeps hstep (.refl m.mem) he

theorem confined_along_run_shlAl :
    ∃ m', Run.exec Machine.next (shlAl 0x1f) [Host.zero] = some m' ∧
      (shlAl 0x1f).mem.Confined m'.mem := by
  have hrun : (Run.exec Machine.next (shlAl 0x1f) [Host.zero]).isSome := by
    decide +kernel
  obtain ⟨m', hm'⟩ := Option.isSome_iff_exists.mp hrun
  exact ⟨m', hm', confined_along_run hm'⟩

end Isl.Emu
