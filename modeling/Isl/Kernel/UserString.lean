import Isl.Emu.GuestView
import Isl.Emu.MemAccess
import Isl.Lib.CString

/-! `user_read_string` of `kernel/user.c`: strings that are copied from the guest. -/

namespace Isl.Kernel.User

open Isl.Lib Isl.Emu Isl.Emu.Memory

/-- The loop of `user_read_string`. It ends at a null byte, at an address that cannot be
read, and at the end of the buffer. -/
def readString (g : GuestMem) (addr : Addr) : List Byte → List Byte × ℕ
  | [] => ([], 0)
  | b :: buf =>
    match g.load addr with
    | none => (b :: buf, 1)
    | some c =>
      if c = 0 then (c :: buf, 0)
      else
        let r := readString g (addr + 1) buf
        (c :: r.1, r.2)

/-- `user_read_string` into a buffer of `max` bytes. -/
def userReadString (g : GuestMem) (addr : Addr) (buf : List Byte) : List Byte × ℕ :=
  if addr = 0 then (buf, 1) else readString g addr buf

/-- The same loop on the address space of `emu/memory.c`. -/
def readStringAt (w : World) (m : ℕ) (addr : Addr) : List Byte → World × List Byte × ℕ
  | [] => (w, [], 0)
  | b :: buf =>
    let r := w.load m addr
    match r.2 with
    | none => (r.1, b :: buf, 1)
    | some c =>
      if c = 0 then (r.1, c :: buf, 0)
      else
        let r := readStringAt r.1 m (addr + 1) buf
        (r.1, c :: r.2.1, r.2.2)

def userReadStringAt (w : World) (m : ℕ) (addr : Addr) (buf : List Byte) : World × List Byte × ℕ :=
  if addr = 0 then (w, buf, 1) else readStringAt w m addr buf

/-- The buffer holds the string at an address with its null byte, and every walk that
stops at a null byte at the latest stays inside. -/
structure Terminated (g : GuestMem) (addr : Addr) (buf : List Byte) : Prop where
  string : ∃ str rest, buf = str ++ 0 :: rest ∧ 0 ∉ str ∧ g.Holds addr (str ++ [0])
  inside : ∀ stop : Byte → Bool, stop 0 = true → (CString.scanFrom stop buf 0).isSome

section

variable {w : World} {m : ℕ} {g : GuestMem} {addr : Addr} {buf bs : List Byte}

/-- The three exits of the loop. -/
theorem readString_cases (g : GuestMem) (addr : Addr) (buf : List Byte) :
    (∃ str old rest, readString g addr buf = (str ++ 0 :: rest, 0) ∧ 0 ∉ str ∧
      g.Holds addr (str ++ [0]) ∧ buf = old ++ rest ∧ old.length = str.length + 1) ∨
    (readString g addr buf).2 = 1 ∧ g.loads addr buf.length = none ∨
    (readString g addr buf).2 = 0 ∧ g.loads addr buf.length = some (readString g addr buf).1 ∧
      0 ∉ (readString g addr buf).1 := by
  induction buf generalizing addr with
  | nil => exact .inr (.inr ⟨rfl, rfl, List.not_mem_nil⟩)
  | cons b buf ih =>
    rw [readString, List.length_cons, GuestMem.loads]
    cases hload : g.load addr with
    | none => exact .inr (.inl ⟨rfl, rfl⟩)
    | some c =>
      by_cases hc : c = 0
      · subst hc
        refine .inl ⟨[], [b], buf, if_pos rfl, List.not_mem_nil, ?_, rfl, rfl⟩
        exact GuestMem.holds_cons.mpr ⟨hload, fun i hi ↦ absurd hi (Nat.not_lt_zero i)⟩
      · simp only [if_neg hc, Option.bind_eq_bind, Option.bind_some]
        obtain ⟨str, old, rest, heq, hstr, hholds, hold, hlen⟩ | ⟨hone, hnone⟩ |
          ⟨hzero, hsome, hmem⟩ := ih (addr + 1)
        · refine .inl ⟨c :: str, b :: old, rest, by rw [heq]; rfl, ?_, ?_, ?_, ?_⟩
          · exact fun h ↦ (List.mem_cons.mp h).elim (fun h ↦ hc h.symm) hstr
          · exact GuestMem.holds_cons.mpr ⟨hload, hholds⟩
          · rw [hold, List.cons_append]
          · rw [List.length_cons, List.length_cons, hlen]
        · exact .inr (.inl ⟨hone, by rw [hnone]; rfl⟩)
        · refine .inr (.inr ⟨hzero, by rw [hsome]; rfl, fun h ↦ ?_⟩)
          exact (List.mem_cons.mp h).elim (fun h ↦ hc h.symm) hmem

/-- With the result 0 the buffer holds a terminated string, if and only if the bytes for
which there is room cannot all be read, or one of them is null. -/
theorem userReadString_terminated_iff (g : GuestMem) (addr : Addr) (buf : List Byte) :
    ((userReadString g addr buf).2 = 0 → Terminated g addr (userReadString g addr buf).1) ↔
      (addr ≠ 0 → ∀ bs, g.loads addr buf.length = some bs → 0 ∈ bs) := by
  by_cases haddr : addr = 0
  · rw [userReadString, if_pos haddr]
    exact iff_of_true (fun h ↦ absurd h Nat.one_ne_zero) fun h ↦ absurd haddr h
  · rw [userReadString, if_neg haddr]
    obtain ⟨str, old, rest, heq, hstr, hholds, hold, hlen⟩ | ⟨hone, hnone⟩ |
      ⟨hzero, hsome, hmem⟩ := readString_cases g addr buf
    · rw [heq]
      refine iff_of_true (fun _ ↦ ⟨⟨str, rest, rfl, hstr, hholds⟩, fun stop hstop ↦ ?_⟩)
        fun _ bs hbs ↦ ?_
      · obtain ⟨mid, b, post, hsplit, hmid, hb⟩ := @CString.exists_stop _ stop (str ++ 0 :: rest)
          ⟨0, List.mem_append_right str List.mem_cons_self, hstop⟩
        have hscan := @CString.scanFrom_append _ stop [] mid post b hmid hb
        rw [List.nil_append, ← hsplit] at hscan
        rw [show (CString.scanFrom stop (str ++ 0 :: rest) 0) = _ from hscan]
        rfl
      · -- the null byte is among the bytes that fit
        obtain ⟨hsize, hbs⟩ := GuestMem.loads_eq_some.mp hbs
        have hlt : str.length < bs.length := by
          rw [hsize, hold, List.length_append, hlen]
          omega
        have hzero := hholds str.length (by simp)
        have hbyte := hbs str.length hlt
        rw [List.getElem_concat_length rfl, hbyte, Option.some.injEq] at hzero
        exact hzero ▸ List.getElem_mem hlt
    · rw [hone, hnone]
      exact iff_of_true (fun h ↦ absurd h Nat.one_ne_zero) fun _ _ h ↦ nomatch h
    · refine iff_of_false (fun h ↦ ?_) fun h ↦ hmem (h haddr _ hsome)
      obtain ⟨str, rest, heq, -, -⟩ := (h hzero).string
      rw [heq] at hmem
      exact hmem (List.mem_append_right str List.mem_cons_self)

/-- A memory of letters only. -/
def letters : GuestMem := ⟨fun _ ↦ .readWrite, fun _ ↦ 97⟩

/-- The name of a file system type for `sys_mount` that is as long as the buffer. -/
theorem userReadString_full : userReadString letters 4096 (List.replicate 100 0) =
      (List.replicate 100 97, 0) ∧
    ¬Terminated letters 4096 (userReadString letters 4096 (List.replicate 100 0)).1 := by
  have heq : userReadString letters 4096 (List.replicate 100 0) = (List.replicate 100 97, 0) := by
    decide
  refine ⟨heq, fun h ↦ ?_⟩
  obtain ⟨str, rest, hstr, -, -⟩ := h.string
  have hmem : (0 : Byte) ∈ str ++ 0 :: rest := List.mem_append_right str List.mem_cons_self
  rw [← hstr, heq] at hmem
  exact absurd (List.eq_of_mem_replicate hmem) (by decide)

/-! The address space. -/

theorem readStringAt_view (hw : w.Wf) (m : ℕ) (addr : Addr) (buf : List Byte) :
    (readStringAt w m addr buf).1.view m = w.view m ∧
      (readStringAt w m addr buf).2 = readString (w.view m) addr buf := by
  induction buf generalizing w addr with
  | nil => exact ⟨rfl, rfl⟩
  | cons b buf ih =>
    have hview : (w.load m addr).1.view m = w.view m := hw.view_memPtr m addr .read m
    have hrest := ih (hw.load m addr) (addr + 1)
    rw [readStringAt, readString, ← hw.load_view m addr]
    cases hload : (w.load m addr).2 with
    | none => exact ⟨hview, rfl⟩
    | some c =>
      by_cases hc : c = 0
      · simp only [if_pos hc]
        exact ⟨hview, trivial⟩
      · simp only [if_neg hc]
        rw [← hview]
        refine ⟨hrest.1, ?_⟩
        rw [← hrest.2]

/-- Reading a string finds what the guest sees, and changes nothing of that. -/
theorem userReadStringAt_view (hw : w.Wf) (m : ℕ) (addr : Addr) (buf : List Byte) :
    (userReadStringAt w m addr buf).1.view m = w.view m ∧
      (userReadStringAt w m addr buf).2 = userReadString (w.view m) addr buf := by
  rw [userReadStringAt, userReadString]
  split
  · exact ⟨rfl, rfl⟩
  · exact readStringAt_view hw m addr buf

end

end Isl.Kernel.User
