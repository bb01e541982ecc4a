import Isl.Kernel.FileCalls
import Mathlib.Algebra.BigOperators.Group.List.Basic

/-!
`sys_readv` and `sys_writev` of `kernel/fs.c`: one call after another over an array of
segments that is copied from the guest.
-/

namespace Isl.Kernel.FileCalls

open Isl.Lib Isl.Emu Isl.Emu.Memory Isl.Fs

structure IoVec where
  base : Addr
  len : Dword
deriving DecidableEq

def sizeofIoVec : ℕ := 8

def ioVec (bytes : List Byte) : IoVec :=
  ⟨BitVec.ofNat 32 (Layout.leNat (bytes.take 4)), BitVec.ofNat 32 (Layout.leNat (bytes.drop 4))⟩

/-- The entries that an array of bytes has room for. -/
def ioVecs (bytes : List Byte) : List IoVec :=
  (List.range (bytes.length / sizeofIoVec)).map fun i ↦
    ioVec ((bytes.drop (sizeofIoVec * i)).take sizeofIoVec)

variable {S σ : Type}

/-- The loop of both calls, with `n` entries to go: it is `none` when the array has no
such entry. `below` is how the type of `res` compares it to zero. -/
def vectorLoop (below : Dword → Bool) (call : S → Addr → Dword → S × Dword) :
    ℕ → List IoVec → S → Dword → S × Option Dword
  | 0, _, s, count => (s, some count)
  | _ + 1, [], s, _ => (s, none)
  | n + 1, v :: vs, s, count =>
    match call s v.base v.len with
    | (s, res) =>
      if below res then (s, some res)
      else if res < v.len then (s, some (count + res))
      else vectorLoop below call n vs s (count + res)

/-- The size of the array is a product of 32 bits. -/
def vectorCall (below : Dword → Bool) (call : S → Addr → Dword → S × Dword) (mem : S → GuestMem)
    (s : S) (iovecAddr : Addr) (iovecCount : Dword) : S × Option Dword :=
  let iovecSize : Dword := BitVec.ofNat 32 sizeofIoVec * iovecCount
  let r := (mem s).userRead iovecAddr (List.replicate iovecSize.toNat 0)
  if r.2 ≠ 0 then (s, some (Errno.fault.toBits 32))
  else vectorLoop below call iovecCount.toNat (ioVecs r.1) s 0

/-- `res` is a `dword_t`. -/
def sysReadv (call : S → Addr → Dword → S × Dword) (mem : S → GuestMem) :
    S → Addr → Dword → S × Option Dword :=
  vectorCall (fun res ↦ res < 0) call mem

/-- `res` is an `int`. -/
def sysWritev (call : S → Addr → Dword → S × Dword) (mem : S → GuestMem) :
    S → Addr → Dword → S × Option Dword :=
  vectorCall (fun res ↦ res.toInt < 0) call mem

/-- The calls that were made, and what each of them returned. -/
abbrev Log := List (IoVec × Dword)

/-- A call that is recorded. -/
def logged (call : S → Addr → Dword → S × Dword) (s : S × Log) (addr : Addr) (len : Dword) :
    (S × Log) × Dword :=
  let r := call s.1 addr len
  ((r.1, s.2 ++ [(⟨addr, len⟩, r.2)]), r.2)

def IsError (res : Dword) : Prop := res.toInt < 0

instance : DecidablePred IsError := fun res ↦ inferInstanceAs (Decidable (res.toInt < 0))

/-- What scattered input and output is: the segments one after another, until the first
error or short transfer. -/
def transfer (call : S → Addr → Dword → S × Dword) : List IoVec → S → S × Log
  | [], s => (s, [])
  | v :: vs, s =>
    match call s v.base v.len with
    | (s, res) =>
      if IsError res ∨ res < v.len then (s, [(v, res)])
      else ((transfer call vs s).1, (v, res) :: (transfer call vs s).2)

def total (log : Log) : ℕ := (log.map fun e ↦ if IsError e.2 then 0 else e.2.toNat).sum

def firstError (log : Log) : Option Dword := (log.map Prod.snd).find? fun res ↦ IsError res

/-- The total, or the error when nothing was transferred before it. -/
def Returns (log : Log) (ret : Dword) : Prop :=
  if 0 < total log ∨ firstError log = none then ret.toInt = total log
  else firstError log = some ret

instance {log : Log} {ret : Dword} : Decidable (Returns log ret) :=
  inferInstanceAs (Decidable (ite _ (ret.toInt = total log) (firstError log = some ret)))

/-- A call over the segments `vs` does what it should: it stays inside of the array. -/
structure Transfers (call : S → Addr → Dword → S × Dword) (vs : List IoVec) (s : S)
    (r : (S × Log) × Option Dword) : Prop where
  inside : r.2 ≠ none
  calls : r.1 = transfer call vs s
  returns : ∀ ret, r.2 = some ret → Returns (transfer call vs s).2 ret

/-- The result that a call of this kind should have: an array that cannot be read is an
error before anything is transferred. -/
def VectorRight (call : S → Addr → Dword → S × Dword) (mem : S → GuestMem) (s : S)
    (iovecAddr : Addr) (iovecCount : Dword) (r : (S × Log) × Option Dword) : Prop :=
  let iovecSize : Dword := BitVec.ofNat 32 sizeofIoVec * iovecCount
  let array := (mem s).userRead iovecAddr (List.replicate iovecSize.toNat 0)
  if array.2 ≠ 0 then r = ((s, []), some (Errno.fault.toBits 32))
  else Transfers call (ioVecs array.1) s r

/-- The last call ends the loop, or the guest has passed no more segments. -/
def Stops (below : Dword → Bool) (n : ℕ) (log : Log) : Prop :=
  log.length = n ∨ ∃ e ∈ log.getLast?, below e.2 = true ∨ e.2 < e.1.len

/-- An error is only returned when nothing was transferred before it, and a total only
when it is a positive number of 32 bits. -/
def Countable (log : Log) : Prop :=
  if firstError log = none then total log < 2 ^ 31 else total log = 0

/-- The condition for a call of this kind. -/
def VectorFine (below : Dword → Bool) (call : S → Addr → Dword → S × Dword) (mem : S → GuestMem)
    (s : S) (iovecAddr : Addr) (iovecCount : Dword) : Prop :=
  let iovecSize : Dword := BitVec.ofNat 32 sizeofIoVec * iovecCount
  let array := (mem s).userRead iovecAddr (List.replicate iovecSize.toNat 0)
  if array.2 ≠ 0 then True
  else
    let log := (transfer call (ioVecs array.1) s).2
    Stops below iovecCount.toNat log ∧ Countable log

section

variable {call : S → Addr → Dword → S × Dword} {below : Dword → Bool} {vs : List IoVec} {s : S}
  {log log' : Log} {n : ℕ} {count res ret : Dword}

theorem length_ioVecs (bytes : List Byte) : (ioVecs bytes).length = bytes.length / sizeofIoVec := by
  rw [ioVecs, List.length_map, List.length_range]

theorem length_userRead (g : GuestMem) (a : Addr) (buf : List Byte) :
    (g.userRead a buf).1.length = buf.length := by
  induction buf generalizing a with
  | nil => rfl
  | cons b buf ih =>
    rw [GuestMem.userRead]
    split
    · rfl
    · exact congrArg Nat.succ (ih (a + 1))

/-- No error, or the last call is the first that failed. -/
theorem transfer_log (call : S → Addr → Dword → S × Dword) (vs : List IoVec) (s : S) :
    (∀ e ∈ (transfer call vs s).2, ¬IsError e.2) ∨ ∃ pre e, (transfer call vs s).2 = pre ++ [e] ∧
      (∀ e ∈ pre, ¬IsError e.2) ∧ IsError e.2 := by
  induction vs generalizing s with
  | nil => exact .inl fun e he ↦ absurd he List.not_mem_nil
  | cons v vs ih =>
    obtain ⟨s', res, hc⟩ : ∃ s' res, call s v.base v.len = (s', res) := ⟨_, _, rfl⟩
    rw [transfer, hc]
    dsimp only
    split
    · by_cases herr : IsError res
      · exact .inr ⟨[], (v, res), rfl, fun e he ↦ absurd he List.not_mem_nil, herr⟩
      · exact .inl fun e he ↦ List.mem_singleton.mp he ▸ herr
    · rename_i hgo
      have hok : ¬IsError res := fun h ↦ hgo (.inl h)
      rcases ih s' with hall | ⟨pre, e, hlog, hpre, herr⟩
      · exact .inl (List.forall_mem_cons.mpr ⟨hok, hall⟩)
      · exact .inr ⟨(v, res) :: pre, e, congrArg _ hlog, List.forall_mem_cons.mpr ⟨hok, hpre⟩, herr⟩

/-- The results as the loop adds them up. -/
def added (log : Log) : Dword := (log.map Prod.snd).sum

/-- What the loop returns after these calls. -/
def loopReturn (below : Dword → Bool) (count : Dword) (log : Log) : Dword :=
  match log.getLast? with
  | none => count
  | some e => if below e.2 then e.2 else count + added log

theorem loopReturn_cons (e : IoVec × Dword) (h : log ≠ []) :
    loopReturn below count (e :: log) = loopReturn below (count + e.2) log := by
  obtain ⟨e', log, rfl⟩ := List.exists_cons_of_ne_nil h
  have hadded : count + added (e :: e' :: log) = count + e.2 + added (e' :: log) := by
    rw [added, List.map_cons, List.sum_cons, ← add_assoc, added]
  obtain ⟨l, hlast⟩ : ∃ l, (e' :: log).getLast? = some l := ⟨_, List.getLast?_cons⟩
  rw [loopReturn, loopReturn, List.getLast?_cons_cons, hadded, hlast]

/-- The loop makes no call undone. -/
theorem vectorLoop_grows (below : Dword → Bool) (call : S → Addr → Dword → S × Dword) (n : ℕ)
    (vs : List IoVec) (s : S) (log : Log) (count : Dword) :
    log.length ≤ (vectorLoop below (logged call) n vs (s, log) count).1.2.length := by
  induction vs generalizing n s log count with
  | nil => cases n <;> exact le_rfl
  | cons v vs ih =>
    cases n with
    | zero => exact le_rfl
    | succ n =>
      obtain ⟨s', res, hc⟩ : ∃ s' res, call s v.base v.len = (s', res) := ⟨_, _, rfl⟩
      have hlog : log.length ≤ (log ++ [(v, res)]).length := by
        rw [List.length_append]
        exact Nat.le_add_right _ _
      rw [vectorLoop, logged, hc]
      dsimp only
      split
      · exact hlog
      · split
        · exact hlog
        · exact hlog.trans (ih n s' _ _)

/-- With an entry left the loop makes another call. -/
theorem vectorLoop_calls (below : Dword → Bool) (call : S → Addr → Dword → S × Dword) (n : ℕ)
    (v : IoVec) (vs : List IoVec) (s : S) (log : Log) (count : Dword) :
    log.length < (vectorLoop below (logged call) (n + 1) (v :: vs) (s, log) count).1.2.length := by
  obtain ⟨s', res, hc⟩ : ∃ s' res, call s v.base v.len = (s', res) := ⟨_, _, rfl⟩
  have hlonger : log.length < (log ++ [(v, res)]).length := by
    rw [List.length_append]
    exact Nat.lt_succ_self _
  rw [vectorLoop, logged, hc]
  dsimp only
  split
  · exact hlonger
  · split
    · exact hlonger
    · exact hlonger.trans_le (vectorLoop_grows _ _ _ _ _ _ _)

/-- A call that the loop goes on after. -/
theorem stops_cons {v : IoVec} (hstop : ¬(below res = true ∨ res < v.len)) :
    Stops below (n + 1) ((v, res) :: log) ↔ Stops below n log := by
  rw [Stops, Stops, List.length_cons, Nat.add_right_cancel_iff]
  refine or_congr_right ?_
  cases log with
  | nil =>
    refine iff_of_false ?_ ?_
    · rintro ⟨e, he, hend⟩
      cases he
      exact hstop hend
    · rintro ⟨e, he, -⟩
      cases he
  | cons e es => rw [List.getLast?_cons_cons]

theorem loopReturn_next {v : IoVec} (hb : ¬below res = true) :
    loopReturn below count ((v, res) :: log) = loopReturn below (count + res) log := by
  by_cases hnil : log = []
  · rw [hnil]
    simp [loopReturn, hb, added]
  · exact loopReturn_cons (v, res) hnil

/-- The loop makes the calls that it should and returns, or it goes on: behind the array,
or with another call. -/
theorem vectorLoop_cases (hbelow : ∀ res, below res = true → IsError res) (hn : vs.length ≤ n) :
    (Stops below n (transfer call vs s).2 ∧
      vectorLoop below (logged call) n vs (s, log) count =
        (((transfer call vs s).1, log ++ (transfer call vs s).2),
          some (loopReturn below count (transfer call vs s).2))) ∨
    (¬Stops below n (transfer call vs s).2 ∧
      ((vectorLoop below (logged call) n vs (s, log) count).2 = none ∨
        (log ++ (transfer call vs s).2).length <
          (vectorLoop below (logged call) n vs (s, log) count).1.2.length)) := by
  induction vs generalizing n s log count with
  | nil =>
    cases n with
    | zero =>
      refine .inl ⟨.inl rfl, ?_⟩
      rw [transfer, List.append_nil]
      rfl
    | succ n =>
      refine .inr ⟨?_, .inl rfl⟩
      rintro (hlen | ⟨e, he, -⟩)
      · cases hlen
      · cases he
  | cons v vs ih =>
    obtain ⟨n, rfl⟩ : ∃ m, n = m + 1 := ⟨n - 1, by rw [List.length_cons] at hn; omega⟩
    have hn' : vs.length ≤ n := Nat.le_of_succ_le_succ hn
    obtain ⟨s', res, hc⟩ : ∃ s' res, call s v.base v.len = (s', res) := ⟨_, _, rfl⟩
    rw [vectorLoop, transfer, logged, hc]
    dsimp only
    by_cases hstop : below res = true ∨ res < v.len
    · have hends : IsError res ∨ res < v.len := hstop.imp_left (hbelow res)
      rw [if_pos hends]
      refine .inl ⟨.inr ⟨_, rfl, hstop⟩, ?_⟩
      by_cases hb : below res = true
      · rw [if_pos hb]
        simp [loopReturn, hb]
      · rw [if_neg hb, if_pos (hstop.resolve_left hb)]
        simp [loopReturn, hb, added]
    · obtain ⟨hb, hshort⟩ := not_or.mp hstop
      rw [if_neg hb, if_neg hshort]
      by_cases herr : IsError res
      · -- the loop takes the error for a number of bytes
        rw [if_pos (.inl herr), stops_cons hstop, loopReturn_next hb]
        cases n with
        | zero => exact .inl ⟨.inl rfl, rfl⟩
        | succ n =>
          refine .inr ⟨?_, ?_⟩
          · rintro (hlen | ⟨e, he, -⟩)
            · cases hlen
            · cases he
          · cases vs with
            | nil => exact .inl rfl
            | cons v' vs => exact .inr (vectorLoop_calls _ _ _ _ _ _ _ _)
      · have hassoc : log ++ (v, res) :: (transfer call vs s').2 =
            log ++ [(v, res)] ++ (transfer call vs s').2 := List.append_cons log (v, res) _
        rw [if_neg (not_or.mpr ⟨herr, hshort⟩), stops_cons hstop, loopReturn_next hb, hassoc]
        exact ih hn'

theorem total_append (log log' : Log) : total (log ++ log') = total log + total log' := by
  rw [total, List.map_append, List.sum_append]
  rfl

theorem added_append (log log' : Log) : added (log ++ log') = added log + added log' := by
  rw [added, List.map_append, List.sum_append]
  rfl

theorem firstError_eq_none (h : ∀ e ∈ log, ¬IsError e.2) : firstError log = none := by
  rw [firstError, List.find?_eq_none]
  intro res hres
  obtain ⟨e, he, rfl⟩ := List.mem_map.mp hres
  exact fun hd ↦ h e he (of_decide_eq_true hd)

theorem added_eq (h : ∀ e ∈ log, ¬IsError e.2) : added log = BitVec.ofNat 32 (total log) := by
  induction log with
  | nil => rfl
  | cons e log ih =>
    obtain ⟨he, hlog⟩ := List.forall_mem_cons.mp h
    have hsum : added (e :: log) = e.2 + added log := List.sum_cons
    have htotal : total (e :: log) = e.2.toNat + total log := by
      rw [total, List.map_cons, List.sum_cons, if_neg he]
      rfl
    rw [hsum, ih hlog, htotal, BitVec.ofNat_add, BitVec.ofNat_toNat, BitVec.setWidth_eq]

theorem toInt_ofNat_eq_iff (n : ℕ) : (BitVec.ofNat 32 n).toInt = n ↔ n < 2 ^ 31 := by
  rw [BitVec.toInt_eq_toNat_cond, BitVec.toNat_ofNat]
  constructor
  · intro h
    split at h <;> omega
  · intro h
    rw [Nat.mod_eq_of_lt (by omega), if_pos (by omega)]

/-- What the loop returns is right for totals that it can count. -/
theorem returns_iff (hbelow : ∀ res, below res = true → IsError res)
    (hlog : (∀ e ∈ log, ¬IsError e.2) ∨ ∃ pre e, log = pre ++ [e] ∧
      (∀ e ∈ pre, ¬IsError e.2) ∧ IsError e.2) :
    Returns log (loopReturn below 0 log) ↔ Countable log := by
  rcases hlog with hall | ⟨pre, e, rfl, hpre, herr⟩
  · have hret : loopReturn below 0 log = BitVec.ofNat 32 (total log) := by
      rw [← added_eq hall, loopReturn]
      cases hlast : log.getLast? with
      | none =>
        rw [List.getLast?_eq_none_iff] at hlast
        rw [hlast]
        rfl
      | some e =>
        have hb : ¬below e.2 = true := fun h ↦ hall e (List.mem_of_getLast? hlast) (hbelow _ h)
        dsimp only
        rw [if_neg hb, zero_add]
    rw [Returns, if_pos (.inr (firstError_eq_none hall)), Countable,
      if_pos (firstError_eq_none hall), hret, toInt_ofNat_eq_iff]
  · have hfirst : firstError (pre ++ [e]) = some e.2 := by
      have hnone := firstError_eq_none hpre
      rw [firstError] at hnone ⊢
      rw [List.map_append, List.find?_append, hnone]
      simp [herr]
    have htotal : total (pre ++ [e]) = total pre := by
      have hsingle : total [e] = 0 := List.sum_singleton.trans (if_pos herr)
      rw [total_append, hsingle, Nat.add_zero]
    have hret : loopReturn below 0 (pre ++ [e]) =
        if below e.2 then e.2 else BitVec.ofNat 32 (total pre) + e.2 := by
      have hsingle : added [e] = e.2 := List.sum_singleton
      rw [loopReturn, List.getLast?_concat]
      dsimp only
      rw [added_append, added_eq hpre, hsingle, zero_add]
    have hsome : ¬firstError (pre ++ [e]) = none := by
      rw [hfirst]
      exact Option.some_ne_none e.2
    rw [Returns, Countable, if_neg hsome, hret, htotal, hfirst]
    by_cases hpos : 0 < total pre
    · refine iff_of_false ?_ hpos.ne'
      rw [if_pos (.inl hpos)]
      split
      · intro h
        have hneg : e.2.toInt < 0 := herr
        omega
      · intro h
        have hlt : total pre < 2 ^ 31 := by
          have hmax := BitVec.toInt_lt (x := BitVec.ofNat 32 (total pre) + e.2)
          omega
        have hsame : BitVec.ofNat 32 (total pre) + e.2 = BitVec.ofNat 32 (total pre) :=
          BitVec.eq_of_toInt_eq (h.trans ((toInt_ofNat_eq_iff _).mpr hlt).symm)
        have hneg : e.2.toInt < 0 := herr
        rw [add_eq_left.mp hsame] at hneg
        exact absurd hneg (by decide)
    · have hzero : total pre = 0 := Nat.eq_zero_of_not_pos hpos
      have hnot : ¬(0 < total pre ∨ some e.2 = none) := by
        rintro (h | h)
        · exact hpos h
        · cases h
      refine iff_of_true ?_ hzero
      rw [if_neg hnot, hzero]
      split
      · rfl
      · rw [BitVec.zero_add]

theorem loop_right_iff (hbelow : ∀ res, below res = true → IsError res) (hn : vs.length ≤ n) :
    Transfers call vs s (vectorLoop below (logged call) n vs (s, []) 0) ↔
      Stops below n (transfer call vs s).2 ∧ Countable (transfer call vs s).2 := by
  rcases @vectorLoop_cases S call below vs s [] n 0 hbelow hn with
    ⟨hstops, hloop⟩ | ⟨hgoes, hloop⟩
  · rw [and_iff_right hstops, ← returns_iff hbelow (transfer_log call vs s), hloop]
    constructor
    · exact fun h ↦ h.returns _ rfl
    · exact fun h ↦ ⟨Option.some_ne_none _, rfl, fun ret hret ↦ Option.some.inj hret ▸ h⟩
  · refine iff_of_false (fun h ↦ ?_) fun h ↦ hgoes h.1
    rcases hloop with hnone | hlonger
    · exact h.inside hnone
    · rw [h.calls, List.nil_append] at hlonger
      exact absurd hlonger (Nat.lt_irrefl _)

/-- When a call of this kind does what it should. -/
theorem vectorCall_right_iff (hbelow : ∀ res, below res = true → IsError res)
    (call : S → Addr → Dword → S × Dword) (mem : S → GuestMem) (s : S) (iovecAddr : Addr)
    (iovecCount : Dword) :
    VectorRight call mem s iovecAddr iovecCount
        (vectorCall below (logged call) (fun r ↦ mem r.1) (s, []) iovecAddr iovecCount) ↔
      VectorFine below call mem s iovecAddr iovecCount := by
  obtain ⟨size, hsize⟩ : ∃ size : Dword, BitVec.ofNat 32 sizeofIoVec * iovecCount = size := ⟨_, rfl⟩
  have hle : size.toNat / sizeofIoVec ≤ iovecCount.toNat := by
    rw [← hsize, BitVec.toNat_mul, BitVec.toNat_ofNat]
    apply Nat.div_le_of_le_mul
    exact Nat.mod_le _ _
  rw [VectorRight, VectorFine, vectorCall, hsize]
  dsimp only
  split
  · exact iff_of_true rfl trivial
  · apply loop_right_iff hbelow
    rw [length_ioVecs, length_userRead, List.length_replicate]
    exact hle

end

variable (read : Option (ReadOp σ)) (write : Option (WriteOp σ)) (t : Guest σ) (iovecAddr : Addr)
  (iovecCount : Dword)

/-- `readv` and `writev` transfer the segments in order and return what they should, if
and only if the loop has to stop where they are transferred to, and what it has added up
is the answer. -/
theorem vectors_right_iff :
    (VectorRight (sysRead read) Guest.mem t iovecAddr iovecCount
        (sysReadv (logged (sysRead read)) (fun r ↦ r.1.mem) (t, []) iovecAddr iovecCount) ↔
      VectorFine (fun res ↦ res < 0) (sysRead read) Guest.mem t iovecAddr iovecCount) ∧
    (VectorRight (sysWrite write) Guest.mem t iovecAddr iovecCount
        (sysWritev (logged (sysWrite write)) (fun r ↦ r.1.mem) (t, []) iovecAddr iovecCount) ↔
      VectorFine (fun res ↦ res.toInt < 0) (sysWrite write) Guest.mem t iovecAddr iovecCount) := by
  constructor
  · apply vectorCall_right_iff
    -- no `dword_t` is below zero
    intro res hbelow
    exact absurd (of_decide_eq_true hbelow) BitVec.not_lt_zero
  · apply vectorCall_right_iff
    exact fun res hbelow ↦ of_decide_eq_true hbelow

/-- One segment of two bytes, and one of one. -/
def twoSegments : List Byte := [0, 32, 0, 0, 2, 0, 0, 0, 0, 48, 0, 0, 1, 0, 0, 0]

/-- A guest with the array of segments at address `4096`. -/
def withSegments : Guest Unit :=
  ⟨(), ⟨fun _ ↦ .readWrite, fun addr ↦ (twoSegments[addr.toNat - 4096]?).getD 0⟩, false⟩

/-- With no such descriptor `readv` asks for each segment, and adds up the errors. -/
theorem not_vectorRight_badf :
    (sysReadv (logged (sysRead none)) (fun r ↦ r.1.mem) (withSegments, []) 4096 2).2 =
        some (Errno.badf.toBits 32 + Errno.badf.toBits 32) ∧
      ¬VectorRight (sysRead none) Guest.mem withSegments 4096 2
        (sysReadv (logged (sysRead none)) (fun r ↦ r.1.mem) (withSegments, []) 4096 2) := by
  have hret : (sysReadv (logged (sysRead none)) (fun r ↦ r.1.mem) (withSegments, []) 4096 2).2 =
      some (Errno.badf.toBits 32 + Errno.badf.toBits 32) := by decide
  refine ⟨hret, fun h ↦ ?_⟩
  rw [VectorRight, if_neg (by decide)] at h
  exact absurd (h.returns _ hret) (by decide)

end Isl.Kernel.FileCalls
