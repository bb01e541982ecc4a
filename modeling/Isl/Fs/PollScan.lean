import Isl.Lib.Loop
import Mathlib.Data.BitVec
import Mathlib.Data.Int.Notation

/-!
The loop of `poll_wait` in `fs/poll.c` on a poll that one call makes for itself: what a turn
counts, and what the last one leaves to the call.
-/

namespace Isl.Fs.PollScan

open Isl.Lib.Loop

abbrev FdId := ℕ
abbrev Types := BitVec 32

def pollRead : Types := 1
def pollPri : Types := 2
def pollWrite : Types := 4
def pollErr : Types := 8
def pollHup : Types := 16
def pollNval : Types := 32

/-- `f_get`. The comparison with the size is unsigned, and refuses a negative number. -/
def fGet (files : List (Option FdId)) (f : ℤ) : Option FdId :=
  if f < 0 then none else files[f.toNat]?.join

structure PollFd where
  fd : FdId
  types : Types
  info : ℕ

/-- The result of an error of the host. -/
abbrev Err := { e : ℤ // e < 0 }

/-- The end of the `poll` of the host, and of the `read` behind it. -/
inductive Woken
  | error (e : Err)
  | timeout
  | again

/-- What a turn of the loop meets: the conditions of the files, and the end of its wait if it
comes to one. -/
structure Turn where
  ready : FdId → Types
  woken : Woken

/-- `hasPoll` says that the operations of a file have a `poll`. -/
structure Host where
  hasPoll : FdId → Bool
  turn : ℕ → Turn

/-- What is reported of a file. The `poll` of the host reports some conditions unasked. -/
def Host.pollTypes (host : Host) (turn : ℕ) (p : PollFd) : Types :=
  if host.hasPoll p.fd then (host.turn turn).ready p.fd &&& p.types
  else (host.turn turn).ready p.fd &&& (p.types ||| pollErr ||| pollHup ||| pollNval)

abbrev Callback (κ : Type*) := κ → PollFd → Types → κ × Bool

variable {κ : Type*}

/-- The loop over the files, which fails with its assertion. -/
def scan (host : Host) (callback : Callback κ) (turn : ℕ) : List PollFd → κ → Option (κ × ℕ)
  | [], context => some (context, 0)
  | p :: pollFds, context =>
    let types := host.pollTypes turn p
    if types = 0 then scan host callback turn pollFds context
    else if types &&& pollNval ≠ 0 then none
    else
      let (context, one) := callback context p types
      (scan host callback turn pollFds context).map fun r ↦ (r.1, r.2 + if one then 1 else 0)

structure Waiting (κ : Type*) where
  context : κ
  turn : ℕ
  slept : Bool

/-- A call that is over, with its last turn. `slept` says that it has waited. -/
structure Returned (κ : Type*) where
  result : ℤ
  context : κ
  turn : ℕ
  slept : Bool

def waitStep (host : Host) (callback : Callback κ) (pollFds : List PollFd) (s : Waiting κ) :
    Waiting κ ⊕ Option (Returned κ) :=
  match scan host callback s.turn pollFds s.context with
  | none => .inr none
  | some (context, res) =>
    if 0 < res then .inr (some ⟨res, context, s.turn, s.slept⟩)
    else
      match (host.turn s.turn).woken with
      | .error e => .inr (some ⟨e.val, context, s.turn, true⟩)
      | .timeout => .inr (some ⟨0, context, s.turn, true⟩)
      | .again => .inl ⟨context, s.turn + 1, true⟩

/-- `poll_wait` ends with this. -/
def PollWait (host : Host) (callback : Callback κ) (pollFds : List PollFd) (context : κ)
    (f : Returned κ) : Prop :=
  Returns (waitStep host callback pollFds) ⟨context, 0, false⟩ (some f)

section

variable {host : Host} {callback : Callback κ} {pollFds : List PollFd} {context context' : κ}
  {turn n : ℕ} {f : Returned κ}

theorem pollTypes_bit {p : PollFd} (b : ℕ) : (host.pollTypes turn p).getLsbD b = true ↔
    ((host.turn turn).ready p.fd).getLsbD b = true ∧ (p.types.getLsbD b = true ∨
      host.hasPoll p.fd = false ∧ (pollErr ||| pollHup ||| pollNval).getLsbD b = true) := by
  rw [Host.pollTypes]
  cases host.hasPoll p.fd <;> simp [or_assoc]

theorem types_ne_zero_iff {types : Types} : types ≠ 0 ↔ ∃ b, types.getLsbD b = true := by
  constructor
  · intro hne
    by_contra hall
    refine hne (BitVec.eq_of_getLsbD_eq fun b _ ↦ ?_)
    rw [Bool.eq_false_iff.mpr fun hb ↦ hall ⟨b, hb⟩]
    exact BitVec.getLsbD_zero.symm
  · rintro ⟨b, hb⟩ rfl
    exact Bool.noConfusion (hb.symm.trans BitVec.getLsbD_zero)

/-- The files that a turn calls back for. -/
def Host.reported (host : Host) (turn : ℕ) (pollFds : List PollFd) : List PollFd :=
  pollFds.filter fun p ↦ host.pollTypes turn p ≠ 0

theorem mem_reported {p : PollFd} :
    p ∈ host.reported turn pollFds ↔ p ∈ pollFds ∧ host.pollTypes turn p ≠ 0 := by
  rw [Host.reported, List.mem_filter, decide_eq_true_iff]

theorem nodup_reported {g : PollFd → ℕ} (h : (pollFds.map g).Nodup) :
    ((host.reported turn pollFds).map g).Nodup :=
  h.sublist (List.filter_sublist.map g)

/-- The callback runs for every file that is reported, and the count is that of the calls that
it counts. -/
theorem scan_eq_some {one : PollFd → Bool}
    (hone : ∀ context p, (callback context p (host.pollTypes turn p)).2 = one p)
    (h : scan host callback turn pollFds context = some (context', n)) :
    context' = (host.reported turn pollFds).foldl
        (fun context p ↦ (callback context p (host.pollTypes turn p)).1) context ∧
      n = ((host.reported turn pollFds).filter one).length ∧
      ∀ p ∈ pollFds, host.pollTypes turn p &&& pollNval = 0 := by
  induction pollFds generalizing context context' n with
  | nil =>
    cases h
    exact ⟨rfl, rfl, fun p hp ↦ nomatch hp⟩
  | cons p pollFds ih =>
    simp only [scan, hone] at h
    by_cases hzero : host.pollTypes turn p = 0
    · rw [if_pos hzero] at h
      obtain ⟨hcontext, hn, hall⟩ := ih h
      have hreported : host.reported turn (p :: pollFds) = host.reported turn pollFds :=
        List.filter_cons_of_neg (by simpa using hzero)
      rw [hreported]
      refine ⟨hcontext, hn, fun q hq ↦ ?_⟩
      rcases List.mem_cons.mp hq with rfl | hq
      · rw [hzero]
        exact BitVec.zero_and
      · exact hall q hq
    · rw [if_neg hzero] at h
      by_cases hnval : host.pollTypes turn p &&& pollNval = 0
      · rw [if_neg (not_not.mpr hnval)] at h
        obtain ⟨⟨c, m⟩, hscan, heq⟩ := Option.map_eq_some_iff.mp h
        obtain ⟨rfl, rfl⟩ := Prod.mk.inj heq
        obtain ⟨hcontext, hn, hall⟩ := ih hscan
        have hreported : host.reported turn (p :: pollFds) = p :: host.reported turn pollFds :=
          List.filter_cons_of_pos (by simpa using hzero)
        rw [hreported, List.foldl_cons]
        refine ⟨hcontext, ?_, fun q hq ↦ ?_⟩
        · rw [hn, List.filter_cons]
          cases one p <;> rfl
        · rcases List.mem_cons.mp hq with rfl | hq
          · exact hnval
          · exact hall q hq
      · rw [if_pos hnval] at h
        cases h

variable (host callback pollFds context) in
/-- The turns so far have counted nothing, and so have changed nothing. -/
structure Idle (s : Waiting κ) : Prop where
  same : s.context = context
  slept : s.slept = true → scan host callback 0 pollFds context = some (context, 0)
  first : s.slept = false → s.turn = 0

theorem Idle.again {s : Waiting κ} (h : Idle host callback pollFds context s)
    (hkeep : ∀ turn context', scan host callback turn pollFds context = some (context', 0) →
      context' = context)
    (hscan : scan host callback s.turn pollFds context = some (context', 0)) :
    context' = context ∧ scan host callback 0 pollFds context = some (context, 0) := by
  obtain rfl := hkeep _ _ hscan
  refine ⟨rfl, ?_⟩
  cases hslept : s.slept with
  | true => exact h.slept hslept
  | false => rwa [h.first hslept] at hscan

/-- The last turn decides. A call that has waited has counted nothing in its first one. -/
theorem PollWait.last (h : PollWait host callback pollFds context f) (hr : 0 ≤ f.result)
    (hkeep : ∀ turn context', scan host callback turn pollFds context = some (context', 0) →
      context' = context) :
    ∃ n : ℕ, scan host callback f.turn pollFds context = some (f.context, n) ∧ f.result = n ∧
      (f.slept = true → scan host callback 0 pollFds context = some (context, 0)) := by
  have hstart : Idle host callback pollFds context ⟨context, 0, false⟩ :=
    ⟨rfl, fun hne ↦ Bool.noConfusion hne, fun _ ↦ rfl⟩
  rw [PollWait] at h
  generalize (⟨context, 0, false⟩ : Waiting κ) = s at h hstart
  generalize hf : some f = r at h
  induction h with
  | @done s r hstep =>
    subst hf
    rw [waitStep, hstart.same] at hstep
    split at hstep
    · cases hstep
    · rename_i c res hscan
      split_ifs at hstep with hres
      · cases hstep
        exact ⟨res, hscan, rfl, hstart.slept⟩
      · obtain rfl : res = 0 := by omega
        split at hstep
        · rename_i e he
          cases hstep
          exact absurd e.property (not_lt.mpr hr)
        · cases hstep
          exact ⟨0, hscan, rfl, fun _ ↦ (hstart.again hkeep hscan).2⟩
        · cases hstep
  | @next s t r hstep _ ih =>
    rw [waitStep, hstart.same] at hstep
    split at hstep
    · cases hstep
    · rename_i c res hscan
      split_ifs at hstep with hres
      obtain rfl : res = 0 := by omega
      obtain ⟨rfl, hfirst⟩ := hstart.again hkeep hscan
      split at hstep
      · cases hstep
      · cases hstep
      · cases hstep
        exact ih ⟨rfl, fun _ ↦ hfirst, fun hne ↦ Bool.noConfusion hne⟩ hf

end

end Isl.Fs.PollScan
