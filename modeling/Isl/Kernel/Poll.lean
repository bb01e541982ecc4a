import Isl.Fs.PollScan
import Mathlib.Data.Finset.Card
import Mathlib.Data.Finset.Range

/-!
`sys_poll` of `kernel/poll.c`. The entries of one file are merged into one `poll_fd`, which
answers all of them at once.
-/

namespace Isl.Kernel.Poll

open Isl.Fs.PollScan

/-- A `struct pollfd_`, its `revents` apart. -/
structure Pollfd where
  fd : ℤ
  events : BitVec 16

def Pollfd.types (p : Pollfd) : Types := p.events.setWidth 32

def pollAlwaysListening : Types := pollErr ||| pollHup ||| pollNval

section

variable (files : List (Option FdId)) (polls : List Pollfd)

/-- `f_get(polls[i].fd)` -/
def fileAt (i : ℕ) : Option FdId := polls[i]?.bind fun p ↦ fGet files p.fd

/-- The inner loop, with the events and the marks, which are kept in `revents`. -/
def mergeStep (fd : FdId) (s : Types × (ℕ → Bool)) (j : ℕ) : Types × (ℕ → Bool) :=
  match polls[j]? with
  | none => s
  | some q =>
    if s.2 j then s
    else if fGet files q.fd = some fd then (s.1 ||| q.types, Function.update s.2 j true)
    else s

structure Adding where
  marked : ℕ → Bool
  pollFds : List PollFd

/-- A turn of the outer loop. -/
def addStep (s : Adding) (i : ℕ) : Adding :=
  match polls[i]? with
  | none => s
  | some p =>
    if p.fd < 0 ∨ s.marked i = true then s
    else
      let marked := Function.update s.marked i true
      match fGet files p.fd with
      | none => ⟨marked, s.pollFds⟩
      | some fd =>
        let (events, marked) := (List.range polls.length).foldl (mergeStep files polls fd)
          (p.types, marked)
        ⟨marked, ⟨fd, events ||| pollAlwaysListening, 0⟩ :: s.pollFds⟩

def addFds : List PollFd :=
  ((List.range polls.length).foldl (addStep files polls) ⟨fun _ ↦ false, []⟩).pollFds

/-- The `revents` before the wait. -/
def cleared (i : ℕ) : BitVec 16 := if fileAt files polls i = none then pollNval.setWidth 16 else 0

def pollEventCallback : Callback (ℕ → BitVec 16) := fun revents p types ↦
  (fun i ↦
    match polls[i]? with
    | none => revents i
    | some q =>
      if fGet files q.fd = some p.fd then (types &&& (q.types ||| pollAlwaysListening)).setWidth 16
      else revents i,
    (List.range polls.length).any fun i ↦ fileAt files polls i = some p.fd)

/-- `sys_poll` ends with this, its `revents` as the context. -/
def SysPoll (host : Host) (f : Returned (ℕ → BitVec 16)) : Prop :=
  PollWait host (pollEventCallback files polls) (addFds files polls) (cleared files polls) f

/-- What is due to an entry in a turn. -/
def due (host : Host) (turn : ℕ) (p : Pollfd) : BitVec 16 :=
  if p.fd < 0 then 0
  else
    match fGet files p.fd with
    | none => pollNval.setWidth 16
    | some fd => ((host.turn turn).ready fd &&& (p.types ||| pollErr ||| pollHup)).setWidth 16

/-- The entries have what is due to them, and are counted. The call has not waited if there
was something to tell. -/
structure PollRight (host : Host) (f : Returned (ℕ → BitVec 16)) : Prop where
  revents : ∀ (i : ℕ) (p : Pollfd), polls[i]? = some p → f.context i = due files host f.turn p
  result : f.result = ((Finset.range polls.length).filter fun i ↦ f.context i ≠ 0).card
  noWait : f.slept = true → ∀ p ∈ polls, due files host 0 p = 0

end

section

variable {files : List (Option FdId)} {polls : List Pollfd} {fd : FdId} {p q : Pollfd}
  {i j k : ℕ}

theorem fileAt_eq_some : fileAt files polls i = some fd ↔
    ∃ p, polls[i]? = some p ∧ fGet files p.fd = some fd := Option.bind_eq_some_iff

/-! One `poll_fd` for each file. -/

/-- An entry of the file asks for the condition. -/
def Asks (files : List (Option FdId)) (polls : List Pollfd) (fd : FdId) (b : ℕ) : Prop :=
  ∃ (j : ℕ) (q : Pollfd), polls[j]? = some q ∧ fGet files q.fd = some fd ∧ q.types.getLsbD b = true

variable (files polls) in
/-- One turn of the inner loop, which reads its own mark only. -/
theorem mergeStep_spec (fd : FdId) (s : Types × (ℕ → Bool)) (m : ℕ) :
    (∀ b, (mergeStep files polls fd s m).1.getLsbD b = true ↔
      s.1.getLsbD b = true ∨ (s.2 m = false ∧
        ∃ q, polls[m]? = some q ∧ fGet files q.fd = some fd ∧ q.types.getLsbD b = true)) ∧
    ∀ j, (mergeStep files polls fd s m).2 j = true ↔
      s.2 j = true ∨ (j = m ∧ fileAt files polls m = some fd) := by
  simp only [mergeStep, fileAt]
  cases hp : polls[m]? with
  | none => simp
  | some q =>
    simp only [Option.bind_some]
    by_cases hmark : s.2 m = true
    · refine ⟨fun b ↦ by simp [hmark], fun j ↦ ?_⟩
      rw [if_pos hmark]
      refine ⟨Or.inl, ?_⟩
      rintro (h | ⟨rfl, -⟩)
      · exact h
      · exact hmark
    · by_cases hfile : fGet files q.fd = some fd
      · refine ⟨fun b ↦ by simp [hmark, hfile], fun j ↦ ?_⟩
        rw [if_neg hmark, if_pos hfile]
        by_cases hj : j = m
        · simp [hj, hfile]
        · simp [hj]
      · simp [hmark, hfile]

variable (files polls) in
theorem merge_spec (fd : FdId) (events : Types) (marked : ℕ → Bool) (m : ℕ) :
    (∀ b, ((List.range m).foldl (mergeStep files polls fd) (events, marked)).1.getLsbD b = true ↔
      events.getLsbD b = true ∨ ∃ j < m, marked j = false ∧
        ∃ q, polls[j]? = some q ∧ fGet files q.fd = some fd ∧ q.types.getLsbD b = true) ∧
    ∀ j, ((List.range m).foldl (mergeStep files polls fd) (events, marked)).2 j = true ↔
      marked j = true ∨ (j < m ∧ fileAt files polls j = some fd) := by
  induction m with
  | zero => simp
  | succ m ih =>
    obtain ⟨hevents, hmarked⟩ := ih
    rw [List.range_succ, List.foldl_append, List.foldl_cons, List.foldl_nil]
    generalize (List.range m).foldl (mergeStep files polls fd) (events, marked) = s
      at hevents hmarked
    obtain ⟨hbits, hmarks⟩ := mergeStep_spec files polls fd s m
    have hown : s.2 m = false ↔ marked m = false := by
      rw [← Bool.not_eq_true, ← Bool.not_eq_true, hmarked]
      simp
    refine ⟨fun b ↦ ?_, fun j ↦ ?_⟩
    · rw [hbits, hevents, hown, Nat.exists_lt_succ_right, or_assoc]
    · rw [hmarks, hmarked, Nat.lt_succ_iff_lt_or_eq, or_and_right, or_assoc]
      refine or_congr_right (or_congr_right (and_congr_right fun hj ↦ ?_))
      rw [hj]

theorem fGet_neg {f : ℤ} (h : f < 0) : fGet files f = none := if_pos h

theorem fileAt_of_get (hp : polls[i]? = some p) : fileAt files polls i = fGet files p.fd := by
  rw [fileAt, hp, Option.bind_some]

theorem fileAt_of_file (hp : polls[i]? = some p) (hfile : fGet files p.fd = some fd) :
    fileAt files polls i = some fd := (fileAt_of_get hp).trans hfile

theorem fileAt_lt (h : fileAt files polls i = some fd) : i < polls.length := by
  obtain ⟨p, hp, -⟩ := fileAt_eq_some.mp h
  exact (List.getElem?_eq_some_iff.mp hp).1

/-- The events and the marks of the entries of a file, when its first one is met. -/
def mergeAll (files : List (Option FdId)) (polls : List Pollfd) (marked : ℕ → Bool) (i : ℕ)
    (p : Pollfd) (fd : FdId) : Types × (ℕ → Bool) :=
  (List.range polls.length).foldl (mergeStep files polls fd)
    (p.types, Function.update marked i true)

variable (files polls) in
theorem addStep_cases (s : Adding) (i : ℕ) :
    (addStep files polls s i = s ∧
      ∀ fd, fileAt files polls i = some fd → s.marked i = true) ∨
    (addStep files polls s i = ⟨Function.update s.marked i true, s.pollFds⟩ ∧
      fileAt files polls i = none) ∨
    ∃ p fd, polls[i]? = some p ∧ fGet files p.fd = some fd ∧ s.marked i = false ∧
      addStep files polls s i = ⟨(mergeAll files polls s.marked i p fd).2,
        ⟨fd, (mergeAll files polls s.marked i p fd).1 ||| pollAlwaysListening, 0⟩ ::
          s.pollFds⟩ := by
  cases hp : polls[i]? with
  | none =>
    refine .inl ⟨by rw [addStep, hp], fun fd hfd ↦ ?_⟩
    rw [fileAt, hp] at hfd
    cases hfd
  | some p =>
    have hfile : fileAt files polls i = fGet files p.fd := fileAt_of_get hp
    by_cases hskip : p.fd < 0 ∨ s.marked i = true
    · refine .inl ⟨by simp only [addStep, hp, if_pos hskip], fun fd hfd ↦ ?_⟩
      rcases hskip with hneg | hmark
      · rw [hfile, fGet_neg hneg] at hfd
        cases hfd
      · exact hmark
    · cases hget : fGet files p.fd with
      | none =>
        refine .inr (.inl ⟨?_, hfile.trans hget⟩)
        simp only [addStep, hp, if_neg hskip, hget]
      | some fd =>
        refine .inr (.inr ⟨p, fd, rfl, hget, ?_, ?_⟩)
        · exact Bool.not_eq_true _ ▸ (not_or.mp hskip).2
        · simp only [addStep, hp, if_neg hskip, hget, mergeAll]

variable (files polls) in
/-- The first `k` entries have been added. -/
structure Added (k : ℕ) (s : Adding) : Prop where
  marks : ∀ j fd, fileAt files polls j = some fd →
    (s.marked j = true ↔ fd ∈ s.pollFds.map PollFd.fd)
  nodup : (s.pollFds.map PollFd.fd).Nodup
  mem : ∀ fd, fd ∈ s.pollFds.map PollFd.fd ↔ ∃ j < k, fileAt files polls j = some fd
  types : ∀ r ∈ s.pollFds, ∀ b, r.types.getLsbD b = true ↔
    pollAlwaysListening.getLsbD b = true ∨ Asks files polls r.fd b

/-- The first entry of a file finds all of them unmarked, and so adds the events of all. -/
theorem Added.merged {s : Adding} (h : Added files polls k s) (hp : polls[i]? = some p)
    (hfile : fGet files p.fd = some fd) (hmark : s.marked i = false) :
    (∀ b, (mergeAll files polls s.marked i p fd).1.getLsbD b = true ↔ Asks files polls fd b) ∧
    ∀ j fd', fileAt files polls j = some fd' →
      ((mergeAll files polls s.marked i p fd).2 j = true ↔ s.marked j = true ∨ fd' = fd) := by
  obtain ⟨hevents, hmarks⟩ :=
    merge_spec files polls fd p.types (Function.update s.marked i true) polls.length
  have hi : fileAt files polls i = some fd := fileAt_of_file hp hfile
  have hnew : fd ∉ s.pollFds.map PollFd.fd := fun hmem ↦ by
    rw [(h.marks i fd hi).mpr hmem] at hmark
    cases hmark
  refine ⟨fun b ↦ (hevents b).trans ⟨?_, ?_⟩, fun j fd' hj ↦ (hmarks j).trans ?_⟩
  · rintro (hb | ⟨j, -, -, q, hq, hqfile, hb⟩)
    · exact ⟨i, p, hp, hfile, hb⟩
    · exact ⟨j, q, hq, hqfile, hb⟩
  · rintro ⟨j, q, hq, hqfile, hb⟩
    have hj : fileAt files polls j = some fd := fileAt_of_file hq hqfile
    by_cases hji : j = i
    · subst hji
      obtain rfl : p = q := Option.some.inj (hp.symm.trans hq)
      exact .inl hb
    · refine .inr ⟨j, fileAt_lt hj, ?_, q, hq, hqfile, hb⟩
      rw [Function.update_of_ne hji, ← Bool.not_eq_true, h.marks j fd hj]
      exact hnew
  · by_cases hji : j = i
    · subst hji
      obtain rfl : fd' = fd := Option.some.inj (hj.symm.trans hi)
      simp
    · rw [Function.update_of_ne hji, hj, Option.some.injEq,
        and_iff_right (fileAt_lt hj)]

theorem Added.step {s : Adding} (h : Added files polls k s) :
    Added files polls (k + 1) (addStep files polls s k) := by
  obtain ⟨heq, hold⟩ | ⟨heq, hnone⟩ | ⟨p, fd, hp, hfile, hmark, heq⟩ :=
    addStep_cases files polls s k
  · rw [heq]
    refine ⟨h.marks, h.nodup, fun fd ↦ ?_, h.types⟩
    rw [Nat.exists_lt_succ_right, ← h.mem fd, or_iff_left_of_imp]
    exact fun hfd ↦ (h.marks k fd hfd).mp (hold fd hfd)
  · rw [heq]
    refine ⟨fun j fd hj ↦ ?_, h.nodup, fun fd ↦ ?_, h.types⟩
    · have hjk : j ≠ k := by
        rintro rfl
        cases hj.symm.trans hnone
      simpa only [Function.update_of_ne hjk] using h.marks j fd hj
    · rw [Nat.exists_lt_succ_right, hnone, ← h.mem fd]
      simp
  · obtain ⟨hbits, hmarks⟩ := h.merged hp hfile hmark
    have hk : fileAt files polls k = some fd := fileAt_of_file hp hfile
    rw [heq]
    refine ⟨fun j fd' hj ↦ ?_, ?_, fun fd' ↦ ?_, fun r hr b ↦ ?_⟩
    · rw [hmarks j fd' hj, h.marks j fd' hj, List.map_cons, List.mem_cons, or_comm]
    · refine List.nodup_cons.mpr ⟨fun hmem ↦ ?_, h.nodup⟩
      rw [(h.marks k fd hk).mpr hmem] at hmark
      cases hmark
    · rw [Nat.exists_lt_succ_right, ← h.mem fd', List.map_cons, List.mem_cons, hk,
        Option.some.injEq, or_comm, eq_comm]
    · rcases List.mem_cons.mp hr with rfl | hr
      · rw [BitVec.getLsbD_or, Bool.or_eq_true, hbits, or_comm]
      · exact h.types r hr b

theorem added (files : List (Option FdId)) (polls : List Pollfd) (k : ℕ) :
    Added files polls k
      ((List.range k).foldl (addStep files polls) ⟨fun _ ↦ false, []⟩) := by
  induction k with
  | zero => exact ⟨fun _ _ _ ↦ by simp, List.nodup_nil, fun _ ↦ by simp, fun _ hr ↦ nomatch hr⟩
  | succ k ih =>
    rw [List.range_succ, List.foldl_append, List.foldl_cons, List.foldl_nil]
    exact ih.step

theorem mem_addFds :
    (∃ r ∈ addFds files polls, r.fd = fd) ↔ ∃ i, fileAt files polls i = some fd := by
  rw [← List.mem_map, addFds, (added files polls polls.length).mem fd]
  exact exists_congr fun i ↦ and_iff_right_of_imp fileAt_lt

theorem addFds_nodup : ((addFds files polls).map PollFd.fd).Nodup :=
  (added files polls polls.length).nodup

theorem addFds_types {r : PollFd} (hr : r ∈ addFds files polls) (b : ℕ) :
    r.types.getLsbD b = true ↔
      pollAlwaysListening.getLsbD b = true ∨ Asks files polls r.fd b :=
  (added files polls polls.length).types r hr b

/-! The callback runs for every file that is ready, and settles its entries. -/

variable {host : Host} {turn n : ℕ} {context context' : ℕ → BitVec 16} {r : PollFd}

/-- The host reports nothing here that is not asked of it. -/
theorem pollTypes_addFds (hr : r ∈ addFds files polls) :
    host.pollTypes turn r = (host.turn turn).ready r.fd &&& r.types := by
  have hall : r.types ||| pollErr ||| pollHup ||| pollNval = r.types := by
    apply BitVec.eq_of_getLsbD_eq
    intro b _
    have hbit := (addFds_types hr b).mpr
    simp only [pollAlwaysListening, BitVec.getLsbD_or, Bool.or_eq_true] at hbit ⊢
    grind
  rw [Host.pollTypes, hall, ite_self]

theorem scan_spec (h : scan host (pollEventCallback files polls) turn (addFds files polls) context =
      some (context', n)) :
    context' = (host.reported turn (addFds files polls)).foldl (fun context p ↦
        (pollEventCallback files polls context p (host.pollTypes turn p)).1) context ∧
      n = (host.reported turn (addFds files polls)).length ∧
      ∀ r ∈ addFds files polls, host.pollTypes turn r &&& pollNval = 0 := by
  obtain ⟨hcontext, hn, hnval⟩ := scan_eq_some (fun _ _ ↦ rfl) h
  refine ⟨hcontext, hn.trans (congrArg List.length (List.filter_eq_self.mpr fun r hr ↦ ?_)),
    hnval⟩
  obtain ⟨i, hi⟩ := mem_addFds.mp ⟨r, List.mem_of_mem_filter hr, rfl⟩
  exact List.any_eq_true.mpr ⟨i, List.mem_range.mpr (fileAt_lt hi), decide_eq_true hi⟩

theorem settle_of_notMem {types : PollFd → Types} {pollFds : List PollFd}
    (h : ∀ r ∈ pollFds, fileAt files polls i ≠ some r.fd) :
    pollFds.foldl (fun context p ↦ (pollEventCallback files polls context p (types p)).1)
      context i = context i := by
  induction pollFds generalizing context with
  | nil => rfl
  | cons r pollFds ih =>
    rw [List.foldl_cons, ih fun q hq ↦ h q (List.mem_cons_of_mem r hq)]
    have hr := h r List.mem_cons_self
    simp only [pollEventCallback]
    cases hp : polls[i]? with
    | none => rfl
    | some p =>
      rw [fileAt_of_get hp] at hr
      exact if_neg hr

theorem settle_of_mem {types : PollFd → Types} {pollFds : List PollFd}
    (hnodup : (pollFds.map PollFd.fd).Nodup) (hr : r ∈ pollFds) (hp : polls[i]? = some p)
    (hfile : fGet files p.fd = some r.fd) :
    pollFds.foldl (fun context p ↦ (pollEventCallback files polls context p (types p)).1)
      context i = (types r &&& (p.types ||| pollAlwaysListening)).setWidth 16 := by
  induction pollFds generalizing context with
  | nil => cases hr
  | cons q pollFds ih =>
    obtain ⟨hnew, hnodup⟩ := List.nodup_cons.mp hnodup
    rw [List.foldl_cons]
    rcases List.mem_cons.mp hr with rfl | hr
    · rw [settle_of_notMem fun q hq heq ↦ hnew ?_]
      · simp only [pollEventCallback, hp, if_pos hfile]
      · rw [fileAt_of_file hp hfile] at heq
        exact Option.some.inj heq ▸ List.mem_map_of_mem hq
    · exact ih hnodup hr

theorem masked_eq_due (hr : r ∈ addFds files polls) (hp : polls[i]? = some p)
    (hfile : fGet files p.fd = some r.fd) (hnval : host.pollTypes turn r &&& pollNval = 0) :
    (host.pollTypes turn r &&& (p.types ||| pollAlwaysListening)).setWidth 16 =
      due files host turn p := by
  have hopen : ¬ p.fd < 0 := fun hneg ↦ by
    rw [fGet_neg hneg] at hfile
    cases hfile
  rw [due, if_neg hopen, hfile]
  congr 1
  apply BitVec.eq_of_getLsbD_eq
  intro b _
  have hbit := addFds_types hr b
  have hasks : p.types.getLsbD b = true → Asks files polls r.fd b := fun hb ↦ ⟨i, p, hp, hfile, hb⟩
  have hno := congrArg (BitVec.getLsbD · b) hnval
  rw [pollTypes_addFds hr] at hno ⊢
  simp only [pollAlwaysListening, BitVec.getLsbD_or, BitVec.getLsbD_and, Bool.or_eq_true]
    at hbit hno ⊢
  grind

/-- A file is reported where one of its entries has something due to it. -/
theorem reported_iff (hr : r ∈ addFds files polls)
    (hnval : host.pollTypes turn r &&& pollNval = 0) :
    host.pollTypes turn r ≠ 0 ↔
      ∃ (i : ℕ) (p : Pollfd), polls[i]? = some p ∧ fGet files p.fd = some r.fd ∧
        due files host turn p ≠ 0 := by
  constructor
  · intro hne
    obtain ⟨b, hb⟩ := types_ne_zero_iff.mp hne
    have hasked := hb
    rw [pollTypes_addFds hr, BitVec.getLsbD_and, Bool.and_eq_true, addFds_types hr] at hasked
    -- either the bit is one of those that are reported unasked, or an entry asks for it
    obtain ⟨i, p, hp, hfile, hmask, hlow⟩ : ∃ (i : ℕ) (p : Pollfd), polls[i]? = some p ∧
        fGet files p.fd = some r.fd ∧
        (p.types ||| pollAlwaysListening).getLsbD b = true ∧ b < 16 := by
      rcases hasked.2 with halways | ⟨i, p, hp, hfile, hbit⟩
      · obtain ⟨i, hi⟩ := mem_addFds.mp ⟨r, hr, rfl⟩
        obtain ⟨p, hp, hfile⟩ := fileAt_eq_some.mp hi
        have hsmall : pollAlwaysListening = BitVec.setWidth 32 (56 : BitVec 16) := rfl
        rw [hsmall, BitVec.getLsbD_setWidth, Bool.and_eq_true] at halways
        refine ⟨i, p, hp, hfile, ?_, BitVec.lt_of_getLsbD halways.2⟩
        rw [BitVec.getLsbD_or, hsmall, BitVec.getLsbD_setWidth, halways.2, Bool.and_true,
          halways.1, Bool.or_true]
      · have hbit' := hbit
        rw [Pollfd.types, BitVec.getLsbD_setWidth, Bool.and_eq_true] at hbit'
        refine ⟨i, p, hp, hfile, ?_, BitVec.lt_of_getLsbD hbit'.2⟩
        rw [BitVec.getLsbD_or, hbit, Bool.true_or]
    refine ⟨i, p, hp, hfile, fun hzero ↦ ?_⟩
    rw [← masked_eq_due hr hp hfile hnval] at hzero
    have hclear : (0 : BitVec 16).getLsbD b = true := by
      rw [← hzero]
      simp only [BitVec.getLsbD_setWidth, BitVec.getLsbD_and, hb, hmask, hlow, decide_true,
        Bool.and_self]
    exact Bool.noConfusion (hclear.symm.trans BitVec.getLsbD_zero)
  · rintro ⟨i, p, hp, hfile, hdue⟩ hzero
    apply hdue
    rw [← masked_eq_due hr hp hfile hnval, hzero]
    simp

theorem scan_context (h : scan host (pollEventCallback files polls) turn (addFds files polls)
    (cleared files polls) = some (context, n)) (hp : polls[i]? = some p) :
    context i = if fGet files p.fd = none then pollNval.setWidth 16
      else due files host turn p := by
  obtain ⟨rfl, -, hnval⟩ := scan_spec h
  have hi : fileAt files polls i = fGet files p.fd := fileAt_of_get hp
  cases hfile : fGet files p.fd with
  | none =>
    rw [if_pos rfl, settle_of_notMem fun r _ heq ↦ ?_, cleared, if_pos (hi.trans hfile)]
    rw [hi, hfile] at heq
    cases heq
  | some fd =>
    rw [if_neg (Option.some_ne_none fd)]
    obtain ⟨r, hr, rfl⟩ := mem_addFds.mpr ⟨i, hi.trans hfile⟩
    have hdue := masked_eq_due hr hp hfile (hnval r hr)
    by_cases hzero : host.pollTypes turn r = 0
    · -- the only `poll_fd` of the file is not reported
      rw [settle_of_notMem fun q hq heq ↦ ?_, cleared, if_neg (by rw [hi, hfile]; simp), ← hdue,
        hzero]
      · simp
      · obtain ⟨hq, hne⟩ := mem_reported.mp hq
        rw [hi, hfile, Option.some.injEq] at heq
        rw [← List.inj_on_of_nodup_map addFds_nodup hr hq heq] at hne
        exact hne hzero
    · rw [settle_of_mem (nodup_reported addFds_nodup) (mem_reported.mpr ⟨hr, hzero⟩) hp hfile,
        hdue]

theorem scan_context_open (h : scan host (pollEventCallback files polls) turn
    (addFds files polls) (cleared files polls) = some (context, n)) (hp : polls[i]? = some p)
    (hfile : fGet files p.fd = some fd) : context i = due files host turn p := by
  rw [scan_context h hp, if_neg (by rw [hfile]; exact Option.some_ne_none fd)]

def told (files : List (Option FdId)) (polls : List Pollfd) (context : ℕ → BitVec 16) : Finset ℕ :=
  (Finset.range polls.length).filter fun i ↦ fileAt files polls i ≠ none ∧ context i ≠ 0

theorem mem_told : i ∈ told files polls context ↔
    ∃ p fd, polls[i]? = some p ∧ fGet files p.fd = some fd ∧ context i ≠ 0 := by
  rw [told, Finset.mem_filter, Finset.mem_range]
  constructor
  · rintro ⟨-, hopen, hne⟩
    obtain ⟨fd, hfd⟩ := Option.ne_none_iff_exists'.mp hopen
    obtain ⟨p, hp, hfile⟩ := fileAt_eq_some.mp hfd
    exact ⟨p, fd, hp, hfile, hne⟩
  · rintro ⟨p, fd, hp, hfile, hne⟩
    have hfd : fileAt files polls i = some fd := fileAt_of_file hp hfile
    exact ⟨fileAt_lt hfd, by rw [hfd]; exact Option.some_ne_none fd, hne⟩

theorem scan_count (h : scan host (pollEventCallback files polls) turn (addFds files polls)
    (cleared files polls) = some (context, n)) :
    n = ((told files polls context).image (fileAt files polls)).card := by
  obtain ⟨-, rfl, hnval⟩ := scan_spec h
  have hnodup : ((host.reported turn (addFds files polls)).map PollFd.fd).Nodup :=
    nodup_reported addFds_nodup
  have hfiles : (told files polls context).image (fileAt files polls) =
      (((host.reported turn (addFds files polls)).map PollFd.fd).map some).toFinset := by
    ext o
    rw [Finset.mem_image, List.mem_toFinset, List.mem_map]
    constructor
    · rintro ⟨i, hi, rfl⟩
      obtain ⟨p, fd, hp, hfile, hne⟩ := mem_told.mp hi
      have hfd : fileAt files polls i = some fd := fileAt_of_file hp hfile
      obtain ⟨r, hr, rfl⟩ := mem_addFds.mpr ⟨i, hfd⟩
      rw [scan_context_open h hp hfile] at hne
      have hready := (reported_iff hr (hnval r hr)).mpr ⟨i, p, hp, hfile, hne⟩
      exact ⟨r.fd, List.mem_map_of_mem (mem_reported.mpr ⟨hr, hready⟩), hfd.symm⟩
    · rintro ⟨fd, hfd, rfl⟩
      obtain ⟨r, hr, rfl⟩ := List.mem_map.mp hfd
      obtain ⟨hr, hready⟩ := mem_reported.mp hr
      obtain ⟨i, p, hp, hfile, hdue⟩ := (reported_iff hr (hnval r hr)).mp hready
      rw [← scan_context_open h hp hfile] at hdue
      exact ⟨i, mem_told.mpr ⟨p, r.fd, hp, hfile, hdue⟩, fileAt_of_file hp hfile⟩
  rw [hfiles, List.toFinset_card_of_nodup (hnodup.map (Option.some_injective FdId)),
    List.length_map, List.length_map]

theorem scan_zero (h : scan host (pollEventCallback files polls) turn (addFds files polls)
    context = some (context', 0)) : context' = context := by
  obtain ⟨rfl, hn, -⟩ := scan_spec h
  rw [List.eq_nil_of_length_eq_zero hn.symm]
  rfl

/-! The count is that of the entries where no file has two of them, and all are open. -/

theorem told_subset : told files polls context ⊆
    (Finset.range polls.length).filter fun i ↦ context i ≠ 0 :=
  Finset.monotone_filter_right _ fun _ _ hi ↦ hi.2

theorem card_files_eq_iff :
    ((told files polls context).image (fileAt files polls)).card =
        ((Finset.range polls.length).filter fun i ↦ context i ≠ 0).card ↔
      told files polls context = (Finset.range polls.length).filter (fun i ↦ context i ≠ 0) ∧
        Set.InjOn (fileAt files polls) (told files polls context) := by
  constructor
  · intro hcard
    have hle : ((told files polls context).image (fileAt files polls)).card ≤
        (told files polls context).card := Finset.card_image_le
    have heq : told files polls context =
        (Finset.range polls.length).filter fun i ↦ context i ≠ 0 :=
      Finset.eq_of_subset_of_card_le told_subset (hcard ▸ hle)
    rw [← heq] at hcard
    exact ⟨heq, Finset.card_image_iff.mp hcard⟩
  · rintro ⟨heq, hinj⟩
    rw [Finset.card_image_of_injOn hinj, heq]

/-- `POLL_NVAL` is what the others are told. -/
theorem told_eq_iff (h : scan host (pollEventCallback files polls) turn (addFds files polls)
    (cleared files polls) = some (context, n)) :
    told files polls context = (Finset.range polls.length).filter (fun i ↦ context i ≠ 0) ↔
      ∀ p ∈ polls, fGet files p.fd ≠ none := by
  constructor
  · intro heq p hp hnone
    obtain ⟨i, hi⟩ := List.mem_iff_getElem?.mp hp
    have hcontext := scan_context h hi
    rw [if_pos hnone] at hcontext
    have hmem : i ∈ told files polls context := by
      rw [heq, Finset.mem_filter, Finset.mem_range, hcontext]
      exact ⟨(List.getElem?_eq_some_iff.mp hi).1, by decide⟩
    obtain ⟨p', fd, hp', hfile, -⟩ := mem_told.mp hmem
    obtain rfl : p = p' := Option.some.inj (hi.symm.trans hp')
    cases hnone.symm.trans hfile
  · intro hopen
    refine told_subset.antisymm fun i hi ↦ ?_
    obtain ⟨hi, hne⟩ := Finset.mem_filter.mp hi
    have hp := List.getElem?_eq_getElem (Finset.mem_range.mp hi)
    obtain ⟨fd, hfile⟩ := Option.ne_none_iff_exists'.mp (hopen _ (List.mem_of_getElem? hp))
    exact mem_told.mpr ⟨_, fd, hp, hfile, hne⟩

theorem injOn_told_iff (h : scan host (pollEventCallback files polls) turn (addFds files polls)
    (cleared files polls) = some (context, n)) (hopen : ∀ p ∈ polls, fGet files p.fd ≠ none) :
    Set.InjOn (fileAt files polls) (told files polls context) ↔
      ∀ (i j : ℕ) (p q : Pollfd), polls[i]? = some p → polls[j]? = some q → i ≠ j →
        fGet files p.fd = fGet files q.fd →
        due files host turn p = 0 ∨ due files host turn q = 0 := by
  constructor
  · intro hinj i j p q hp hq hij hsame
    by_contra hboth
    obtain ⟨hdp, hdq⟩ := not_or.mp hboth
    obtain ⟨fd, hfile⟩ := Option.ne_none_iff_exists'.mp (hopen p (List.mem_of_getElem? hp))
    rw [← scan_context_open h hp hfile] at hdp
    rw [← scan_context_open h hq (hsame ▸ hfile)] at hdq
    refine hij (hinj ?_ ?_ ?_)
    · exact mem_told.mpr ⟨p, fd, hp, hfile, hdp⟩
    · exact mem_told.mpr ⟨q, fd, hq, hsame ▸ hfile, hdq⟩
    · rw [fileAt_of_get hp, fileAt_of_get hq, hsame]
  · intro hone i hi j hj hfd
    obtain ⟨p, fd, hp, hfile, hdp⟩ := mem_told.mp hi
    obtain ⟨q, fd', hq, hfile', hdq⟩ := mem_told.mp hj
    rw [fileAt_of_get hp, fileAt_of_get hq] at hfd
    by_contra hij
    rw [scan_context_open h hp hfile] at hdp
    rw [scan_context_open h hq hfile'] at hdq
    exact (hone i j p q hp hq hij hfd).elim hdp hdq

variable {f : Returned (ℕ → BitVec 16)}

/-- The call is right if all of its entries are open, and no two of one file have something due
to them. -/
theorem pollRight_iff (h : SysPoll files polls host f) (hr : 0 ≤ f.result) :
    PollRight files polls host f ↔
      (∀ p ∈ polls, fGet files p.fd ≠ none) ∧
        ∀ (i j : ℕ) (p q : Pollfd), polls[i]? = some p → polls[j]? = some q → i ≠ j →
          fGet files p.fd = fGet files q.fd →
          due files host f.turn p = 0 ∨ due files host f.turn q = 0 := by
  obtain ⟨n, hscan, hn, hslept⟩ := h.last hr fun _ _ ↦ scan_zero
  rw [scan_count hscan] at hn
  constructor
  · intro hright
    have hcard := hright.result
    rw [hn, Nat.cast_inj] at hcard
    obtain ⟨heq, hinj⟩ := card_files_eq_iff.mp hcard
    have hopen := (told_eq_iff hscan).mp heq
    exact ⟨hopen, (injOn_told_iff hscan hopen).mp hinj⟩
  · rintro ⟨hopen, hone⟩
    refine ⟨fun i p hp ↦ ?_, ?_, fun hsleep p hp ↦ ?_⟩
    · rw [scan_context hscan hp, if_neg (hopen p (List.mem_of_getElem? hp))]
    · rw [hn, card_files_eq_iff.mpr]
      exact ⟨(told_eq_iff hscan).mpr hopen, (injOn_told_iff hscan hopen).mpr hone⟩
    · obtain ⟨i, hi⟩ := List.mem_iff_getElem?.mp hp
      have hfirst := scan_context (hslept hsleep) hi
      have hfile : fileAt files polls i ≠ none := fileAt_of_get hi ▸ hopen p hp
      rw [if_neg (hopen p hp), cleared, if_neg hfile] at hfirst
      exact hfirst.symm

/-- A file that can be read, and a wait that times out. -/
def readable : Host := ⟨fun _ ↦ true, fun _ ↦ ⟨fun _ ↦ pollRead, .timeout⟩⟩

def overAtOnce (files : List (Option FdId)) (polls : List Pollfd) (result : ℤ) (slept : Bool) :
    Returned (ℕ → BitVec 16) :=
  ⟨result, fun i ↦ ((scan readable (pollEventCallback files polls) 0 (addFds files polls)
    (cleared files polls)).map fun r ↦ r.1 i).getD 0, 0, slept⟩

theorem pollRight_readable :
    SysPoll [some 0] [⟨0, 1⟩] readable (overAtOnce [some 0] [⟨0, 1⟩] 1 false) ∧
      (PollRight [some 0] [⟨0, 1⟩] readable (overAtOnce [some 0] [⟨0, 1⟩] 1 false) ↔
        (∀ p ∈ [(⟨0, 1⟩ : Pollfd)], fGet [some 0] p.fd ≠ none) ∧
          ∀ (i j : ℕ) (p q : Pollfd), [(⟨0, 1⟩ : Pollfd)][i]? = some p →
            [(⟨0, 1⟩ : Pollfd)][j]? = some q → i ≠ j → fGet [some 0] p.fd = fGet [some 0] q.fd →
            due [some 0] readable 0 p = 0 ∨ due [some 0] readable 0 q = 0) :=
  have h : SysPoll [some 0] [⟨0, 1⟩] readable (overAtOnce [some 0] [⟨0, 1⟩] 1 false) :=
    .done rfl
  ⟨h, pollRight_iff h (by decide)⟩

/-- An entry with a negative descriptor is given `POLL_NVAL`, which the wait does not see. -/
theorem not_pollRight_negative :
    SysPoll [] [⟨-1, 1⟩] readable (overAtOnce [] [⟨-1, 1⟩] 0 true) ∧
      ¬ PollRight [] [⟨-1, 1⟩] readable (overAtOnce [] [⟨-1, 1⟩] 0 true) :=
  ⟨.done rfl, fun h ↦ absurd (h.revents 0 ⟨-1, 1⟩ rfl) (by decide)⟩

end

end Isl.Kernel.Poll
