import Isl.Fs.PollScan
import Mathlib.Algebra.BigOperators.Ring.Finset
import Mathlib.Combinatorics.Enumerative.DoubleCounting

/-!
`sys_select` of `kernel/poll.c`. A descriptor has one `poll_fd` for all of its sets, and the
callback does not know which ones those were.
-/

namespace Isl.Kernel.Select

open Isl.Fs.PollScan

def selectRead : Types := pollRead ||| pollHup ||| pollErr
def selectWrite : Types := pollWrite ||| pollErr
def selectEx : Types := pollPri

/-- The three sets of a `struct select_context` -/
inductive Class
  | read
  | write
  | except
  deriving DecidableEq

instance : Fintype Class := ⟨{.read, .write, .except}, fun k ↦ by cases k <;> simp⟩

def Class.mask : Class → Types
  | .read => selectRead
  | .write => selectWrite
  | .except => selectEx

/-- The sets that a call is given. `none` is the address 0. -/
abbrev Given := Class → Option (ℕ → Bool)

def userReadOrZero (set : Option (ℕ → Bool)) : ℕ → Bool := set.getD fun _ ↦ false

def selectEventCallback : Callback (Class → ℕ → Bool) := fun sets p types ↦
  (fun k ↦ if types &&& k.mask ≠ 0 then Function.update (sets k) p.info true else sets k,
    types &&& (selectRead ||| selectWrite ||| selectEx) ≠ 0)

section

variable (files : List (Option FdId)) (given : Given) (nfds : ℕ)

def eventsOf (k : Class) (i : ℕ) : Types := if userReadOrZero (given k) i then k.mask else 0

def events (i : ℕ) : Types := eventsOf given .read i ||| eventsOf given .write i |||
  eventsOf given .except i

/-- A turn of the loop over the descriptors, which fails at one that is not open. -/
def addStep (pollFds : List PollFd) (i : ℕ) : Option (List PollFd) :=
  if events given i ≠ 0 then
    (fGet files i).map fun fd ↦ ⟨fd, events given i, i⟩ :: pollFds
  else some pollFds

def addFds : Option (List PollFd) := (List.range nfds).foldlM (addStep files given) []

/-- `sys_select` comes to its wait, and ends with this, its three sets as the context. -/
def SysSelect (host : Host) (f : Returned (Class → ℕ → Bool)) : Prop :=
  ∃ pollFds, addFds files given nfds = some pollFds ∧
    PollWait host selectEventCallback pollFds (fun _ _ ↦ false) f

/-- The conditions of the file of a descriptor. -/
def readyAt (host : Host) (turn i : ℕ) : Types :=
  match fGet files i with
  | none => 0
  | some fd => (host.turn turn).ready fd

/-- Those that are reported, its events being those of all of its sets. -/
def polled (host : Host) (turn i : ℕ) : Types :=
  if events given i = 0 then 0
  else
    match fGet files i with
    | none => 0
    | some fd => host.pollTypes turn ⟨fd, events given i, i⟩

/-- The sets that are written back hold the descriptors of theirs that are ready. -/
def SetsRight (host : Host) (turn : ℕ) (sets : Class → ℕ → Bool) : Prop :=
  ∀ k set, given k = some set → ∀ i, sets k i = true ↔
    i < nfds ∧ set i = true ∧ readyAt files host turn i &&& k.mask ≠ 0

/-- The result is the size of the sets that are written back. -/
structure SelectRight (host : Host) (f : Returned (Class → ℕ → Bool)) : Prop where
  sets : SetsRight files given nfds host f.turn f.context
  result : f.result = ∑ k with (given k).isSome,
    ((Finset.range nfds).filter fun i ↦ f.context k i = true).card

/-- The sets that a descriptor is due in. -/
def dueIn (host : Host) (turn i : ℕ) : Finset Class :=
  Finset.univ.filter fun k ↦
    userReadOrZero (given k) i = true ∧ readyAt files host turn i &&& k.mask ≠ 0

def reportedAt (host : Host) (turn : ℕ) : Finset ℕ :=
  (Finset.range nfds).filter fun i ↦ polled files given host turn i ≠ 0

/-- A descriptor with an error or a hang-up is in every set that such a condition counts for,
and the descriptors that are reported are due in as many sets as there are of them. -/
structure Separable (host : Host) (turn : ℕ) : Prop where
  shared : ∀ i < nfds, ∀ k set, given k = some set →
    polled files given host turn i &&& k.mask &&& (pollErr ||| pollHup) ≠ 0 → set i = true
  balanced : ∑ i ∈ reportedAt files given nfds host turn, (dueIn files given host turn i).card =
    (reportedAt files given nfds host turn).card

end

section

variable {files : List (Option FdId)} {given : Given} {nfds : ℕ} {pollFds : List PollFd}
  {r : PollFd} {k : Class} {i b : ℕ} {set : ℕ → Bool}

theorem events_bit : (events given i).getLsbD b = true ↔
    ∃ k, userReadOrZero (given k) i = true ∧ k.mask.getLsbD b = true := by
  have hof (k : Class) : (eventsOf given k i).getLsbD b = true ↔
      userReadOrZero (given k) i = true ∧ k.mask.getLsbD b = true := by
    rw [eventsOf]
    split_ifs with hset <;> simp [hset]
  simp only [events, BitVec.getLsbD_or, Bool.or_eq_true, hof]
  constructor
  · rintro ((h | h) | h)
    · exact ⟨_, h⟩
    · exact ⟨_, h⟩
    · exact ⟨_, h⟩
  · rintro ⟨k, h⟩
    cases k with
    | read => exact .inl (.inl h)
    | write => exact .inl (.inr h)
    | except => exact .inr h

theorem addFds_spec (h : addFds files given nfds = some pollFds) :
    pollFds.map PollFd.info = ((List.range nfds).filter fun i ↦ events given i ≠ 0).reverse ∧
      ∀ r ∈ pollFds, fGet files r.info = some r.fd ∧ r.types = events given r.info := by
  induction nfds generalizing pollFds with
  | zero =>
    cases h
    exact ⟨rfl, fun r hr ↦ nomatch hr⟩
  | succ n ih =>
    rw [addFds, List.range_succ, List.foldlM_append] at h
    obtain ⟨before, hbefore, h⟩ := Option.bind_eq_some_iff.mp h
    obtain ⟨hinfo, hall⟩ := ih hbefore
    rw [List.foldlM_cons] at h
    obtain ⟨after, hafter, h⟩ := Option.bind_eq_some_iff.mp h
    cases h
    rw [List.range_succ, List.filter_append, List.reverse_append, ← hinfo]
    rw [addStep] at hafter
    split_ifs at hafter with hevents
    · obtain ⟨fd, hfd, rfl⟩ := Option.map_eq_some_iff.mp hafter
      rw [List.filter_cons_of_pos (by simpa using hevents)]
      refine ⟨rfl, fun r hr ↦ ?_⟩
      rcases List.mem_cons.mp hr with rfl | hr
      · exact ⟨hfd, rfl⟩
      · exact hall r hr
    · cases hafter
      rw [List.filter_cons_of_neg (by simpa using hevents)]
      exact ⟨rfl, hall⟩

theorem addFds_info_nodup (h : addFds files given nfds = some pollFds) :
    (pollFds.map PollFd.info).Nodup := by
  rw [(addFds_spec h).1, List.nodup_reverse]
  exact List.nodup_range.filter _

theorem exists_mem_addFds (h : addFds files given nfds = some pollFds) :
    (∃ r ∈ pollFds, r.info = i) ↔ i < nfds ∧ events given i ≠ 0 := by
  rw [← List.mem_map, (addFds_spec h).1, List.mem_reverse, List.mem_filter, List.mem_range,
    decide_eq_true_iff]

variable {host : Host} {turn n : ℕ} {sets sets' : Class → ℕ → Bool}

theorem polled_of_mem (h : addFds files given nfds = some pollFds) (hr : r ∈ pollFds) :
    polled files given host turn r.info = host.pollTypes turn r := by
  obtain ⟨hfd, htypes⟩ := (addFds_spec h).2 r hr
  have hevents := ((exists_mem_addFds h).mp ⟨r, hr, rfl⟩).2
  rw [polled, if_neg hevents, hfd, ← htypes]

theorem set_of_scan {types : PollFd → Types} :
    pollFds.foldl (fun sets p ↦ (selectEventCallback sets p (types p)).1) sets k i = true ↔
      sets k i = true ∨ ∃ r ∈ pollFds, r.info = i ∧ types r &&& k.mask ≠ 0 := by
  induction pollFds generalizing sets with
  | nil => simp
  | cons r pollFds ih =>
    rw [List.foldl_cons, ih, List.exists_mem_cons_iff, ← or_assoc]
    refine or_congr_left ?_
    simp only [selectEventCallback]
    split_ifs with hmask
    · by_cases hi : r.info = i
      · rw [← hi, Function.update_self]
        exact iff_of_true rfl (.inr ⟨rfl, hmask⟩)
      · rw [Function.update_of_ne (Ne.symm hi), or_iff_left fun h ↦ hi h.1]
    · rw [or_iff_left fun h ↦ hmask h.2]

theorem all_ne_zero_iff {types : Types} :
    types &&& (selectRead ||| selectWrite ||| selectEx) ≠ 0 ↔ ∃ k : Class, types &&& k.mask ≠ 0 := by
  simp only [types_ne_zero_iff, BitVec.getLsbD_and, BitVec.getLsbD_or, Bool.and_eq_true,
    Bool.or_eq_true]
  constructor
  · rintro ⟨b, hb, (hmask | hmask) | hmask⟩
    · exact ⟨.read, b, hb, hmask⟩
    · exact ⟨.write, b, hb, hmask⟩
    · exact ⟨.except, b, hb, hmask⟩
  · rintro ⟨k, b, hb, hmask⟩
    cases k with
    | read => exact ⟨b, hb, .inl (.inl hmask)⟩
    | write => exact ⟨b, hb, .inl (.inr hmask)⟩
    | except => exact ⟨b, hb, .inr hmask⟩

theorem polled_bit (hb : (polled files given host turn i).getLsbD b = true) :
    (events given i).getLsbD b = true ∨ (pollErr ||| pollHup ||| pollNval).getLsbD b = true := by
  rw [polled] at hb
  split_ifs at hb with hevents
  · exact absurd hb (by simp)
  · cases hfd : fGet files i with
    | none =>
      rw [hfd] at hb
      exact absurd hb (by simp)
    | some fd =>
      rw [hfd] at hb
      exact ((pollTypes_bit b).mp hb).2.imp_right And.right

/-- No descriptor is reported without a condition of one of the sets, and so every call counts. -/
theorem exists_class (hne : polled files given host turn i ≠ 0)
    (hnval : polled files given host turn i &&& pollNval = 0) :
    ∃ k : Class, polled files given host turn i &&& k.mask ≠ 0 := by
  obtain ⟨b, hb⟩ := types_ne_zero_iff.mp hne
  have hno := congrArg (BitVec.getLsbD · b) hnval
  simp only [BitVec.getLsbD_and, hb, Bool.true_and] at hno
  have hand (k : Class) (hmask : k.mask.getLsbD b = true) :
      polled files given host turn i &&& k.mask ≠ 0 :=
    types_ne_zero_iff.mpr ⟨b, by rw [BitVec.getLsbD_and, hb, hmask, Bool.and_self]⟩
  rcases polled_bit hb with hevents | hunasked
  · obtain ⟨k, -, hmask⟩ := events_bit.mp hevents
    exact ⟨k, hand k hmask⟩
  · refine ⟨.read, hand .read ?_⟩
    simp only [Class.mask, selectRead, BitVec.getLsbD_or, Bool.or_eq_true] at hunasked ⊢
    grind

theorem scan_spec (h : addFds files given nfds = some pollFds)
    (hscan : scan host selectEventCallback turn pollFds (fun _ _ ↦ false) = some (sets, n)) :
    (∀ k i, sets k i = true ↔ i < nfds ∧ polled files given host turn i &&& k.mask ≠ 0) ∧
      n = (reportedAt files given nfds host turn).card := by
  obtain ⟨rfl, hn, hnval⟩ := scan_eq_some (fun _ _ ↦ rfl) hscan
  constructor
  · intro k i
    rw [set_of_scan, or_iff_right Bool.false_ne_true]
    constructor
    · rintro ⟨r, hr, rfl, hmask⟩
      have hr := List.mem_of_mem_filter hr
      rw [polled_of_mem h hr]
      exact ⟨((exists_mem_addFds h).mp ⟨r, hr, rfl⟩).1, hmask⟩
    · rintro ⟨hi, hmask⟩
      have hevents : events given i ≠ 0 := fun hzero ↦ hmask (by simp [polled, hzero])
      obtain ⟨r, hr, rfl⟩ := (exists_mem_addFds h).mpr ⟨hi, hevents⟩
      rw [polled_of_mem h hr] at hmask
      exact ⟨r, mem_reported.mpr ⟨hr, fun hzero ↦ hmask (by simp [hzero])⟩, rfl, hmask⟩
  · have hnodup : ((host.reported turn pollFds).map PollFd.info).Nodup :=
      nodup_reported (addFds_info_nodup h)
    have hdescriptors : reportedAt files given nfds host turn =
        ((host.reported turn pollFds).map PollFd.info).toFinset := by
      ext i
      rw [reportedAt, Finset.mem_filter, Finset.mem_range, List.mem_toFinset, List.mem_map]
      constructor
      · rintro ⟨hi, hne⟩
        have hevents : events given i ≠ 0 := fun hzero ↦ hne (if_pos hzero)
        obtain ⟨r, hr, rfl⟩ := (exists_mem_addFds h).mpr ⟨hi, hevents⟩
        rw [polled_of_mem h hr] at hne
        exact ⟨r, mem_reported.mpr ⟨hr, hne⟩, rfl⟩
      · rintro ⟨r, hr, rfl⟩
        obtain ⟨hr, hne⟩ := mem_reported.mp hr
        rw [polled_of_mem h hr]
        exact ⟨((exists_mem_addFds h).mp ⟨r, hr, rfl⟩).1, hne⟩
    rw [hdescriptors, List.toFinset_card_of_nodup hnodup, List.length_map, hn,
      List.filter_eq_self.mpr fun r hr ↦ ?_]
    obtain ⟨hr, hne⟩ := mem_reported.mp hr
    have hpolled : polled files given host turn r.info = host.pollTypes turn r :=
      polled_of_mem h hr
    refine decide_eq_true (all_ne_zero_iff.mpr ?_)
    rw [← hpolled]
    exact exists_class (hpolled ▸ hne) (hpolled ▸ hnval r hr)

theorem scan_zero (h : addFds files given nfds = some pollFds)
    (hscan : scan host selectEventCallback turn pollFds (fun _ _ ↦ false) = some (sets, 0)) :
    sets = fun _ _ ↦ false := by
  obtain ⟨hsets, hn⟩ := scan_spec h hscan
  funext k i
  rw [← Bool.not_eq_true, hsets]
  rintro ⟨hi, hmask⟩
  have hmem : i ∈ reportedAt files given nfds host turn :=
    Finset.mem_filter.mpr ⟨Finset.mem_range.mpr hi, fun hzero ↦ hmask (by simp [hzero])⟩
  rw [Finset.card_eq_zero.mp hn.symm] at hmem
  exact absurd hmem (Finset.notMem_empty i)

theorem events_ne_zero (hset : userReadOrZero (given k) i = true) : events given i ≠ 0 := by
  obtain ⟨b, hb⟩ : ∃ b, k.mask.getLsbD b = true := by
    cases k with
    | read => exact ⟨0, rfl⟩
    | write => exact ⟨2, rfl⟩
    | except => exact ⟨1, rfl⟩
  exact types_ne_zero_iff.mpr ⟨b, events_bit.mpr ⟨k, hset, hb⟩⟩

/-- A descriptor of the set has all the conditions of the set among its events. -/
theorem polled_mask (h : addFds files given nfds = some pollFds) (hi : i < nfds)
    (hset : userReadOrZero (given k) i = true) :
    polled files given host turn i &&& k.mask = readyAt files host turn i &&& k.mask := by
  have hevents := events_ne_zero hset
  obtain ⟨r, hr, rfl⟩ := (exists_mem_addFds h).mpr ⟨hi, hevents⟩
  obtain ⟨hfd, htypes⟩ := (addFds_spec h).2 r hr
  rw [polled_of_mem h hr, readyAt, hfd]
  apply BitVec.eq_of_getLsbD_eq
  intro b _
  have hasked : k.mask.getLsbD b = true → r.types.getLsbD b = true := fun hb ↦ by
    rw [htypes]
    exact events_bit.mpr ⟨k, hset, hb⟩
  have hbit : (host.pollTypes turn r).getLsbD b = true ↔ _ := pollTypes_bit b
  simp only [BitVec.getLsbD_and]
  grind

/-- Two sets share no conditions but errors and hang-ups. -/
theorem mask_and_mask : ∀ k k' : Class, k ≠ k' →
    k.mask &&& k'.mask &&& ~~~(pollErr ||| pollHup) = 0 := by decide

theorem mask_and_nval : ∀ k : Class, k.mask &&& pollNval = 0 := by decide

/-- A condition that is neither is reported of the descriptors of its set only. -/
theorem set_of_polled (hset : given k = some set)
    (hmask : polled files given host turn i &&& k.mask ≠ 0)
    (hshared : polled files given host turn i &&& k.mask &&& (pollErr ||| pollHup) ≠ 0 →
      set i = true) : set i = true := by
  by_cases hzero : polled files given host turn i &&& k.mask &&& (pollErr ||| pollHup) = 0
  swap
  · exact hshared hzero
  obtain ⟨b, hb⟩ := types_ne_zero_iff.mp hmask
  rw [BitVec.getLsbD_and, Bool.and_eq_true] at hb
  obtain ⟨hpolled, hbmask⟩ := hb
  have hown := congrArg (BitVec.getLsbD · b) hzero
  have hno := congrArg (BitVec.getLsbD · b) (mask_and_nval k)
  simp only [BitVec.getLsbD_and, BitVec.getLsbD_or, hpolled, hbmask, Bool.true_and] at hown hno
  rcases polled_bit hpolled with hevents | hunasked
  · obtain ⟨k', hset', hbmask'⟩ := events_bit.mp hevents
    by_cases hk : k' = k
    · subst hk
      rwa [hset] at hset'
    · have hboth := congrArg (BitVec.getLsbD · b) (mask_and_mask k' k hk)
      simp only [BitVec.getLsbD_and, BitVec.getLsbD_not, BitVec.getLsbD_or, hbmask, hbmask',
        Bool.true_and] at hboth
      grind
  · grind

theorem setsRight_iff (h : addFds files given nfds = some pollFds)
    (hsets : ∀ k i, sets k i = true ↔
      i < nfds ∧ polled files given host turn i &&& k.mask ≠ 0) :
    SetsRight files given nfds host turn sets ↔ ∀ i < nfds, ∀ k set, given k = some set →
      polled files given host turn i &&& k.mask &&& (pollErr ||| pollHup) ≠ 0 → set i = true := by
  constructor
  · intro hright i hi k set hset hshared
    have hmask : polled files given host turn i &&& k.mask ≠ 0 := fun hzero ↦
      hshared (by simp [hzero])
    exact ((hright k set hset i).mp ((hsets k i).mpr ⟨hi, hmask⟩)).2.1
  · intro hshared k set hset i
    rw [hsets]
    refine and_congr_right fun hi ↦ ⟨fun hmask ↦ ?_, fun ⟨hin, hmask⟩ ↦ ?_⟩
    · have hin : set i = true := set_of_polled hset hmask (hshared i hi k set hset)
      refine ⟨hin, ?_⟩
      rwa [← polled_mask h hi (by rwa [hset])]
    · rwa [polled_mask h hi (by rwa [hset])]

theorem SetsRight.card (hright : SetsRight files given nfds host turn sets)
    (h : addFds files given nfds = some pollFds) :
    ∑ k with (given k).isSome, ((Finset.range nfds).filter fun i ↦ sets k i = true).card =
      ∑ i ∈ reportedAt files given nfds host turn, (dueIn files given host turn i).card := by
  have hswap := Finset.sum_card_bipartiteAbove_eq_sum_card_bipartiteBelow
    (s := Finset.univ.filter fun k ↦ (given k).isSome) (t := Finset.range nfds)
    (fun k i ↦ sets k i = true)
  refine hswap.trans ?_
  have hdue : ∀ i ∈ Finset.range nfds,
      ((Finset.univ.filter fun k ↦ (given k).isSome).bipartiteBelow (fun k i ↦ sets k i = true) i) =
        dueIn files given host turn i := by
    intro i hi
    ext k
    simp only [Finset.mem_bipartiteBelow, Finset.mem_filter, Finset.mem_univ, true_and, dueIn]
    cases hset : given k with
    | none => simp [userReadOrZero]
    | some set =>
      rw [hright k set hset, and_iff_right (Finset.mem_range.mp hi)]
      exact and_iff_right rfl
  rw [Finset.sum_congr rfl fun i hi ↦ congrArg Finset.card (hdue i hi), reportedAt,
    Finset.sum_filter_of_ne]
  intro i hi hne hzero
  obtain ⟨k, hk⟩ := Finset.card_ne_zero.mp hne
  obtain ⟨hset, hmask⟩ := (Finset.mem_filter.mp hk).2
  rw [← polled_mask h (Finset.mem_range.mp hi) hset, hzero] at hmask
  exact hmask (by simp)

variable {f : Returned (Class → ℕ → Bool)}

theorem selectRight_iff (h : SysSelect files given nfds host f) (hr : 0 ≤ f.result) :
    SelectRight files given nfds host f ↔ Separable files given nfds host f.turn := by
  obtain ⟨pollFds, hadd, hwait⟩ := h
  obtain ⟨n, hscan, hn, -⟩ := hwait.last hr fun _ _ ↦ scan_zero hadd
  obtain ⟨hsets, rfl⟩ := scan_spec hadd hscan
  have hiff := setsRight_iff hadd hsets
  constructor
  · intro hright
    have hresult := hright.result
    rw [hright.sets.card hadd, hn, Nat.cast_inj] at hresult
    exact ⟨hiff.mp hright.sets, hresult.symm⟩
  · intro hsep
    have hbits := hiff.mpr hsep.shared
    refine ⟨hbits, ?_⟩
    rw [hbits.card hadd, hsep.balanced, hn]

theorem Separable.mem_dueIn (hsep : Separable files given nfds host turn)
    (h : addFds files given nfds = some pollFds) (hi : i < nfds) (hset : given k = some set)
    (hmask : polled files given host turn i &&& k.mask ≠ 0) :
    k ∈ dueIn files given host turn i := by
  have hin : userReadOrZero (given k) i = true := by
    rw [hset]
    exact set_of_polled hset hmask (hsep.shared i hi k set hset)
  refine Finset.mem_filter.mpr ⟨Finset.mem_univ k, hin, ?_⟩
  rwa [← polled_mask h hi hin]

/-- Where all three sets are given, every descriptor that is reported is so for one of them. -/
theorem separable_iff_of_given (h : addFds files given nfds = some pollFds)
    (hgiven : ∀ k, given k ≠ none)
    (hnval : ∀ i, polled files given host turn i &&& pollNval = 0) :
    Separable files given nfds host turn ↔ ∀ i ∈ reportedAt files given nfds host turn,
      ∃ k, dueIn files given host turn i = {k} ∧
        ∀ k', polled files given host turn i &&& k'.mask ≠ 0 → k' = k := by
  constructor
  · intro hsep i hi
    have hdue : ∀ j ∈ reportedAt files given nfds host turn, ∀ k : Class,
        polled files given host turn j &&& k.mask ≠ 0 → k ∈ dueIn files given host turn j := by
      intro j hj k hmask
      obtain ⟨set, hset⟩ := Option.ne_none_iff_exists'.mp (hgiven k)
      exact hsep.mem_dueIn h (Finset.mem_range.mp (Finset.mem_filter.mp hj).1) hset hmask
    have hone : ∀ j ∈ reportedAt files given nfds host turn,
        1 ≤ (dueIn files given host turn j).card := by
      intro j hj
      obtain ⟨k, hk⟩ := exists_class (Finset.mem_filter.mp hj).2 (hnval j)
      exact Finset.card_pos.mpr ⟨k, hdue j hj k hk⟩
    have hsum := hsep.balanced
    rw [Finset.card_eq_sum_ones, eq_comm, Finset.sum_eq_sum_iff_of_le hone] at hsum
    obtain ⟨k, hk⟩ := Finset.card_eq_one.mp (hsum i hi).symm
    refine ⟨k, hk, fun k' hmask ↦ Finset.mem_singleton.mp ?_⟩
    rw [← hk]
    exact hdue i hi k' hmask
  · intro hone
    constructor
    · intro i hi k set hset hshared
      have hmask : polled files given host turn i &&& k.mask ≠ 0 := fun hzero ↦
        hshared (by simp [hzero])
      have hne : polled files given host turn i ≠ 0 := fun hzero ↦ hmask (by simp [hzero])
      obtain ⟨k', hdue, honly⟩ :=
        hone i (Finset.mem_filter.mpr ⟨Finset.mem_range.mpr hi, hne⟩)
      have hmem : k ∈ dueIn files given host turn i := by
        rw [hdue, honly k hmask]
        exact Finset.mem_singleton_self k'
      have hin := (Finset.mem_filter.mp hmem).2.1
      rwa [hset] at hin
    · rw [Finset.card_eq_sum_ones]
      refine Finset.sum_congr rfl fun i hi ↦ ?_
      obtain ⟨k, hdue, -⟩ := hone i hi
      rw [hdue, Finset.card_singleton]

end

/-- Three sets, with the first descriptor in the read set. -/
def readFirst : Given := fun k ↦ some fun i ↦ decide (k = .read ∧ i = 0)

def always (ready : Types) : Host := ⟨fun _ ↦ true, fun _ ↦ ⟨fun _ ↦ ready, .again⟩⟩

def overAtOnce (ready : Types) : Returned (Class → ℕ → Bool) :=
  ⟨1, fun k i ↦ ((scan (always ready) selectEventCallback 0
    ((addFds [some 0] readFirst 1).getD []) fun _ _ ↦ false).map fun r ↦ r.1 k i).getD false, 0,
    false⟩

theorem selectRight_readFirst :
    SysSelect [some 0] readFirst 1 (always pollRead) (overAtOnce pollRead) ∧
      (SelectRight [some 0] readFirst 1 (always pollRead) (overAtOnce pollRead) ↔
        Separable [some 0] readFirst 1 (always pollRead) 0) :=
  have h : SysSelect [some 0] readFirst 1 (always pollRead) (overAtOnce pollRead) :=
    ⟨_, rfl, .done rfl⟩
  ⟨h, selectRight_iff h (by decide)⟩

/-- A descriptor of the read set with an error is put in the write set too. -/
theorem not_selectRight_error :
    SysSelect [some 0] readFirst 1 (always pollErr) (overAtOnce pollErr) ∧
      ¬ SelectRight [some 0] readFirst 1 (always pollErr) (overAtOnce pollErr) := by
  refine ⟨⟨_, rfl, .done rfl⟩, fun h ↦ ?_⟩
  have hwrite := (h.sets .write _ rfl 0).mp rfl
  exact absurd hwrite.2.1 (by decide)

end Isl.Kernel.Select
