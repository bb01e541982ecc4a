import Isl.Fs.Path
import Isl.Lib.Run
import Mathlib.Data.List.GetD
import Mathlib.Data.Option.Basic
import Mathlib.Logic.Function.Basic

/-! The list of mounts of `fs/mount.c`, and the search for the mount of a path. -/

namespace Isl.Fs.MountList

open Isl.Lib Isl.Lib.Run

def eBusy : ℤ := -16
def eInval : ℤ := -22

/-- Mounts are numbered in the order they are added. -/
structure Mount where
  id : ℕ
  point : Str
  refcount : ℕ
deriving DecidableEq

structure Mounts where
  list : List Mount
  next : ℕ
deriving DecidableEq

/-- `strncmp(path, point, n) == 0 && (path[n] == '/' || path[n] == '\0')` -/
def isUnder (path point : Str) : Bool :=
  point.isPrefixOf path && ((path.drop point.length).head?.all (· = '/'))

/-- The loop of `do_mount`, with `list_add_before`. -/
def insertMount (new : Mount) : List Mount → List Mount
  | [] => [new]
  | m :: ms =>
    if m.point.length ≤ new.point.length then new :: m :: ms else m :: insertMount new ms

/-- `while (*src != '\0') *dst++ = *src++; *dst = '\0';` in one buffer. -/
def copyDown (s : (ℕ → Char) × ℕ × ℕ) : (ℕ → Char) × ℕ × ℕ ⊕ (ℕ → Char) :=
  let (buf, dst, src) := s
  if buf src = '\x00' then .inr (Function.update buf dst '\x00')
  else .inl (Function.update buf dst (buf src), dst + 1, src + 1)

namespace Mounts

/-- A mount with one reference more. -/
def retain (s : Mounts) (id : ℕ) : Mounts :=
  { s with list := s.list.map fun m ↦ if m.id = id then { m with refcount := m.refcount + 1 } else m }

def mountRelease (s : Mounts) (id : ℕ) : Mounts :=
  { s with list := s.list.map fun m ↦ if m.id = id then { m with refcount := m.refcount - 1 } else m }

/-- `mount_find`, without a result where an assertion fails or the loop ends at
the head of the list. -/
def mountFind (s : Mounts) (path : Str) : Option (Mounts × Mount) := do
  guard (pathIsNormalized path)
  let m ← s.list.find? fun m ↦ isUnder path m.point
  some (s.retain m.id, m)

/-- `buf` holds the path. -/
def findMountAndTrimPath (s : Mounts) (buf : ℕ → Char) (path : Str) (fuel : ℕ) :
    Option (Mounts × Mount × (ℕ → Char)) := do
  let (s, m) ← s.mountFind path
  let buf ← Loop.run copyDown fuel (buf, 0, m.point.length)
  some (s, m, buf)

/-- `err` is what `malloc` or `fs->mount` gives. -/
def doMount (s : Mounts) (point : Str) (err : ℤ) : Mounts × ℤ :=
  if err < 0 then (s, err)
  else
    ({ list := insertMount { id := s.next, point := point, refcount := 0 } s.list
       next := s.next + 1 }, 0)

def mountRemove (s : Mounts) (m : Mount) : Mounts × ℤ :=
  if m.refcount ≠ 0 then (s, eBusy)
  else ({ s with list := s.list.filter fun m' ↦ m'.id != m.id }, 0)

def doUmount (s : Mounts) (point : Str) : Mounts × ℤ :=
  match s.list.find? fun m ↦ m.point = point with
  | none => (s, eInval)
  | some m => s.mountRemove m

inductive Event
  | mount (point : Str) (err : ℤ)
  | umount (point : Str)
  | find (path : Str)
  | release (id : ℕ)

def step (s : Mounts) : Event → Option Mounts
  | .mount point err => some (s.doMount point err).1
  | .umount point => some (s.doUmount point).1
  | .find path => (s.mountFind path).map Prod.fst
  | .release id => do
    -- a reference is given back by the caller that was given it
    guard (s.list.any fun m ↦ m.id = id && m.refcount != 0)
    some (s.mountRelease id)

def empty : Mounts := ⟨[], 0⟩

end Mounts

/-- The path of the point or one below it. -/
def Under (path point : Str) : Prop := path = point ∨ ∃ rest, path = point ++ '/' :: rest

/-- The buffer holds a string. -/
structure Holds (buf : ℕ → Char) (s : Str) : Prop where
  noNull : '\x00' ∉ s
  chars : ∀ i ≤ s.length, buf i = s.getD i '\x00'

/-- Mounts with longer points come first, and of those with points of the same
length the ones added last. -/
def Before (a b : Mount) : Prop :=
  b.point.length < a.point.length ∨ b.point.length = a.point.length ∧ b.id < a.id

section

variable {path point rest : Str} {m new : Mount} {ms : List Mount} {s s' : Mounts}
  {buf : ℕ → Char} {a b c : Mount}

theorem isUnder_iff : isUnder path point = true ↔ Under path point := by
  simp only [isUnder, Bool.and_eq_true, List.isPrefixOf_iff_prefix]
  constructor
  · intro h
    obtain ⟨⟨rest, rfl⟩, hrest⟩ := h
    rw [List.drop_left] at hrest
    cases rest with
    | nil => exact .inl (List.append_nil _)
    | cons c rest =>
      obtain rfl : c = '/' := by simpa using hrest
      exact .inr ⟨rest, rfl⟩
  · intro h
    obtain rfl | ⟨rest, rfl⟩ := h
    · simp
    · simp

theorem Before.trans (h : Before a b) (h' : Before b c) : Before a c := by
  unfold Before at *
  omega

theorem mem_insertMount : m ∈ insertMount new ms ↔ m = new ∨ m ∈ ms := by
  induction ms with
  | nil => simp [insertMount]
  | cons m' ms ih =>
    rw [insertMount]
    split
    · exact List.mem_cons
    · rw [List.mem_cons, ih, List.mem_cons]
      exact or_left_comm

/-- A mount that is newer than all keeps the order. -/
theorem pairwise_insertMount (h : ms.Pairwise Before) (hnew : ∀ m ∈ ms, m.id < new.id) :
    (insertMount new ms).Pairwise Before := by
  induction ms with
  | nil => exact List.pairwise_singleton _ _
  | cons m ms ih =>
    obtain ⟨hm, hms⟩ := List.pairwise_cons.mp h
    rw [insertMount]
    split
    · have hfirst : Before new m := by
        have hid := hnew m List.mem_cons_self
        rw [Before]
        omega
      refine List.pairwise_cons.mpr ⟨fun m' hm' ↦ ?_, h⟩
      obtain rfl | hm' := List.mem_cons.mp hm'
      · exact hfirst
      · exact hfirst.trans (hm m' hm')
    · refine List.pairwise_cons.mpr ⟨fun m' hm' ↦ ?_, ih hms fun m' hm' ↦
        hnew m' (List.mem_cons_of_mem _ hm')⟩
      obtain rfl | hm' := mem_insertMount.mp hm'
      · exact .inl (by omega)
      · exact hm m' hm'

namespace Mounts

structure Wf (s : Mounts) : Prop where
  order : s.list.Pairwise Before
  fresh : ∀ m ∈ s.list, m.id < s.next

theorem Wf.map (h : s.Wf) (f : Mount → Mount) (hid : ∀ m, (f m).id = m.id)
    (hpoint : ∀ m, (f m).point = m.point) : { s with list := s.list.map f }.Wf := by
  refine ⟨List.pairwise_map.mpr (h.order.imp fun hab ↦ ?_), fun m hm ↦ ?_⟩
  · rw [Before] at hab ⊢
    rwa [hpoint, hpoint, hid, hid]
  · obtain ⟨m', hm', rfl⟩ := List.mem_map.mp hm
    rw [hid]
    exact h.fresh m' hm'

theorem Wf.retain (h : s.Wf) (id : ℕ) : (s.retain id).Wf :=
  h.map _ (fun m ↦ by split <;> rfl) fun m ↦ by split <;> rfl

theorem Wf.mountRelease (h : s.Wf) (id : ℕ) : (s.mountRelease id).Wf :=
  h.map _ (fun m ↦ by split <;> rfl) fun m ↦ by split <;> rfl

theorem Wf.doMount (h : s.Wf) (point : Str) (err : ℤ) : (s.doMount point err).1.Wf := by
  rw [Mounts.doMount]
  split
  · exact h
  · refine ⟨pairwise_insertMount h.order h.fresh, fun m hm ↦ ?_⟩
    obtain rfl | hm := mem_insertMount.mp hm
    · exact Nat.lt_succ_self _
    · exact Nat.lt_succ_of_lt (h.fresh m hm)

theorem Wf.doUmount (h : s.Wf) (point : Str) : (s.doUmount point).1.Wf := by
  rw [Mounts.doUmount]
  split
  · exact h
  · rw [mountRemove]
    split
    · exact h
    · exact ⟨h.order.filter _, fun m hm ↦ h.fresh m (List.mem_of_mem_filter hm)⟩

theorem mountFind_eq_some {r : Mounts × Mount} : s.mountFind path = some r ↔
    pathIsNormalized path ∧ (s.list.find? fun m ↦ isUnder path m.point) = some r.2 ∧
      r.1 = s.retain r.2.id := by
  obtain ⟨s', m⟩ := r
  rw [mountFind]
  by_cases hp : pathIsNormalized path = true
  · cases hf : s.list.find? fun m ↦ isUnder path m.point with
    | none => simp [hp]
    | some m' =>
      simp only [hp, guard_true, Option.pure_def, Option.bind_eq_bind, Option.bind_some,
        Option.some.injEq, Prod.mk.injEq, true_and]
      constructor
      · intro h
        exact ⟨h.2, h.2 ▸ h.1.symm⟩
      · intro h
        exact ⟨h.1 ▸ h.2.symm, h.1⟩
  · simp [hp]

theorem Wf.step {ev : Event} (h : s.Wf) (hs : s.step ev = some s') : s'.Wf := by
  cases ev with
  | mount point err =>
    cases hs
    exact h.doMount point err
  | umount point =>
    cases hs
    exact h.doUmount point
  | find path =>
    obtain ⟨r, hr, rfl⟩ := Option.map_eq_some_iff.mp hs
    rw [(mountFind_eq_some.mp hr).2.2]
    exact h.retain _
  | release id =>
    obtain ⟨_, -, hs⟩ := Option.bind_eq_some_iff.mp hs
    cases hs
    exact h.mountRelease id

theorem empty_wf : empty.Wf := ⟨.nil, nofun⟩

/-- The first match is the mount with the longest point, and the newest one. -/
theorem Wf.find_last (h : s.Wf) (hf : (s.list.find? fun m ↦ isUnder path m.point) = some m) :
    m ∈ s.list ∧ Under path m.point ∧ ∀ m' ∈ s.list, Under path m'.point →
      m'.point.length < m.point.length ∨ m'.point = m.point ∧ m'.id ≤ m.id := by
  obtain ⟨hm, as, bs, hlist, has⟩ := List.find?_eq_some_iff_append.mp hf
  have hu := isUnder_iff.mp hm
  refine ⟨hlist ▸ List.mem_append_right _ List.mem_cons_self, hu, fun m' hm' hu' ↦ ?_⟩
  have horder := h.order
  rw [hlist] at hm' horder
  obtain hm' | hm' := List.mem_append.mp hm'
  · have hnot := has m' hm'
    rw [isUnder_iff.mpr hu'] at hnot
    cases hnot
  · obtain rfl | hm' := List.mem_cons.mp hm'
    · exact .inr ⟨rfl, le_rfl⟩
    · have hbefore := (List.pairwise_cons.mp (List.pairwise_append.mp horder).2.1).1 m' hm'
      obtain hlt | ⟨hlen, hid⟩ := hbefore
      · exact .inl hlt
      · refine .inr ⟨?_, hid.le⟩
        have hpre : m'.point <+: path := by
          obtain rfl | ⟨rest, rfl⟩ := hu'
          · exact List.prefix_rfl
          · exact List.prefix_append _ _
        have hpre' : m.point <+: path := by
          obtain hp | ⟨rest, hp⟩ := hu
          · exact hp ▸ List.prefix_rfl
          · exact hp ▸ List.prefix_append _ _
        exact List.prefix_of_prefix_length_le hpre hpre' hlen.le |>.eq_of_length hlen

end Mounts

/-! The rest of the path. -/

theorem getD_ne_null (h : '\x00' ∉ path) {i : ℕ} (hi : i < path.length) :
    path.getD i '\x00' ≠ '\x00' := by
  rw [List.getD_eq_getElem _ _ hi]
  intro heq
  exact h (heq ▸ List.getElem_mem hi)

/-- `dst` characters are copied, and those from `dst` on are the ones before. -/
theorem copyDown_returns {n : ℕ} (hnull : '\x00' ∉ path) (k : ℕ) :
    ∀ (buf : ℕ → Char) (dst : ℕ), n + dst + k = path.length →
      (∀ i < dst, buf i = path.getD (n + i) '\x00') →
      (∀ i, dst ≤ i → i ≤ path.length → buf i = path.getD i '\x00') →
      ∃ buf', Loop.Returns copyDown (buf, dst, n + dst) buf' ∧
        ∀ i ≤ path.length - n, buf' i = path.getD (n + i) '\x00' := by
  induction k with
  | zero =>
    intro buf dst hlen hcopied hrest
    have hsrc : buf (n + dst) = '\x00' := by
      rw [hrest _ (by omega) (by omega), List.getD_eq_default _ _ (by omega)]
    refine ⟨Function.update buf dst '\x00', .done (if_pos hsrc), fun i hi ↦ ?_⟩
    by_cases hd : i = dst
    · rw [hd, Function.update_self, List.getD_eq_default _ _ (by omega)]
    · rw [Function.update_of_ne hd]
      exact hcopied i (by omega)
  | succ k ih =>
    intro buf dst hlen hcopied hrest
    have hsrc : buf (n + dst) = path.getD (n + dst) '\x00' := hrest _ (by omega) (by omega)
    have hne : buf (n + dst) ≠ '\x00' := hsrc ▸ getD_ne_null hnull (by omega)
    have hcopied' (i : ℕ) (hi : i < dst + 1) :
        Function.update buf dst (buf (n + dst)) i = path.getD (n + i) '\x00' := by
      by_cases hd : i = dst
      · rw [hd, Function.update_self, hsrc]
      · rw [Function.update_of_ne hd]
        exact hcopied i (by omega)
    have hrest' (i : ℕ) (hi : dst + 1 ≤ i) (hle : i ≤ path.length) :
        Function.update buf dst (buf (n + dst)) i = path.getD i '\x00' := by
      rw [Function.update_of_ne (by omega)]
      exact hrest i (by omega) hle
    obtain ⟨buf', hret, hbuf'⟩ := ih _ (dst + 1) (by omega) hcopied' hrest'
    exact ⟨buf', .next (if_neg hne) hret, hbuf'⟩

theorem Holds.copyDown (h : Holds buf path) {n : ℕ} (hn : n ≤ path.length) :
    ∃ fuel buf', Loop.run copyDown fuel (buf, 0, n) = some buf' ∧ Holds buf' (path.drop n) := by
  obtain ⟨buf', hret, hbuf'⟩ := copyDown_returns (n := n) h.noNull (path.length - n) buf 0
    (by omega) nofun fun i _ hi ↦ h.chars i hi
  obtain ⟨fuel, hrun⟩ := Loop.returns_iff_run.mp hret
  refine ⟨fuel, buf', hrun, fun hm ↦ h.noNull (List.mem_of_mem_drop hm), fun i hi ↦ ?_⟩
  rw [List.length_drop] at hi
  rw [hbuf' i hi]
  simp [List.getD_eq_getElem?_getD, List.getElem?_drop]

theorem pathIsNormalizedFrom_append {b : Bool} (h : pathIsNormalizedFrom b (path ++ '/' :: rest)) :
    pathIsNormalizedFrom true rest := by
  induction path generalizing b with
  | nil =>
    rw [List.nil_append, pathIsNormalizedFrom, if_pos rfl, Bool.and_eq_true] at h
    exact h.2
  | cons c path ih =>
    rw [List.cons_append, pathIsNormalizedFrom] at h
    split at h
    · exact ih (Bool.and_eq_true_iff.mp h).2
    · exact ih h

/-- What is left of a normalized path after a point is normalized. -/
theorem Under.normalized (hu : Under path point) (h : pathIsNormalized path) :
    pathIsNormalized (path.drop point.length) := by
  obtain rfl | ⟨rest, rfl⟩ := hu
  · rw [List.drop_length]
    rfl
  · have hrest : pathIsNormalizedFrom true rest := by
      cases point with
      | nil =>
        rw [List.nil_append, pathIsNormalized, Bool.and_eq_true] at h
        exact h.2
      | cons c point =>
        rw [List.cons_append, pathIsNormalized, Bool.and_eq_true] at h
        exact pathIsNormalizedFrom_append h.2
    rw [List.drop_left, pathIsNormalized, hrest]
    rfl

namespace Mounts

/-- A mount whose point is the longest one that the path is under, and of these
the newest. -/
def Nearest (s : Mounts) (path : Str) (m : Mount) : Prop :=
  m ∈ s.list ∧ Under path m.point ∧ ∀ m' ∈ s.list, Under path m'.point →
    m'.point.length < m.point.length ∨ m'.point = m.point ∧ m'.id ≤ m.id

/-- While a root is mounted, every path has its nearest mount, and the buffer is
left with the rest of the path. -/
theorem mountFind_of_reaches (h : Reaches step (fun _ _ ↦ True) empty s)
    (hroot : ∃ root ∈ s.list, root.point = []) :
    s.list.Pairwise (fun a b ↦ b.point.length ≤ a.point.length) ∧
      ∀ path buf, pathIsNormalized path → Holds buf path →
        ∃ m, s.Nearest path m ∧ s.mountFind path = some (s.retain m.id, m) ∧
          ∃ fuel buf', s.findMountAndTrimPath buf path fuel = some (s.retain m.id, m, buf') ∧
            Holds buf' (path.drop m.point.length) ∧
            pathIsNormalized (path.drop m.point.length) := by
  have hwf : s.Wf := h.invariant empty_wf fun _ _ _ hw _ hs ↦ hw.step hs
  refine ⟨hwf.order.imp fun hab ↦ ?_, fun path buf hp hb ↦ ?_⟩
  · rw [Before] at hab
    omega
  · obtain ⟨root, hmem, hpoint⟩ := hroot
    have hunder : isUnder path root.point = true := by
      rw [isUnder_iff, hpoint]
      cases path with
      | nil => exact .inl rfl
      | cons c path =>
        obtain rfl : c = '/' := of_decide_eq_true (Bool.and_eq_true_iff.mp hp).1
        exact .inr ⟨path, rfl⟩
    have hsome : (s.list.find? fun m ↦ isUnder path m.point).isSome :=
      List.find?_isSome.mpr ⟨root, hmem, hunder⟩
    obtain ⟨m, hm⟩ := Option.isSome_iff_exists.mp hsome
    have hnear := hwf.find_last hm
    have hfind : s.mountFind path = some (s.retain m.id, m) :=
      mountFind_eq_some.mpr ⟨hp, hm, rfl⟩
    have hle : m.point.length ≤ path.length := by
      obtain hu | ⟨rest, hu⟩ := hnear.2.1
      · rw [hu]
      · rw [hu, List.length_append]
        exact Nat.le_add_right _ _
    obtain ⟨fuel, buf', hrun, hbuf'⟩ := hb.copyDown hle
    refine ⟨m, hnear, hfind, fuel, buf', ?_, hbuf', hnear.2.1.normalized hp⟩
    rw [findMountAndTrimPath, hfind, Option.bind_eq_bind, Option.bind_some]
    dsimp only
    rw [hrun]
    rfl

theorem mountFind_stacked : ∃ m fuel buf', ∃ s : Mounts, s.Nearest "/a/b".toList m ∧
    s.findMountAndTrimPath ("/a/b".toList.getD · '\x00') "/a/b".toList fuel =
      some (s.retain m.id, m, buf') := by
  have hreach : Reaches step (fun _ _ ↦ True) empty
      ((empty.doMount [] 0).1.doMount "/a".toList 0).1 :=
    .next (a := .mount "/a".toList 0) (.next (a := .mount [] 0) .start trivial rfl) trivial rfl
  obtain ⟨m, hm, -, fuel, buf', hrun, -⟩ :=
    (mountFind_of_reaches hreach ⟨⟨0, [], 0⟩, by decide, rfl⟩).2 "/a/b".toList _ (by decide)
      ⟨by decide, fun _ _ ↦ rfl⟩
  exact ⟨m, fuel, buf', _, hm, hrun⟩

end Mounts

end

end Isl.Fs.MountList
