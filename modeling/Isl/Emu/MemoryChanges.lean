import Isl.Emu.MemoryFrame

/-!
The change counter of an address space, `mem->changes`: it moves whenever an
entry goes away or changes.
-/

namespace Isl.Emu.Memory

namespace World

variable {w w' w₁ w₂ : World} {a m p d n k : ℕ}

/-- The counter does not run backwards, and an entry that is gone or changed
has moved it. -/
structure Stable (a : ℕ) (w w' : World) : Prop where
  mono : (w.mem a).changes ≤ (w'.mem a).changes
  kept : (w'.mem a).changes = (w.mem a).changes →
    ∀ p e, w.memPt a p = some e → w'.memPt a p = some e

theorem Stable.refl (w : World) : Stable a w w := ⟨le_rfl, fun _ _ _ h ↦ h⟩

theorem Stable.trans (h : Stable a w w₁) (h' : Stable a w₁ w₂) : Stable a w w₂ := by
  refine ⟨h.mono.trans h'.mono, fun he p e hp ↦ ?_⟩
  have h₁ := h.mono
  have h₂ := h'.mono
  exact h'.kept (by omega) p e (h.kept (by omega) p e hp)

theorem Stable.of_lt (h : (w.mem a).changes < (w'.mem a).changes) : Stable a w w' :=
  ⟨h.le, fun he ↦ by omega⟩

theorem Stable.of_eq (hc : (w'.mem a).changes = (w.mem a).changes)
    (hp : ∀ p e, w.memPt a p = some e → w'.memPt a p = some e) : Stable a w w' :=
  ⟨hc.ge, fun _ ↦ hp⟩

theorem foldl_stable {α : Type*} {f : World → α → World} (hf : ∀ w x, Stable a w (f w x))
    (xs : List α) (w : World) : Stable a w (xs.foldl f w) := by
  induction xs generalizing w with
  | nil => exact .refl w
  | cons x xs ih => exact (hf w x).trans (ih (f w x))

theorem Stable.of_mem (h : w'.mem a = w.mem a) : Stable a w w' := by
  refine .of_eq (congrArg Mem.changes h) (fun p e he ↦ ?_)
  rwa [memPt, h]

theorem ptUnmapPage_changes (m p a : ℕ) :
    ((w.ptUnmapPage m p).mem a).changes = (w.mem a).changes := by
  unfold ptUnmapPage
  split
  · rfl
  · rw [dataRelease_mem, memPtDel, setPt_changes]

theorem foldl_ptUnmapPage_changes (m a : ℕ) (pages : List ℕ) :
    ((pages.foldl (ptUnmapPage · m ·) w).mem a).changes = (w.mem a).changes := by
  induction pages generalizing w with
  | nil => rfl
  | cons p pages ih => rw [List.foldl_cons, ih, ptUnmapPage_changes]

theorem ptUnmap_stable (start pages : ℕ) (force : Bool) :
    Stable a w (w.ptUnmap a start pages force).1 := by
  unfold ptUnmap
  split
  · exact .refl w
  · refine .of_lt ?_
    rw [memChanged_changes, if_pos rfl, foldl_ptUnmapPage_changes]
    exact Nat.lt_succ_self _

theorem unmapOne_changes (m p a : ℕ) :
    ((w.unmapOne m p).mem a).changes = (w.mem a).changes + if a = m then 1 else 0 := by
  rw [unmapOne, memChanged_changes, ptUnmapPage_changes]

theorem evict_stable (p : ℕ) : Stable a w (w.evict a p) := by
  unfold evict
  split
  · refine .of_lt ?_
    rw [unmapOne_changes, if_pos rfl]
    exact Nat.lt_succ_self _
  · exact .refl w

/-- Filling an absent entry moves nothing. -/
theorem setPt_stable {e : PtEntry} (h : w.memPt a p = none) :
    Stable a w (w.setPt a p (some e)) := by
  refine .of_eq (setPt_changes _ _) (fun q f hf ↦ ?_)
  rw [memPt_setPt, if_neg, hf]
  rintro ⟨-, rfl⟩
  rw [h] at hf
  cases hf

theorem ptMapPage_stable (d start : ℕ) (flags : Flags) (p : ℕ) :
    Stable a w (ptMapPage a d start flags w p) := by
  rw [ptMapPage_eq]
  have hretain : Stable a (w.evict a p) ((w.evict a p).dataRetain d) := .of_mem rfl
  refine ((evict_stable p).trans hretain).trans (setPt_stable ?_)
  rw [dataRetain_memPt, memPt_evict, if_pos ⟨rfl, rfl⟩]

theorem ptMap_stable (start pages : ℕ) (memory : Option ℕ) (flags : Flags) :
    Stable a w (w.ptMap a start pages memory flags).1 := by
  unfold ptMap
  cases memory with
  | none => exact .refl w
  | some b =>
    have hnew : Stable a w (w.dataNew b (pages * pageSize % 2 ^ 32)) := .of_mem rfl
    exact hnew.trans (foldl_stable (fun _ p ↦ ptMapPage_stable w.nextData start flags p) _ _)

theorem mmap_mem (s : ℕ) (c : ℤ → Byte) : (w.mmap s c).2.mem = w.mem := by
  unfold mmap
  split <;> rfl

theorem ptMapFresh_stable (start pages : ℕ) (c : ℤ → Byte) (flags : Flags) :
    Stable a w (w.ptMapFresh a start pages c flags).1 :=
  Stable.trans (.of_mem (congrFun (mmap_mem _ c) a)) (ptMap_stable _ _ _ _)

theorem ptMapNothing_stable (start pages : ℕ) (flags : Flags) :
    Stable a w (w.ptMapNothing a start pages flags).1 := by
  unfold ptMapNothing
  split
  · exact .refl w
  · exact ptMapFresh_stable start pages _ _

theorem grow_stable (p : ℕ) : Stable a w (w.grow a p) := by
  unfold grow
  split
  · exact ptMapNothing_stable p 1 _
  · exact .refl w

theorem cowBreak_stable (p : ℕ) (e : PtEntry) : Stable a w (w.cowBreak a p e) := by
  have hcopy (b : ℕ) (q : Ptr) : Stable a w ((w.mmap pageSize (fun _ ↦ 0)).2.memcpyPage b q) :=
    .of_mem (congrFun (mmap_mem (w := w) pageSize (fun _ ↦ 0)) a)
  exact (hcopy _ _).trans (ptMap_stable _ _ _ _)

theorem memPtr_stable (addr : Addr) (type : Access) : Stable a w (w.memPtr a addr type).1 := by
  have hg : Stable a w (w.grow a (page addr)) := grow_stable _
  obtain h | ⟨e, -, -, h⟩ | ⟨e, -, -, -, h⟩ := memPtr_cases w a addr type <;> rw [h]
  · exact hg
  · exact hg
  · exact hg.trans (cowBreak_stable _ e)

theorem store_stable (addr : Addr) (v : Byte) : Stable a w (w.store a addr v) := by
  have h : Stable a w (w.memPtr a addr .write).1 := memPtr_stable addr .write
  unfold store
  dsimp only
  split
  · exact h
  · exact h.trans (.of_mem rfl)

/-- The call rewrites no entry, or the host accepts every protection it asks for. -/
def accepted (w : World) (mprotect : Mprotect) (m start pages : ℕ) (flags : Flags) : Prop :=
  (∃ p ∈ List.range' start pages, w.memPt m p = none) ∨
    ∀ p ∈ List.range' start pages, w.refused mprotect m flags p = false

theorem ptSetFlagsLoop_changes (mprotect : Mprotect) (m : ℕ) (flags : Flags) {pages : List ℕ}
    (hd : pages.Nodup) (hp : ∀ p ∈ pages, (w.memPt m p).isSome)
    (hr : ∀ p ∈ pages, w.refused mprotect m flags p = false) :
    ((ptSetFlagsLoop mprotect m flags w pages).1.mem m).changes = (w.mem m).changes + 1 := by
  induction pages generalizing w with
  | nil => rw [ptSetFlagsLoop, memChanged_changes, if_pos rfl]
  | cons p pages ih =>
    obtain ⟨e, he⟩ := Option.isSome_iff_exists.mp (hp p List.mem_cons_self)
    obtain ⟨hpn, hd'⟩ := List.nodup_cons.mp hd
    have hne {q : ℕ} (hq : q ∈ pages) : q ≠ p := fun h ↦ hpn (h ▸ hq)
    have hr₀ := hr p List.mem_cons_self
    simp only [refused, he, Bool.and_eq_false_iff, decide_eq_false_iff_not] at hr₀
    have hok : ¬(raisesProt e.flags flags = true ∧
        mprotect (w.entryPtr e 0) (has flags pWrite) < 0) := by
      rintro ⟨h₁, h₂⟩
      rcases hr₀ with h | h
      · rw [h₁] at h
        cases h
      · exact h h₂
    unfold ptSetFlagsLoop
    simp only [he, if_neg hok]
    rw [ih hd' (fun q hq ↦ ?_) (fun q hq ↦ ?_), setPt_changes]
    · rw [memPt_setPt, if_neg (fun h : m = m ∧ q = p ↦ hne hq h.2)]
      exact hp q (List.mem_cons_of_mem p hq)
    · rw [refused_setPt_of_ne (hne hq)]
      exact hr q (List.mem_cons_of_mem p hq)

theorem ptSetFlags_stable {mprotect : Mprotect} {start pages : ℕ} {flags : Flags}
    (h : w.accepted mprotect a start pages flags) :
    Stable a w (w.ptSetFlags mprotect a start pages flags).1 := by
  unfold ptSetFlags
  split
  · exact .refl w
  · rename_i hall
    have hp : ∀ p ∈ List.range' start pages, (w.memPt a p).isSome := by
      intro p hp
      by_contra hn
      exact hall (List.any_eq_true.mpr ⟨p, hp, by simpa using hn⟩)
    refine .of_lt ?_
    rcases h with ⟨p, hpr, hn⟩ | hr
    · have hs := hp p hpr
      rw [hn] at hs
      cases hs
    · rw [ptSetFlagsLoop_changes mprotect a flags List.nodup_range' hp hr]
      exact Nat.lt_succ_self _

theorem ptSetFlags_mem (mprotect : Mprotect) {m : ℕ} (start pages : ℕ) (flags : Flags)
    (ha : a ≠ m) : (w.ptSetFlags mprotect m start pages flags).1.mem a = w.mem a := by
  have hloop (ps : List ℕ) (w : World) :
      (ptSetFlagsLoop mprotect m flags w ps).1.mem a = w.mem a := by
    induction ps generalizing w with
    | nil => exact Function.update_of_ne ha _ _
    | cons p ps ih =>
      have hset (e : Option PtEntry) : (w.setPt m p e).mem a = w.mem a :=
        Function.update_of_ne ha _ _
      unfold ptSetFlagsLoop
      split
      · rfl
      · dsimp only
        split
        · exact hset _
        · exact (ih _).trans (hset _)
  unfold ptSetFlags
  split
  · rfl
  · exact hloop _ w

/-- Refused or not, a change of flags turns no counter back. -/
theorem ptSetFlags_changes_le (mprotect : Mprotect) (m start pages : ℕ) (flags : Flags) (a : ℕ) :
    (w.mem a).changes ≤ ((w.ptSetFlags mprotect m start pages flags).1.mem a).changes := by
  have hloop (ps : List ℕ) (w : World) :
      (w.mem a).changes ≤ ((ptSetFlagsLoop mprotect m flags w ps).1.mem a).changes := by
    induction ps generalizing w with
    | nil =>
      rw [ptSetFlagsLoop, memChanged_changes]
      exact Nat.le_add_right _ _
    | cons p ps ih =>
      have hset (e : Option PtEntry) := setPt_changes (w := w) (m := m) (p := p) e a
      unfold ptSetFlagsLoop
      split
      · exact le_rfl
      · dsimp only
        split
        · exact (hset _).ge
        · exact (hset _).ge.trans (ih _)
  unfold ptSetFlags
  split
  · exact le_rfl
  · exact hloop _ w

theorem cowPage_changes (src dst sp dp a : ℕ) :
    (w.mem a).changes ≤ ((cowPage src dst w sp dp).mem a).changes := by
  cases he : w.memPt src sp with
  | none => rw [cowPage_none he]
  | some e =>
    rw [cowPage_eq he, setPt_changes, dataRetain_mem, setPt_changes, unmapOne_changes]
    exact Nat.le_add_right _ _

theorem cowPages_changes (src srcStart dst dstStart n a : ℕ) :
    (w.mem a).changes ≤ ((w.cowPages src srcStart dst dstStart n).mem a).changes := by
  induction n with
  | zero => exact le_rfl
  | succ n ih =>
    rw [cowPages_succ]
    exact ih.trans (cowPage_changes _ _ _ _ _)

theorem cowPage_mem {src dst : ℕ} (hs : a ≠ src) (hd : a ≠ dst) (sp dp : ℕ) :
    (cowPage src dst w sp dp).mem a = w.mem a := by
  cases he : w.memPt src sp with
  | none => rw [cowPage_none he]
  | some e =>
    have hu : Frame dst 0 0 w (w.unmapOne dst dp) := unmapOne_frame dp
    rw [cowPage_eq he]
    refine (Function.update_of_ne hd _ _).trans ?_
    exact (Function.update_of_ne hs _ _).trans (hu.other a hd)

theorem cowPages_mem {src dst : ℕ} (hs : a ≠ src) (hd : a ≠ dst) (srcStart dstStart n : ℕ) :
    (w.cowPages src srcStart dst dstStart n).mem a = w.mem a := by
  induction n with
  | zero => rfl
  | succ n ih => rw [cowPages_succ, cowPage_mem hs hd, ih]

/-- A copy moves the counters of both its spaces. -/
theorem ptCopyOnWrite_stable (src srcStart dst dstStart pages : ℕ) :
    Stable a w (w.ptCopyOnWrite src srcStart dst dstStart pages).1 := by
  rw [ptCopyOnWrite_eq]
  have hle := cowPages_changes (w := w) src srcStart dst dstStart pages a
  by_cases hs : a = src
  · refine .of_lt ?_
    rw [memChanged_changes, memChanged_changes, if_pos hs]
    omega
  · by_cases hd : a = dst
    · refine .of_lt ?_
      rw [memChanged_changes, if_pos hd, memChanged_changes]
      omega
    · refine .of_mem ((Function.update_of_ne hd _ _).trans ?_)
      exact (Function.update_of_ne hs _ _).trans (cowPages_mem hs hd _ _ _)

/-! One call. -/

theorem setRefcount_stable (m n : ℕ) : Stable a w (w.setRefcount m n) := by
  by_cases h : a = m
  · subst h
    refine .of_eq ?_ (fun p e he ↦ ?_)
    · simp [setRefcount]
    · simpa [memPt, setRefcount] using he
  · exact .of_mem (Function.update_of_ne h _ _)

theorem memRelease_stable : Stable a w (w.memRelease a) := by
  have hset : Stable a w (w.setRefcount a ((w.mem a).refcount - 1)) := setRefcount_stable a _
  unfold memRelease
  dsimp only
  split
  · exact hset.trans (ptUnmap_stable _ _ _)
  · exact hset

theorem setRefcount_frame (a r : ℕ) : Frame a n k w (w.setRefcount a r) := by
  refine ⟨rfl, le_rfl, le_rfl, fun m hm ↦ ?_, fun p e he ↦ .inl ?_, fun _ x _ h ↦ ⟨x, h, rfl⟩,
    fun _ _ ↦ rfl⟩
  · exact Function.update_of_ne hm _ _
  · simpa [memPt, setRefcount] using he

theorem memRelease_frame : Frame a n k w (w.memRelease a) := by
  have hset : Frame a n k w (w.setRefcount a ((w.mem a).refcount - 1)) := setRefcount_frame a _
  unfold memRelease
  dsimp only
  split
  · exact hset.trans (ptUnmap_frame _ _ _)
  · exact hset

theorem cowPage_data {src dst : ℕ} (sp dp : ℕ) {x : Data}
    (hx : (cowPage src dst w sp dp).data d = some x) :
    ∃ y, w.data d = some y ∧ y.data = x.data := by
  cases he : w.memPt src sp with
  | none =>
    rw [cowPage_none he] at hx
    exact ⟨x, hx, rfl⟩
  | some e =>
    rw [cowPage_eq he, setPt_data] at hx
    have hr : Frame dst (d + 1) 0 _ (((w.unmapOne dst dp).setPt src sp
      (some { e with flags := cowFlags e.flags })).dataRetain e.data) := dataRetain_frame e.data
    have hu : Frame dst (d + 1) 0 w (w.unmapOne dst dp) := unmapOne_frame dp
    obtain ⟨y, hy, hyx⟩ := hr.data d x (Nat.lt_succ_self d) hx
    obtain ⟨z, hz, hzy⟩ := hu.data d y (Nat.lt_succ_self d) hy
    exact ⟨z, hz, hzy.trans hyx⟩

theorem cowPages_keepsBlocks (src srcStart dst dstStart n : ℕ) :
    KeepsBlocks w (w.cowPages src srcStart dst dstStart n) := by
  induction n with
  | zero => exact fun d x _ hx ↦ ⟨x, hx, rfl⟩
  | succ n ih =>
    intro d x hd hx
    rw [cowPages_succ] at hx
    obtain ⟨y, hy, hyx⟩ := cowPage_data _ _ hx
    obtain ⟨z, hz, hzy⟩ := ih d y hd hy
    exact ⟨z, hz, hzy.trans hyx⟩

end World

/-- The call is about space `a`. -/
def Op.touches (a : ℕ) : Op → Bool
  | .new => false
  | .retain m | .release m | .mapNothing m _ _ _ | .map m _ _ _ _ | .unmap m _ _ _
  | .setFlags _ m _ _ _ | .load m _ | .store m _ _ => m = a
  | .copyOnWrite src _ dst _ _ => src = a ∨ dst = a

namespace World

variable {w : World} {a : ℕ} {op : Op}

/-- Calls about other spaces leave a space alone. -/
theorem apply_mem (ha : a < w.nextMem) (h : op.touches a = false) :
    (w.apply op).mem a = w.mem a := by
  have hother {m : ℕ} {w' : World} (hf : Frame m 0 0 w w') (h : decide (m = a) = false) :
      w'.mem a = w.mem a := hf.other a (fun ha ↦ of_decide_eq_false h ha.symm)
  cases op with
  | new => exact Function.update_of_ne (Nat.ne_of_lt ha) _ _
  | retain m => exact hother (setRefcount_frame m _) h
  | release m => exact hother memRelease_frame h
  | mapNothing m start pages flags =>
    exact hother (ptMapNothing_frame (Nat.zero_le _) (Nat.zero_le _) start pages flags) h
  | map m start pages c flags =>
    exact hother (ptMapFresh_frame (Nat.zero_le _) (Nat.zero_le _) start pages c flags) h
  | unmap m start pages force => exact hother (ptUnmap_frame start pages force) h
  | setFlags mprotect m start pages flags =>
    exact ptSetFlags_mem mprotect start pages flags (fun ha ↦ of_decide_eq_false h ha.symm)
  | copyOnWrite src srcStart dst dstStart pages =>
    simp only [Op.touches, decide_eq_false_iff_not, not_or] at h
    refine (Function.update_of_ne (Ne.symm h.2) _ _).trans ?_
    exact (Function.update_of_ne (Ne.symm h.1) _ _).trans
      (cowPages_mem (Ne.symm h.1) (Ne.symm h.2) _ _ _)
  | load m addr =>
    exact hother ((memPtr_frame addr .read).mono (Nat.zero_le _) (Nat.zero_le _)) h
  | store m addr v => exact hother ((store_frame addr v).mono (Nat.zero_le _) le_rfl) h

theorem apply_nextMem (w : World) (op : Op) : w.nextMem ≤ (w.apply op).nextMem := by
  cases op with
  | new => exact Nat.le_succ _
  | retain m => exact le_rfl
  | release m => exact (memRelease_frame (n := 0) (k := 0)).nextMem.ge
  | mapNothing m start pages flags =>
    exact (ptMapNothing_frame (Nat.zero_le _) (Nat.zero_le _) start pages flags).nextMem.ge
  | map m start pages c flags =>
    exact (ptMapFresh_frame (Nat.zero_le _) (Nat.zero_le _) start pages c flags).nextMem.ge
  | unmap m start pages force =>
    exact (ptUnmap_frame (n := 0) (k := 0) start pages force).nextMem.ge
  | setFlags mprotect m start pages flags =>
    exact (ptSetFlags_sameMemory mprotect m start pages flags).nextMem.ge
  | copyOnWrite src srcStart dst dstStart pages =>
    exact (cowPages_nextMem src srcStart dst dstStart pages).ge
  | load m addr => exact (memPtr_frame addr .read).nextMem.ge
  | store m addr v => exact (store_frame addr v).nextMem.ge

/-- The host accepts what the call asks for on space `a`. -/
def Accepted (a : ℕ) (w : World) : Op → Prop
  | .setFlags mprotect m start pages flags => m = a → w.accepted mprotect m start pages flags
  | _ => True

theorem Stable.apply (ha : a < w.nextMem) (h : Accepted a w op) : Stable a w (w.apply op) := by
  cases ht : op.touches a with
  | false => exact .of_mem (apply_mem ha ht)
  | true =>
    cases op with
    | new => cases ht
    | retain m => exact setRefcount_stable m _
    | release m =>
      obtain rfl := of_decide_eq_true ht
      exact memRelease_stable
    | mapNothing m start pages flags =>
      obtain rfl := of_decide_eq_true ht
      exact ptMapNothing_stable start pages flags
    | map m start pages c flags =>
      obtain rfl := of_decide_eq_true ht
      exact ptMapFresh_stable start pages c flags
    | unmap m start pages force =>
      obtain rfl := of_decide_eq_true ht
      exact ptUnmap_stable start pages force
    | setFlags mprotect m start pages flags =>
      obtain rfl := of_decide_eq_true ht
      exact ptSetFlags_stable (h rfl)
    | copyOnWrite src srcStart dst dstStart pages => exact ptCopyOnWrite_stable _ _ _ _ _
    | load m addr =>
      obtain rfl := of_decide_eq_true ht
      exact memPtr_stable addr .read
    | store m addr v =>
      obtain rfl := of_decide_eq_true ht
      exact store_stable addr v

theorem KeepsBlocks.apply (w : World) (op : Op) : KeepsBlocks w (w.apply op) := by
  cases op with
  | new | retain => exact fun d x _ hx ↦ ⟨x, hx, rfl⟩
  | release m => exact memRelease_frame.data (k := 0)
  | mapNothing m start pages flags =>
    exact (ptMapNothing_frame le_rfl (Nat.zero_le _) start pages flags).data
  | map m start pages c flags =>
    exact (ptMapFresh_frame le_rfl (Nat.zero_le _) start pages c flags).data
  | unmap m start pages force => exact (ptUnmap_frame (k := 0) start pages force).data
  | setFlags mprotect m start pages flags =>
    intro d x _ hx
    rw [World.apply, (ptSetFlags_sameMemory mprotect m start pages flags).data] at hx
    exact ⟨x, hx, rfl⟩
  | copyOnWrite src srcStart dst dstStart pages => exact cowPages_keepsBlocks _ _ _ _ _
  | load m addr => exact (memPtr_frame addr .read).data
  | store m addr v => exact (store_frame addr v).data

end World

end Isl.Emu.Memory
