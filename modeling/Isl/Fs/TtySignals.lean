import Isl.Fs.TtyTyping

/-! The interrupt character under `ISIG`, however what is typed is split into inputs. -/

namespace Isl.Fs.Terminal

open Isl.Lib.Run

/-- What the buffer holds for a typed byte. -/
def storedAs (t : Termios) (typed : Byte) : Byte :=
  if has t.lflags icanon then
    let ch := mapChar t.iflags typed
    if isCc ch (t.cc vEof) then 0 else ch
  else typed

namespace Tty

/-- No call is in progress, and an interrupt character makes a signal. -/
structure SignalsOn (s : Tty) (intr : Byte) : Prop where
  sig : has s.termios.lflags isig = true
  cc : s.termios.cc vIntr = intr
  fgGroup : s.fgGroup ≠ 0
  idle : s.inputs = []

/-- However these bytes are split into inputs, one signal is sent for each interrupt
character, none of these is stored, and the buffer is the same at the end. -/
structure Interrupts (s : Tty) (bytes : List Byte) : Prop where
  sent : ∀ chunks, chunks.flatten = bytes →
    (s.typeChunks chunks).1 = bytes.count (s.termios.cc vIntr)
  stored : ∀ chunks, chunks.flatten = bytes → ∀ x ∈ (s.typeChunks chunks).2.queue,
    x ∈ s.queue ∨ ∃ ch ∈ bytes, ch ≠ s.termios.cc vIntr ∧ x.1 = storedAs s.termios ch
  split : ∀ chunks, chunks.flatten = bytes →
    (s.typeChunks chunks).2.queue = (s.typeChunks [bytes]).2.queue

section

variable {s : Tty} {lflags iflags : Dword} {intr ch c y : Byte} {skip flag : Bool}
  {input kept pre bytes : List Byte} {chunks : List (List Byte)} {x : Byte × Bool}

/-! The scan. -/

theorem isCc_iff : isCc ch c = true ↔ ch = c ∧ c.toNat < 128 := by
  rw [isCc, decide_eq_true_iff, BitVec.toInt_eq_toNat_cond]
  constructor
  · intro h
    have hlt := c.isLt
    have heq : ch.toNat = c.toNat := by
      split at h <;> omega
    refine ⟨BitVec.eq_of_toNat_eq heq, ?_⟩
    split at h <;> omega
  · rintro ⟨rfl, hlt⟩
    rw [if_pos (by omega)]

theorem isCc_of_ne (h : ch ≠ c) : isCc ch c = false :=
  Bool.eq_false_iff.mpr fun hcc ↦ h (isCc_iff.mp hcc).1

theorem scanAll_none (h : ∀ ch ∈ input, isCc ch intr = false) :
    scanAll intr skip kept input = (0, kept ++ input) := by
  induction input generalizing skip kept with
  | nil => rw [scanAll, List.append_nil]
  | cons ch rest ih =>
    rw [scanAll, h ch List.mem_cons_self, Bool.and_false, if_neg Bool.false_ne_true,
      ih fun c hc ↦ h c (List.mem_cons_of_mem ch hc), List.append_assoc]
    rfl

/-- A byte behind another one that is no interrupt character is looked at. -/
theorem scanAll_concat (hy : isCc y intr = false) :
    (scanAll intr skip kept (pre ++ [y])).2 ≠ [] ∧
      (isCc c intr = true → (scanAll intr skip kept (pre ++ [y, c])).2 = []) := by
  induction pre generalizing skip kept with
  | nil =>
    have hlast (skip : Bool) (kept : List Byte) (rest : List Byte) :
        scanAll intr skip kept (y :: rest) = scanAll intr false (kept ++ [y]) rest := by
      rw [scanAll, hy, Bool.and_false, if_neg Bool.false_ne_true]
    refine ⟨?_, fun hc ↦ ?_⟩
    · rw [List.nil_append, hlast, scanAll]
      exact List.append_ne_nil_of_right_ne_nil _ (List.cons_ne_nil _ _)
    · rw [List.nil_append, hlast, scanAll, hc, Bool.not_false, Bool.true_and, if_pos rfl]
      rfl
  | cons a pre ih =>
    rw [List.cons_append, List.cons_append, scanAll, scanAll]
    split
    · exact ih
    · exact ih

/-! The buffer. -/

theorem mem_eraseChars {echo : Bool} {count : ℕ}
    (h : x ∈ (s.eraseChars lflags echo count).queue) : x ∈ s.queue := by
  induction count generalizing s with
  | zero => exact h
  | succ count ih =>
    rw [eraseChars] at h
    split at h
    · exact h
    · have hrest := ih h
      apply List.mem_of_mem_dropLast
      rw [← queue_pred]
      dsimp only at hrest
      split at hrest
      · split at hrest <;> exact hrest
      · exact hrest

theorem mem_ttyPushChar (h : x ∈ (s.ttyPushChar ch flag).queue) : x ∈ s.queue ∨ x.1 = ch := by
  by_cases hfull : ttyBufSize ≤ s.bufsize
  · rw [ttyPushChar, if_pos hfull] at h
    exact .inl h
  · rw [queue_ttyPushChar (Nat.not_le.mp hfull)] at h
    obtain h | h := List.mem_append.mp h
    · exact .inl h
    · rw [List.mem_singleton.mp h]
      exact .inr rfl

theorem mem_canonChar (hcanon : has s.termios.lflags icanon = true)
    (h : x ∈ (canonChar lflags s.termios.iflags s ch).1.queue) :
    x ∈ s.queue ∨ x.1 = storedAs s.termios ch := by
  rw [storedAs, if_pos hcanon]
  rw [canonChar] at h
  dsimp only at h ⊢
  split at h
  · exact .inl h
  · split at h
    · exact .inl (mem_eraseChars h)
    · split at h
      · rename_i heof
        rw [if_pos heof]
        exact mem_ttyPushChar h
      · rename_i heof
        rw [if_neg heof]
        split at h
        · split at h
          · exact mem_ttyPushChar (s := s.write [13, 10]) h
          · exact mem_ttyPushChar h
        · split at h
          · split at h <;> exact mem_ttyPushChar h
          · exact mem_ttyPushChar h

theorem mem_canonAll (hcanon : has s.termios.lflags icanon = true)
    (h : x ∈ (canonAll lflags s.termios.iflags s input).queue) :
    x ∈ s.queue ∨ ∃ ch ∈ input, x.1 = storedAs s.termios ch := by
  induction input generalizing s with
  | nil => exact .inl h
  | cons ch rest ih =>
    let u : Tty := { s with typed := s.typed ++ [ch] }
    have hkept := canonChar_keeps lflags s.termios.iflags u ch
    have htermios : (canonChar lflags s.termios.iflags u ch).1.termios = s.termios := hkept.termios
    obtain hold | ⟨c, hc, hx⟩ := @ih (canonChar lflags s.termios.iflags u ch).1
      (by rw [htermios]; exact hcanon) (by rw [htermios]; exact h)
    · obtain hold | hx := mem_canonChar (s := u) hcanon hold
      · exact .inl hold
      · exact .inr ⟨ch, List.mem_cons_self, hx⟩
    · rw [htermios] at hx
      exact .inr ⟨c, List.mem_cons_of_mem ch hc, hx⟩

theorem mem_rawInput (h : x ∈ (s.rawInput input).queue) : x ∈ s.queue ∨ x.1 ∈ input := by
  obtain ⟨k, hk⟩ : ∃ k, min s.rawRoom input.length = k := ⟨_, rfl⟩
  rw [rawInput_eq s input hk] at h
  obtain ⟨i, hi, rfl⟩ := List.mem_map.mp h
  have hlt := List.mem_range.mp hi
  dsimp only at hlt ⊢
  by_cases hnew : s.bufsize ≤ i
  · rw [if_pos ⟨hnew, hlt⟩, List.getD_eq_getElem _ _ (by omega)]
    exact .inr (List.getElem_mem _)
  · rw [if_neg fun hin ↦ hnew hin.1]
    exact .inl (List.mem_map.mpr ⟨i, List.mem_range.mpr (Nat.not_le.mp hnew), rfl⟩)

theorem mem_process (h : x ∈ (process s.termios.lflags s.termios.iflags s input).queue) :
    x ∈ s.queue ∨ ∃ ch ∈ input, x.1 = storedAs s.termios ch := by
  rw [process] at h
  split at h
  · rename_i hcanon
    exact mem_canonAll hcanon h
  · rename_i hraw
    obtain h | h := mem_rawInput h
    · exact .inl h
    · refine .inr ⟨x.1, h, ?_⟩
      rw [storedAs, if_neg hraw]

/-! What is typed. -/

/-- The interrupt character is the first byte at most, and then one that a `char` can be. -/
def FirstOnly (intr : Byte) (bytes : List Byte) : Prop :=
  intr ∉ bytes.tail ∧ (bytes.head? = some intr → intr.toNat < 128)

theorem SignalsOn.found (h : s.SignalsOn intr) (input : List Byte) :
    s.found input = (scanAll intr false [] input).1 := by
  rw [Tty.found, if_pos h.sig, h.cc]

theorem SignalsOn.left (h : s.SignalsOn intr) (input : List Byte) :
    s.left input = (scanAll intr false [] input).2 := by
  rw [Tty.left, if_pos h.sig, h.cc]

theorem SignalsOn.typeChunks (h : s.SignalsOn intr) (chunks : List (List Byte)) :
    (s.typeChunks chunks).1 = (chunks.map s.found).sum ∧ (s.typeChunks chunks).2.queue =
      (process s.termios.lflags s.termios.iflags s (chunks.flatMap s.left)).queue := by
  have heq := typeChunks_eq h.idle chunks
  rwa [if_pos (bne_iff_ne.mpr h.fgGroup)] at heq

theorem SignalsOn.plain (h : s.SignalsOn intr) (hnot : intr ∉ input) :
    s.found input = 0 ∧ s.left input = input := by
  have hcc : ∀ ch ∈ input, isCc ch intr = false := fun ch hch ↦
    isCc_of_ne fun heq ↦ hnot (heq ▸ hch)
  rw [h.found, h.left, scanAll_none hcc]
  exact ⟨rfl, rfl⟩

theorem SignalsOn.plains (h : s.SignalsOn intr) (hnot : intr ∉ chunks.flatten) :
    (chunks.map s.found).sum = 0 ∧ chunks.flatMap s.left = chunks.flatten := by
  induction chunks with
  | nil => exact ⟨rfl, rfl⟩
  | cons chunk chunks ih =>
    rw [List.flatten_cons, List.mem_append, not_or] at hnot
    obtain ⟨hfound, hleft⟩ := h.plain hnot.1
    obtain ⟨hsum, hflat⟩ := ih hnot.2
    rw [List.map_cons, List.sum_cons, hfound, hsum, List.flatMap_cons, hleft, hflat,
      List.flatten_cons]
    exact ⟨rfl, rfl⟩

/-- The interrupt character comes first, and the rest passes. -/
theorem SignalsOn.first (h : s.SignalsOn intr) (hbytes : FirstOnly intr chunks.flatten) :
    (chunks.map s.found).sum = chunks.flatten.count intr ∧
      chunks.flatMap s.left = chunks.flatten.filter (· ≠ intr) := by
  have hplain {cs : List (List Byte)} (hnot : intr ∉ cs.flatten) :
      (cs.map s.found).sum = cs.flatten.count intr ∧
        cs.flatMap s.left = cs.flatten.filter (· ≠ intr) := by
    obtain ⟨hsum, hflat⟩ := h.plains hnot
    rw [hsum, hflat, List.count_eq_zero.mpr hnot]
    refine ⟨rfl, (List.filter_eq_self.mpr fun ch hch ↦ ?_).symm⟩
    exact decide_eq_true fun heq ↦ hnot (heq ▸ hch)
  induction chunks with
  | nil => exact ⟨rfl, rfl⟩
  | cons chunk chunks ih =>
    cases chunk with
    | nil =>
      have hnil : s.found [] = 0 ∧ s.left [] = [] := h.plain List.not_mem_nil
      rw [List.map_cons, List.sum_cons, List.flatMap_cons, hnil.1, hnil.2, Nat.zero_add]
      exact ih hbytes
    | cons ch chunk =>
      by_cases hch : ch = intr
      · subst hch
        obtain ⟨hnot, hlt⟩ := hbytes
        rw [List.flatten_cons, List.cons_append, List.tail_cons] at hnot
        obtain ⟨hsum, hflat⟩ := @hplain (chunk :: chunks) hnot
        have hcc : isCc ch ch = true := isCc_iff.mpr ⟨rfl, hlt rfl⟩
        have hscan : scanAll ch false [] (ch :: chunk) = (1, chunk) := by
          have hrest : ∀ c ∈ chunk, isCc c ch = false := fun c hc ↦ isCc_of_ne fun heq ↦
            hnot (List.mem_append_left _ (heq ▸ hc))
          rw [scanAll, Bool.not_false, Bool.true_and, if_pos hcc, scanAll_none hrest]
          rfl
        have hpass := h.plain fun hmem ↦ hnot (List.mem_append_left _ hmem)
        rw [List.map_cons, List.sum_cons, hpass.1, Nat.zero_add] at hsum
        rw [List.flatMap_cons, hpass.2] at hflat
        rw [List.map_cons, List.sum_cons, List.flatMap_cons, h.found, h.left, hscan, hsum, hflat,
          List.flatten_cons, List.flatten_cons, List.cons_append, List.count_cons_self,
          List.filter_cons_of_neg (by simp), Nat.add_comm]
        exact ⟨rfl, rfl⟩
      · refine hplain fun hmem ↦ ?_
        obtain heq | hmem := List.mem_cons.mp hmem
        · exact hch heq.symm
        · exact hbytes.1 hmem

theorem FirstOnly.of_prefix (h : FirstOnly intr bytes) (hpre : pre <+: bytes) :
    FirstOnly intr pre := by
  obtain ⟨post, rfl⟩ := hpre
  cases pre with
  | nil => exact ⟨List.not_mem_nil, nofun⟩
  | cons ch pre => exact ⟨fun hmem ↦ h.1 (List.mem_append_left _ hmem), h.2⟩

theorem SignalsOn.interrupts (h : s.SignalsOn intr) (hbytes : FirstOnly intr bytes) :
    s.Interrupts bytes := by
  have hqueue {chunks : List (List Byte)} (hflat : chunks.flatten = bytes) :
      (s.typeChunks chunks).2.queue =
        (process s.termios.lflags s.termios.iflags s (bytes.filter (· ≠ intr))).queue := by
    rw [(h.typeChunks chunks).2, (h.first (hflat ▸ hbytes)).2, hflat]
  refine ⟨fun chunks hflat ↦ ?_, fun chunks hflat x hx ↦ ?_, fun chunks hflat ↦ ?_⟩
  · rw [(h.typeChunks chunks).1, (h.first (hflat ▸ hbytes)).1, hflat, h.cc]
  · rw [hqueue hflat] at hx
    obtain hold | ⟨ch, hch, heq⟩ := mem_process hx
    · exact .inl hold
    · obtain ⟨hmem, hne⟩ := List.mem_filter.mp hch
      rw [h.cc]
      exact .inr ⟨ch, hmem, of_decide_eq_true hne, heq⟩
  · rw [hqueue hflat, hqueue (List.flatten_singleton)]

/-! What goes wrong otherwise. -/

/-- Raw mode with `ISIG` and nothing else. -/
def sigTermios (intr : Byte) : Termios := ⟨0, 0, 0, isig, 0, fun i ↦ if i = vIntr then intr else 0⟩

/-- An empty buffer in raw mode, and a foreground group. -/
def sigTty (intr : Byte) : Tty := { fresh (fun _ ↦ 0) (sigTermios intr) with fgGroup := 1 }

theorem sigTty_reached (intr : Byte) :
    exec step (fresh (fun _ ↦ 0) (sigTermios intr)) [.ioctl (.setGroup 1)] = some (sigTty intr) :=
  rfl

theorem sigTty_signalsOn (intr : Byte) : (sigTty intr).SignalsOn intr := by
  have hsig : has isig isig = true := by decide
  exact ⟨hsig, rfl, Nat.one_ne_zero, rfl⟩

theorem bufsize_sigTty (chunks : List (List Byte)) :
    ((sigTty intr).typeChunks chunks).2.bufsize =
      min 4095 (chunks.flatMap (sigTty intr).left).length := by
  have hqueue := ((sigTty_signalsOn intr).typeChunks chunks).2
  have hraw : has (sigTty intr).termios.lflags icanon ≠ true := by
    rw [show (sigTty intr).termios.lflags = isig from rfl]
    decide
  have hroom : (sigTty intr).rawRoom = 4095 :=
    show (BitVec.ofNat 64 (ttyBufSize - 1) - BitVec.ofNat 64 0).toNat = 4095 by decide
  rw [process, if_neg hraw] at hqueue
  have hlen := congrArg List.length hqueue
  rw [length_queue, length_queue, bufsize_rawInput, hroom] at hlen
  exact hlen.trans (Nat.zero_add _)

/-- A byte before the interrupt character stays in the buffer only if it comes in
another chunk, and the second one of two interrupt characters is not looked at. -/
theorem not_interrupts (hlt : intr.toNat < 128) (hnot : intr ∉ pre) :
    ¬(sigTty intr).Interrupts (ch :: (pre ++ [intr])) := by
  intro h
  have hon := sigTty_signalsOn intr
  have hcc : isCc intr intr = true := isCc_iff.mpr ⟨rfl, hlt⟩
  by_cases htwo : ch = intr ∧ pre = []
  · obtain ⟨rfl, rfl⟩ := htwo
    have hsent := h.sent [[ch, ch]] rfl
    rw [(hon.typeChunks _).1, List.map_singleton, List.sum_singleton, hon.found] at hsent
    simp [scanAll, hcc, hon.cc] at hsent
  · -- the byte before the last one is no interrupt character
    obtain ⟨init, y, hinit⟩ := (List.eq_nil_or_concat' (ch :: pre)).resolve_left
      (List.cons_ne_nil ch pre)
    have hy : isCc y intr = false := by
      refine isCc_of_ne fun heq ↦ ?_
      have hmem : y ∈ ch :: pre := by
        rw [hinit]
        exact List.mem_append_right _ (List.mem_singleton_self y)
      cases pre with
      | nil =>
        obtain rfl : y = ch := List.mem_singleton.mp hmem
        exact htwo ⟨heq, rfl⟩
      | cons a pre =>
        have hlast := congrArg List.getLast? hinit
        rw [List.getLast?_concat, List.getLast?_cons_cons] at hlast
        exact hnot (heq ▸ List.mem_of_getLast? hlast)
    obtain ⟨hne, hnil⟩ := @scanAll_concat intr intr y false [] init hy
    have hsplit := congrArg List.length (h.split [ch :: pre, [intr]] (by simp))
    have hone : scanAll intr false [] [intr] = (1, []) := by
      rw [scanAll, hcc, Bool.not_false, Bool.true_and, if_pos rfl]
      rfl
    have hall : ch :: (pre ++ [intr]) = init ++ [y, intr] := by
      rw [← List.cons_append, hinit, List.append_assoc]
      rfl
    rw [length_queue, length_queue, bufsize_sigTty, bufsize_sigTty, List.flatMap_cons,
      List.flatMap_singleton, List.flatMap_singleton, hon.left, hon.left, hon.left, hone, hall,
      hnil hcc, hinit, List.append_nil, List.length_nil] at hsplit
    have hpos := List.length_pos_of_ne_nil hne
    omega

theorem not_interrupts_high (hhigh : ¬intr.toNat < 128) (hmem : intr ∈ bytes) :
    ¬(sigTty intr).Interrupts bytes := by
  intro h
  have hon := sigTty_signalsOn intr
  have hcc (ch : Byte) : isCc ch intr = false :=
    Bool.eq_false_iff.mpr fun hcc ↦ hhigh (isCc_iff.mp hcc).2
  have hsent := h.sent [bytes] List.flatten_singleton
  rw [(hon.typeChunks _).1, List.map_singleton, List.sum_singleton, hon.found,
    scanAll_none fun ch _ ↦ hcc ch, hon.cc] at hsent
  exact Nat.ne_of_gt (List.count_pos_iff.mpr hmem) hsent.symm

/-- All along the typing of these bytes, at every terminal that a run leads to, the
signals and the buffer are as they should be, if and only if the interrupt character
is the first byte at most, and then one that a `char` can be. -/
theorem interrupts_iff (intr : Byte) (bytes : List Byte) :
    (∀ buf termios evs s, exec step (fresh buf termios) evs = some s → s.SignalsOn intr →
      ∀ pre, pre <+: bytes → s.Interrupts pre) ↔ FirstOnly intr bytes := by
  constructor
  · intro h
    have hat (pre : List Byte) (hpre : pre <+: bytes) : (sigTty intr).Interrupts pre :=
      h _ _ _ _ (sigTty_reached intr) (sigTty_signalsOn intr) pre hpre
    refine ⟨fun hmem ↦ ?_, fun hhead ↦ ?_⟩
    · by_cases hlt : intr.toNat < 128
      · cases bytes with
        | nil => cases hmem
        | cons ch rest =>
          obtain ⟨pre, post, rfl, hnot⟩ := List.eq_append_cons_of_mem hmem
          exact not_interrupts hlt hnot (hat (ch :: (pre ++ [intr])) ⟨post, by simp⟩)
      · exact not_interrupts_high hlt (List.mem_of_mem_tail hmem) (hat bytes List.prefix_rfl)
    · by_contra hhigh
      exact not_interrupts_high hhigh (List.mem_of_mem_head? hhead) (hat bytes List.prefix_rfl)
  · intro hbytes buf termios evs s _ hon pre hpre
    exact hon.interrupts (hbytes.of_prefix hpre)

/-- Two interrupt characters in one input make one signal, and the second one is stored. -/
theorem not_interrupts_twice : ∃ s, exec step (fresh (fun _ ↦ 0) (sigTermios 3))
      [.ioctl (.setGroup 1)] = some s ∧ s.SignalsOn 3 ∧ (s.typeChunks [[3, 3]]).1 = 1 ∧
    (s.typeChunks [[3, 3]]).2.queue = [(3, false)] ∧ ¬s.Interrupts [3, 3] := by
  have hone : ((sigTty 3).typeChunks [[3, 3]]).1 = 1 := rfl
  refine ⟨sigTty 3, rfl, ⟨rfl, rfl, Nat.one_ne_zero, rfl⟩, hone, rfl, fun h ↦ ?_⟩
  have hsent := h.sent [[3, 3]] rfl
  rw [hone] at hsent
  cases hsent

end

end Tty

end Isl.Fs.Terminal
