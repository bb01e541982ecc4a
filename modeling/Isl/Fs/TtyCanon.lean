import Isl.Fs.Tty
import Isl.Lib.Lines

/-! Canonical mode: the lines that are typed, and the reads that are given them. -/

namespace Isl.Fs.Terminal

open Isl.Lib.Run Isl.Lib.Lines

/-- What a typed byte means, after `INLCR`, `ICRNL` and `IGNCR`. -/
def edit (iflags : Dword) (cc : Fin 19 → Byte) (typed : Byte) : Edit Byte :=
  let ch := mapChar iflags typed
  if has iflags igncr && ch = 13 then .skip
  else if ch = cc vErase then .erase
  else if ch = cc vKill then .kill
  else if ch = cc vEof then .close
  else if ch = 10 ∨ ch = cc vEol then .closeWith ch
  else .char ch

/-- A line of the buffer: its characters and the flagged one, null for an end of file. -/
structure Line where
  chars : List Byte
  last : Byte

def Line.text (l : Line) : List Byte := if l.last = 0 then l.chars else l.chars ++ [l.last]

def Line.cells (l : Line) : List (Byte × Bool) := l.chars.map (·, false) ++ [(l.last, true)]

/-- The list is empty or ends with a flag. -/
def Closed (q : List (Byte × Bool)) : Prop := ∀ x, q.getLast? = some x → x.2 = true

namespace Tty

/-- The lines of what was typed. -/
def page (s : Tty) : Page Byte :=
  Page.typed (s.typed.map (edit s.termios.iflags s.termios.cc))

/-- Canonical mode without `ISIG`, an empty buffer and no call in progress. -/
structure CanonStart (s : Tty) : Prop where
  canon : has s.termios.lflags icanon = true
  noSig : has s.termios.lflags isig = false
  empty : s.bufsize = 0
  inputs : s.inputs = []
  readers : s.readers = []

/-- Inputs without null bytes, and reads of some bytes. -/
def Text : Event → Prop
  | .input bytes => 0 ∉ bytes
  | .read size => 0 < size
  | _ => True

/-- A byte that is not negative as a `char`, or none of the control characters of
canonical mode. -/
def Plain (s : Tty) (ch : Byte) : Prop :=
  ch.toInt < 0 → ∀ i ∈ [vErase, vKill, vEof, vEol], ch ≠ s.termios.cc i

/-- A read of this size takes all of a line that ends with a character, and the
next line is an end of file alone. -/
def SwallowsEof (s : Tty) (size : ℕ) : Prop :=
  ∃ k, s.ttyCanonSize = some k ∧ s.buf (k - 1) ≠ 0 ∧ k ≤ size ∧
    (s.queue.drop k).head? = some (0, true)

def Serves (s : Tty) : Event → Prop
  | .input bytes => ∀ ch ∈ bytes, s.Plain ch
  | .read size => ¬s.SwallowsEof size
  | .resumeRead k => ∀ r, s.readers[k]? = some r → ¬s.SwallowsEof r.size
  | _ => True

/-- The calls in progress are in canonical mode with the flags of the terminal. -/
structure CanonCalls (s : Tty) : Prop where
  canon : has s.termios.lflags icanon = true
  noSig : has s.termios.lflags isig = false
  inputs : ∀ i ∈ s.inputs, i.iflags = s.termios.iflags ∧
    ∃ rest, i.at' = .wake rest ∧ 0 ∉ rest ∧ ∀ ch ∈ rest, s.Plain ch
  readers : ∀ r ∈ s.readers, r.canon = true ∧ 0 < r.size

/-- The buffer holds the lines that are not read yet and the unfinished one. -/
structure Lined (s : Tty) (ls : List Line) : Prop where
  queue : s.queue = ls.flatMap Line.cells ++ s.page.line.map (·, false)
  delivers : Delivers s.page.done s.reads (ls.map Line.text)

end Tty

section

variable {s s' : Tty} {lflags iflags : Dword} {ch c : Byte} {q : List (Byte × Bool)}
  {p input : List Byte} {ls : List Line} {l : Line} {size n : ℕ} {r : Reader}

theorem isCc_eq (h : ch.toInt < 0 → ch ≠ c) : isCc ch c = decide (ch = c) := by
  rw [isCc]
  congr 1
  apply propext
  constructor
  · intro heq
    have hnat : ch.toNat = c.toNat := by
      rw [BitVec.toInt_eq_toNat_cond] at heq
      omega
    exact BitVec.eq_of_toNat_eq hnat
  · intro heq
    have hpos : ¬ch.toInt < 0 := fun hneg ↦ h hneg heq
    rw [← heq]
    rw [BitVec.toInt_eq_toNat_cond] at hpos ⊢
    omega

/-- The mapping changes newline and carriage return only. -/
theorem mapChar_cases (iflags : Dword) (ch : Byte) :
    mapChar iflags ch = ch ∨ mapChar iflags ch = 10 ∨ mapChar iflags ch = 13 := by
  rw [mapChar]
  split
  · exact .inr (.inr rfl)
  · split
    · exact .inr (.inl rfl)
    · exact .inl rfl

theorem closed_cells (ls : List Line) : Closed (ls.flatMap Line.cells) := by
  intro x hx
  induction ls using List.reverseRecOn with
  | nil => cases hx
  | append_singleton ls l _ =>
    rw [List.flatMap_append, List.flatMap_singleton, Line.cells, ← List.append_assoc,
      List.getLast?_concat] at hx
    cases hx
    rfl

namespace Tty

/-! Deleting characters. -/

theorem getLast?_queue (h : 0 < s.bufsize) :
    s.queue.getLast? = some (s.buf (s.bufsize - 1), s.bufFlag (s.bufsize - 1)) := by
  obtain ⟨n, hn⟩ := Nat.exists_eq_succ_of_ne_zero h.ne'
  rw [queue, hn, Nat.succ_eq_add_one, cells_succ, List.getLast?_concat]
  rfl

theorem queue_pred : { s with bufsize := s.bufsize - 1 }.queue = s.queue.dropLast := by
  rw [List.dropLast_eq_take, length_queue]
  exact (take_cells (Nat.sub_le _ _)).symm

/-- The loop deletes from the end of the unfinished line, and nothing before it. -/
theorem queue_eraseChars (lflags : Dword) (echo : Bool) (count : ℕ) (hq : Closed q)
    (hs : s.queue = q ++ p.map (·, false)) (hcount : q = [] → count ≤ p.length) :
    (s.eraseChars lflags echo count).queue = q ++ (p.take (p.length - count)).map (·, false) := by
  induction count generalizing s p with
  | zero => rw [eraseChars, hs, Nat.sub_zero, List.take_length]
  | succ count ih =>
    have hpos : 0 < s.bufsize := by
      rw [← length_queue, hs, List.length_append, List.length_map]
      by_cases hnil : q = []
      · have hle := hcount hnil
        omega
      · have hlen := List.length_pos_of_ne_nil hnil
        omega
    have hlast := getLast?_queue hpos
    rw [hs] at hlast
    rw [eraseChars]
    obtain rfl | ⟨p', c, rfl⟩ := List.eq_nil_or_concat p
    · rw [List.map_nil, List.append_nil] at hlast
      rw [if_pos (hq _ hlast), hs, List.take_nil]
    · rw [List.concat_eq_append, List.map_append, ← List.append_assoc, List.map_singleton,
        List.getLast?_concat, Option.some.injEq, Prod.mk.injEq] at hlast
      rw [← hlast.2, if_neg Bool.false_ne_true]
      have hrest : { s with bufsize := s.bufsize - 1 }.queue = q ++ p'.map (·, false) := by
        rw [queue_pred, hs, List.concat_eq_append, List.map_append, ← List.append_assoc,
          List.map_singleton, List.dropLast_concat]
      have hlen : (p'.concat c).take ((p'.concat c).length - (count + 1)) =
          p'.take (p'.length - count) := by
        rw [List.length_concat, Nat.add_sub_add_right, List.concat_eq_append,
          List.take_append_of_le_length (Nat.sub_le _ _)]
      rw [hlen]
      apply ih
      · dsimp only
        split
        · split <;> exact hrest
        · exact hrest
      · intro hnil
        have hle := hcount hnil
        rw [List.length_concat] at hle
        omega

/-- What a key leaves behind the finished lines in the buffer. -/
def after (p : List Byte) : Edit Byte → List (Byte × Bool)
  | .skip => p.map (·, false)
  | .char a => (p ++ [a]).map (·, false)
  | .erase => p.dropLast.map (·, false)
  | .kill => []
  | .close => p.map (·, false) ++ [(0, true)]
  | .closeWith a => p.map (·, false) ++ [(a, true)]

/-- Fields that the loop in canonical mode leaves alone, and that a byte that is
dropped is not forgotten. -/
structure Kept (s s' : Tty) : Prop where
  termios : s'.termios = s.termios
  inputs : s'.inputs = s.inputs
  readers : s'.readers = s.readers
  typed : s'.typed = s.typed
  reads : s'.reads = s.reads
  overflow : s'.overflow = false → s.overflow = false

theorem Kept.refl (s : Tty) : Kept s s := ⟨rfl, rfl, rfl, rfl, rfl, id⟩

theorem Kept.trans {t : Tty} (h : Kept s s') (h' : Kept s' t) : Kept s t :=
  ⟨h'.termios.trans h.termios, h'.inputs.trans h.inputs, h'.readers.trans h.readers,
    h'.typed.trans h.typed, h'.reads.trans h.reads, fun ho ↦ h.overflow (h'.overflow ho)⟩

theorem ttyPushChar_kept (s : Tty) (ch : Byte) (flag : Bool) : Kept s (s.ttyPushChar ch flag) ∧
    ((s.ttyPushChar ch flag).overflow = false →
      (s.ttyPushChar ch flag).queue = s.queue ++ [(ch, flag)]) := by
  by_cases hfull : ttyBufSize ≤ s.bufsize
  · rw [ttyPushChar, if_pos hfull]
    refine ⟨⟨rfl, rfl, rfl, rfl, rfl, fun hover ↦ ?_⟩, fun hover ↦ ?_⟩
    · cases hover
    · cases hover
  · refine ⟨?_, fun _ ↦ queue_ttyPushChar (Nat.not_le.mp hfull)⟩
    rw [ttyPushChar, if_neg hfull]
    exact ⟨rfl, rfl, rfl, rfl, rfl, id⟩

theorem eraseChars_kept (lflags : Dword) (echo : Bool) (count : ℕ) (s : Tty) :
    Kept s (s.eraseChars lflags echo count) := by
  induction count generalizing s with
  | zero => exact .refl s
  | succ count ih =>
    rw [eraseChars]
    split
    · exact .refl s
    · refine Kept.trans ?_ (ih _)
      dsimp only
      split
      · split <;> exact ⟨rfl, rfl, rfl, rfl, rfl, id⟩
      · exact ⟨rfl, rfl, rfl, rfl, rfl, id⟩

theorem Plain.isCc_mapChar (h : s.Plain ch) (iflags : Dword) {i : Fin 19}
    (hi : i ∈ [vErase, vKill, vEof, vEol]) :
    isCc (mapChar iflags ch) (s.termios.cc i) = decide (mapChar iflags ch = s.termios.cc i) := by
  apply isCc_eq
  obtain heq | heq | heq := mapChar_cases iflags ch
  · rw [heq]
    exact fun hneg ↦ h hneg i hi
  · rw [heq]
    exact fun hneg ↦ absurd hneg (by decide)
  · rw [heq]
    exact fun hneg ↦ absurd hneg (by decide)

/-- What a character leaves alone, on every queue. -/
theorem canonChar_keeps (lflags iflags : Dword) (s : Tty) (ch : Byte) :
    Kept s (canonChar lflags iflags s ch).1 := by
  have hwrite (u : Tty) (bytes : List Byte) : Kept u (u.write bytes) :=
    ⟨rfl, rfl, rfl, rfl, rfl, id⟩
  rw [canonChar]
  dsimp only
  split
  · exact .refl s
  · split
    · exact eraseChars_kept lflags _ _ s
    · split
      · exact (ttyPushChar_kept s 0 true).1
      · split
        · split
          · exact (hwrite s _).trans (ttyPushChar_kept _ _ true).1
          · exact (ttyPushChar_kept s _ true).1
        · have hpush := (ttyPushChar_kept s (mapChar iflags ch) false).1
          split
          · split
            · exact hpush.trans (hwrite _ _)
            · exact hpush.trans (hwrite _ _)
          · exact hpush

/-- One turn of the loop does to the unfinished line what the key means. -/
theorem canonChar_spec (hq : Closed q) (hs : s.queue = q ++ p.map (·, false)) (hch : s.Plain ch) :
    (canonChar lflags iflags s ch).1.overflow = false →
      (canonChar lflags iflags s ch).1.queue = q ++ after p (edit iflags s.termios.cc ch) := by
  have herase := hch.isCc_mapChar iflags (i := vErase) (by simp)
  have hkill := hch.isCc_mapChar iflags (i := vKill) (by simp)
  have heof := hch.isCc_mapChar iflags (i := vEof) (by simp)
  have heol := hch.isCc_mapChar iflags (i := vEol) (by simp)
  have hpush (u : Tty) (huq : u.queue = s.queue) (c : Byte) (flag : Bool)
      (ho : (u.ttyPushChar c flag).overflow = false) :
      (u.ttyPushChar c flag).queue = q ++ (p.map (·, false) ++ [(c, flag)]) := by
    rw [(ttyPushChar_kept u c flag).2 ho, huq, hs, List.append_assoc]
  have hlen : s.bufsize = q.length + p.length := by
    rw [← length_queue, hs, List.length_append, List.length_map]
  rw [canonChar, edit]
  dsimp only
  rw [herase, hkill, heof, heol]
  generalize mapChar iflags ch = m
  split
  · exact fun _ ↦ hs
  · by_cases h₁ : m = s.termios.cc vErase
    · rw [if_pos (by simp [h₁]), if_pos h₁, decide_eq_true h₁, Bool.true_and]
      intro _
      rw [after, List.dropLast_eq_take]
      by_cases hpos : 0 < s.bufsize
      · simp only [hpos, decide_true, if_true]
        refine queue_eraseChars _ _ 1 hq hs fun hnil ↦ ?_
        rw [hnil, List.length_nil] at hlen
        omega
      · simp only [hpos, decide_false, Bool.false_eq_true, if_false]
        have hzero : s.bufsize = 0 := Nat.eq_zero_of_not_pos hpos
        obtain rfl : p = [] := List.eq_nil_of_length_eq_zero (by omega)
        rw [hzero]
        exact hs
    · by_cases h₂ : m = s.termios.cc vKill
      · rw [if_pos (by simp [h₂]), if_neg h₁, if_pos h₂]
        intro _
        have hone : (decide (m = s.termios.cc vErase) && decide (0 < s.bufsize)) = false := by
          simp [h₁]
        have hall : q = [] → s.bufsize ≤ p.length := fun hnil ↦ by
          rw [hlen, hnil, List.length_nil, Nat.zero_add]
        simp only [hone, Bool.false_eq_true, if_false]
        have hzero : p.length - (q.length + p.length) = 0 := by omega
        rw [queue_eraseChars _ _ _ hq hs hall, hlen, hzero]
        rfl
      · rw [if_neg (by simp [h₁, h₂]), if_neg h₁, if_neg h₂]
        by_cases h₃ : m = s.termios.cc vEof
        · rw [if_pos (decide_eq_true h₃), if_pos h₃]
          exact hpush s rfl 0 true
        · rw [if_neg (by simp [h₃]), if_neg h₃]
          by_cases h₄ : m = 10 ∨ m = s.termios.cc vEol
          · rw [if_pos (by simpa using h₄), if_pos h₄]
            split
            · exact hpush (s.write [13, 10]) rfl m true
            · exact hpush s rfl m true
          · rw [if_neg (by simpa using h₄), if_neg h₄]
            have hqueue := hpush s rfl m false
            have hchar : after p (.char m) = p.map (·, false) ++ [(m, false)] := by
              rw [after, List.map_append, List.map_singleton]
            rw [hchar]
            split
            · split
              · exact hqueue
              · exact hqueue
            · exact hqueue

/-! Lines. -/

theorem edit_closeWith {a : Byte} {cc : Fin 19 → Byte} (h : edit iflags cc ch = .closeWith a)
    (hch : ch ≠ 0) : a ≠ 0 := by
  have hmap : mapChar iflags ch ≠ 0 := by
    obtain heq | heq | heq := mapChar_cases iflags ch
    · rwa [heq]
    · rw [heq]
      decide
    · rw [heq]
      decide
  rw [edit] at h
  repeat' split at h
  all_goals cases h
  exact hmap

/-- What a key means for the lines. -/
theorem Lined.apply {e : Edit Byte} (h : s.Lined ls) (hpage : s'.page = s.page.apply e)
    (hreads : s'.reads = s.reads)
    (hqueue : s'.queue = ls.flatMap Line.cells ++ after s.page.line e)
    (hlast : ∀ a, e = .closeWith a → a ≠ 0) : ∃ ls', s'.Lined ls' := by
  have hsame (hdone : (s.page.apply e).done = s.page.done)
      (hline : after s.page.line e = (s.page.apply e).line.map (·, false)) : s'.Lined ls := by
    refine ⟨?_, ?_⟩
    · rw [hqueue, hpage, hline]
    · rw [hpage, hdone, hreads]
      exact h.delivers
  have hmore (l : Line) (hdone : (s.page.apply e).done = s.page.done ++ [l.text])
      (hline : (s.page.apply e).line = []) (hafter : after s.page.line e = l.cells) :
      s'.Lined (ls ++ [l]) := by
    refine ⟨?_, ?_⟩
    · rw [hqueue, hpage, hline, hafter, List.flatMap_append, List.flatMap_singleton]
      exact (List.append_nil _).symm
    · rw [hpage, hdone, hreads, List.map_append]
      exact h.delivers.more _
  cases e with
  | skip => exact ⟨ls, hsame rfl rfl⟩
  | char a => exact ⟨ls, hsame rfl rfl⟩
  | erase => exact ⟨ls, hsame rfl rfl⟩
  | kill => exact ⟨ls, hsame rfl rfl⟩
  | close => exact ⟨_, hmore ⟨s.page.line, 0⟩ rfl rfl rfl⟩
  | closeWith a =>
    have htext : (⟨s.page.line, a⟩ : Line).text = s.page.line ++ [a] := if_neg (hlast a rfl)
    refine ⟨_, hmore ⟨s.page.line, a⟩ ?_ rfl rfl⟩
    rw [htext]
    rfl

/-- The state on the way: the lines are right until the buffer overflows. -/
structure CanonState (s : Tty) : Prop where
  calls : s.CanonCalls
  lined : s.overflow = false → ∃ ls, s.Lined ls

theorem CanonState.canonChar (h : s.CanonState) (hzero : ch ≠ 0) (hch : s.Plain ch)
    (hs : (Tty.canonChar lflags s.termios.iflags { s with typed := s.typed ++ [ch] } ch).1 = s') :
    s'.CanonState ∧ s'.termios = s.termios := by
  let u : Tty := { s with typed := s.typed ++ [ch] }
  have hu : u.Plain ch := hch
  have hkept : Kept u s' := hs ▸ canonChar_keeps lflags s.termios.iflags u ch
  have htermios : s'.termios = s.termios := hkept.termios
  refine ⟨⟨⟨?_, ?_, ?_, ?_⟩, fun ho ↦ ?_⟩, htermios⟩
  · rw [htermios]
    exact h.calls.canon
  · rw [htermios]
    exact h.calls.noSig
  · intro i hi
    rw [hkept.inputs] at hi
    obtain ⟨hflags, rest, hat, hnull, hplain⟩ := h.calls.inputs i hi
    refine ⟨by rw [htermios]; exact hflags, rest, hat, hnull, fun c hc ↦ ?_⟩
    rw [Plain, htermios]
    exact hplain c hc
  · rw [hkept.readers]
    exact h.calls.readers
  · obtain ⟨ls, hls⟩ := h.lined (hkept.overflow ho)
    have hqueue := @canonChar_spec u lflags s.termios.iflags ch _ _ (closed_cells ls) hls.queue hu
    have hs' : (Tty.canonChar lflags s.termios.iflags u ch).1 = s' := hs
    rw [hs'] at hqueue
    have hpage : s'.page = s.page.apply (edit s.termios.iflags s.termios.cc ch) := by
      rw [page, htermios, hkept.typed, List.map_append, List.map_singleton, Page.typed_append, page]
    exact hls.apply hpage hkept.reads (hqueue ho) fun a ha ↦ edit_closeWith ha hzero

theorem CanonState.canonChars (h : s.CanonState) (hinput : 0 ∉ input)
    (hplain : ∀ ch ∈ input, s.Plain ch) {rest : Option (List Byte)}
    (hs : Tty.canonChars lflags s.termios.iflags s input = (s', rest)) :
    s'.CanonState ∧ s'.termios = s.termios ∧ ∀ left, rest = some left → left ⊆ input := by
  induction input generalizing s with
  | nil =>
    cases hs
    exact ⟨h, rfl, nofun⟩
  | cons ch input ih =>
    obtain ⟨hch, hinput⟩ := not_or.mp (mt List.mem_cons.mpr hinput)
    rw [Tty.canonChars] at hs
    generalize hchar : Tty.canonChar lflags s.termios.iflags { s with typed := s.typed ++ [ch] } ch =
      r at hs
    obtain ⟨u, woken⟩ := r
    obtain ⟨hu, htermios⟩ := h.canonChar (Ne.symm hch)
      (hplain ch List.mem_cons_self) (congrArg Prod.fst hchar)
    dsimp only at hu htermios hs
    split at hs
    · cases hs
      refine ⟨hu, htermios, fun left hleft ↦ ?_⟩
      cases hleft
      exact List.subset_cons_self _ _
    · rw [← htermios] at hs
      have hplain' (c : Byte) (hc : c ∈ input) : u.Plain c := by
        rw [Plain, htermios]
        exact hplain c (List.mem_cons_of_mem ch hc)
      obtain ⟨hs', htermios', hleft⟩ := ih hu hinput hplain' hs
      exact ⟨hs', htermios'.trans htermios, fun left hl ↦ List.Subset.trans (hleft left hl) (List.subset_cons_self _ _)⟩

theorem CanonState.canonInput (h : s.CanonState) (hinput : 0 ∉ input)
    (hplain : ∀ ch ∈ input, s.Plain ch) :
    (s.canonInput lflags s.termios.iflags input).CanonState := by
  rw [Tty.canonInput]
  split
  · rename_i heq
    exact (h.canonChars hinput hplain heq).1
  · rename_i u rest heq
    obtain ⟨hs', htermios, hleft⟩ := h.canonChars hinput hplain heq
    have hsub := hleft rest rfl
    refine ⟨⟨hs'.calls.canon, hs'.calls.noSig, fun i hi ↦ ?_, hs'.calls.readers⟩, fun ho ↦ ?_⟩
    · obtain hi | hi := List.mem_append.mp hi
      · exact hs'.calls.inputs i hi
      · obtain rfl := List.mem_singleton.mp hi
        refine ⟨congrArg Termios.iflags htermios.symm, rest, rfl, fun hm ↦ hinput (hsub hm),
          fun c hc ↦ ?_⟩
        rw [Plain]
        dsimp only
        rw [htermios]
        exact hplain c (hsub hc)
    · obtain ⟨ls, hls⟩ := hs'.lined ho
      exact ⟨ls, hls.queue, hls.delivers⟩

/-! Reads. -/

theorem getElem?_queue (h : n < s.bufsize) : s.queue[n]? = some (s.buf n, s.bufFlag n) := by
  rw [queue, Terminal.cells, List.getElem?_map, List.getElem?_range h]
  rfl

/-- No line is finished in the buffer. -/
theorem ttyCanonSize_nil (h : s.queue = p.map (·, false)) : s.ttyCanonSize = none := by
  rw [ttyCanonSize, Option.map_eq_none_iff, List.find?_range_eq_none]
  intro i hi
  have hget := getElem?_queue hi
  rw [h, List.getElem?_map] at hget
  obtain ⟨c, -, hc⟩ := Option.map_eq_some_iff.mp hget
  rw [← (Prod.mk.inj hc).2]
  rfl

/-- The first flag is that of the first line. -/
theorem ttyCanonSize_cons (h : s.queue = l.cells ++ q) :
    s.ttyCanonSize = some (l.chars.length + 1) ∧ s.buf l.chars.length = l.last := by
  have hlen : l.chars.length < s.bufsize := by
    rw [← length_queue, h, List.length_append, Line.cells, List.length_append, List.length_map,
      List.length_singleton]
    omega
  have hcell (i : ℕ) (hi : i < l.chars.length) : s.bufFlag i = false := by
    have hget := getElem?_queue (hi.trans hlen)
    rw [h, Line.cells, List.append_assoc, List.getElem?_append_left (by rwa [List.length_map]),
      List.getElem?_map] at hget
    obtain ⟨c, -, hc⟩ := Option.map_eq_some_iff.mp hget
    exact (Prod.mk.inj hc).2.symm
  have hlast : s.buf l.chars.length = l.last ∧ s.bufFlag l.chars.length = true := by
    have hget := getElem?_queue hlen
    rw [h, Line.cells, List.append_assoc, List.getElem?_append_right (by rw [List.length_map]),
      List.length_map, Nat.sub_self] at hget
    obtain ⟨hbuf, hflag⟩ := Prod.mk.inj (Option.some.inj hget)
    exact ⟨hbuf.symm, hflag.symm⟩
  refine ⟨?_, hlast.1⟩
  rw [ttyCanonSize, Option.map_eq_some_iff]
  refine ⟨l.chars.length, List.find?_range_eq_some.mpr ⟨hlast.2, List.mem_range.mpr hlen, ?_⟩, rfl⟩
  intro i hi
  rw [hcell i hi]
  rfl

theorem length_text (l : Line) :
    l.text.length = if l.last = 0 then l.chars.length else l.chars.length + 1 := by
  rw [Line.text]
  split
  · rfl
  · rw [List.length_append, List.length_singleton]

theorem take_text (q : List (Byte × Bool)) (hn : n ≤ l.text.length) :
    ((l.cells ++ q).take n).map Prod.fst = l.text.take n := by
  have hle : n ≤ l.chars.length + 1 := by
    rw [length_text] at hn
    split at hn <;> omega
  have hfst : (l.cells ++ q).map Prod.fst = (l.chars ++ [l.last]) ++ q.map Prod.fst := by
    rw [List.map_append, Line.cells, List.map_append, List.map_map]
    congr 2
    exact List.map_id' _
  rw [List.map_take, hfst, List.take_append_of_le_length (by simpa using hle), Line.text]
  split
  · rename_i heof
    rw [length_text, if_pos heof] at hn
    rw [List.take_append_of_le_length hn]
  · rfl

/-- A part of a line is read. -/
theorem dropEof_part (q : List (Byte × Bool)) (hn : n < l.text.length) :
    dropEof ((l.cells ++ q).drop n) = (⟨l.chars.drop n, l.last⟩ : Line).cells ++ q ∧
      (⟨l.chars.drop n, l.last⟩ : Line).text = l.text.drop n := by
  have hle : n ≤ l.chars.length := by
    rw [length_text] at hn
    split at hn <;> omega
  have hdrop : (l.cells ++ q).drop n = (⟨l.chars.drop n, l.last⟩ : Line).cells ++ q := by
    rw [Line.cells, Line.cells, List.append_assoc, List.append_assoc,
      List.drop_append_of_le_length (by rwa [List.length_map]), List.map_drop]
  constructor
  · rw [hdrop]
    refine dropEof_eq_self ?_
    rw [Line.cells]
    cases hrest : l.chars.drop n with
    | nil =>
      -- the end of file of the line would be next only after all of its characters
      have hall : l.chars.length ≤ n := List.drop_eq_nil_iff.mp hrest
      intro hhead
      have hlast : l.last = 0 := (Prod.mk.inj (Option.some.inj hhead)).1
      rw [length_text, if_pos hlast] at hn
      omega
    | cons c rest =>
      intro hhead
      cases hhead
  · rw [Line.text, Line.text]
    split
    · rfl
    · rw [List.drop_append_of_le_length hle]

theorem dropEof_eof (q : List (Byte × Bool)) : dropEof ((0, true) :: q) = q := if_pos rfl

/-- A whole line is read. -/
theorem dropEof_whole (hq : l.last ≠ 0 → q.head? ≠ some (0, true)) :
    dropEof ((l.cells ++ q).drop l.text.length) = q := by
  rw [length_text, Line.cells]
  split
  · rename_i heof
    rw [List.append_assoc, List.drop_append_of_le_length (by rw [List.length_map]),
      List.drop_eq_nil_of_le (by rw [List.length_map]), heof]
    exact dropEof_eof q
  · rename_i hlast
    rw [List.drop_left' (by rw [List.length_append, List.length_map, List.length_singleton])]
    exact dropEof_eq_self (hq hlast)

theorem tryRead_frame (hs : s.tryRead r = some s') : s'.typed = s.typed ∧ s'.inputs = s.inputs ∧
    s'.readers = s.readers ∧ s'.termios = s.termios ∧ s'.overflow = s.overflow := by
  rw [Tty.tryRead] at hs
  split at hs
  · obtain ⟨size, -, hs⟩ := Option.bind_eq_some_iff.mp hs
    cases hs
    exact finishRead_frame s _ _
  · split at hs
    · cases hs
    · cases hs
      exact finishRead_frame s _ _

theorem tryRead_nil (h : s.Lined []) (hr : r.canon = true) : s.tryRead r = none := by
  rw [Tty.tryRead, if_pos hr, ttyCanonSize_nil h.queue]
  rfl

/-- A read is given the beginning of the first line. -/
theorem tryRead_cons (h : s.Lined (l :: ls)) (hr : r.canon = true) (hpos : 0 < r.size)
    (heof : ¬s.SwallowsEof r.size) : ∃ s', s.tryRead r = some s' ∧
      s'.reads = s.reads ++ [(r.size, l.text.take r.size)] ∧ ∃ ls', s'.Lined ls' := by
  have hqueue : s.queue = l.cells ++ (ls.flatMap Line.cells ++ s.page.line.map (·, false)) := by
    rw [h.queue, List.flatMap_cons, List.append_assoc]
  obtain ⟨hsize, hbuf⟩ := ttyCanonSize_cons hqueue
  have htext : (if s.buf (l.chars.length + 1 - 1) = 0 then l.chars.length + 1 - 1
      else l.chars.length + 1) = l.text.length := by
    rw [length_text, Nat.add_sub_cancel, hbuf]
  have htry : s.tryRead r = some (s.finishRead r.size (min r.size l.text.length)) := by
    rw [Tty.tryRead, if_pos hr, hsize, Option.bind_eq_bind, Option.bind_some]
    dsimp only
    rw [htext]
  obtain ⟨htyped, -, -, htermios, -⟩ := finishRead_frame s r.size (min r.size l.text.length)
  have hreads := reads_finishRead s r.size (min r.size l.text.length)
  have hrest := queue_finishRead s r.size (min r.size l.text.length)
  rw [hqueue, take_text _ (Nat.min_le_right _ _)] at hreads
  rw [hqueue] at hrest
  have hpage : (s.finishRead r.size (min r.size l.text.length)).page = s.page := by
    rw [page, htyped, htermios, page]
  have htake : l.text.take (min r.size l.text.length) = l.text.take r.size :=
    List.take_eq_take_min.symm
  have hdel := h.delivers
  rw [List.map_cons] at hdel
  rw [htake] at hreads
  refine ⟨_, htry, hreads, ?_⟩
  by_cases hlt : r.size < l.text.length
  · obtain ⟨hpart, htext'⟩ := dropEof_part (ls.flatMap Line.cells ++ s.page.line.map (·, false)) hlt
    refine ⟨⟨l.chars.drop r.size, l.last⟩ :: ls, ?_, ?_⟩
    · rw [hpage, hrest, Nat.min_eq_left hlt.le, hpart, List.flatMap_cons, List.append_assoc]
    · rw [hpage, hreads, List.map_cons, htext']
      exact .part hdel hpos hlt
  · have hle := Nat.not_lt.mp hlt
    refine ⟨ls, ?_, ?_⟩
    · rw [hpage, hrest, Nat.min_eq_right hle]
      refine dropEof_whole fun hlast hhead ↦ heof ⟨_, hsize, ?_, ?_, ?_⟩
      · rw [Nat.add_sub_cancel, hbuf]
        exact hlast
      · rwa [length_text, if_neg hlast] at hle
      · rw [hqueue, Line.cells, List.drop_left' (by
          rw [List.length_append, List.length_map, List.length_singleton])]
        exact hhead
    · rw [hpage, hreads, List.take_of_length_le hle]
      exact .whole hdel hpos hle

theorem CanonCalls.mono (h : s.CanonCalls) (htermios : s'.termios = s.termios)
    (hinputs : s'.inputs ⊆ s.inputs) (hreaders : ∀ r ∈ s'.readers, r.canon = true ∧ 0 < r.size) :
    s'.CanonCalls := by
  refine ⟨?_, ?_, fun i hi ↦ ?_, hreaders⟩
  · rw [htermios]
    exact h.canon
  · rw [htermios]
    exact h.noSig
  · obtain ⟨hflags, rest, hat, hnull, hplain⟩ := h.inputs i (hinputs hi)
    refine ⟨by rw [htermios]; exact hflags, rest, hat, hnull, fun c hc ↦ ?_⟩
    rw [Plain, htermios]
    exact hplain c hc

theorem Lined.of_eq (h : s.Lined ls) (hqueue : s'.queue = s.queue) (hpage : s'.page = s.page)
    (hreads : s'.reads = s.reads) : s'.Lined ls := by
  refine ⟨?_, ?_⟩
  · rw [hqueue, hpage]
    exact h.queue
  · rw [hpage, hreads]
    exact h.delivers

/-- A read that has the lock leaves the lines right. -/
theorem CanonState.tryRead (h : s.CanonState) (hr : r.canon = true) (hpos : 0 < r.size)
    (heof : ¬s.SwallowsEof r.size) (hs : s.tryRead r = some s') :
    s'.CanonState := by
  obtain ⟨-, hinputs, hreaders, htermios, hover⟩ := tryRead_frame hs
  refine ⟨h.calls.mono htermios (hinputs ▸ List.Subset.refl _) (hreaders ▸ h.calls.readers),
    fun ho ↦ ?_⟩
  obtain ⟨ls, hls⟩ := h.lined (hover ▸ ho)
  cases ls with
  | nil =>
    rw [tryRead_nil hls hr] at hs
    cases hs
  | cons l ls =>
    obtain ⟨t, ht, -, hlined⟩ := tryRead_cons hls hr hpos heof
    cases ht.symm.trans hs
    exact hlined

theorem ttyRead_canon (h : s.CanonCalls) (hpos : 0 < size) : s.ttyRead size = some
    ((s.tryRead ⟨size, true, 0⟩).getD { s with readers := s.readers ++ [⟨size, true, 0⟩] }) := by
  rw [ttyRead, if_neg hpos.ne', newReader, if_pos h.canon]
  rfl

/-- A change of the calls in progress alone. -/
theorem CanonState.of_calls (h : s.CanonState) (hcalls : s'.CanonCalls) (hqueue : s'.queue = s.queue)
    (hpage : s'.page = s.page) (hreads : s'.reads = s.reads) (hover : s'.overflow = s.overflow) :
    s'.CanonState := by
  refine ⟨hcalls, fun ho ↦ ?_⟩
  obtain ⟨ls, hls⟩ := h.lined (hover ▸ ho)
  exact ⟨ls, hls.of_eq hqueue hpage hreads⟩

/-- One step with a right use of the terminal. -/
theorem CanonState.step {ev : Event} (h : s.CanonState) (hd : Transfer ev ∧ Text ev)
    (hk : s.Serves ev) (hs : step s ev = some s') : s'.CanonState := by
  cases ev with
  | input bytes =>
    cases hs
    rw [ttyInput_canon h.calls.noSig h.calls.canon]
    exact h.canonInput hd.2 hk
  | resumeInput k =>
    obtain ⟨i, hi, hs⟩ := Option.bind_eq_some_iff.mp hs
    cases hs
    obtain ⟨hflags, rest, hat, hnull, hplain⟩ := h.calls.inputs i (List.mem_of_getElem? hi)
    let u : Tty := { s with inputs := s.inputs.eraseIdx k }
    have hcalls : u.CanonCalls :=
      h.calls.mono rfl (fun i hi ↦ List.mem_of_mem_eraseIdx hi) h.calls.readers
    have hu : u.CanonState := h.of_calls hcalls rfl rfl rfl rfl
    rw [resumeInput, hat]
    dsimp only
    rw [hflags]
    exact hu.canonInput hnull hplain
  | read size =>
    rw [Tty.step, ttyRead_canon h.calls hd.2] at hs
    cases hs
    cases htry : s.tryRead ⟨size, true, 0⟩ with
    | none =>
      refine h.of_calls (h.calls.mono rfl (List.Subset.refl _) fun r hr ↦ ?_) rfl rfl rfl rfl
      obtain hr | hr := List.mem_append.mp hr
      · exact h.calls.readers r hr
      · rw [List.mem_singleton.mp hr]
        exact ⟨rfl, hd.2⟩
    | some t =>
      have hpos : 0 < (⟨size, true, 0⟩ : Reader).size := hd.2
      exact h.tryRead rfl hpos hk htry
  | resumeRead k =>
    obtain ⟨r, hr, hs⟩ := Option.bind_eq_some_iff.mp hs
    cases hs
    obtain ⟨hcanon, hpos⟩ := h.calls.readers r (List.mem_of_getElem? hr)
    cases htry : Tty.tryRead { s with readers := s.readers.eraseIdx k } r with
    | none => exact h
    | some t =>
      let u : Tty := { s with readers := s.readers.eraseIdx k }
      have hcalls : u.CanonCalls := h.calls.mono rfl (List.Subset.refl _)
        fun r hr ↦ h.calls.readers r (List.mem_of_mem_eraseIdx hr)
      have hu : u.CanonState := h.of_calls hcalls rfl rfl rfl rfl
      exact hu.tryRead hcanon hpos (hk r hr) htry
  | interrupt k =>
    obtain ⟨r, -, hs⟩ := Option.bind_eq_some_iff.mp hs
    cases hs
    exact h.of_calls (h.calls.mono rfl (List.Subset.refl _)
      fun r hr ↦ h.calls.readers r (List.mem_of_mem_eraseIdx hr)) rfl rfl rfl rfl
  | ioctl cmd =>
    cases hs
    cases cmd with
    | tcgets | fionread => exact h
    | setGroup fgGroup =>
      exact h.of_calls (h.calls.mono rfl (List.Subset.refl _) h.calls.readers) rfl rfl rfl rfl
    | tcsets _ | tcsetsw _ | tcsetsf _ | tcflsh _ => exact hd.1.elim

theorem CanonState.run {evs : List Event} {t : Tty} (h : s.CanonState)
    (hd : ∀ ev ∈ evs, Transfer ev ∧ Text ev) (hg : Guarded Tty.step Serves s evs)
    (he : exec Tty.step s evs = some t) : t.CanonState := by
  induction evs generalizing s with
  | nil =>
    cases he
    exact h
  | cons ev evs ih =>
    obtain ⟨u, hu, ht⟩ := Option.bind_eq_some_iff.mp he
    exact ih (h.step (hd ev List.mem_cons_self) hg.1 hu)
      (fun ev' hev' ↦ hd ev' (List.mem_cons_of_mem ev hev')) (hg.2 u hu) ht

theorem CanonStart.canonState (h : s.CanonStart) : s.forget.CanonState := by
  refine ⟨⟨h.canon, h.noSig, fun i hi ↦ ?_, fun r hr ↦ ?_⟩, fun _ ↦ ⟨[], ?_, .start⟩⟩
  · rw [show s.forget.inputs = [] from h.inputs] at hi
    cases hi
  · rw [show s.forget.readers = [] from h.readers] at hr
    cases hr
  · have hnil : s.forget.queue = [] := by
      rw [← List.length_eq_zero_iff, length_queue]
      exact h.empty
    rw [hnil]
    rfl

/-- While the buffer does not overflow, the reads have been given the lines of
what was typed, in order, and the next read is given the beginning of the next
line or waits for it. -/
theorem delivers_of_guarded {evs : List Event} {t : Tty} (h : s.CanonStart)
    (hd : ∀ ev ∈ evs, Transfer ev ∧ Text ev) (hg : Guarded Tty.step Serves s.forget evs)
    (he : exec Tty.step s.forget evs = some t) (ho : t.overflow = false) :
    ∃ rest, Delivers t.page.done t.reads rest ∧ ∀ size, 0 < size → ¬t.SwallowsEof size →
      ∃ t', t.ttyRead size = some t' ∧
        t'.reads = t.reads ++ (rest.head?.map fun line ↦ (size, line.take size)).toList := by
  have ht := h.canonState.run hd hg he
  obtain ⟨ls, hls⟩ := ht.lined ho
  refine ⟨ls.map Line.text, hls.delivers, fun size hpos heof ↦ ⟨_, ttyRead_canon ht.calls hpos, ?_⟩⟩
  cases ls with
  | nil =>
    rw [tryRead_nil hls rfl]
    exact (List.append_nil _).symm
  | cons l ls =>
    obtain ⟨t', htry, hreads, -⟩ := @tryRead_cons t ls l ⟨size, true, 0⟩ hls rfl hpos heof
    rw [htry]
    exact hreads

/-- Canonical mode with control characters that are not null and all differ. -/
def keys : Termios := ⟨0, 0, 0, icanon, 0, fun i ↦ BitVec.ofNat 8 (i.val + 14)⟩

/-- A line is typed, and one byte of it is read. -/
theorem delivers_part : ∃ t, exec Tty.step (fresh (fun _ ↦ 0) keys).forget
      [.input [97, 10], .resumeInput 0, .read 1] = some t ∧
    ∃ rest, Delivers t.page.done t.reads rest ∧ ∀ size, 0 < size → ¬t.SwallowsEof size →
      ∃ t', t.ttyRead size = some t' ∧
        t'.reads = t.reads ++ (rest.head?.map fun line ↦ (size, line.take size)).toList := by
  obtain ⟨t, ht⟩ := Option.isSome_iff_exists.mp (show (exec Tty.step
    (fresh (fun _ ↦ 0) keys).forget
    [.input [97, 10], .resumeInput 0, .read 1]).isSome from rfl)
  have hs : (fresh (fun _ ↦ 0) keys).CanonStart := ⟨rfl, rfl, rfl, rfl, rfl⟩
  refine ⟨t, ht, delivers_of_guarded hs (fun ev hev ↦ ?_) ?_ ht ?_⟩
  · simp only [List.mem_cons, List.not_mem_nil, or_false] at hev
    obtain rfl | rfl | rfl := hev
    · have hnull : (0 : Byte) ∉ [97, 10] := by decide
      exact ⟨trivial, hnull⟩
    · exact ⟨trivial, trivial⟩
    · exact ⟨trivial, Nat.one_pos⟩
  · refine ⟨fun ch hch ↦ ?_, fun u hu ↦ ?_⟩
    · simp only [List.mem_cons, List.not_mem_nil, or_false] at hch
      obtain rfl | rfl := hch
      · exact fun hneg ↦ absurd hneg (by decide)
      · exact fun hneg ↦ absurd hneg (by decide)
    · cases hu
      refine ⟨trivial, fun u hu ↦ ?_⟩
      cases hu
      refine ⟨fun h ↦ ?_, fun _ _ ↦ trivial⟩
      obtain ⟨k, hk, -, hle, -⟩ := h
      cases hk
      exact absurd hle (by decide)
  · cases ht
    rfl

/-- An end of file that is typed ahead at the start of a line is thrown away by
the read of the line before it. -/
theorem not_delivers_swallowed : ¬∀ s evs t, CanonStart s → (∀ i, s.termios.cc i ≠ 0) →
    Function.Injective s.termios.cc → (∀ ev ∈ evs, Transfer ev ∧ Text ev) →
    exec Tty.step s.forget evs = some t → t.overflow = false →
    ∃ rest, Delivers t.page.done t.reads rest ∧ ∀ size, 0 < size → ∃ t', t.ttyRead size = some t' ∧
      t'.reads = t.reads ++ (rest.head?.map fun line ↦ (size, line.take size)).toList := by
  intro h
  have hd : ∀ ev ∈ [.input [97, 10, 18], .resumeInput 0, .resumeInput 0, .read 2],
      Transfer ev ∧ Text ev := by
    intro ev hev
    simp only [List.mem_cons, List.not_mem_nil, or_false] at hev
    obtain rfl | rfl | rfl | rfl := hev
    · have hnull : (0 : Byte) ∉ [97, 10, 18] := by decide
      exact ⟨trivial, hnull⟩
    · exact ⟨trivial, trivial⟩
    · exact ⟨trivial, trivial⟩
    · exact ⟨trivial, Nat.two_pos⟩
  have hstart : (fresh (fun _ ↦ 0) keys).CanonStart := ⟨rfl, rfl, rfl, rfl, rfl⟩
  obtain ⟨t, ht⟩ := Option.isSome_iff_exists.mp (show (exec Tty.step
    (fresh (fun _ ↦ 0) keys).forget
    [.input [97, 10, 18], .resumeInput 0, .resumeInput 0, .read 2]).isSome from rfl)
  have ho : t.overflow = false := by
    cases ht
    rfl
  obtain ⟨rest, hrest, hread⟩ := h _ _ t hstart (by decide) (by decide) hd ht ho
  cases ht
  obtain ⟨t', ht', hreads⟩ := hread 1 Nat.one_pos
  cases ht'
  have hnil : rest.head? = none := by
    cases hhead : rest.head? with
    | none => rfl
    | some line =>
      rw [hhead] at hreads
      have hlen := congrArg List.length hreads
      cases hlen
  have hle := hrest.length_le
  rw [List.head?_eq_none_iff.mp hnil] at hle
  exact absurd hle (by decide)

end Tty

end

end Isl.Fs.Terminal
