import Isl.Fs.TtyTyping

/-! Line ends in canonical mode, and a buffer that is full. -/

namespace Isl.Fs.Terminal

open Isl.Lib.Run Isl.Lib.Lines

/-- What a typed byte does in canonical mode, with the comparisons of the code. -/
def key (iflags : Dword) (cc : Fin 19 → Byte) (typed : Byte) : Edit Byte :=
  let ch := mapChar iflags typed
  if has iflags igncr && ch = 13 then .skip
  else if isCc ch (cc vErase) then .erase
  else if isCc ch (cc vKill) then .kill
  else if isCc ch (cc vEof) then .close
  else if ch = 10 || isCc ch (cc vEol) then .closeWith ch
  else .char ch

def endsLine : Edit Byte → Prop
  | .close => True
  | .closeWith _ => True
  | _ => False

/-- The cells that an unfinished line takes after a key that does not end it. -/
def grow (n : ℕ) : Edit Byte → ℕ
  | .char _ => if n < ttyBufSize then n + 1 else n
  | .erase => n - 1
  | .kill => 0
  | _ => n

/-- When one of the keys ends the line, there is a free cell. -/
def EndFits (n : ℕ) (keys : List (Edit Byte)) : Prop :=
  ∃ pre e post, keys = pre ++ e :: post ∧ endsLine e ∧ pre.foldl grow n < ttyBufSize

namespace Tty

/-- There is a flag in the buffer. -/
def HasLine (s : Tty) : Prop := ∃ i < s.bufsize, s.bufFlag i = true

section

variable {s s' : Tty} {lflags iflags : Dword} {ch : Byte} {flag : Bool} {n : ℕ} {e : Edit Byte}
  {keys : List (Edit Byte)} {input : List Byte} {r : Reader}

theorem endFits_nil (n : ℕ) : ¬EndFits n [] := by
  rintro ⟨pre, e, post, h, -⟩
  exact List.append_ne_nil_of_right_ne_nil pre (List.cons_ne_nil e post) h.symm

theorem endFits_cons : EndFits n (e :: keys) ↔
    endsLine e ∧ n < ttyBufSize ∨ EndFits (grow n e) keys := by
  constructor
  · rintro ⟨pre, e', post, h, hends, hlt⟩
    cases pre with
    | nil =>
      obtain ⟨rfl, -⟩ := List.cons.inj h
      exact .inl ⟨hends, hlt⟩
    | cons a pre =>
      obtain ⟨rfl, htail⟩ := List.cons.inj h
      exact .inr ⟨pre, e', post, htail, hends, hlt⟩
  · rintro (⟨hends, hlt⟩ | ⟨pre, e', post, h, hends, hlt⟩)
    · exact ⟨[], e, keys, rfl, hends, hlt⟩
    · exact ⟨e :: pre, e', post, congrArg (e :: ·) h, hends, hlt⟩

theorem ttyCanonSize_isSome : s.ttyCanonSize.isSome ↔ s.HasLine := by
  rw [ttyCanonSize, Option.isSome_map, List.find?_isSome]
  simp only [List.mem_range, HasLine]

theorem isSome_tryRead (hr : r.canon = true) : (s.tryRead r).isSome ↔ s.HasLine := by
  rw [← ttyCanonSize_isSome, tryRead, if_pos hr]
  cases s.ttyCanonSize <;> simp

theorem hasLine_ttyPushChar :
    (s.ttyPushChar ch flag).HasLine ↔ s.HasLine ∨ flag = true ∧ s.bufsize < ttyBufSize := by
  by_cases hfull : ttyBufSize ≤ s.bufsize
  · rw [ttyPushChar, if_pos hfull, or_iff_left fun h ↦ Nat.not_lt.mpr hfull h.2]
    exact Iff.rfl
  · have hlt := Nat.not_le.mp hfull
    rw [ttyPushChar, if_neg hfull, and_iff_left hlt]
    constructor
    · rintro ⟨i, hi, hflag⟩
      simp only [touch] at hi hflag
      obtain hi | rfl := Nat.lt_succ_iff_lt_or_eq.mp hi
      · rw [Function.update_of_ne hi.ne] at hflag
        exact .inl ⟨i, hi, hflag⟩
      · rw [Function.update_self] at hflag
        exact .inr hflag
    · rintro (⟨i, hi, hflag⟩ | hflag)
      · refine ⟨i, Nat.lt_succ_of_lt hi, ?_⟩
        simp only [touch]
        rwa [Function.update_of_ne hi.ne]
      · refine ⟨s.bufsize, Nat.lt_succ_self _, ?_⟩
        simp only [touch, Function.update_self, hflag]

theorem bufsize_ttyPushChar (s : Tty) (ch : Byte) (flag : Bool) :
    (s.ttyPushChar ch flag).bufsize = if s.bufsize < ttyBufSize then s.bufsize + 1 else s.bufsize := by
  rw [ttyPushChar]
  split
  · rw [if_neg (by omega)]
  · rw [if_pos (by omega)]
    rfl

/-- A flag is not deleted, and without one all that is asked for is. -/
theorem hasLine_eraseChars (lflags : Dword) (echo : Bool) (count : ℕ) (s : Tty) :
    ((s.eraseChars lflags echo count).HasLine ↔ s.HasLine) ∧
      (¬s.HasLine → count ≤ s.bufsize →
        (s.eraseChars lflags echo count).bufsize = s.bufsize - count) := by
  induction count generalizing s with
  | zero => exact ⟨Iff.rfl, fun _ _ ↦ rfl⟩
  | succ count ih =>
    rw [eraseChars]
    split
    · rename_i hflag
      refine ⟨Iff.rfl, fun hnone hle ↦ absurd ⟨s.bufsize - 1, ?_, hflag⟩ hnone⟩
      omega
    · rename_i hflag
      have hpred (u : Tty) (hsize : u.bufsize = s.bufsize - 1) (hflags : u.bufFlag = s.bufFlag) :
          ((u.eraseChars lflags echo count).HasLine ↔ s.HasLine) ∧
            (¬s.HasLine → count + 1 ≤ s.bufsize →
              (u.eraseChars lflags echo count).bufsize = s.bufsize - (count + 1)) := by
        have hline : u.HasLine ↔ s.HasLine := by
          rw [HasLine, HasLine, hsize, hflags]
          constructor
          · rintro ⟨i, hi, h⟩
            exact ⟨i, Nat.lt_of_lt_of_le hi (Nat.sub_le _ _), h⟩
          · rintro ⟨i, hi, h⟩
            have hne : i ≠ s.bufsize - 1 := fun heq ↦ hflag (heq ▸ h)
            exact ⟨i, by omega, h⟩
        obtain ⟨hiff, hcount⟩ := ih u
        refine ⟨hiff.trans hline, fun hnone hle ↦ ?_⟩
        rw [hcount (fun h ↦ hnone (hline.mp h)) (by omega), hsize]
        omega
      dsimp only
      split
      · split <;> exact hpred _ rfl rfl
      · exact hpred _ rfl rfl

/-- One turn of the loop. -/
theorem hasLine_canonChar (lflags iflags : Dword) (s : Tty) (ch : Byte) :
    ((canonChar lflags iflags s ch).1.HasLine ↔
      s.HasLine ∨ endsLine (key iflags s.termios.cc ch) ∧ s.bufsize < ttyBufSize) ∧
    (¬(canonChar lflags iflags s ch).1.HasLine →
      (canonChar lflags iflags s ch).1.bufsize = grow s.bufsize (key iflags s.termios.cc ch)) := by
  have hpush (u : Tty) (c : Byte) (hsize : u.bufsize = s.bufsize) (hline : u.HasLine ↔ s.HasLine) :
      ((u.ttyPushChar c true).HasLine ↔ s.HasLine ∨ True ∧ s.bufsize < ttyBufSize) ∧
        (¬(u.ttyPushChar c true).HasLine → (u.ttyPushChar c true).bufsize = s.bufsize) := by
    have hiff : (u.ttyPushChar c true).HasLine ↔ s.HasLine ∨ True ∧ s.bufsize < ttyBufSize := by
      rw [hasLine_ttyPushChar, hsize, hline, eq_self]
    refine ⟨hiff, fun hnone ↦ ?_⟩
    rw [hiff, not_or, true_and] at hnone
    rw [bufsize_ttyPushChar, hsize, if_neg hnone.2]
  have hkeep {e : Edit Byte} (hends : ¬endsLine e) {u : Tty} (hline : u.HasLine ↔ s.HasLine) :
      u.HasLine ↔ s.HasLine ∨ endsLine e ∧ s.bufsize < ttyBufSize :=
    hline.trans (or_iff_left fun h ↦ hends h.1).symm
  have hdelete (echo : Bool) {count n : ℕ} (hle : count ≤ s.bufsize) (hn : s.bufsize - count = n)
      {e : Edit Byte} (hends : ¬endsLine e) :
      ((s.eraseChars lflags echo count).HasLine ↔
        s.HasLine ∨ endsLine e ∧ s.bufsize < ttyBufSize) ∧
      (¬(s.eraseChars lflags echo count).HasLine →
        (s.eraseChars lflags echo count).bufsize = n) := by
    obtain ⟨hiff, hcount⟩ := hasLine_eraseChars lflags echo count s
    refine ⟨hkeep hends hiff, fun hnone ↦ ?_⟩
    rw [hcount (fun h ↦ hnone (hiff.mpr h)) hle, hn]
  rw [canonChar, key]
  dsimp only
  generalize mapChar iflags ch = m
  split
  · exact ⟨hkeep id Iff.rfl, fun _ ↦ rfl⟩
  · by_cases herase : isCc m (s.termios.cc vErase) = true
    · rw [herase, if_pos (Bool.true_or _), if_pos rfl, Bool.true_and]
      by_cases hpos : 0 < s.bufsize
      · rw [decide_eq_true hpos, if_pos rfl]
        exact hdelete _ hpos rfl id
      · have hsame : s.bufsize - s.bufsize = grow s.bufsize .erase := by
          rw [grow]
          omega
        rw [decide_eq_false hpos, if_neg Bool.false_ne_true]
        exact hdelete _ le_rfl hsame id
    · rw [Bool.eq_false_iff.mpr herase, if_neg Bool.false_ne_true]
      by_cases hkill : isCc m (s.termios.cc vKill) = true
      · rw [hkill, if_pos (Bool.false_or _), if_pos rfl]
        exact hdelete _ le_rfl (Nat.sub_self _) id
      · rw [Bool.eq_false_iff.mpr hkill, Bool.false_or, if_neg Bool.false_ne_true,
          if_neg Bool.false_ne_true]
        split
        · exact hpush s 0 rfl Iff.rfl
        · split
          · split
            · exact hpush (s.write [13, 10]) m rfl Iff.rfl
            · exact hpush s m rfl Iff.rfl
          · have hline : (s.ttyPushChar m false).HasLine ↔ s.HasLine :=
              hasLine_ttyPushChar.trans (or_iff_left fun h ↦ Bool.false_ne_true h.1)
            have hsize := bufsize_ttyPushChar s m false
            have hchar : ((s.ttyPushChar m false).HasLine ↔
                s.HasLine ∨ endsLine (.char m) ∧ s.bufsize < ttyBufSize) ∧
              (¬(s.ttyPushChar m false).HasLine →
                (s.ttyPushChar m false).bufsize = grow s.bufsize (.char m)) :=
              ⟨hkeep id hline, fun _ ↦ hsize⟩
            split
            · split <;> exact hchar
            · exact hchar

theorem hasLine_canonAll (lflags : Dword) (s : Tty) (input : List Byte) :
    (canonAll lflags s.termios.iflags s input).HasLine ↔
      s.HasLine ∨ EndFits s.bufsize (input.map (key s.termios.iflags s.termios.cc)) := by
  induction input generalizing s with
  | nil => exact (or_iff_left (endFits_nil _)).symm
  | cons ch rest ih =>
    let u : Tty := { s with typed := s.typed ++ [ch] }
    let v := (canonChar lflags s.termios.iflags u ch).1
    have htermios : v.termios = s.termios := (canonChar_keeps lflags s.termios.iflags u ch).termios
    obtain ⟨hline, hsize⟩ := hasLine_canonChar lflags s.termios.iflags u ch
    have hrest := ih v
    rw [htermios] at hrest
    rw [List.map_cons, endFits_cons, ← or_assoc]
    refine hrest.trans ?_
    by_cases hv : v.HasLine
    · exact iff_of_true (.inl hv) (.inl (hline.mp hv))
    · have hnone : ¬(s.HasLine ∨
          endsLine (key s.termios.iflags s.termios.cc ch) ∧ s.bufsize < ttyBufSize) :=
        fun h ↦ hv (hline.mpr h)
      rw [or_iff_right hv, or_iff_right hnone,
        show v.bufsize = grow s.bufsize (key s.termios.iflags s.termios.cc ch) from hsize hv]

/-- Canonical mode, and no input is in progress. -/
def CanonIdle (s : Tty) : Prop := has s.termios.lflags icanon = true ∧ s.inputs = []

theorem hasLine_congr (h : s.queue = s'.queue) : s.HasLine ↔ s'.HasLine := by
  have hmem (u : Tty) : u.HasLine ↔ ∃ x ∈ u.queue, x.2 = true := by
    simp only [HasLine, queue, cells, List.mem_map, List.mem_range, exists_exists_and_eq_and]
  rw [hmem, hmem, h]

theorem hasLine_typeChunks (h : s.CanonIdle) (input : List Byte) :
    (s.typeChunks [input]).2.HasLine ↔ s.HasLine ∨
      EndFits s.bufsize ((s.left input).map (key s.termios.iflags s.termios.cc)) := by
  have hqueue := (typeChunks_eq h.2 [input]).2
  rw [List.flatMap_singleton, process, if_pos h.1] at hqueue
  exact (hasLine_congr hqueue).trans (hasLine_canonAll _ s _)

/-- From every state of a run: after an input there is a complete line, and a reader
that was blocked can proceed, if and only if there was one before, or one of the keys
that end a line comes when the unfinished line leaves a cell free. -/
theorem canonSize_iff {buf : ℕ → Byte} {termios : Termios} {evs : List Event}
    (_ : exec step (fresh buf termios) evs = some s) (h : s.CanonIdle) (input : List Byte) :
    ((s.typeChunks [input]).2.ttyCanonSize ≠ none ∧
      ∀ r : Reader, r.canon = true → ((s.typeChunks [input]).2.tryRead r).isSome) ↔
    s.ttyCanonSize ≠ none ∨
      EndFits s.bufsize ((s.left input).map (key s.termios.iflags s.termios.cc)) := by
  rw [← Option.isSome_iff_ne_none, ← Option.isSome_iff_ne_none, ttyCanonSize_isSome,
    ttyCanonSize_isSome, ← hasLine_typeChunks h]
  refine and_iff_left_of_imp fun hline r hr ↦ ?_
  exact (isSome_tryRead hr).mpr hline

theorem canonSize_line : ((fresh (fun _ ↦ 0) plain).typeChunks [[97, 10]]).2.ttyCanonSize ≠ none := by
  have hidle : (fresh (fun _ ↦ 0) plain).CanonIdle := ⟨rfl, rfl⟩
  refine ((@canonSize_iff _ _ plain [] rfl hidle [97, 10]).mpr (.inr ?_)).1
  exact ⟨[.char 97], .closeWith 10, [], rfl, trivial, by decide⟩

/-- A full line without its end, and then the end. -/
theorem canonSize_full : ¬∀ buf termios evs s chunk, exec step (fresh buf termios) evs = some s →
    s.CanonIdle → 10 ∈ chunk → has s.termios.iflags inlcr = false →
    (s.typeChunks [chunk]).2.ttyCanonSize ≠ none := by
  intro h
  let s : Tty := fresh (fun _ ↦ 0) plain
  obtain ⟨n, hn⟩ : ∃ n, n = ttyBufSize := ⟨_, rfl⟩
  obtain ⟨hnone, hsize⟩ := @canonChars_plain s n rfl (by rw [hn]; exact (Nat.zero_add _).le)
  obtain ⟨t, ht⟩ : ∃ t, (canonChars icanon 0 s (List.replicate n 97)).1 = t := ⟨_, rfl⟩
  rw [ht, show s.bufsize = 0 from rfl, Nat.zero_add] at hsize
  obtain ⟨hall, hinputs⟩ := canonChars_none (Prod.ext ht hnone)
  have hrun : exec step s [.input (List.replicate n 97)] = some t := by
    have hisig : has s.termios.lflags isig = false := show has plain.lflags isig = false by decide
    have hcanon : has s.termios.lflags icanon = true :=
      show has plain.lflags icanon = true by decide
    rw [exec, step, ttyInput_canon hisig hcanon, Option.bind_some, ← ht]
    exact congrArg some (canonInput_of_none hnone)
  have htermios : t.termios = plain := by
    rw [hall]
    exact (canonAll_keeps icanon 0 s _).1
  -- no key of the first input ends a line
  have hline : ¬t.HasLine := by
    rw [hall]
    refine fun hline ↦ ?_
    obtain ⟨i, hi, -⟩ | ⟨pre, e, post, hkeys, hends, -⟩ :=
      (hasLine_canonAll icanon s (List.replicate n 97)).mp hline
    · exact Nat.not_lt_zero i hi
    · have hmem : e ∈ (List.replicate n 97).map (key s.termios.iflags s.termios.cc) := by
        rw [hkeys]
        exact List.mem_append_right pre List.mem_cons_self
      have hkey : key s.termios.iflags s.termios.cc 97 = .char 97 :=
        show key plain.iflags plain.cc 97 = .char 97 by rfl
      rw [List.map_replicate, hkey] at hmem
      rw [List.eq_of_mem_replicate hmem] at hends
      exact hends
  have hidle : t.CanonIdle := ⟨by rw [htermios]; rfl, hinputs⟩
  have hsome := h _ _ _ t [10] hrun hidle List.mem_cons_self (by rw [htermios]; rfl)
  rw [← Option.isSome_iff_ne_none, ttyCanonSize_isSome, hasLine_typeChunks hidle, left,
    htermios, if_neg (by decide), List.map_singleton, endFits_cons] at hsome
  obtain hold | ⟨-, hlt⟩ | hnil := hsome
  · exact hline hold
  · rw [hsize, hn] at hlt
    exact Nat.lt_irrefl _ hlt
  · exact endFits_nil _ hnil

end

end Tty

end Isl.Fs.Terminal
