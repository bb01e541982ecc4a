import Isl.Fs.TtyCanon
import Isl.Fs.TtyRaw
import Mathlib.Data.List.GetD

/-!
Whole calls of `tty_input`, one after another: a call that gives up the lock of
the terminal gets it back at once.
-/

namespace Isl.Fs.Terminal

open Isl.Lib.Run

namespace Tty

/-- The first call in progress goes on until it ends, after at most `n` pauses. The
number counts the calls of `send_group_signal`. -/
def settle : ℕ → ℕ × Tty → ℕ × Tty
  | 0, x => x
  | n + 1, (sent, s) =>
    match s.inputs with
    | [] => (sent, s)
    | i :: inputs =>
      let sent := match i.at' with
        | .signal _ => sent + 1
        | .wake _ => sent
      settle n (sent, { s with inputs := inputs }.resumeInput i)

/-- A call from its start to its end. -/
def inputCall (x : ℕ × Tty) (chunk : List Byte) : ℕ × Tty :=
  settle chunk.length (x.1, x.2.ttyInput chunk)

/-- The signals that are sent while these chunks are typed, and the terminal then. -/
def typeChunks (s : Tty) (chunks : List (List Byte)) : ℕ × Tty := chunks.foldl inputCall (0, s)

/-- The scan of a whole call: the interrupt characters it finds, and what it leaves. -/
def scanAll (intr : Byte) : Bool → List Byte → List Byte → ℕ × List Byte
  | _, kept, [] => (0, kept)
  | skip, kept, ch :: rest =>
    if !skip && isCc ch intr then
      let (found, left) := scanAll intr true [] rest
      (found + 1, left)
    else scanAll intr false (kept ++ [ch]) rest

/-- The loop in canonical mode without its pauses. -/
def canonAll (lflags iflags : Dword) (s : Tty) (input : List Byte) : Tty :=
  input.foldl (fun s ch ↦ (canonChar lflags iflags { s with typed := s.typed ++ [ch] } ch).1) s

/-- What a call does with the bytes that the scan leaves. -/
def process (lflags iflags : Dword) (s : Tty) (input : List Byte) : Tty :=
  if has lflags icanon then canonAll lflags iflags s input else s.rawInput input

/-- Without what was typed before. -/
def untyped (s : Tty) : Tty := { s with typed := [] }

/-- The interrupt characters that a call finds. -/
def found (s : Tty) (input : List Byte) : ℕ :=
  if has s.termios.lflags isig then (scanAll (s.termios.cc vIntr) false [] input).1 else 0

/-- The bytes that a call leaves to process. -/
def left (s : Tty) (input : List Byte) : List Byte :=
  if has s.termios.lflags isig then (scanAll (s.termios.cc vIntr) false [] input).2 else input

section

variable {s s' : Tty} {lflags iflags : Dword} {intr ch : Byte} {fg skip : Bool}
  {gone input kept rest bytes : List Byte} {n sent : ℕ}

/-! Pauses. -/

theorem canonChars_none (h : canonChars lflags iflags s input = (s', none)) :
    s' = canonAll lflags iflags s input ∧ s'.inputs = s.inputs := by
  induction input generalizing s with
  | nil =>
    cases h
    exact ⟨rfl, rfl⟩
  | cons ch rest ih =>
    rw [canonChars] at h
    dsimp only at h
    split at h
    · cases h
    · obtain ⟨heq, hinputs⟩ := ih h
      exact ⟨heq, hinputs.trans (canonChar_keeps lflags iflags _ ch).inputs⟩

theorem canonChars_some (h : canonChars lflags iflags s input = (s', some rest)) :
    rest.length < input.length ∧ s'.inputs = s.inputs ∧
      canonAll lflags iflags s input = canonAll lflags iflags s' rest := by
  induction input generalizing s with
  | nil => cases h
  | cons ch input ih =>
    have hinputs := (canonChar_keeps lflags iflags { s with typed := s.typed ++ [ch] } ch).inputs
    rw [canonChars] at h
    dsimp only at h
    split at h
    · cases h
      exact ⟨Nat.lt_succ_self _, hinputs, rfl⟩
    · obtain ⟨hlen, hrest, heq⟩ := ih h
      exact ⟨Nat.lt_succ_of_lt hlen, hrest.trans hinputs, heq⟩

theorem settle_idle (hs : s.inputs = []) (n sent : ℕ) : settle n (sent, s) = (sent, s) := by
  cases n with
  | zero => rfl
  | succ n => simp only [settle, hs]

theorem settle_canonInput (hs : s.inputs = []) (hn : input.length ≤ n) (sent : ℕ) :
    settle n (sent, s.canonInput lflags iflags input) =
      (sent, canonAll lflags iflags s input) := by
  induction n generalizing s input with
  | zero =>
    rw [List.length_eq_zero_iff.mp (Nat.le_zero.mp hn)]
    rfl
  | succ n ih =>
    rw [canonInput]
    split
    · rename_i u heq
      obtain ⟨rfl, hinputs⟩ := canonChars_none heq
      exact settle_idle (hinputs.trans hs) _ _
    · rename_i u rest heq
      obtain ⟨hlen, hinputs, hall⟩ := canonChars_some heq
      have hu : { u with inputs := [] } = u := by rw [← hinputs.trans hs]
      simp only [settle, hinputs.trans hs, List.nil_append, resumeInput]
      rw [hu, ih (hinputs.trans hs) (by omega), hall]

theorem inputs_rawInput (s : Tty) (input : List Byte) : (s.rawInput input).inputs = s.inputs := by
  rw [rawInput]
  dsimp only
  split <;> rfl

theorem settle_inputFrom (hs : s.inputs = []) (hn : input.length ≤ n) (sent : ℕ) :
    settle n (sent, s.inputFrom lflags iflags input) = (sent, process lflags iflags s input) := by
  rw [inputFrom, process]
  split
  · exact settle_canonInput hs hn sent
  · exact settle_idle ((inputs_rawInput s input).trans hs) n sent

theorem scanIntr_pauses (h : scanIntr intr fg skip kept input = (gone, .signalled rest)) :
    fg = true ∧ rest.length < input.length ∧
      scanAll intr skip kept input =
        ((scanAll intr true [] rest).1 + 1, (scanAll intr true [] rest).2) := by
  induction input generalizing skip kept gone with
  | nil => cases h
  | cons ch input ih =>
    rw [scanIntr] at h
    rw [scanAll]
    split at h
    · rename_i hch
      rw [if_pos hch]
      split at h
      · rename_i hfg
        cases h
        exact ⟨hfg, Nat.lt_succ_self _, rfl⟩
      · rename_i hfg
        obtain ⟨htrue, -⟩ := ih (Prod.ext rfl (Prod.mk.inj h).2)
        exact absurd htrue hfg
    · rename_i hch
      rw [if_neg hch]
      obtain ⟨hfg, hlen, heq⟩ := ih h
      exact ⟨hfg, Nat.lt_succ_of_lt hlen, heq⟩

theorem scanIntr_ends (h : scanIntr intr fg skip kept input = (gone, .done rest)) :
    (scanAll intr skip kept input).2 = rest ∧ rest.length ≤ kept.length + input.length ∧
      (fg = true → (scanAll intr skip kept input).1 = 0) := by
  induction input generalizing skip kept gone with
  | nil =>
    cases h
    exact ⟨rfl, le_rfl, fun _ ↦ rfl⟩
  | cons ch input ih =>
    rw [scanIntr] at h
    rw [scanAll, List.length_cons]
    split at h
    · rename_i hch
      rw [if_pos hch]
      split at h
      · cases h
      · rename_i hfg
        obtain ⟨heq, hlen, -⟩ := ih (Prod.ext rfl (Prod.mk.inj h).2)
        rw [List.length_nil] at hlen
        exact ⟨heq, by omega, fun htrue ↦ absurd htrue hfg⟩
    · rename_i hch
      rw [if_neg hch]
      obtain ⟨heq, hlen, hzero⟩ := ih h
      rw [List.length_append, List.length_singleton] at hlen
      exact ⟨heq, by omega, hzero⟩

theorem settle_scanInput (hs : s.inputs = []) (hn : input.length ≤ n) (sent : ℕ) :
    ∃ gone, settle n (sent, s.scanInput lflags iflags skip input) =
      (sent + (if s.fgGroup != 0 then (scanAll (s.termios.cc vIntr) skip [] input).1 else 0),
        process lflags iflags { s with typed := s.typed ++ gone }
          (scanAll (s.termios.cc vIntr) skip [] input).2) := by
  induction n generalizing s input skip sent with
  | zero =>
    obtain rfl := List.length_eq_zero_iff.mp (Nat.le_zero.mp hn)
    refine ⟨[], ?_⟩
    rw [scanInput, scanIntr, scanAll, ite_self]
    exact @settle_inputFrom { s with typed := s.typed ++ [] } lflags iflags [] 0 hs le_rfl sent
  | succ n ih =>
    rw [scanInput]
    split
    · rename_i gone rest heq
      obtain ⟨hfg, hlen, hall⟩ := scanIntr_pauses heq
      let u : Tty := { s with typed := s.typed ++ gone }
      have hu : { u with inputs := [] } = u := by rw [← show u.inputs = [] from hs]
      obtain ⟨gone', hgone⟩ := @ih u true rest hs (by omega) (sent + 1)
      refine ⟨gone ++ gone', ?_⟩
      have hstep : settle (n + 1) (sent, { u with
            inputs := u.inputs ++ [⟨lflags, iflags, .signal rest⟩] }) =
          settle n (sent + 1, u.scanInput lflags iflags true rest) := by
        simp only [settle, show u.inputs = [] from hs, List.nil_append, resumeInput]
        rw [hu]
      refine hstep.trans (hgone.trans ?_)
      rw [show u.fgGroup = s.fgGroup from rfl, show u.termios = s.termios from rfl, hall, hfg,
        if_pos rfl, if_pos rfl, ← List.append_assoc, Nat.add_assoc, Nat.add_comm 1]
    · rename_i gone rest heq
      obtain ⟨hrest, hlen, hzero⟩ := scanIntr_ends heq
      have hnone : (if s.fgGroup != 0 then (scanAll (s.termios.cc vIntr) skip [] input).1
          else 0) = 0 := by
        split
        · rename_i hfg
          exact hzero hfg
        · rfl
      rw [List.length_nil, Nat.zero_add] at hlen
      refine ⟨gone, ?_⟩
      rw [hrest, hnone, Nat.add_zero]
      exact settle_inputFrom (s := { s with typed := s.typed ++ gone }) hs (hlen.trans hn) sent

/-- A whole call: it sends a signal for each interrupt character that it finds, and
processes what the scan leaves. -/
theorem inputCall_eq (hs : s.inputs = []) (sent : ℕ) (input : List Byte) :
    ∃ gone, inputCall (sent, s) input = (sent + (if s.fgGroup != 0 then s.found input else 0),
      process s.termios.lflags s.termios.iflags { s with typed := s.typed ++ gone }
        (s.left input)) := by
  rw [inputCall, ttyInput, found, left]
  dsimp only
  split
  · exact settle_scanInput hs le_rfl sent
  · refine ⟨[], ?_⟩
    rw [ite_self, List.append_nil]
    exact settle_inputFrom hs le_rfl sent

/-! What was typed before does not matter. -/

/-- The same terminal with another history and another foreground group. -/
def withPast (s : Tty) (typed : List Byte) (fgGroup : ℕ) : Tty :=
  { s with typed := typed, fgGroup := fgGroup }

theorem eraseChars_withPast (lflags : Dword) (echo : Bool) (count : ℕ) (s : Tty)
    (typed : List Byte) (fgGroup : ℕ) : (s.withPast typed fgGroup).eraseChars lflags echo count =
      (s.eraseChars lflags echo count).withPast typed fgGroup := by
  induction count generalizing s with
  | zero => rfl
  | succ count ih =>
    rw [eraseChars, eraseChars, show (s.withPast typed fgGroup).bufFlag = s.bufFlag from rfl,
      show (s.withPast typed fgGroup).bufsize = s.bufsize from rfl]
    split
    · rfl
    · rw [← ih]
      dsimp only
      congr 1
      split
      · change (if shouldEchoctl lflags s.termios.cc (s.buf (s.bufsize - 1)) then _ else _) =
          (if shouldEchoctl lflags s.termios.cc (s.buf (s.bufsize - 1)) then _ else _ : Tty).withPast
            typed fgGroup
        split <;> rfl
      · rfl

theorem ttyPushChar_withPast (s : Tty) (ch : Byte) (flag : Bool) (typed : List Byte)
    (fgGroup : ℕ) : (s.withPast typed fgGroup).ttyPushChar ch flag =
      (s.ttyPushChar ch flag).withPast typed fgGroup := by
  rw [ttyPushChar, ttyPushChar, show (s.withPast typed fgGroup).bufsize = s.bufsize from rfl]
  split <;> rfl

theorem canonChar_withPast (lflags iflags : Dword) (s : Tty) (ch : Byte) (typed : List Byte)
    (fgGroup : ℕ) : canonChar lflags iflags (s.withPast typed fgGroup) ch =
      ((canonChar lflags iflags s ch).1.withPast typed fgGroup,
        (canonChar lflags iflags s ch).2) := by
  have hwrite (u : Tty) (bytes : List Byte) : (u.withPast typed fgGroup).write bytes =
      (u.write bytes).withPast typed fgGroup := rfl
  rw [canonChar, canonChar]
  dsimp only
  rw [show (s.withPast typed fgGroup).termios = s.termios from rfl,
    show (s.withPast typed fgGroup).bufsize = s.bufsize from rfl]
  split
  · rfl
  · split
    · rw [eraseChars_withPast]
    · split
      · rw [ttyPushChar_withPast]
      · split
        · split
          · rw [hwrite, ttyPushChar_withPast]
          · rw [ttyPushChar_withPast]
        · rw [ttyPushChar_withPast]
          split
          · split
            · rfl
            · rfl
          · rfl

theorem canonChar_fgGroup (lflags iflags : Dword) (s : Tty) (ch : Byte) :
    (canonChar lflags iflags s ch).1.fgGroup = s.fgGroup := by
  have h := canonChar_withPast lflags iflags s ch s.typed s.fgGroup
  rw [show s.withPast s.typed s.fgGroup = s from rfl] at h
  rw [h]
  rfl

theorem eq_withPast (h : s.untyped = s'.untyped) : s' = s.withPast s'.typed s.fgGroup := by
  have hs : s' = s'.untyped.withPast s'.typed s'.fgGroup := rfl
  have hfg : s'.fgGroup = s.fgGroup := (congrArg fgGroup h).symm
  rw [hs, ← h, hfg]
  rfl

theorem canonAll_congr (h : s.untyped = s'.untyped) (input : List Byte) :
    (canonAll lflags iflags s input).untyped = (canonAll lflags iflags s' input).untyped := by
  induction input generalizing s s' with
  | nil => exact h
  | cons ch rest ih =>
    apply ih
    have heq : { s' with typed := s'.typed ++ [ch] } =
        { s with typed := s.typed ++ [ch] }.withPast (s'.typed ++ [ch]) s.fgGroup := by
      rw [eq_withPast h]
      rfl
    dsimp only
    rw [heq, canonChar_withPast]
    have hfg := canonChar_fgGroup lflags iflags { s with typed := s.typed ++ [ch] } ch
    simp only [untyped, withPast, ← hfg]

theorem rawInput_congr (h : s.untyped = s'.untyped) (input : List Byte) :
    (s.rawInput input).untyped = (s'.rawInput input).untyped := by
  rw [eq_withPast h, rawInput, rawInput,
    show (s.withPast s'.typed s.fgGroup).rawRoom = s.rawRoom from rfl]
  dsimp only
  split <;> rfl

theorem process_congr (h : s.untyped = s'.untyped) (input : List Byte) :
    (process lflags iflags s input).untyped = (process lflags iflags s' input).untyped := by
  rw [process, process]
  split
  · exact canonAll_congr h input
  · exact rawInput_congr h input

/-! Chunks. -/

/-- A raw input with one formula for each field, also when no byte fits. -/
theorem rawInput_eq (s : Tty) (input : List Byte) {k : ℕ} (hk : min s.rawRoom input.length = k) :
    s.rawInput input = { s with
      typed := s.typed ++ input
      buf := fun i ↦ if s.bufsize ≤ i ∧ i < s.bufsize + k then input.getD (i - s.bufsize) 0
        else s.buf i
      bufsize := s.bufsize + k
      touched := if k = 0 then s.touched else max s.touched (s.bufsize + k) } := by
  rw [rawInput]
  dsimp only
  rw [hk]
  split
  · rename_i hzero
    have hbuf : (fun i ↦ if s.bufsize ≤ i ∧ i < s.bufsize then
        input.getD (i - s.bufsize) 0 else s.buf i) = s.buf := funext fun i ↦ if_neg (by omega)
    simp only [hzero, Nat.add_zero, hbuf]
  · simp only [touch]

theorem bufsize_rawInput (s : Tty) (input : List Byte) :
    (s.rawInput input).bufsize = s.bufsize + min s.rawRoom input.length := by
  rw [rawInput_eq s input rfl]

theorem rawRoom_rawInput (s : Tty) (input : List Byte) :
    (s.rawInput input).rawRoom = s.rawRoom - min s.rawRoom input.length := by
  have hle : min s.rawRoom input.length ≤ s.rawRoom := Nat.min_le_left _ _
  have hlt : s.rawRoom < 2 ^ 64 := BitVec.isLt _
  generalize hk : min s.rawRoom input.length = k at hle
  have hmod : (BitVec.ofNat 64 k).toNat = k := by
    rw [BitVec.toNat_ofNat, Nat.mod_eq_of_lt (hle.trans_lt hlt)]
  rw [rawRoom, bufsize_rawInput, hk, BitVec.ofNat_add, ← BitVec.sub_sub,
    BitVec.toNat_sub_of_le (BitVec.le_def.mpr (by rw [hmod]; exact hle)), hmod]
  rfl

theorem rawInput_append (s : Tty) (a b : List Byte) :
    s.rawInput (a ++ b) = (s.rawInput a).rawInput b := by
  have hroom := rawRoom_rawInput s a
  obtain ⟨j, hj⟩ : ∃ j, min s.rawRoom a.length = j := ⟨_, rfl⟩
  obtain ⟨k, hk⟩ : ∃ k, min (s.rawRoom - j) b.length = k := ⟨_, rfl⟩
  have hjk : min s.rawRoom (a ++ b).length = j + k := by
    rw [List.length_append]
    omega
  rw [hj] at hroom
  rw [rawInput_eq s (a ++ b) hjk, rawInput_eq (s.rawInput a) b (by rw [hroom, hk]), rawInput_eq s a hj]
  have htouched : (if j + k = 0 then s.touched else max s.touched (s.bufsize + (j + k))) =
      if k = 0 then if j = 0 then s.touched else max s.touched (s.bufsize + j)
      else max (if j = 0 then s.touched else max s.touched (s.bufsize + j))
        (s.bufsize + j + k) := by
    split <;> split <;> split <;> omega
  have hbuf (i : ℕ) : (if s.bufsize ≤ i ∧ i < s.bufsize + (j + k) then
        (a ++ b).getD (i - s.bufsize) 0 else s.buf i) =
      if s.bufsize + j ≤ i ∧ i < s.bufsize + j + k then b.getD (i - (s.bufsize + j)) 0
      else if s.bufsize ≤ i ∧ i < s.bufsize + j then a.getD (i - s.bufsize) 0 else s.buf i := by
    by_cases hin : s.bufsize ≤ i ∧ i < s.bufsize + (j + k)
    · rw [if_pos hin]
      by_cases hb : s.bufsize + j ≤ i
      · -- a byte of `b` is stored only if all of `a` is
        have hall : j = a.length := by omega
        rw [if_pos (by omega), List.getD_append_right _ _ _ _ (by omega), hall, Nat.sub_sub]
      · rw [if_neg (by omega), if_pos (by omega), List.getD_append _ _ _ _ (by omega)]
    · rw [if_neg hin, if_neg (by omega), if_neg (by omega)]
  simp only [htouched, hbuf, List.append_assoc, Nat.add_assoc]

theorem process_append (lflags iflags : Dword) (s : Tty) (a b : List Byte) :
    process lflags iflags s (a ++ b) =
      process lflags iflags (process lflags iflags s a) b := by
  rw [process, process]
  split
  · rw [process, if_pos (by assumption)]
    exact List.foldl_append
  · rw [process, if_neg (by assumption)]
    exact rawInput_append s a b

theorem process_nil (lflags iflags : Dword) (s : Tty) : process lflags iflags s [] = s := by
  rw [process]
  split
  · rfl
  · rw [rawInput, List.length_nil, Nat.min_zero, List.append_nil]
    rfl

theorem canonAll_keeps (lflags iflags : Dword) (s : Tty) (input : List Byte) :
    (canonAll lflags iflags s input).termios = s.termios ∧
      (canonAll lflags iflags s input).fgGroup = s.fgGroup ∧
      (canonAll lflags iflags s input).inputs = s.inputs := by
  induction input generalizing s with
  | nil => exact ⟨rfl, rfl, rfl⟩
  | cons ch rest ih =>
    let u : Tty := { s with typed := s.typed ++ [ch] }
    have hkept := canonChar_keeps lflags iflags u ch
    obtain ⟨htermios, hfg, hinputs⟩ := ih (canonChar lflags iflags u ch).1
    exact ⟨htermios.trans hkept.termios, hfg.trans (canonChar_fgGroup lflags iflags u ch),
      hinputs.trans hkept.inputs⟩

theorem process_keeps (lflags iflags : Dword) (s : Tty) (input : List Byte) :
    (process lflags iflags s input).termios = s.termios ∧
      (process lflags iflags s input).fgGroup = s.fgGroup ∧
      (process lflags iflags s input).inputs = s.inputs := by
  rw [process]
  split
  · exact canonAll_keeps lflags iflags s input
  · rw [rawInput_eq s input rfl]
    exact ⟨rfl, rfl, rfl⟩

/-- Calls one after another send the signals of each one, and process together what
their scans leave. -/
theorem foldl_inputCall (hs : s.inputs = []) (sent : ℕ) (chunks : List (List Byte)) :
    ∃ u, chunks.foldl inputCall (sent, s) =
        (sent + (if s.fgGroup != 0 then (chunks.map s.found).sum else 0), u) ∧
      u.untyped = (process s.termios.lflags s.termios.iflags s (chunks.flatMap s.left)).untyped := by
  induction chunks generalizing s sent with
  | nil =>
    refine ⟨s, ?_, ?_⟩
    · rw [List.map_nil, List.sum_nil, ite_self]
      rfl
    · rw [List.flatMap_nil, process_nil]
  | cons chunk chunks ih =>
    obtain ⟨gone, hcall⟩ := inputCall_eq hs sent chunk
    rw [List.foldl_cons, hcall]
    let s₀ : Tty := { s with typed := s.typed ++ gone }
    let v := process s.termios.lflags s.termios.iflags s₀ (s.left chunk)
    obtain ⟨htermios, hfg, hinputs⟩ :=
      process_keeps s.termios.lflags s.termios.iflags s₀ (s.left chunk)
    obtain ⟨u, hu, huntyped⟩ := ih (hinputs.trans hs)
      (sent + if s.fgGroup != 0 then s.found chunk else 0)
    have hfound : v.found = s.found := by
      funext input
      rw [found, found, show v.termios = s.termios from htermios]
    have hleft : v.left = s.left := by
      funext input
      rw [left, left, show v.termios = s.termios from htermios]
    refine ⟨u, hu.trans ?_, huntyped.trans ?_⟩
    · rw [show v.fgGroup = s.fgGroup from hfg, hfound, Nat.add_assoc, List.map_cons, List.sum_cons]
      congr 2
      split <;> rfl
    · rw [show v.termios = s.termios from htermios, hleft, List.flatMap_cons, process_append]
      have huntyped : s₀.untyped = s.untyped := rfl
      exact process_congr (process_congr huntyped _) _

theorem typeChunks_eq (hs : s.inputs = []) (chunks : List (List Byte)) :
    (s.typeChunks chunks).1 = (if s.fgGroup != 0 then (chunks.map s.found).sum else 0) ∧
      (s.typeChunks chunks).2.queue =
        (process s.termios.lflags s.termios.iflags s (chunks.flatMap s.left)).queue := by
  obtain ⟨u, hu, huntyped⟩ := foldl_inputCall hs 0 chunks
  rw [Nat.zero_add] at hu
  have hqueue := congrArg queue huntyped
  rw [typeChunks, hu]
  exact ⟨rfl, hqueue⟩

/-! Whole calls are steps of the terminal. -/

theorem exec_settle (n sent : ℕ) (s : Tty) :
    ∃ k, exec step s (List.replicate k (.resumeInput 0)) = some (settle n (sent, s)).2 := by
  induction n generalizing sent s with
  | zero => exact ⟨0, rfl⟩
  | succ n ih =>
    cases hs : s.inputs with
    | nil =>
      refine ⟨0, ?_⟩
      rw [settle_idle hs]
      rfl
    | cons i inputs =>
      let u : Tty := { s with inputs := inputs }.resumeInput i
      obtain ⟨k, hk⟩ := ih (match i.at' with | .signal _ => sent + 1 | .wake _ => sent) u
      refine ⟨k + 1, ?_⟩
      have hstep : step s (.resumeInput 0) = some u := by
        simp only [step, hs, List.getElem?_cons_zero, Option.bind_eq_bind, Option.bind_some,
          List.eraseIdx_cons_zero]
        rfl
      rw [List.replicate_succ, exec, hstep, Option.bind_some, hk]
      simp only [settle, hs]
      rfl

/-- What `typeChunks` computes is a run of inputs, each of which is resumed until it ends. -/
theorem exec_typeChunks (s : Tty) (chunks : List (List Byte)) :
    ∃ evs, exec step s evs = some (s.typeChunks chunks).2 := by
  suffices h : ∀ x : ℕ × Tty, ∃ evs, exec step x.2 evs = some (chunks.foldl inputCall x).2 from
    h (0, s)
  induction chunks with
  | nil => exact fun x ↦ ⟨[], rfl⟩
  | cons chunk chunks ih =>
    intro x
    obtain ⟨k, hk⟩ := exec_settle chunk.length x.1 (x.2.ttyInput chunk)
    obtain ⟨evs, hevs⟩ := ih (inputCall x chunk)
    refine ⟨.input chunk :: (List.replicate k (.resumeInput 0) ++ evs), ?_⟩
    rw [exec, step, Option.bind_some, exec_append, hk, Option.bind_some]
    exact hevs

end

end Tty

end Isl.Fs.Terminal
