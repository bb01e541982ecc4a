import Isl.Fs.Tty

/-! Raw mode as a queue of bytes. -/

namespace Isl.Fs.Terminal

open Isl.Lib.Run

namespace Tty

/-- The bytes that the reads have returned. -/
def returned (s : Tty) : List Byte := s.reads.flatMap Prod.snd

def buffered (s : Tty) : List Byte := s.queue.map Prod.fst

def Lossless (s : Tty) : Prop := s.returned ++ s.buffered = s.typed

/-- Raw mode, an empty buffer and no call in progress. -/
structure RawStart (s : Tty) : Prop where
  raw : has s.termios.lflags icanon = false
  empty : s.bufsize = 0
  inputs : s.inputs = []
  readers : s.readers = []

/-- An input fits and has no interrupt character that `ISIG` acts on, and right
behind the bytes that a read takes there is no null byte with its flag set. -/
def Passes (s : Tty) : Event → Prop
  | .input bytes =>
      (has s.termios.lflags isig = true → ∀ ch ∈ bytes, isCc ch (s.termios.cc vIntr) = false) ∧
        s.bufsize + bytes.length ≤ ttyBufSize - 1
  | .read size => size ≠ 0 → (s.termios.cc vMin).toNat ≤ s.bufsize →
      (s.queue.drop size).head? ≠ some (0, true)
  | .resumeRead k => ∀ r, s.readers[k]? = some r → r.min ≤ s.bufsize →
      (s.queue.drop r.size).head? ≠ some (0, true)
  | _ => True

/-- All calls in progress are in raw mode, and one byte is free. -/
structure RawCalls (s : Tty) : Prop where
  raw : has s.termios.lflags icanon = false
  inputs : ∀ i ∈ s.inputs, has i.lflags icanon = false ∧ ∃ rest, i.at' = .signal rest
  readers : ∀ r ∈ s.readers, r.canon = false
  room : s.bufsize ≤ ttyBufSize - 1

/-- No more comes out than came in, and as much only if nothing was lost. A call
that pauses has thrown bytes away. -/
structure Balanced (s : Tty) : Prop where
  le : s.returned.length + s.bufsize ≤ s.typed.length
  lossless : s.returned.length + s.bufsize = s.typed.length → s.Lossless
  inputs : s.returned.length + s.bufsize = s.typed.length → s.inputs = []

/-- An input of which `gone` was thrown away. -/
structure Took (s s' : Tty) (gone input : List Byte) : Prop where
  typed : s'.typed = s.typed ++ (gone ++ input)
  buffered : s'.buffered = s.buffered ++ input.take (ttyBufSize - 1 - s.bufsize)
  reads : s'.reads = s.reads
  termios : s'.termios = s.termios
  readers : s'.readers = s.readers

section

variable {s s' : Tty} {lflags iflags : Dword} {intr : Byte} {fg skip : Bool}
  {gone input kept bytes : List Byte} {scan : Scan} {asked size m : ℕ} {r : Reader}

@[simp] theorem length_buffered (s : Tty) : s.buffered.length = s.bufsize := by
  rw [buffered, List.length_map, length_queue]

theorem Lossless.length (h : s.Lossless) : s.returned.length + s.bufsize = s.typed.length := by
  rw [← h, List.length_append, length_buffered]

theorem Balanced.lossless_iff (h : s.Balanced) :
    s.Lossless ↔ s.returned.length + s.bufsize = s.typed.length := ⟨Lossless.length, h.lossless⟩

/-! Inputs. -/

theorem map_getD_range (hm : m ≤ input.length) :
    (List.range m).map (fun j ↦ input.getD j 0) = input.take m := by
  apply List.ext_getElem
  · rw [List.length_map, List.length_range, List.length_take, Nat.min_eq_left hm]
  · intro j hj _
    rw [List.length_map, List.length_range] at hj
    have hlt : j < input.length := Nat.lt_of_lt_of_le hj hm
    simp [hlt]

theorem rawInput_took (hroom : s.bufsize ≤ ttyBufSize - 1) (input : List Byte) :
    Took s (s.rawInput input) [] input ∧ (s.rawInput input).inputs = s.inputs := by
  have hne : s.bufsize ≠ ttyBufSize := by
    have hsize : ttyBufSize = 4096 := rfl
    omega
  have hraw := rawRoom_eq s (hroom.trans (Nat.sub_le _ _))
  rw [if_neg hne] at hraw
  rw [rawInput, hraw]
  dsimp only
  split
  · rename_i hzero
    have hnil : input.take (ttyBufSize - 1 - s.bufsize) = [] := by
      rw [← List.length_eq_zero_iff, List.length_take, hzero]
    refine ⟨⟨rfl, ?_, rfl, rfl, rfl⟩, rfl⟩
    rw [hnil, List.append_nil]
    rfl
  · refine ⟨⟨rfl, ?_, rfl, rfl, rfl⟩, rfl⟩
    rw [buffered, queue, buffered, queue, map_fst_cells, map_fst_cells]
    simp only [touch]
    rw [List.range_add, List.map_append, List.map_map]
    refine congr_arg₂ (· ++ ·) ?_ ?_
    · refine List.map_congr_left fun i hi ↦ if_neg fun h ↦ ?_
      exact Nat.not_lt.mpr h.1 (List.mem_range.mp hi)
    · have htake : input.take (min (ttyBufSize - 1 - s.bufsize) input.length) =
          input.take (ttyBufSize - 1 - s.bufsize) := List.take_eq_take_min.symm
      rw [← htake, ← map_getD_range (Nat.min_le_right _ _)]
      refine List.map_congr_left fun j hj ↦ ?_
      have hlt := List.mem_range.mp hj
      rw [Function.comp_apply, if_pos ⟨Nat.le_add_right _ _, Nat.add_lt_add_left hlt _⟩,
        Nat.add_sub_cancel_left]

/-- The scan throws nothing away if and only if it finds no interrupt character. -/
theorem scanIntr_none (h : ∀ ch ∈ input, isCc ch intr = false) :
    scanIntr intr fg skip kept input = ([], .done (kept ++ input)) := by
  induction input generalizing skip kept with
  | nil => rw [scanIntr, List.append_nil]
  | cons ch rest ih =>
    have hch := h ch List.mem_cons_self
    rw [scanIntr, hch, Bool.and_false, if_neg Bool.false_ne_true,
      ih fun c hc ↦ h c (List.mem_cons_of_mem ch hc), List.append_assoc]
    rfl

theorem scanIntr_some (h : ¬∀ ch ∈ input, isCc ch intr = false) :
    (scanIntr intr fg false kept input).1 ≠ [] := by
  induction input generalizing kept with
  | nil => exact absurd nofun h
  | cons ch rest ih =>
    rw [scanIntr, Bool.not_false, Bool.true_and]
    split
    · split
      · exact List.append_ne_nil_of_right_ne_nil _ (List.cons_ne_nil _ _)
      · exact List.append_ne_nil_of_right_ne_nil _ (List.cons_ne_nil _ _)
    · rename_i hch
      refine ih fun hrest ↦ h fun c hc ↦ ?_
      obtain rfl | hc := List.mem_cons.mp hc
      · exact Bool.not_eq_true _ ▸ hch
      · exact hrest c hc

/-- A call that pauses in the scan has thrown bytes away. -/
theorem scanIntr_signalled {rest : List Byte}
    (h : scanIntr intr fg skip kept input = (gone, .signalled rest)) : gone ≠ [] := by
  induction input generalizing skip kept gone with
  | nil => cases h
  | cons ch tail ih =>
    rw [scanIntr] at h
    split at h
    · split at h
      · cases h
        exact List.append_ne_nil_of_right_ne_nil _ (List.cons_ne_nil _ _)
      · obtain ⟨rfl, -⟩ := Prod.mk.inj h
        exact List.append_ne_nil_of_right_ne_nil _ (List.cons_ne_nil _ _)
    · exact ih h

theorem RawCalls.rawInput (h : s.RawCalls) (input : List Byte) : (s.rawInput input).RawCalls := by
  obtain ⟨htook, hinputs⟩ := rawInput_took h.room input
  refine ⟨?_, ?_, ?_, ?_⟩
  · rw [htook.termios]
    exact h.raw
  · rw [hinputs]
    exact h.inputs
  · rw [htook.readers]
    exact h.readers
  · rw [← length_buffered, htook.buffered, List.length_append, length_buffered, List.length_take]
    have hroom := h.room
    omega

theorem scanInput_took (h : s.RawCalls) (hraw : has lflags icanon = false) (skip : Bool)
    (input : List Byte) : ∃ gone rest, Took s (s.scanInput lflags iflags skip input) gone rest ∧
      (s.scanInput lflags iflags skip input).RawCalls ∧
      (gone = [] → (s.scanInput lflags iflags skip input).inputs = s.inputs) ∧
      gone = (scanIntr (s.termios.cc vIntr) (s.fgGroup != 0) skip [] input).1 ∧
      (scanIntr (s.termios.cc vIntr) (s.fgGroup != 0) skip [] input = ([], .done input) →
        rest = input) := by
  rw [Tty.scanInput]
  split
  · rename_i gone rest heq
    rw [heq]
    refine ⟨gone, [], ⟨?_, ?_, rfl, rfl, rfl⟩, ⟨h.raw, fun i hi ↦ ?_, h.readers, h.room⟩,
      fun hnil ↦ absurd hnil (scanIntr_signalled heq), rfl, fun hdone ↦ ?_⟩
    · rw [List.append_nil]
    · rw [List.take_nil, List.append_nil]
      rfl
    · obtain hi | hi := List.mem_append.mp hi
      · exact h.inputs i hi
      · obtain rfl := List.mem_singleton.mp hi
        exact ⟨hraw, rest, rfl⟩
    · cases (Prod.mk.inj hdone).2
  · rename_i gone rest heq
    rw [heq]
    have hcalls : RawCalls { s with typed := s.typed ++ gone } := ⟨h.raw, h.inputs, h.readers, h.room⟩
    obtain ⟨htook, hinputs⟩ := rawInput_took hcalls.room rest
    have hfrom : { s with typed := s.typed ++ gone }.inputFrom lflags iflags rest =
        { s with typed := s.typed ++ gone }.rawInput rest :=
      if_neg (by rw [hraw]; exact Bool.false_ne_true)
    rw [hfrom]
    refine ⟨gone, rest, ⟨?_, htook.buffered, htook.reads, htook.termios, htook.readers⟩,
      hcalls.rawInput rest, fun _ ↦ hinputs, rfl, fun hdone ↦ ?_⟩
    · rw [htook.typed, List.append_assoc]
      rfl
    · obtain ⟨-, hrest⟩ := Prod.mk.inj hdone
      exact Scan.done.inj hrest

/-- Nothing is lost by an input exactly if nothing is thrown away and it fits. -/
theorem Took.balanced (h : s.Balanced) (hroom : s.bufsize ≤ ttyBufSize - 1)
    (ht : Took s s' gone input) (hinputs : gone = [] → s'.inputs = s.inputs) : s'.Balanced ∧
      (s'.Lossless ↔ s.Lossless ∧ gone = [] ∧ s.bufsize + input.length ≤ ttyBufSize - 1) := by
  have hret : s'.returned = s.returned := by rw [returned, ht.reads, returned]
  have hsize : s'.bufsize = s.bufsize + min (ttyBufSize - 1 - s.bufsize) input.length := by
    rw [← length_buffered, ht.buffered, List.length_append, length_buffered, List.length_take]
  have htyped : s'.typed.length = s.typed.length + (gone.length + input.length) := by
    rw [ht.typed, List.length_append, List.length_append]
  have hle := h.le
  have hequal (heq : s'.returned.length + s'.bufsize = s'.typed.length) :
      s.returned.length + s.bufsize = s.typed.length ∧ gone = [] ∧
        input.length ≤ ttyBufSize - 1 - s.bufsize := by
    rw [hret, hsize, htyped] at heq
    refine ⟨by omega, List.length_eq_zero_iff.mp (by omega), by omega⟩
  have hkeep (hl : s.Lossless) (hg : gone = []) (hfit : input.length ≤ ttyBufSize - 1 - s.bufsize) :
      s'.Lossless := by
    rw [Lossless, hret, ht.buffered, ht.typed, List.take_of_length_le hfit, hg, List.nil_append,
      ← List.append_assoc, hl]
  refine ⟨⟨?_, fun heq ↦ ?_, fun heq ↦ ?_⟩, fun hl ↦ ?_, fun hl ↦ ?_⟩
  · rw [hret, hsize, htyped]
    omega
  · obtain ⟨heq, hg, hfit⟩ := hequal heq
    exact hkeep (h.lossless heq) hg hfit
  · obtain ⟨heq, hg, -⟩ := hequal heq
    rw [hinputs hg, h.inputs heq]
  · obtain ⟨heq, hg, hfit⟩ := hequal hl.length
    exact ⟨h.lossless heq, hg, by omega⟩
  · exact hkeep hl.1 hl.2.1 (by omega)

/-! Reads. -/

theorem dropEof_append (q : List (Byte × Bool)) :
    (dropEof q).length ≤ q.length ∧ (q.head? = some (0, true) → (dropEof q).length < q.length) := by
  rw [dropEof]
  split
  · rename_i hq
    cases q with
    | nil => cases hq
    | cons a q =>
      rw [List.tail_cons, List.length_cons]
      exact ⟨Nat.le_succ _, fun _ ↦ Nat.lt_succ_self _⟩
  · rename_i hq
    exact ⟨le_rfl, fun h ↦ absurd h hq⟩

/-- A read loses a byte exactly if it leaves an end of file in front. -/
theorem finishRead_balanced (h : s.Balanced) (asked size : ℕ) :
    (s.finishRead asked size).Balanced ∧
      ((s.finishRead asked size).Lossless ↔
        s.Lossless ∧ (s.queue.drop size).head? ≠ some (0, true)) := by
  obtain ⟨htyped, hinputs, -, -, -⟩ := finishRead_frame s asked size
  have hq := queue_finishRead s asked size
  have hret : (s.finishRead asked size).returned =
      s.returned ++ (s.queue.take size).map Prod.fst := by
    rw [returned, reads_finishRead, List.flatMap_append, returned, List.flatMap_singleton]
  have hlen : (s.finishRead asked size).returned.length + (s.queue.drop size).length =
      s.returned.length + s.bufsize := by
    rw [hret, List.length_append, List.length_map, Nat.add_assoc, ← List.length_append,
      List.take_append_drop, length_queue]
  have hsize : (s.finishRead asked size).bufsize = (dropEof (s.queue.drop size)).length := by
    rw [← hq, length_queue]
  obtain ⟨hle, hlt⟩ := dropEof_append (s.queue.drop size)
  have hbound := h.le
  have hequal (heq : (s.finishRead asked size).returned.length + (s.finishRead asked size).bufsize =
      (s.finishRead asked size).typed.length) :
      s.returned.length + s.bufsize = s.typed.length ∧
        (s.queue.drop size).head? ≠ some (0, true) := by
    rw [hsize, htyped] at heq
    exact ⟨by omega, fun hhead ↦ by have hlt := hlt hhead; omega⟩
  have hkeep (hl : s.Lossless) (hhead : (s.queue.drop size).head? ≠ some (0, true)) :
      (s.finishRead asked size).Lossless := by
    rw [Lossless, hret, buffered, hq, dropEof, if_neg hhead, htyped, List.append_assoc,
      ← List.map_append, List.take_append_drop]
    exact hl
  refine ⟨⟨?_, fun heq ↦ ?_, fun heq ↦ ?_⟩, fun hl ↦ ?_, fun hl ↦ hkeep hl.1 hl.2⟩
  · rw [hsize, htyped]
    omega
  · obtain ⟨heq, hhead⟩ := hequal heq
    exact hkeep (h.lossless heq) hhead
  · rw [hinputs]
    exact h.inputs (hequal heq).1
  · obtain ⟨heq, hhead⟩ := hequal hl.length
    exact ⟨h.lossless heq, hhead⟩

theorem RawCalls.finishRead (h : s.RawCalls) (asked size : ℕ) :
    (s.finishRead asked size).RawCalls := by
  obtain ⟨-, hinputs, hreaders, htermios, -⟩ := finishRead_frame s asked size
  have hle := (dropEof_append (s.queue.drop size)).1
  rw [← queue_finishRead s asked, length_queue, List.length_drop, length_queue] at hle
  refine ⟨?_, ?_, ?_, hle.trans ((Nat.sub_le _ _).trans h.room)⟩
  · rw [htermios]
    exact h.raw
  · rw [hinputs]
    exact h.inputs
  · rw [hreaders]
    exact h.readers

/-! One step. -/

/-- What a step does to a raw queue: `passes` says when nothing is lost. -/
structure RawStep (s s' : Tty) (passes : Prop) : Prop where
  calls : s'.RawCalls
  balanced : s'.Balanced
  lossless_iff : s'.Lossless ↔ s.Lossless ∧ passes

theorem rawStep_tryRead (hc : s.RawCalls) (hb : s.Balanced) (hr : r.canon = false) :
    match s.tryRead r with
    | none => s.bufsize < r.min
    | some s' => r.min ≤ s.bufsize ∧ RawStep s s' ((s.queue.drop r.size).head? ≠ some (0, true)) := by
  rw [tryRead, hr, if_neg Bool.false_ne_true]
  by_cases hmin : s.bufsize < r.min
  · rw [if_pos hmin]
    exact hmin
  · rw [if_neg hmin]
    obtain ⟨hbal, hiff⟩ := finishRead_balanced hb r.size r.size
    exact ⟨Nat.not_lt.mp hmin, hc.finishRead _ _, hbal, hiff⟩

theorem rawStep_read (hc : s.RawCalls) (hb : s.Balanced) (hs : s.ttyRead size = some s') :
    RawStep s s' (s.Passes (.read size)) := by
  rw [ttyRead] at hs
  split at hs
  · rename_i hzero
    cases hs
    have hret : returned { s with reads := s.reads ++ [(0, [])] } = s.returned := by
      rw [returned, List.flatMap_append, returned]
      exact List.append_nil _
    have hiff : Lossless { s with reads := s.reads ++ [(0, [])] } ↔ s.Lossless := by
      rw [Lossless, hret]
      exact Iff.rfl
    refine ⟨⟨hc.raw, hc.inputs, hc.readers, hc.room⟩, ⟨?_, fun heq ↦ ?_, fun heq ↦ ?_⟩, ?_⟩
    · rw [hret]
      exact hb.le
    · rw [hret] at heq
      exact hiff.mpr (hb.lossless heq)
    · rw [hret] at heq
      exact hb.inputs heq
    · exact hiff.trans (and_iff_left fun hne ↦ absurd hzero hne).symm
  · rename_i hpos
    obtain ⟨r, hr, hs⟩ := Option.bind_eq_some_iff.mp hs
    cases hs
    rw [newReader, hc.raw, if_neg Bool.false_ne_true] at hr
    obtain ⟨-, hr⟩ := Option.ite_none_right_eq_some.mp hr
    cases hr
    have htry := @rawStep_tryRead s ⟨size, false, (s.termios.cc vMin).toNat⟩ hc hb rfl
    split at htry
    · rename_i hnone
      rw [hnone]
      refine ⟨⟨hc.raw, hc.inputs, fun r hr ↦ ?_, hc.room⟩, ⟨hb.le, hb.lossless, hb.inputs⟩,
        (and_iff_left fun _ hmin ↦ absurd hmin (Nat.not_le.mpr htry)).symm⟩
      obtain hr | hr := List.mem_append.mp hr
      · exact hc.readers r hr
      · rw [List.mem_singleton.mp hr]
    · rename_i u hsome
      rw [hsome]
      refine ⟨htry.2.calls, htry.2.balanced, htry.2.lossless_iff.trans (and_congr_right fun _ ↦ ?_)⟩
      exact ⟨fun hhead _ _ ↦ hhead, fun hp ↦ hp hpos htry.1⟩

theorem rawStep {ev : Event} (hc : s.RawCalls) (hb : s.Balanced) (hd : Transfer ev)
    (hs : step s ev = some s') : RawStep s s' (s.Passes ev) := by
  cases ev with
  | input input =>
    cases hs
    by_cases hisig : has s.termios.lflags isig = true
    · rw [ttyInput, if_pos hisig]
      obtain ⟨gone, rest, htook, hcalls, hinputs, hgone, hrest⟩ :=
        @scanInput_took s s.termios.lflags s.termios.iflags hc hc.raw false input
      obtain ⟨hbal, hiff⟩ := htook.balanced hb hc.room hinputs
      refine ⟨hcalls, hbal, hiff.trans (and_congr_right fun _ ↦ ?_)⟩
      by_cases hintr : ∀ ch ∈ input, isCc ch (s.termios.cc vIntr) = false
      · have hscan := @scanIntr_none (s.termios.cc vIntr) (s.fgGroup != 0) false input [] hintr
        rw [List.nil_append] at hscan
        rw [hrest hscan]
        refine and_congr_left' (iff_of_true ?_ fun _ ↦ hintr)
        rw [hgone, hscan]
      · refine iff_of_false (fun h ↦ ?_) fun h ↦ hintr (h.1 hisig)
        exact scanIntr_some hintr (hgone.symm.trans h.1)
    · rw [ttyInput_raw (Bool.not_eq_true _ ▸ hisig) hc.raw]
      obtain ⟨htook, hinputs⟩ := rawInput_took hc.room input
      obtain ⟨hbal, hiff⟩ := htook.balanced hb hc.room fun _ ↦ hinputs
      refine ⟨hc.rawInput input, hbal, hiff.trans (and_congr_right fun _ ↦ ?_)⟩
      exact and_congr_left' (iff_of_true rfl fun h ↦ absurd h hisig)
  | resumeInput k =>
    obtain ⟨i, hi, hs⟩ := Option.bind_eq_some_iff.mp hs
    cases hs
    let u : Tty := { s with inputs := s.inputs.eraseIdx k }
    have hu : u.RawCalls :=
      ⟨hc.raw, fun i hi ↦ hc.inputs i (List.mem_of_mem_eraseIdx hi), hc.readers, hc.room⟩
    have hne : ¬s.Lossless := fun hl ↦ by
      rw [hb.inputs hl.length] at hi
      cases hi
    have hub : u.Balanced := ⟨hb.le, hb.lossless, fun heq ↦ absurd (hb.lossless heq) hne⟩
    obtain ⟨hraw, rest, hat⟩ := hc.inputs i (List.mem_of_getElem? hi)
    obtain ⟨gone, input, htook, hcalls, hinputs, -, -⟩ :=
      @scanInput_took u i.lflags i.iflags hu hraw true rest
    obtain ⟨hbal, hiff⟩ := htook.balanced hub hu.room hinputs
    rw [resumeInput, hat]
    exact ⟨hcalls, hbal, iff_of_false (fun hl ↦ hne (hiff.mp hl).1) fun hl ↦ hne hl.1⟩
  | read size => exact rawStep_read hc hb hs
  | resumeRead k =>
    obtain ⟨r, hr, hs⟩ := Option.bind_eq_some_iff.mp hs
    cases hs
    let u : Tty := { s with readers := s.readers.eraseIdx k }
    have hu : u.RawCalls :=
      ⟨hc.raw, hc.inputs, fun r hr ↦ hc.readers r (List.mem_of_mem_eraseIdx hr), hc.room⟩
    have htry := @rawStep_tryRead u r hu ⟨hb.le, hb.lossless, hb.inputs⟩
      (hc.readers r (List.mem_of_getElem? hr))
    split at htry
    · rename_i hnone
      rw [show Tty.tryRead _ r = none from hnone]
      refine ⟨hc, hb, (and_iff_left fun r' hr' hmin ↦ ?_).symm⟩
      obtain rfl := Option.some.inj (hr.symm.trans hr')
      exact absurd hmin (Nat.not_le.mpr htry)
    · rename_i t hsome
      rw [show Tty.tryRead _ r = some t from hsome]
      refine ⟨htry.2.calls, htry.2.balanced, htry.2.lossless_iff.trans (and_congr_right fun _ ↦ ?_)⟩
      constructor
      · intro hhead r' hr' _
        obtain rfl := Option.some.inj (hr.symm.trans hr')
        exact hhead
      · intro hp
        exact hp r hr htry.1
  | interrupt k =>
    obtain ⟨r, -, hs⟩ := Option.bind_eq_some_iff.mp hs
    cases hs
    exact ⟨⟨hc.raw, hc.inputs, fun r hr ↦ hc.readers r (List.mem_of_mem_eraseIdx hr), hc.room⟩,
      ⟨hb.le, hb.lossless, hb.inputs⟩, (and_iff_left trivial).symm⟩
  | ioctl cmd =>
    cases hs
    cases cmd with
    | tcgets | fionread | setGroup _ =>
      exact ⟨⟨hc.raw, hc.inputs, hc.readers, hc.room⟩, ⟨hb.le, hb.lossless, hb.inputs⟩,
        (and_iff_left trivial).symm⟩
    | tcsets _ | tcsetsw _ | tcsetsf _ | tcflsh _ => exact hd.elim

/-- From an empty buffer in raw mode on, what was read and what is buffered is
what was typed, if and only if every input and every read of the run passes. -/
theorem lossless_iff_guarded {evs : List Event} {t : Tty} (h : s.RawStart)
    (hd : ∀ ev ∈ evs, Transfer ev) (he : exec step s.forget evs = some t) :
    t.Lossless ↔ Guarded step Passes s.forget evs := by
  have hstep (s : Tty) (ev : Event) (t : Tty) (hs : s.RawCalls ∧ s.Balanced) (hd : Transfer ev)
      (ht : step s ev = some t) :
      (t.RawCalls ∧ t.Balanced) ∧ (t.Lossless ↔ s.Lossless ∧ s.Passes ev) := by
    have hraw := rawStep hs.1 hs.2 hd ht
    exact ⟨⟨hraw.calls, hraw.balanced⟩, hraw.lossless_iff⟩
  have hcalls : s.forget.RawCalls := by
    refine ⟨h.raw, fun i hi ↦ ?_, fun r hr ↦ ?_, h.empty.trans_le (Nat.zero_le _)⟩
    · rw [show s.forget.inputs = [] from h.inputs] at hi
      cases hi
    · rw [show s.forget.readers = [] from h.readers] at hr
      cases hr
  have hzero : s.forget.bufsize = 0 := h.empty
  have hl : s.forget.Lossless := by
    have hnil : s.forget.buffered = [] := by
      rw [← List.length_eq_zero_iff, length_buffered, hzero]
    rw [Lossless, hnil]
    rfl
  have hbal : s.forget.Balanced := ⟨hl.length.le, fun _ ↦ hl, fun _ ↦ h.inputs⟩
  exact (exec_iff_guarded hstep ⟨hcalls, hbal⟩ hd he).2.trans (and_iff_right hl)

theorem lossless_null : ∃ t, exec step (fresh (fun _ ↦ 0) ⟨0, 0, 0, 0, 0, fun _ ↦ 0⟩).forget
    [.input [0, 3], .read 1] = some t ∧ t.Lossless := by
  obtain ⟨t, ht⟩ := Option.isSome_iff_exists.mp (show (exec step
    (fresh (fun _ ↦ 0) ⟨0, 0, 0, 0, 0, fun _ ↦ 0⟩).forget [.input [0, 3], .read 1]).isSome from rfl)
  have hs : (fresh (fun _ ↦ 0) ⟨0, 0, 0, 0, 0, fun _ ↦ 0⟩).RawStart := ⟨rfl, rfl, rfl, rfl⟩
  refine ⟨t, ht, (lossless_iff_guarded hs ?_ ht).mpr ?_⟩
  · intro ev hev
    obtain rfl | hev := List.mem_cons.mp hev
    · trivial
    · rw [List.mem_singleton.mp hev]
      trivial
  · refine ⟨⟨nofun, by decide⟩, fun u hu ↦ ?_⟩
    cases hu
    exact ⟨fun _ _ ↦ by decide, fun _ _ ↦ trivial⟩

/-- A line is typed and read, and in raw mode a null byte then comes to the front
of the buffer with the flag of the line's end. -/
theorem not_lossless_null : ∃ s, exec step (fresh (fun _ ↦ 0) plain)
      [.input [97, 10], .resumeInput 0, .read 2, .ioctl (.tcsets ⟨0, 0, 0, 0, 0, fun _ ↦ 0⟩)] =
        some s ∧ s.RawStart ∧
    ∃ t, exec step s.forget [.input [1, 0, 2], .read 1] = some t ∧ ¬t.Lossless := by
  refine ⟨_, rfl, ⟨rfl, rfl, rfl, rfl⟩, _, rfl, fun h ↦ ?_⟩
  have hlen := h.length
  cases hlen

end

end Tty

end Isl.Fs.Terminal
