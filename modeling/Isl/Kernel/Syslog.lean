import Isl.Lib.Loop
import Isl.Lib.Ring
import Mathlib.Data.BitVec
import Mathlib.Data.Int.Notation

/-!
The message buffer of `kernel/log.c`, which is a ring, and the queue of bytes that it
stands for. A copy that would leave the buffer makes a call end in `none`.
-/

namespace Isl.Kernel.Syslog

open Isl.Lib Isl.Lib.Ring

abbrev Byte := BitVec 8
abbrev Dword := BitVec 32

def eFault : ℤ := -14
def eInval : ℤ := -22

/-- `sizeof(log_buf)` -/
def logBufSize : ℕ := 1 <<< 20

/-- The characters of a string in front of its end. -/
structure CString where
  chars : List Byte
  nulFree : 0 ∉ chars

structure Log where
  logBuf : ℕ → Byte
  logHead : ℕ
  logSize : ℕ

/-- The buffer in the beginning. -/
def fresh : Log := ⟨fun _ ↦ 0, 0, 0⟩

/-! Appending. -/

/-- Bytes copied into the buffer, and counted. -/
def Log.put (s : Log) (logP : ℕ) (part : List Byte) : Log :=
  let logBuf := store s.logBuf logP part
  let logSize := s.logSize + part.length
  if logBufSize < logSize then
    ⟨logBuf, (s.logHead + logSize - logBufSize) % logBufSize, logBufSize⟩
  else ⟨logBuf, s.logHead, logSize⟩

/-- The loop of `log_buf_append`, with what is left of the message. -/
structure Appending where
  log : Log
  logP : ℕ
  msg : List Byte

def appendStep (l : Appending) : Appending ⊕ Option Log :=
  if l.msg = [] then .inr (some l.log)
  else
    let logTail := (l.log.logHead + l.log.logSize) % logBufSize
    let len := min (logBufSize - logTail) l.msg.length
    if logBufSize < l.logP + len then .inr none
    else
      .inl ⟨l.log.put l.logP (l.msg.take len), (l.logP + len) % logBufSize, l.msg.drop len⟩

/-- The loop ends, as each turn takes at least one byte. -/
def logBufAppend (s : Log) (msg : CString) : Option Log :=
  (Loop.run appendStep (msg.chars.length + 1)
    ⟨s, (s.logHead + s.logSize) % logBufSize, msg.chars⟩).join

/-! Reading. -/

/-- The loop of `syslog_read`, with the bytes that are in its own buffer. -/
structure Reading where
  logP : ℕ
  bytes : List Byte
  remaining : ℕ

def readStep (s : Log) (l : Reading) : Reading ⊕ Option (List Byte) :=
  if l.remaining = 0 then .inr (some l.bytes)
  else
    let len := min l.remaining (logBufSize - s.logHead)
    if logBufSize < l.logP + len then .inr none
    else .inl ⟨(l.logP + len) % logBufSize, l.bytes ++ slice s.logBuf l.logP len, l.remaining - len⟩

/-- What a call returns, and the bytes that it has copied to the guest. -/
structure Reply where
  result : ℤ
  copied : List Byte

/-- `syslog_read`. Its first argument is not used. `faults` says that `user_write` fails. -/
def syslogRead (s : Log) (_start : ℕ) (total : Dword) (faults : Bool) : Option Reply := do
  -- the comparison is one of unsigned numbers
  let total := min (total.signExtend 64).toNat s.logSize
  let bytes ← (Loop.run (readStep s) (total + 1) ⟨s.logHead, [], total⟩).join
  if faults then some ⟨-1, []⟩ else some ⟨total, bytes⟩

def syslogReadAll (s : Log) (len : Dword) (faults : Bool) : Option Reply :=
  let len := min len.toNat s.logSize
  syslogRead s ((s.logHead + s.logSize - len) % logBufSize) (.ofNat 32 len) faults

inductive SyslogAction
  | close
  | open'
  | read
  | readAll
  | readClear
  | clear
  | consoleOff
  | consoleOn
  | consoleLevel
  | sizeUnread
  | sizeBuffer
  | other

def doSyslog (s : Log) (type : SyslogAction) (len : Dword) (faults : Bool) :
    Option (Log × Reply) :=
  match type with
  | .read => do
    let r ← syslogRead s s.logHead len faults
    if r.result < 0 then some (s, ⟨eFault, r.copied⟩)
    else
      let len := r.result.toNat
      some (⟨s.logBuf, (s.logHead + len) % logBufSize, s.logSize - len⟩, r)
  | .readAll => (syslogReadAll s len faults).map (s, ·)
  | .readClear => (syslogReadAll s len faults).map (⟨s.logBuf, 0, 0⟩, ·)
  | .clear => some (⟨s.logBuf, 0, 0⟩, ⟨0, []⟩)
  | .sizeUnread => some (s, ⟨s.logSize, []⟩)
  | .sizeBuffer => some (s, ⟨logBufSize, []⟩)
  | .close | .open' | .consoleOff | .consoleOn | .consoleLevel => some (s, ⟨0, []⟩)
  | .other => some (s, ⟨eInval, []⟩)

/-! Runs. -/

/-- An `int_t` that is not negative. -/
abbrev Len := { len : Dword // 0 ≤ len.toInt }

inductive Call
  | append (msg : CString)
  | read (len : Len) (faults : Bool)
  | clear

def Call.run (s : Log) : Call → Option (Log × List Reply)
  | .append msg => (logBufAppend s msg).map (·, [])
  | .read len faults => (doSyslog s .read len.val faults).map fun r ↦ (r.1, [r.2])
  | .clear => (doSyslog s .clear 0 false).map fun r ↦ (r.1, [r.2])

/-- The buffer after some calls, and the replies to them. -/
def run (s : Log) : List Call → Option (Log × List Reply)
  | [] => some (s, [])
  | c :: calls => do
    let (s, replies) ← c.run s
    let (s, more) ← run s calls
    some (s, replies ++ more)

/-! The queue. -/

/-- What a call does to a queue that holds at most `logBufSize` bytes. -/
def Call.onQueue (q : List Byte) : Call → List Byte × List Reply
  | .append msg => ((q ++ msg.chars).rtake logBufSize, [])
  | .read _ true => (q, [⟨eFault, []⟩])
  | .read len false => (q.drop len.val.toNat, [⟨(q.take len.val.toNat).length, q.take len.val.toNat⟩])
  | .clear => ([], [⟨0, []⟩])

def runQueue (q : List Byte) : List Call → List Byte × List Reply
  | [] => (q, [])
  | c :: calls =>
    let (q, replies) := c.onQueue q
    let (q, more) := runQueue q calls
    (q, replies ++ more)

namespace Log

/-- The bytes in the buffer, the oldest first. -/
def queue (s : Log) : List Byte := window logBufSize s.logBuf s.logHead s.logSize

structure Valid (s : Log) : Prop where
  head : s.logHead < logBufSize
  size : s.logSize ≤ logBufSize

end Log

section

variable {s : Log} {msg : List Byte}

theorem logBufSize_pos : 0 < logBufSize := by decide

@[simp] theorem Log.length_queue (s : Log) : s.queue.length = s.logSize := length_window

/-- Bytes that fit behind the end of the queue are put there, and the oldest ones go. -/
theorem put_spec {part : List Byte} (h : s.Valid)
    (hp : (s.logHead + s.logSize) % logBufSize + part.length ≤ logBufSize) :
    (s.put ((s.logHead + s.logSize) % logBufSize) part).Valid ∧
      (s.put ((s.logHead + s.logSize) % logBufSize) part).queue =
        (s.queue ++ part).rtake logBufSize ∧
      ((s.put ((s.logHead + s.logSize) % logBufSize) part).logHead +
          (s.put ((s.logHead + s.logSize) % logBufSize) part).logSize) % logBufSize =
        ((s.logHead + s.logSize) % logBufSize + part.length) % logBufSize := by
  have hsize := h.size
  have hlen : part.length ≤ logBufSize := (Nat.le_add_left _ _).trans hp
  obtain ⟨d, hd⟩ : ∃ d, d = s.logSize + part.length - logBufSize := ⟨_, rfl⟩
  have hq : window logBufSize (store s.logBuf ((s.logHead + s.logSize) % logBufSize) part)
      (s.logHead + d) (s.logSize - d + part.length) = (s.queue ++ part).rtake logBufSize := by
    rw [window_store hp (by omega) (by omega), List.rtake, List.length_append,
      Log.length_queue, ← hd]
    rfl
  rw [Nat.mod_add_mod, ← hq]
  unfold Log.put
  dsimp only
  split
  · rename_i hover
    have hfront : s.logHead + (s.logSize + part.length) - logBufSize = s.logHead + d := by omega
    have hfull : s.logSize - d + part.length = logBufSize := by omega
    refine ⟨⟨Nat.mod_lt _ logBufSize_pos, le_rfl⟩, ?_, ?_⟩
    · rw [Log.queue, hfront, window_mod, hfull]
    · have hround : s.logHead + s.logSize + part.length = s.logHead + d + logBufSize := by omega
      rw [hfront, Nat.mod_add_mod, hround]
  · rename_i hfits
    have hzero : d = 0 := by omega
    refine ⟨⟨h.head, Nat.not_lt.mp hfits⟩, ?_, ?_⟩
    · rw [hzero]
      rfl
    · rw [Nat.add_assoc]

/-- One turn of the loop puts a first part of the message at the end of the queue. -/
theorem appendStep_spec (h : s.Valid) (hmsg : msg ≠ []) : ∃ len s', 0 < len ∧ s'.Valid ∧
    s'.queue = (s.queue ++ msg.take len).rtake logBufSize ∧
    appendStep ⟨s, (s.logHead + s.logSize) % logBufSize, msg⟩ =
      .inl ⟨s', (s'.logHead + s'.logSize) % logBufSize, msg.drop len⟩ := by
  have htail := Nat.mod_lt (s.logHead + s.logSize) logBufSize_pos
  have hmsgPos := List.length_pos_of_ne_nil hmsg
  obtain ⟨len, hlen⟩ : ∃ len, len =
    min (logBufSize - (s.logHead + s.logSize) % logBufSize) msg.length := ⟨_, rfl⟩
  have hpart : (msg.take len).length = len := List.length_take_of_le (by omega)
  have hp : (s.logHead + s.logSize) % logBufSize + len ≤ logBufSize := by omega
  obtain ⟨hvalid, hqueue, hend⟩ := @put_spec s (msg.take len) h (by rwa [hpart])
  refine ⟨len, _, by omega, hvalid, hqueue, ?_⟩
  rw [appendStep, if_neg hmsg, hend, hpart]
  simp only [← hlen]
  rw [if_neg (Nat.not_lt.mpr hp)]

theorem append_loop {n : ℕ} (h : s.Valid) (hn : msg.length < n) : ∃ s', s'.Valid ∧
    s'.queue = (s.queue ++ msg).rtake logBufSize ∧
    Loop.run appendStep n ⟨s, (s.logHead + s.logSize) % logBufSize, msg⟩ = some (some s') := by
  induction n generalizing s msg with
  | zero => cases hn
  | succ n ih =>
    by_cases hmsg : msg = []
    · refine ⟨s, h, ?_, ?_⟩
      · rw [hmsg, List.append_nil, List.rtake, Log.length_queue, Nat.sub_eq_zero_of_le h.size]
        rfl
      · rw [Loop.run, appendStep, if_pos hmsg]
    · obtain ⟨len, s₁, hpos, hvalid, hqueue, hstep⟩ := appendStep_spec h hmsg
      have hmsgPos := List.length_pos_of_ne_nil hmsg
      obtain ⟨s', hvalid', hqueue', hrun⟩ := @ih s₁ (msg.drop len) hvalid
        (by rw [List.length_drop]; omega)
      refine ⟨s', hvalid', ?_, ?_⟩
      · rw [hqueue', hqueue, rtake_rtake_append, List.append_assoc, List.take_append_drop]
      · rw [Loop.run, hstep]
        exact hrun

/-- The loop of `syslog_read` after `c` bytes, of which the first ones went up to the end
of the buffer if there are more to come. -/
theorem read_loop {n c r : ℕ} (h : s.Valid) (hr : c + r ≤ logBufSize)
    (hc : c = 0 ∨ logBufSize - s.logHead ≤ c ∨ r = 0) (hn : r < n) :
    Loop.run (readStep s) n
        ⟨(s.logHead + c) % logBufSize, window logBufSize s.logBuf s.logHead c, r⟩ =
      some (some (window logBufSize s.logBuf s.logHead (c + r))) := by
  induction n generalizing c r with
  | zero => cases hn
  | succ n ih =>
    by_cases hzero : r = 0
    · rw [Loop.run, readStep, if_pos hzero, hzero]
      rfl
    · have hhead := h.head
      obtain ⟨len, hlen⟩ : ∃ len, len = min r (logBufSize - s.logHead) := ⟨_, rfl⟩
      have hp : (s.logHead + c) % logBufSize + len ≤ logBufSize := by
        rcases hc with hc | hc | hc
        · rw [hc, Nat.add_zero, Nat.mod_eq_of_lt hhead]
          omega
        · rw [Nat.mod_eq_sub_mod (by omega), Nat.mod_eq_of_lt (by omega)]
          omega
        · exact absurd hc hzero
      have hbytes : window logBufSize s.logBuf s.logHead c ++
          slice s.logBuf ((s.logHead + c) % logBufSize) len =
            window logBufSize s.logBuf s.logHead (c + len) := by
        rw [window_add, ← window_eq_slice hp, window_mod]
      have hstep : readStep s
          ⟨(s.logHead + c) % logBufSize, window logBufSize s.logBuf s.logHead c, r⟩ =
          .inl ⟨(s.logHead + (c + len)) % logBufSize,
            window logBufSize s.logBuf s.logHead (c + len), r - len⟩ := by
        rw [readStep, if_neg hzero]
        simp only [← hlen]
        rw [if_neg (Nat.not_lt.mpr hp), hbytes, Nat.mod_add_mod, Nat.add_assoc]
      have hsum : c + len + (r - len) = c + r := by omega
      rw [Loop.run, hstep]
      dsimp only
      rw [ih (by omega) (by omega) (by omega), hsum]

theorem syslogRead_spec (h : s.Valid) (start : ℕ) (total : Dword) (faults : Bool) :
    syslogRead s start total faults =
      if faults then some ⟨-1, []⟩
      else some ⟨(s.queue.take (total.signExtend 64).toNat).length,
        s.queue.take (total.signExtend 64).toNat⟩ := by
  obtain ⟨n, hn⟩ : ∃ n, n = min (total.signExtend 64).toNat s.logSize := ⟨_, rfl⟩
  have hloop := read_loop (n := n + 1) (c := 0) (r := n) h
    ((Nat.zero_add n).trans_le (hn ▸ (Nat.min_le_right _ _).trans h.size)) (.inl rfl)
    (Nat.lt_succ_self n)
  have hstart : (⟨(s.logHead + 0) % logBufSize, window logBufSize s.logBuf s.logHead 0, n⟩ :
      Reading) = ⟨s.logHead, [], n⟩ := by
    rw [Nat.add_zero, Nat.mod_eq_of_lt h.head]
    rfl
  rw [hstart, Nat.zero_add] at hloop
  have htake : s.queue.take (total.signExtend 64).toNat =
      window logBufSize s.logBuf s.logHead n := by
    rw [List.take_eq_take_min, Log.length_queue, ← hn]
    exact take_window (hn ▸ Nat.min_le_right _ _)
  rw [syslogRead]
  simp only [← hn, hloop, htake, length_window]
  rfl

theorem toNat_signExtend_len (len : Len) : (len.val.signExtend 64).toNat = len.val.toNat := by
  have hmsb : len.val.msb = false := by
    rw [BitVec.msb_eq_toInt]
    exact decide_eq_false (not_lt.mpr len.property)
  rw [BitVec.signExtend_eq_setWidth_of_msb_false hmsb]
  exact BitVec.toNat_setWidth_of_le (by decide)

/-- A call does to the queue in the buffer what it should, and replies as it should. -/
theorem Call.run_spec (h : s.Valid) (c : Call) : ∃ s', s'.Valid ∧
    s'.queue = (c.onQueue s.queue).1 ∧ c.run s = some (s', (c.onQueue s.queue).2) := by
  cases c with
  | append msg =>
    obtain ⟨s', hvalid, hqueue, hrun⟩ := append_loop h (Nat.lt_succ_self msg.chars.length)
    refine ⟨s', hvalid, ?_, ?_⟩
    · rw [Call.onQueue, hqueue]
    · rw [Call.run, logBufAppend, hrun]
      rfl
  | read len faults =>
    have hread := syslogRead_spec h s.logHead len.val faults
    rw [toNat_signExtend_len] at hread
    cases faults with
    | true =>
      refine ⟨s, h, rfl, ?_⟩
      rw [Call.run, doSyslog, hread]
      rfl
    | false =>
      obtain ⟨n, hn⟩ : ∃ n, n = (s.queue.take len.val.toNat).length := ⟨_, rfl⟩
      have hle : n ≤ s.logSize := by
        rw [hn, List.length_take, Log.length_queue]
        exact Nat.min_le_right _ _
      have hdrop : s.queue.drop len.val.toNat = s.queue.drop n := by
        rw [hn, List.length_take, ← List.drop_eq_drop_min]
      refine ⟨⟨s.logBuf, (s.logHead + n) % logBufSize, s.logSize - n⟩,
        ⟨Nat.mod_lt _ logBufSize_pos, (Nat.sub_le _ _).trans h.size⟩, ?_, ?_⟩
      · rw [Call.onQueue, hdrop, Log.queue, window_mod]
        exact (drop_window hle).symm
      · rw [Call.run, doSyslog, hread, Call.onQueue, hn]
        rfl
  | clear => exact ⟨⟨s.logBuf, 0, 0⟩, ⟨logBufSize_pos, Nat.zero_le logBufSize⟩, rfl, rfl⟩

theorem run_spec (h : s.Valid) (calls : List Call) : ∃ s', s'.Valid ∧
    s'.queue = (runQueue s.queue calls).1 ∧ run s calls = some (s', (runQueue s.queue calls).2) := by
  induction calls generalizing s with
  | nil => exact ⟨s, h, rfl, rfl⟩
  | cons c calls ih =>
    obtain ⟨s₁, hvalid, hqueue, hrun⟩ := c.run_spec h
    obtain ⟨s₂, hvalid', hqueue', hrun'⟩ := ih hvalid
    rw [hqueue] at hqueue' hrun'
    refine ⟨s₂, hvalid', hqueue', ?_⟩
    rw [run, hrun]
    simp only [Option.bind_eq_bind, Option.bind_some, hrun', runQueue]

/-- The buffer is a queue of at most `logBufSize` bytes: no copy of any run of calls leaves
it, its fields stay in their ranges, and the replies are those of the queue. -/
theorem log_is_queue (calls : List Call) : ∃ s, s.Valid ∧ s.queue = (runQueue [] calls).1 ∧
    run fresh calls = some (s, (runQueue [] calls).2) :=
  run_spec (s := fresh) ⟨logBufSize_pos, Nat.zero_le logBufSize⟩ calls

/-! Reading all, and clearing. -/

/-- The reply is the end of the queue, which stays or is cleared. A copy that fails is an
error, and then the queue stays too. -/
def ReadsLast (s : Log) (clears : Bool) (len : Len) (faults : Bool) : Prop :=
  ∃ s' r, doSyslog s (if clears then .readClear else .readAll) len.val faults = some (s', r) ∧
    if faults then r.result = eFault ∧ s' = s
    else r = ⟨(s.queue.rtake len.val.toNat).length, s.queue.rtake len.val.toNat⟩ ∧
      if clears then s'.queue = [] else s' = s

theorem toNat_signExtend_small {n : ℕ} (hn : n ≤ logBufSize) :
    ((BitVec.ofNat 32 n).signExtend 64).toNat = n := by
  have hbuf : logBufSize = 2 ^ 20 := rfl
  have htoNat : (BitVec.ofNat 32 n).toNat = n := Nat.mod_eq_of_lt (by omega)
  have hmsb : (BitVec.ofNat 32 n).msb = false := by
    rw [BitVec.msb_eq_decide, htoNat]
    exact decide_eq_false (by omega)
  rw [BitVec.signExtend_eq_setWidth_of_msb_false hmsb, BitVec.toNat_setWidth_of_le (by decide),
    htoNat]

/-- It is the front of the queue that is copied, wherever the reading should start. -/
theorem syslogReadAll_spec (h : s.Valid) (len : Dword) (faults : Bool) :
    syslogReadAll s len faults =
      if faults then some ⟨-1, []⟩
      else some ⟨(s.queue.take len.toNat).length, s.queue.take len.toNat⟩ := by
  have htake : s.queue.take (min len.toNat s.logSize) = s.queue.take len.toNat := by
    rw [← Log.length_queue, ← List.take_eq_take_min]
  rw [syslogReadAll, syslogRead_spec h,
    toNat_signExtend_small ((Nat.min_le_right _ _).trans h.size), htake]

theorem readsLast_iff {s : Log} (h : s.Valid) (clears : Bool) (len : Len) (faults : Bool) :
    ReadsLast s clears len faults ↔
      faults = false ∧ s.queue.take len.val.toNat = s.queue.rtake len.val.toNat := by
  have hread := syslogReadAll_spec h len.val faults
  have hcall : ∃ s', (clears = true → s'.queue = []) ∧ (clears = false → s' = s) ∧
      doSyslog s (if clears then .readClear else .readAll) len.val faults =
        (syslogReadAll s len.val faults).map (s', ·) := by
    cases clears
    · exact ⟨s, fun hne ↦ Bool.noConfusion hne, fun _ ↦ rfl, rfl⟩
    · exact ⟨⟨s.logBuf, 0, 0⟩, fun _ ↦ rfl, fun hne ↦ Bool.noConfusion hne, rfl⟩
  obtain ⟨s', hclears, hkeeps, hcall⟩ := hcall
  rw [ReadsLast, hcall, hread]
  cases faults with
  | true =>
    -- the error of the copy is returned as it is
    refine iff_of_false ?_ fun hne ↦ Bool.noConfusion hne.1
    rintro ⟨_, r, hsome, hfault, -⟩
    obtain ⟨-, rfl⟩ := Prod.mk.inj (Option.some.inj hsome)
    exact absurd hfault (by decide)
  | false =>
    simp only [Bool.false_eq_true, if_false, Option.map_some, true_and]
    constructor
    · rintro ⟨_, _, hsome, rfl, -⟩
      obtain ⟨-, hreply⟩ := Prod.mk.inj (Option.some.inj hsome)
      exact congrArg Reply.copied hreply
    · intro hlast
      refine ⟨s', _, rfl, by rw [hlast], ?_⟩
      cases clears with
      | true => exact hclears rfl
      | false => exact hkeeps rfl

theorem readsLast_iff_fresh : fresh.Valid ∧ (ReadsLast fresh false ⟨1, by decide⟩ false ↔
    false = false ∧ fresh.queue.take (1 : Dword).toNat = fresh.queue.rtake (1 : Dword).toNat) :=
  ⟨⟨logBufSize_pos, Nat.zero_le logBufSize⟩,
    readsLast_iff ⟨logBufSize_pos, Nat.zero_le logBufSize⟩ false ⟨1, by decide⟩ false⟩

/-- The older of two bytes is read. -/
theorem not_readsLast_two : ¬ ∀ (s : Log) (clears : Bool) (len : Len) (faults : Bool), s.Valid →
    ReadsLast s clears len faults := by
  intro h
  have hvalid : Log.Valid ⟨fun i ↦ BitVec.ofNat 8 i, 0, 2⟩ :=
    ⟨logBufSize_pos, Nat.succ_le_of_lt (by decide)⟩
  obtain ⟨_, r, hsome, rfl, -⟩ := h _ false ⟨1, by decide⟩ false hvalid
  have hread := syslogReadAll_spec hvalid 1 false
  rw [if_neg Bool.false_ne_true, doSyslog, hread] at hsome
  obtain ⟨-, hreply⟩ := Prod.mk.inj (Option.some.inj hsome)
  exact absurd (congrArg Reply.copied hreply) (by decide)

end

end Isl.Kernel.Syslog
