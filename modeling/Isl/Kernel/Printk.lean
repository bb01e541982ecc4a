import Isl.Kernel.Syslog
import Isl.Lib.CString
import Isl.Lib.Lines
import Isl.Lib.Run

/-!
`vprintk` of `kernel/log.c`: each thread gathers its text in a buffer of its own, and
gives the lines of it away while it holds `log_lock`. Everything else a thread does
may come between the steps of another.
-/

namespace Isl.Kernel.Printk

open Isl.Lib Isl.Lib.CString Syslog

def newline : Byte := 10

def bufLen : ℕ := 4096

structure Local where
  buf : List Byte
  bufSize : ℕ

/-- Where the thread is: outside of `vprintk`, at the lock, or behind the lock with its
pointer `b`. -/
inductive Phase
  | idle
  | formatted
  | printed (b : ℕ)
deriving DecidableEq

structure Caller where
  vars : Local
  phase : Phase

/-- What the lock protects: the lines given to `log_line`, with the threads that gave
them, and the ring. -/
structure Console (T : Type) where
  lines : List (T × List Byte)
  log : Log

/-- The string at a pointer. -/
def stringAt (buf : List Byte) (b : ℕ) : CString where
  chars := (buf.drop b).takeWhile (· != 0)
  nulFree h := by simpa using List.mem_takeWhile_imp h

/-- `strchr`, which has no result where the string has no end. -/
def strchr (buf : List Byte) (b : ℕ) (c : Byte) : Option (Option ℕ) := do
  let p ← scanFrom (fun x ↦ x == c || x == 0) buf b
  some (if buf[p]? = some c then some p else none)

/-- `vsprintf` to the end of the text, with `msg` for the formatted message. It may not
leave the buffer. -/
def Local.format (v : Local) (msg : CString) : Option Local :=
  if v.bufSize + msg.chars.length < bufLen then
    some ⟨v.buf.take v.bufSize ++
      (msg.chars ++ 0 :: v.buf.drop (v.bufSize + msg.chars.length + 1)),
      (v.bufSize + msg.chars.length) % 2 ^ 64⟩
  else none

def Local.shift (v : Local) (b : ℕ) : Option Local := do
  let q ← scanFrom (· == 0) v.buf b
  some ⟨(v.buf.drop b).take (q - b + 1) ++ v.buf.drop (q - b + 1), v.bufSize⟩

section

variable {T : Type}

def Console.outputLine (s : Console T) (t : T) (line : CString) : Option (Console T) := do
  let log ← logBufAppend s.log line
  let log ← logBufAppend log ⟨[newline], by decide⟩
  some ⟨s.lines ++ [(t, line.chars)], log⟩

structure Flushing (T : Type) where
  console : Console T
  vars : Local
  b : ℕ

def flushTurn (t : T) (f : Flushing T) : Flushing T ⊕ Option (Flushing T) :=
  match strchr f.vars.buf f.b newline with
  | none => .inr none
  | some none => .inr (some f)
  | some (some p) =>
    let buf := f.vars.buf.set p 0
    match f.console.outputLine t (stringAt buf f.b) with
    | none => .inr none
    | some console =>
      .inl ⟨console, ⟨buf.set p newline, (f.vars.bufSize + 2 ^ 64 - (p + 1 - f.b)) % 2 ^ 64⟩, p + 1⟩

/-- The loop ends, as each turn passes a byte of the buffer. -/
def flush (t : T) (console : Console T) (v : Local) : Option (Flushing T) :=
  (Loop.run (flushTurn t) (bufLen + 1) ⟨console, v, 0⟩).join

/-! Threads. -/

structure System (T : Type) where
  callers : T → Caller
  console : Console T

inductive Action (T : Type)
  | format (t : T) (msg : CString)
  | flush (t : T)
  | shift (t : T)
  | read (len : Len) (faults : Bool)
  | clear

variable [DecidableEq T]

namespace System

def init : System T := ⟨fun _ ↦ ⟨⟨List.replicate bufLen 0, 0⟩, .idle⟩, ⟨[], fresh⟩⟩

def setCaller (s : System T) (t : T) (c : Caller) : System T :=
  { s with callers := Function.update s.callers t c }

def setLog (s : System T) (log : Log) : System T := { s with console := ⟨s.console.lines, log⟩ }

def step (s : System T) : Action T → Option (System T)
  | .format t msg =>
    if (s.callers t).phase = .idle then
      ((s.callers t).vars.format msg).map fun v ↦ s.setCaller t ⟨v, .formatted⟩
    else none
  | .flush t =>
    if (s.callers t).phase = .formatted then
      (Printk.flush t s.console (s.callers t).vars).map fun f ↦
        ⟨Function.update s.callers t ⟨f.vars, .printed f.b⟩, f.console⟩
    else none
  | .shift t =>
    match (s.callers t).phase with
    | .printed b => ((s.callers t).vars.shift b).map fun v ↦ s.setCaller t ⟨v, .idle⟩
    | _ => none
  | .read len faults => (Call.run s.console.log (.read len faults)).map fun r ↦ s.setLog r.1
  | .clear => (Call.run s.console.log .clear).map fun r ↦ s.setLog r.1

end System

/-! The texts themselves. -/

inductive Stage
  | idle
  | formatted
  | printed
deriving DecidableEq

/-- The text of each thread that has not been printed, the lines that have, and the
newest bytes of these. -/
structure Texts (T : Type) where
  stage : T → Stage
  pending : T → List Byte
  lines : List (T × List Byte)
  queue : List Byte

def text (lines : List (List Byte)) : List Byte := lines.flatMap (· ++ [newline])

namespace Texts

def init : Texts T := ⟨fun _ ↦ .idle, fun _ ↦ [], [], []⟩

def step (a : Texts T) : Action T → Option (Texts T)
  | .format t msg =>
    if a.stage t = .idle ∧ (a.pending t).length + msg.chars.length < bufLen then
      some { a with
        stage := Function.update a.stage t .formatted
        pending := Function.update a.pending t (a.pending t ++ msg.chars) }
    else none
  | .flush t =>
    if a.stage t = .formatted then
      let (lines, rest) := Lines.cut newline (a.pending t)
      some {
        stage := Function.update a.stage t .printed
        pending := Function.update a.pending t rest
        lines := a.lines ++ lines.map (t, ·)
        queue := (a.queue ++ text lines).rtake logBufSize }
    else none
  | .shift t =>
    if a.stage t = .printed then some { a with stage := Function.update a.stage t .idle } else none
  | .read len faults => some { a with queue := (Call.onQueue a.queue (.read len faults)).1 }
  | .clear => some { a with queue := [] }

def linesOf (a : Texts T) (t : T) : List (List Byte) :=
  (a.lines.filter fun l ↦ l.1 = t).map Prod.snd

end Texts

def saidBy (t : T) (actions : List (Action T)) : List Byte :=
  actions.flatMap fun
    | .format u msg => if u = t then msg.chars else []
    | _ => []

end

/-! One buffer. -/

section

variable {T : Type} {t : T} {pre mid post junk text : List Byte} {b p : ℕ}

theorem ne_zero_of_mem {x : Byte} (h : 0 ∉ text) (hx : x ∈ text) : (x == 0) = false :=
  beq_eq_false_iff_ne.mpr fun hzero ↦ h (hzero ▸ hx)

theorem stringAt_append (h : 0 ∉ mid) :
    (stringAt (pre ++ (mid ++ 0 :: post)) pre.length).chars = mid := by
  have hall : ∀ x ∈ mid, (x != 0) = true := fun x hx ↦ by
    rw [bne, ne_zero_of_mem h hx]
    rfl
  change ((pre ++ (mid ++ 0 :: post)).drop pre.length).takeWhile (· != 0) = mid
  rw [List.drop_left, List.takeWhile_append_of_pos hall, List.takeWhile_cons_of_neg (by simp),
    List.append_nil]

theorem strchr_append {c : Byte} (h : 0 ∉ mid) (hnl : newline ∉ mid)
    (hc : (c == newline || c == 0) = true) : strchr (pre ++ (mid ++ c :: post)) pre.length newline =
      some (if c = newline then some (pre.length + mid.length) else none) := by
  have hmid : ∀ x ∈ mid, (x == newline || x == 0) = false := fun x hx ↦ by
    rw [ne_zero_of_mem h hx, Bool.or_false]
    exact beq_eq_false_iff_ne.mpr fun heq ↦ hnl (heq ▸ hx)
  rw [strchr, scanFrom_append hmid hc, Option.bind_eq_bind, Option.bind_some,
    ← List.append_assoc, ← List.length_append, getElem?_length]
  simp only [Option.some.injEq]

theorem strchr_newline (h : 0 ∉ mid) (hnl : newline ∉ mid) :
    strchr (pre ++ (mid ++ newline :: post)) pre.length newline =
      some (some (pre.length + mid.length)) :=
  (strchr_append h hnl rfl).trans (congrArg some (if_pos rfl))

theorem strchr_null (h : 0 ∉ mid) (hnl : newline ∉ mid) :
    strchr (pre ++ (mid ++ 0 :: post)) pre.length newline = some none :=
  (strchr_append h hnl rfl).trans (congrArg some (if_neg (by decide)))

/-- The variables of a thread hold a text from the `b`th byte on. -/
structure Local.Holds (v : Local) (b : ℕ) (text : List Byte) : Prop where
  layout : ∃ pre junk, v.buf = pre ++ (text ++ 0 :: junk) ∧ pre.length = b
  length : v.buf.length = bufLen
  size : v.bufSize = text.length
  nulFree : 0 ∉ text

theorem Local.Holds.length_lt {v : Local} (h : v.Holds b text) : b + text.length < bufLen := by
  obtain ⟨pre, junk, hbuf, hpre⟩ := h.layout
  have hlen := h.length
  rw [hbuf, List.length_append, List.length_append, List.length_cons] at hlen
  omega

theorem Local.Holds.format {v : Local} (h : v.Holds 0 text) {msg : CString}
    (hlen : text.length + msg.chars.length < bufLen) :
    ∃ v', v.format msg = some v' ∧ v'.Holds 0 (text ++ msg.chars) := by
  obtain ⟨pre, junk, hbuf, hpre⟩ := h.layout
  rw [List.length_eq_zero_iff.mp hpre, List.nil_append] at hbuf
  have hfits : v.bufSize + msg.chars.length < bufLen := by rwa [h.size]
  have hbound : bufLen < 2 ^ 64 := by decide
  refine ⟨_, if_pos hfits, ⟨⟨[], v.buf.drop (v.bufSize + msg.chars.length + 1), ?_, rfl⟩, ?_, ?_, ?_⟩⟩
  · rw [List.nil_append, List.append_assoc, hbuf, h.size, List.take_left]
  · have hblen := h.length
    rw [List.length_append, List.length_append, List.length_cons, List.length_take,
      List.length_drop]
    omega
  · rw [Nat.mod_eq_of_lt (by omega), h.size, List.length_append]
  · intro hzero
    exact (List.mem_append.mp hzero).elim h.nulFree msg.nulFree

theorem Local.Holds.shift {v : Local} (h : v.Holds b text) :
    ∃ v', v.shift b = some v' ∧ v'.Holds 0 text := by
  obtain ⟨pre, junk, hbuf, rfl⟩ := h.layout
  have hscan : scanFrom (· == 0) v.buf pre.length = some (pre.length + text.length) := by
    rw [hbuf]
    exact scanFrom_append (fun x hx ↦ ne_zero_of_mem h.nulFree hx) rfl
  have hcut : (v.buf.drop pre.length).take (text.length + 1) = text ++ [0] := by
    have hlen : text.length + 1 = (text ++ [0]).length := by
      rw [List.length_append, List.length_singleton]
    rw [hbuf, List.drop_left, List.append_cons, hlen, List.take_left]
  have hshift : v.shift pre.length =
      some ⟨(text ++ [0]) ++ v.buf.drop (text.length + 1), v.bufSize⟩ := by
    rw [Local.shift, hscan, Option.bind_eq_bind, Option.bind_some, Nat.add_sub_cancel_left, hcut]
  refine ⟨_, hshift, ⟨[], v.buf.drop (text.length + 1), ?_, rfl⟩, ?_, h.size, h.nulFree⟩
  · rw [List.nil_append, List.append_assoc]
    rfl
  · have hlen := h.length
    have hlt := h.length_lt
    rw [List.length_append, List.length_append, List.length_singleton, List.length_drop]
    omega

/-! The lines of one buffer. -/

theorem outputLine_spec {s : Console T} (h : s.log.Valid) (line : CString) : ∃ s',
    s.outputLine t line = some s' ∧ s'.log.Valid ∧ s'.lines = s.lines ++ [(t, line.chars)] ∧
      s'.log.queue = (s.log.queue ++ (line.chars ++ [newline])).rtake logBufSize := by
  obtain ⟨log₁, hvalid₁, hqueue₁, hrun₁⟩ := append_loop h (Nat.lt_succ_self line.chars.length)
  obtain ⟨log₂, hvalid₂, hqueue₂, hrun₂⟩ :=
    append_loop hvalid₁ (Nat.lt_succ_self [newline].length)
  refine ⟨⟨_, log₂⟩, ?_, hvalid₂, rfl, ?_⟩
  · rw [Console.outputLine, logBufAppend, hrun₁]
    simp only [Option.join_some, Option.bind_eq_bind, Option.bind_some, logBufAppend, hrun₂]
  · rw [hqueue₂, hqueue₁, Ring.rtake_rtake_append, List.append_assoc]

/-- What the loop over the lines does with a text, in as many turns as it has bytes. -/
theorem flush_loop {f : Flushing T} {n : ℕ} (hlog : f.console.log.Valid)
    (h : f.vars.Holds f.b text) (hn : text.length < n) :
    ∃ g, Loop.run (flushTurn t) n f = some (some g) ∧ g.console.log.Valid ∧
      g.vars.Holds g.b (Lines.cut newline text).2 ∧
      g.console.lines = f.console.lines ++ (Lines.cut newline text).1.map (t, ·) ∧
      g.console.log.queue =
        (f.console.log.queue ++ Printk.text (Lines.cut newline text).1).rtake logBufSize := by
  induction n generalizing f text with
  | zero => cases hn
  | succ n ih =>
    obtain ⟨pre, junk, hbuf, hpre⟩ := h.layout
    by_cases hnl : newline ∈ text
    · obtain ⟨mid, post, rfl, hmid⟩ := List.eq_append_cons_of_mem hnl
      have hzero : 0 ∉ mid := fun hz ↦ h.nulFree (List.mem_append_left _ hz)
      have hbuf' : f.vars.buf = pre ++ (mid ++ newline :: (post ++ 0 :: junk)) := by
        rw [hbuf, List.append_assoc]
        rfl
      have hfind : strchr f.vars.buf f.b newline = some (some (f.b + mid.length)) := by
        rw [hbuf', ← hpre]
        exact strchr_newline hzero hmid
      have hset (c d : Byte) (rest : List Byte) :
          (pre ++ (mid ++ c :: rest)).set (f.b + mid.length) d = pre ++ (mid ++ d :: rest) := by
        rw [← hpre, ← List.append_assoc, ← List.length_append, set_length, List.append_assoc]
      have hline : (stringAt (f.vars.buf.set (f.b + mid.length) 0) f.b).chars = mid := by
        rw [hbuf', hset, ← hpre]
        exact stringAt_append hzero
      obtain ⟨s', hout, hvalid, hlines, hqueue⟩ :=
        @outputLine_spec T t f.console hlog (stringAt (f.vars.buf.set (f.b + mid.length) 0) f.b)
      rw [hline] at hlines hqueue
      have hlen : (mid ++ newline :: post).length = mid.length + 1 + post.length := by
        rw [List.length_append, List.length_cons]
        omega
      have hsize := h.size
      have hlt := h.length_lt
      have hbound : bufLen < 2 ^ 64 := by decide
      have hholds : (Local.mk ((f.vars.buf.set (f.b + mid.length) 0).set (f.b + mid.length) newline)
          ((f.vars.bufSize + 2 ^ 64 - (f.b + mid.length + 1 - f.b)) % 2 ^ 64)).Holds
          (f.b + mid.length + 1) post := by
        refine ⟨⟨pre ++ (mid ++ [newline]), junk, ?_, ?_⟩, ?_, ?_, fun hz ↦ h.nulFree ?_⟩
        · rw [hbuf', hset, hset]
          simp
        · rw [List.length_append, List.length_append, List.length_singleton, hpre, Nat.add_assoc]
        · rw [List.length_set, List.length_set, h.length]
        · dsimp only
          omega
        · exact List.mem_append_right _ (List.mem_cons_of_mem _ hz)
      obtain ⟨g, hrun, hgvalid, hgholds, hglines, hgqueue⟩ :=
        @ih _ ⟨s', _, _⟩ hvalid hholds (by omega)
      rw [Lines.cut_append hmid]
      refine ⟨g, ?_, hgvalid, hgholds, ?_, ?_⟩
      · rw [Loop.run, flushTurn, hfind]
        simp only [hout]
        exact hrun
      · rw [hglines, hlines, List.append_assoc]
        rfl
      · rw [hgqueue, hqueue, Ring.rtake_rtake_append, List.append_assoc]
        rfl
    · have hfind : strchr f.vars.buf f.b newline = some none := by
        rw [hbuf, ← hpre]
        exact strchr_null h.nulFree hnl
      rw [Lines.cut_of_notMem hnl]
      refine ⟨f, ?_, hlog, h, (List.append_nil _).symm, ?_⟩
      · rw [Loop.run, flushTurn, hfind]
      · have hle : f.console.log.queue.length ≤ logBufSize := by
          rw [Log.length_queue]
          exact hlog.size
        rw [Printk.text, List.flatMap_nil, List.append_nil, List.rtake, Nat.sub_eq_zero_of_le hle]
        rfl

end

/-! Threads. -/

def Phase.offset : Phase → ℕ
  | .printed b => b
  | _ => 0

def Phase.stage : Phase → Stage
  | .idle => .idle
  | .formatted => .formatted
  | .printed _ => .printed

structure Caller.Matches (c : Caller) (stage : Stage) (text : List Byte) : Prop where
  holds : c.vars.Holds c.phase.offset text
  stage : c.phase.stage = stage

section

variable {T : Type} [DecidableEq T] {s : System T} {a a' : Texts T} {t : T}
  {actions : List (Action T)}

/-- The buffers hold the texts, and the ring the newest of what was printed. -/
structure Abstracts (s : System T) (a : Texts T) : Prop where
  log : s.console.log.Valid
  queue : s.console.log.queue = a.queue
  lines : s.console.lines = a.lines
  caller : ∀ t, (s.callers t).Matches (a.stage t) (a.pending t)

omit [DecidableEq T] in
theorem abstracts_init : Abstracts (System.init : System T) Texts.init where
  log := ⟨logBufSize_pos, Nat.zero_le logBufSize⟩
  queue := rfl
  lines := rfl
  caller _ := by
    refine ⟨⟨⟨[], List.replicate (bufLen - 1) 0, ?_, rfl⟩, ?_, rfl, List.not_mem_nil⟩, rfl⟩
    · exact (List.replicate_succ).trans rfl
    · exact List.length_replicate

theorem Abstracts.setCaller (h : Abstracts s a) (t : T) {c : Caller} {stage : Stage}
    {text : List Byte} (hc : c.Matches stage text) (u : T) :
    (Function.update s.callers t c u).Matches (Function.update a.stage t stage u)
      (Function.update a.pending t text u) := by
  by_cases hu : u = t
  · subst hu
    rwa [Function.update_self, Function.update_self, Function.update_self]
  · rw [Function.update_of_ne hu, Function.update_of_ne hu, Function.update_of_ne hu]
    exact h.caller u

theorem Caller.Matches.phase_eq_idle {c : Caller} {text : List Byte} (h : c.Matches .idle text) :
    c.phase = .idle := by
  have hs := h.stage
  revert hs
  cases c.phase <;> simp [Phase.stage]

theorem Caller.Matches.phase_eq_formatted {c : Caller} {text : List Byte}
    (h : c.Matches .formatted text) : c.phase = .formatted := by
  have hs := h.stage
  revert hs
  cases c.phase <;> simp [Phase.stage]

theorem Caller.Matches.phase_eq_printed {c : Caller} {text : List Byte}
    (h : c.Matches .printed text) : ∃ b, c.phase = .printed b := by
  have hs := h.stage
  revert hs
  cases c.phase <;> simp [Phase.stage]

omit [DecidableEq T] in
theorem Abstracts.onLog (h : Abstracts s a) (c : Call) :
    ∃ r, c.run s.console.log = some r ∧
      Abstracts (s.setLog r.1) { a with queue := (c.onQueue a.queue).1 } := by
  obtain ⟨log, hvalid, hqueue, hrun⟩ := c.run_spec h.log
  rw [h.queue] at hqueue
  exact ⟨_, hrun, hvalid, hqueue, h.lines, h.caller⟩

/-- What a thread does to its buffer and the ring is what it does to the texts. -/
theorem Abstracts.step {action : Action T} (h : Abstracts s a) (ha : a.step action = some a') :
    ∃ s', s.step action = some s' ∧ Abstracts s' a' := by
  cases action with
  | format t msg =>
    obtain ⟨⟨hstage, hlen⟩, ha⟩ := Option.ite_none_right_eq_some.mp ha
    cases ha
    have hc := h.caller t
    rw [hstage] at hc
    have hphase := hc.phase_eq_idle
    have hholds := hc.holds
    rw [hphase] at hholds
    obtain ⟨v, hv, hholds⟩ := hholds.format hlen
    have hmatch : (Caller.mk v .formatted).Matches .formatted (a.pending t ++ msg.chars) :=
      ⟨hholds, rfl⟩
    refine ⟨s.setCaller t ⟨v, .formatted⟩, ?_, h.log, h.queue, h.lines, h.setCaller t hmatch⟩
    rw [System.step, if_pos hphase, hv, Option.map_some]
  | flush t =>
    obtain ⟨hstage, ha⟩ := Option.ite_none_right_eq_some.mp ha
    cases ha
    have hc := h.caller t
    rw [hstage] at hc
    have hphase := hc.phase_eq_formatted
    have hholds := hc.holds
    rw [hphase] at hholds
    have hlt := hholds.length_lt
    obtain ⟨g, hrun, hvalid, hgholds, hlines, hqueue⟩ :=
      @flush_loop T t (a.pending t) ⟨s.console, (s.callers t).vars, 0⟩ (bufLen + 1) h.log hholds
        (by omega)
    have hmatch : (Caller.mk g.vars (.printed g.b)).Matches .printed
        (Lines.cut newline (a.pending t)).2 := ⟨hgholds, rfl⟩
    refine ⟨⟨Function.update s.callers t ⟨g.vars, .printed g.b⟩, g.console⟩, ?_, hvalid, ?_, ?_,
      h.setCaller t hmatch⟩
    · rw [System.step, if_pos hphase, Printk.flush, hrun, Option.join_some, Option.map_some]
    · dsimp only at hqueue ⊢
      rw [hqueue, h.queue]
    · dsimp only at hlines ⊢
      rw [hlines, h.lines]
  | shift t =>
    obtain ⟨hstage, ha⟩ := Option.ite_none_right_eq_some.mp ha
    cases ha
    have hc := h.caller t
    rw [hstage] at hc
    obtain ⟨b, hphase⟩ := hc.phase_eq_printed
    have hholds := hc.holds
    rw [hphase] at hholds
    obtain ⟨v, hv, hholds⟩ := hholds.shift
    have hset := h.setCaller t (c := ⟨v, .idle⟩) ⟨hholds, rfl⟩
    rw [Function.update_eq_self] at hset
    refine ⟨s.setCaller t ⟨v, .idle⟩, ?_, h.log, h.queue, h.lines, hset⟩
    rw [System.step, hphase]
    simp only [Phase.offset] at hv
    simp only [hv, Option.map_some]
  | read len faults =>
    cases ha
    obtain ⟨r, hr, habs⟩ := h.onLog (.read len faults)
    exact ⟨_, by rw [System.step, hr, Option.map_some], habs⟩
  | clear =>
    cases ha
    obtain ⟨r, hr, habs⟩ := h.onLog .clear
    exact ⟨_, by rw [System.step, hr, Option.map_some], habs⟩

theorem Abstracts.run (h : Abstracts s a) (ha : Run.exec Texts.step a actions = some a') :
    ∃ s', Run.exec System.step s actions = some s' ∧ Abstracts s' a' := by
  induction actions generalizing s a with
  | nil =>
    cases ha
    exact ⟨s, rfl, h⟩
  | cons action actions ih =>
    obtain ⟨a₁, ha₁, ha⟩ := Option.bind_eq_some_iff.mp ha
    obtain ⟨s₁, hs₁, h₁⟩ := h.step ha₁
    obtain ⟨s', hs', h'⟩ := ih h₁ ha
    exact ⟨s', Option.bind_eq_some_iff.mpr ⟨s₁, hs₁, hs'⟩, h'⟩

/-! What becomes of a thread's text. -/

theorem text_append (ls ks : List (List Byte)) : text (ls ++ ks) = text ls ++ text ks :=
  List.flatMap_append

theorem linesOf_append (a : Texts T) (t u : T) (pieces : List (List Byte)) :
    (⟨a.stage, a.pending, a.lines ++ pieces.map (t, ·), a.queue⟩ : Texts T).linesOf u =
      a.linesOf u ++ if t = u then pieces else [] := by
  rw [Texts.linesOf, List.filter_append, List.map_append, Texts.linesOf]
  congr 1
  by_cases hu : t = u
  · simp [hu, List.filter_map, Function.comp_def]
  · simp [hu, List.filter_map, Function.comp_def]

/-- A step adds what the thread says to its text, and moves text to the lines. -/
theorem Texts.step_written {action : Action T} (ha : a.step action = some a') (t : T) :
    text (a'.linesOf t) ++ a'.pending t =
      text (a.linesOf t) ++ a.pending t ++ saidBy t [action] := by
  cases action with
  | format u msg =>
    obtain ⟨-, ha⟩ := Option.ite_none_right_eq_some.mp ha
    cases ha
    change text (a.linesOf t) ++ Function.update a.pending u (a.pending u ++ msg.chars) t = _
    by_cases hu : u = t
    · subst hu
      simp [saidBy]
    · simp [saidBy, hu, Function.update_of_ne (Ne.symm hu)]
  | flush u =>
    obtain ⟨-, ha⟩ := Option.ite_none_right_eq_some.mp ha
    cases ha
    obtain ⟨hjoin, -⟩ := Lines.cut_spec newline (a.pending u)
    have hlines := linesOf_append a u t (Lines.cut newline (a.pending u)).1
    change text (Texts.linesOf ⟨a.stage, a.pending, _, a.queue⟩ t) ++
      Function.update a.pending u _ t = _
    rw [hlines, text_append]
    by_cases hu : u = t
    · subst hu
      rw [if_pos rfl, Function.update_self, List.append_assoc]
      simp only [saidBy, List.flatMap_cons, List.flatMap_nil, List.append_nil]
      exact congrArg (text (a.linesOf u) ++ ·) hjoin
    · simp [saidBy, hu, text, Function.update_of_ne (Ne.symm hu)]
  | shift u =>
    obtain ⟨-, ha⟩ := Option.ite_none_right_eq_some.mp ha
    cases ha
    exact (List.append_nil _).symm
  | read len faults =>
    cases ha
    exact (List.append_nil _).symm
  | clear =>
    cases ha
    exact (List.append_nil _).symm

theorem Texts.run_written (ha : Run.exec Texts.step a actions = some a') (t : T) :
    text (a'.linesOf t) ++ a'.pending t =
      text (a.linesOf t) ++ a.pending t ++ saidBy t actions := by
  induction actions generalizing a with
  | nil =>
    cases ha
    exact (List.append_nil _).symm
  | cons action actions ih =>
    obtain ⟨a₁, ha₁, ha⟩ := Option.bind_eq_some_iff.mp ha
    rw [ih ha, step_written ha₁, List.append_assoc, saidBy, saidBy, saidBy, ← List.flatMap_append]
    rfl

/-- No newline is in a line, and none in what a thread leaves for later. -/
structure Texts.Whole (a : Texts T) : Prop where
  line : ∀ l ∈ a.lines, newline ∉ l.2
  rest : ∀ t, a.stage t ≠ .formatted → newline ∉ a.pending t

theorem Texts.Whole.step {action : Action T} (h : a.Whole) (ha : a.step action = some a') :
    a'.Whole := by
  cases action with
  | format u msg =>
    obtain ⟨-, ha⟩ := Option.ite_none_right_eq_some.mp ha
    cases ha
    refine ⟨h.line, fun t ht ↦ ?_⟩
    have hu : t ≠ u := by
      rintro rfl
      exact ht (Function.update_self _ _ _)
    dsimp only at ht ⊢
    rw [Function.update_of_ne hu] at ht ⊢
    exact h.rest t ht
  | flush u =>
    obtain ⟨-, ha⟩ := Option.ite_none_right_eq_some.mp ha
    cases ha
    obtain ⟨-, hpieces, hrest⟩ := Lines.cut_spec newline (a.pending u)
    refine ⟨fun l hl ↦ ?_, fun t ht ↦ ?_⟩
    · obtain hl | hl := List.mem_append.mp hl
      · exact h.line l hl
      · obtain ⟨piece, hpiece, rfl⟩ := List.mem_map.mp hl
        exact hpieces piece hpiece
    · dsimp only at ht ⊢
      by_cases hu : t = u
      · subst hu
        rwa [Function.update_self]
      · rw [Function.update_of_ne hu] at ht ⊢
        exact h.rest t ht
  | shift u =>
    obtain ⟨hstage, ha⟩ := Option.ite_none_right_eq_some.mp ha
    cases ha
    refine ⟨h.line, fun t ht ↦ h.rest t ?_⟩
    by_cases hu : t = u
    · subst hu
      rw [hstage]
      decide
    · dsimp only at ht
      rwa [Function.update_of_ne hu] at ht
  | read len faults =>
    cases ha
    exact ⟨h.line, h.rest⟩
  | clear =>
    cases ha
    exact ⟨h.line, h.rest⟩

/-- However the calls of the threads fall between each other, and whoever reads the ring:
as long as each message fits behind what its thread has not printed yet, no buffer is
left, what is printed comes in whole lines, those of a thread and what it has left are
what it said, and the ring holds the newest bytes. -/
theorem vprintk_runs (actions : List (Action T)) (a : Texts T)
    (ha : Run.exec Texts.step Texts.init actions = some a) :
    ∃ s, Run.exec System.step System.init actions = some s ∧ s.console.lines = a.lines ∧
      s.console.log.queue = a.queue ∧ a.Whole ∧
      ∀ t, (s.callers t).Matches (a.stage t) (a.pending t) ∧
        text (a.linesOf t) ++ a.pending t = saidBy t actions := by
  obtain ⟨s, hs, habs⟩ := abstracts_init.run ha
  have hall : Run.AllAlong Texts.step (fun _ : Texts T ↦ True) Texts.init actions :=
    fun _ _ _ _ ↦ trivial
  have hinit : (Texts.init : Texts T).Whole :=
    ⟨fun _ h ↦ absurd h List.not_mem_nil, fun _ _ ↦ List.not_mem_nil⟩
  have hwhole := hall.keeps (fun a _ _ (h : a.Whole) _ ha ↦ h.step ha) hinit ha
  exact ⟨s, hs, habs.lines, habs.queue, hwhole, fun t ↦ ⟨habs.caller t, Texts.run_written ha t⟩⟩

end

theorem vprintk_runs_two : ∃ a : Texts Bool,
    ∃ s, Run.exec System.step System.init
        [.format true ⟨[65], by decide⟩, .flush true, .shift true,
          .format false ⟨[67, 10], by decide⟩, .flush false, .format true ⟨[66, 10], by decide⟩, .flush true] = some s ∧
      s.console.lines = a.lines ∧ s.console.log.queue = a.queue := by
  let actions : List (Action Bool) :=
    [.format true ⟨[65], by decide⟩, .flush true, .shift true,
      .format false ⟨[67, 10], by decide⟩, .flush false, .format true ⟨[66, 10], by decide⟩, .flush true]
  have hrun : (Run.exec Texts.step Texts.init actions).isSome := by decide
  obtain ⟨a, ha⟩ := Option.isSome_iff_exists.mp hrun
  obtain ⟨s, hs, hlines, hqueue, -⟩ := vprintk_runs actions a ha
  exact ⟨a, s, hs, hlines, hqueue⟩

end Isl.Kernel.Printk
