import Isl.Lib.Run
import Mathlib.Data.BitVec
import Mathlib.Data.Int.Notation
import Mathlib.Data.List.Basic
import Mathlib.Logic.Function.Basic

/-!
The input buffer of a terminal: `tty_input`, `tty_read` and `tty_ioctl` of
`fs/tty.c`. A call runs until it ends or gives up the lock of the terminal, and
then goes on in a later step.
-/

namespace Isl.Fs.Terminal

open Isl.Lib.Run

abbrev Byte := BitVec 8
abbrev Dword := BitVec 32

def ttyBufSize : ℕ := 4096

def vIntr : Fin 19 := 0
def vErase : Fin 19 := 2
def vKill : Fin 19 := 3
def vEof : Fin 19 := 4
def vTime : Fin 19 := 5
def vMin : Fin 19 := 6
def vStart : Fin 19 := 8
def vStop : Fin 19 := 9
def vEol : Fin 19 := 11

def isig : Dword := 1 <<< 0
def icanon : Dword := 1 <<< 1
def echo : Dword := 1 <<< 3
def echoe : Dword := 1 <<< 4
def echok : Dword := 1 <<< 5
def echoctl : Dword := 1 <<< 9

def inlcr : Dword := 1 <<< 6
def igncr : Dword := 1 <<< 7
def icrnl : Dword := 1 <<< 8

def has (flags flag : Dword) : Bool := flags &&& flag != 0

structure Termios where
  iflags : Dword
  oflags : Dword
  cflags : Dword
  lflags : Dword
  line : Byte
  cc : Fin 19 → Byte

/-- A `tty_input` that has given up the lock: in `send_group_signal`, before the
rest of the input is scanned, or in `tty_wake`, before it is processed. -/
inductive Paused
  | signal (rest : List Byte)
  | wake (rest : List Byte)

/-- The flags are those at the start of the call. -/
structure Input where
  lflags : Dword
  iflags : Dword
  at' : Paused

/-- A `tty_read` that waits. In raw mode it waits for this many bytes. -/
structure Reader where
  size : ℕ
  canon : Bool
  min : ℕ

/-- The arrays are functions, and `touched` is the end of the farthest write to
one of them. `typed` are the bytes that were taken from the inputs, `reads` the
sizes and the results of the reads, and `overflow` says that `tty_push_char`
has dropped a byte. -/
structure Tty where
  buf : ℕ → Byte
  bufFlag : ℕ → Bool
  bufsize : ℕ
  termios : Termios
  fgGroup : ℕ
  inputs : List Input
  readers : List Reader
  output : List Byte
  touched : ℕ
  typed : List Byte
  reads : List (ℕ × List Byte)
  overflow : Bool

/-- `ch == c` between a `char`, which is signed, and an `unsigned char`. -/
def isCc (ch c : Byte) : Bool := ch.toInt = c.toNat

def shouldEchoctl (lflags : Dword) (cc : Fin 19 → Byte) (ch : Byte) : Bool :=
  has lflags echoctl && (ch.toInt < 32 || ch = 0x7f) &&
    !(ch = 9 || ch = 10 || isCc ch (cc vStart) || isCc ch (cc vStop))

/-- `INLCR` and `ICRNL` -/
def mapChar (iflags : Dword) (ch : Byte) : Byte :=
  if has iflags inlcr && ch = 10 then 13
  else if has iflags icrnl && ch = 13 then 10
  else ch

/-- The bytes that the scan for `VINTR` throws away, and how it ends. -/
inductive Scan
  | signalled (rest : List Byte)
  | done (input : List Byte)

/-- The scan of `tty_input` under `ISIG`, at the bytes after `kept`. The byte
behind an interrupt character is not looked at, which is what `skip` says. -/
def scanIntr (intr : Byte) (fgGroup : Bool) (skip : Bool) (kept : List Byte) :
    List Byte → List Byte × Scan
  | [] => ([], .done kept)
  | ch :: rest =>
    if !skip && isCc ch intr then
      if fgGroup then (kept ++ [ch], .signalled rest)
      else
        let (gone, scan) := scanIntr intr fgGroup true [] rest
        (kept ++ ch :: gone, scan)
    else scanIntr intr fgGroup false (kept ++ [ch]) rest

/-- `memmove(a, a + k, n)` -/
def moveDown {α : Type} (a : ℕ → α) (k n : ℕ) : ℕ → α := fun i ↦ if i < n then a (i + k) else a i

/-- The first cells of both arrays. -/
def cells (buf : ℕ → Byte) (bufFlag : ℕ → Bool) (n : ℕ) : List (Byte × Bool) :=
  (List.range n).map fun i ↦ (buf i, bufFlag i)

namespace Tty

/-- `tty->driver->write` -/
def write (s : Tty) (bytes : List Byte) : Tty := { s with output := s.output ++ bytes }

/-- A write to the arrays up to this index. -/
def touch (s : Tty) (stop : ℕ) : Tty := { s with touched := max s.touched stop }

def ttyPushChar (s : Tty) (ch : Byte) (flag : Bool) : Tty :=
  if ttyBufSize ≤ s.bufsize then { s with overflow := true }
  else
    { s with buf := Function.update s.buf s.bufsize ch
             bufFlag := Function.update s.bufFlag s.bufsize flag
             bufsize := s.bufsize + 1 }.touch (s.bufsize + 1)

/-- The loop that deletes characters, but none past a flag. -/
def eraseChars (lflags : Dword) (echo : Bool) : ℕ → Tty → Tty
  | 0, s => s
  | count + 1, s =>
    if s.bufFlag (s.bufsize - 1) then s
    else
      let s := { s with bufsize := s.bufsize - 1 }
      let s :=
        if echo then
          let s := s.write [8, 32, 8]
          if shouldEchoctl lflags s.termios.cc (s.buf s.bufsize) then s.write [8, 32, 8] else s
        else s
      eraseChars lflags echo count s

/-- One turn of the loop of `tty_input` in canonical mode, and whether it ends in
`tty_wake`. -/
def canonChar (lflags iflags : Dword) (s : Tty) (typed : Byte) : Tty × Bool :=
  let cc := s.termios.cc
  let ch := mapChar iflags typed
  let willEcho := has lflags echo
  if has iflags igncr && ch = 13 then (s, false)
  else if isCc ch (cc vErase) || isCc ch (cc vKill) then
    let one := isCc ch (cc vErase) && 0 < s.bufsize
    let count := if one then 1 else s.bufsize
    let willErase := has lflags (if one then echoe else echok)
    (s.eraseChars lflags (willErase && willEcho) count, false)
  else if isCc ch (cc vEof) then (s.ttyPushChar 0 true, true)
  else if ch = 10 || isCc ch (cc vEol) then
    let s := if willEcho then s.write [13, 10] else s
    (s.ttyPushChar ch true, true)
  else
    let s := s.ttyPushChar ch false
    if willEcho then
      if shouldEchoctl lflags cc ch then (s.write [94, ch ^^^ 64], false) else (s.write [ch], false)
    else (s, false)

/-- The loop in canonical mode up to the first `tty_wake`, with what is then left
of the input. -/
def canonChars (lflags iflags : Dword) (s : Tty) : List Byte → Tty × Option (List Byte)
  | [] => (s, none)
  | ch :: rest =>
    let (s, woken) := canonChar lflags iflags { s with typed := s.typed ++ [ch] } ch
    if woken then (s, some rest) else canonChars lflags iflags s rest

/-- The canonical part of `tty_input`, until it ends or pauses. -/
def canonInput (s : Tty) (lflags iflags : Dword) (input : List Byte) : Tty :=
  match canonChars lflags iflags s input with
  | (s, none) => s
  | (s, some rest) => { s with inputs := s.inputs ++ [⟨lflags, iflags, .wake rest⟩] }

/-- `sizeof(tty->buf) - 1 - tty->bufsize`, unsigned. -/
def rawRoom (s : Tty) : ℕ := (BitVec.ofNat 64 (ttyBufSize - 1) - BitVec.ofNat 64 s.bufsize).toNat

/-- The bytes may end up behind the array. -/
def rawInput (s : Tty) (input : List Byte) : Tty :=
  let size := min s.rawRoom input.length
  let s := { s with typed := s.typed ++ input }
  if size = 0 then s
  else
    { s with buf := fun i ↦
               if s.bufsize ≤ i ∧ i < s.bufsize + size then input.getD (i - s.bufsize) 0
               else s.buf i
             bufsize := s.bufsize + size }.touch (s.bufsize + size)

def inputFrom (s : Tty) (lflags iflags : Dword) (input : List Byte) : Tty :=
  if has lflags icanon then s.canonInput lflags iflags input else s.rawInput input

def scanInput (s : Tty) (lflags iflags : Dword) (skip : Bool) (input : List Byte) : Tty :=
  match scanIntr (s.termios.cc vIntr) (s.fgGroup != 0) skip [] input with
  | (gone, .signalled rest) =>
    { s with typed := s.typed ++ gone, inputs := s.inputs ++ [⟨lflags, iflags, .signal rest⟩] }
  | (gone, .done input) => { s with typed := s.typed ++ gone }.inputFrom lflags iflags input

def ttyInput (s : Tty) (input : List Byte) : Tty :=
  let lflags := s.termios.lflags
  let iflags := s.termios.iflags
  if has lflags isig then s.scanInput lflags iflags false input
  else s.inputFrom lflags iflags input

/-- A call that has got the lock back. -/
def resumeInput (s : Tty) (i : Input) : Tty :=
  match i.at' with
  | .signal rest => s.scanInput i.lflags i.iflags true rest
  | .wake rest => s.canonInput i.lflags i.iflags rest

/-- `tty_read_into_buf`, with the bytes that it copies. -/
def ttyReadIntoBuf (s : Tty) (size : ℕ) : Tty × List Byte :=
  ({ s with buf := moveDown s.buf size (s.bufsize - size)
            bufFlag := moveDown s.bufFlag size (s.bufsize - size)
            bufsize := s.bufsize - size }.touch (s.bufsize - size),
    (List.range size).map s.buf)

def ttyCanonSize (s : Tty) : Option ℕ := ((List.range s.bufsize).find? s.bufFlag).map (· + 1)

/-- An end of file at the front of the buffer. -/
def eofInFront (s : Tty) : Bool := 0 < s.bufsize && s.buf 0 = 0 && s.bufFlag 0

/-- The end of `tty_read`, with the size that the call asked for. -/
def finishRead (s : Tty) (asked size : ℕ) : Tty :=
  let (s, bytes) := s.ttyReadIntoBuf (min size s.bufsize)
  let s := if s.eofInFront then (s.ttyReadIntoBuf 1).1 else s
  { s with reads := s.reads ++ [(asked, bytes)] }

/-- A read that has the lock, none while it must wait. -/
def tryRead (s : Tty) (r : Reader) : Option Tty :=
  if r.canon then do
    let canonSize ← s.ttyCanonSize
    -- a null byte means that the end of file was typed
    let canonSize := if s.buf (canonSize - 1) = 0 then canonSize - 1 else canonSize
    some (s.finishRead r.size (min r.size canonSize))
  else if s.bufsize < r.min then none
  else some (s.finishRead r.size r.size)

/-- How a read of some bytes waits. It dies on `VTIME`. -/
def newReader (s : Tty) (size : ℕ) : Option Reader :=
  if has s.termios.lflags icanon then some ⟨size, true, 0⟩
  else if s.termios.cc vTime = 0 then some ⟨size, false, (s.termios.cc vMin).toNat⟩
  else none

def ttyRead (s : Tty) (size : ℕ) : Option Tty :=
  if size = 0 then some { s with reads := s.reads ++ [(0, [])] }
  else do
    let r ← s.newReader size
    some ((s.tryRead r).getD { s with readers := s.readers ++ [r] })

/-- The commands that read or change the modelled state. The last one stands for
those that set the foreground group. -/
inductive Ioctl
  | tcgets
  | tcsets (termios : Termios)
  | tcsetsw (termios : Termios)
  | tcsetsf (termios : Termios)
  | tcflsh (arg : Dword)
  | fionread
  | setGroup (fgGroup : ℕ)

def ttyIoctl (s : Tty) : Ioctl → Tty
  | .tcgets => s
  | .tcsets termios => { s with termios := termios }
  | .tcsetsw termios => { s with termios := termios }
  | .tcsetsf termios => { s with bufsize := 0, termios := termios }
  | .tcflsh arg => if arg = 0 ∨ arg = 2 then { s with bufsize := 0 } else s
  | .fionread => s
  | .setGroup fgGroup => { s with fgGroup := fgGroup }

/-- `interrupt` is the end of a waiting read with `_EINTR`. -/
inductive Event
  | input (bytes : List Byte)
  | resumeInput (k : ℕ)
  | read (size : ℕ)
  | resumeRead (k : ℕ)
  | interrupt (k : ℕ)
  | ioctl (cmd : Ioctl)

def step (s : Tty) : Event → Option Tty
  | .input bytes => some (s.ttyInput bytes)
  | .resumeInput k => do
    let i ← s.inputs[k]?
    some ({ s with inputs := s.inputs.eraseIdx k }.resumeInput i)
  | .read size => s.ttyRead size
  | .resumeRead k => do
    let r ← s.readers[k]?
    some (({ s with readers := s.readers.eraseIdx k }.tryRead r).getD s)
  | .interrupt k => do
    let _ ← s.readers[k]?
    some { s with readers := s.readers.eraseIdx k }
  | .ioctl cmd => some (s.ttyIoctl cmd)

/-- All calls but those that change the mode or flush the buffer. -/
def Transfer : Event → Prop
  | .ioctl (.tcsets _) => False
  | .ioctl (.tcsetsw _) => False
  | .ioctl (.tcsetsf _) => False
  | .ioctl (.tcflsh _) => False
  | _ => True

/-- The terminal with nothing written down of what was typed and read before. -/
def forget (s : Tty) : Tty := { s with typed := [], reads := [], overflow := false }

/-- The buffered bytes with their flags. -/
def queue (s : Tty) : List (Byte × Bool) := cells s.buf s.bufFlag s.bufsize

end Tty

section

variable {s s' t : Tty} {lflags iflags : Dword} {ch : Byte} {size asked i : ℕ} {flag : Bool}
  {input : List Byte} {r : Reader}

/-! The queue. -/

section

variable {buf buf' : ℕ → Byte} {bufFlag bufFlag' : ℕ → Bool} {n k : ℕ}

@[simp] theorem length_cells : (cells buf bufFlag n).length = n := by
  rw [cells, List.length_map, List.length_range]

theorem cells_succ : cells buf bufFlag (n + 1) = cells buf bufFlag n ++ [(buf n, bufFlag n)] := by
  rw [cells, List.range_succ, List.map_append]
  rfl

theorem cells_congr (hb : ∀ i < n, buf i = buf' i) (hf : ∀ i < n, bufFlag i = bufFlag' i) :
    cells buf bufFlag n = cells buf' bufFlag' n := by
  refine List.map_congr_left fun i hi ↦ ?_
  rw [hb i (List.mem_range.mp hi), hf i (List.mem_range.mp hi)]

theorem cells_moveDown : cells (moveDown buf k (n - k)) (moveDown bufFlag k (n - k)) (n - k) =
    (cells buf bufFlag n).drop k := by
  apply List.ext_getElem
  · rw [List.length_drop, length_cells, length_cells]
  · intro i hi _
    rw [length_cells] at hi
    simp [cells, moveDown, hi, Nat.add_comm]

theorem take_cells (h : k ≤ n) : (cells buf bufFlag n).take k = cells buf bufFlag k := by
  rw [cells, ← List.map_take, List.take_range, Nat.min_eq_left h, cells]

theorem map_fst_cells : (cells buf bufFlag n).map Prod.fst = (List.range n).map buf := by
  rw [cells, List.map_map]
  rfl

end

namespace Tty

@[simp] theorem length_queue (s : Tty) : s.queue.length = s.bufsize := length_cells

theorem queue_ttyPushChar (h : s.bufsize < ttyBufSize) :
    (s.ttyPushChar ch flag).queue = s.queue ++ [(ch, flag)] := by
  rw [ttyPushChar, if_neg (Nat.not_le.mpr h)]
  refine cells_succ.trans ?_
  simp only [touch, Function.update_self]
  congr 1
  exact cells_congr (fun i hi ↦ Function.update_of_ne hi.ne _ _)
    fun i hi ↦ Function.update_of_ne hi.ne _ _

theorem queue_ttyReadIntoBuf (s : Tty) (size : ℕ) :
    (s.ttyReadIntoBuf size).1.queue = s.queue.drop size := cells_moveDown

theorem bytes_ttyReadIntoBuf (h : size ≤ s.bufsize) :
    (s.ttyReadIntoBuf size).2 = (s.queue.take size).map Prod.fst := by
  rw [queue, take_cells h, map_fst_cells]
  rfl

theorem eofInFront_iff : s.eofInFront = true ↔ s.queue.head? = some (0, true) := by
  rw [eofInFront, queue]
  cases s.bufsize with
  | zero => simp [cells]
  | succ n =>
    rw [cells, List.range_succ_eq_map]
    simp

/-- The rest of a queue without an end of file in front. -/
def dropEof (q : List (Byte × Bool)) : List (Byte × Bool) :=
  if q.head? = some (0, true) then q.tail else q

theorem dropEof_eq_self {q : List (Byte × Bool)} (h : q.head? ≠ some (0, true)) : dropEof q = q :=
  if_neg h

theorem finishRead_frame (s : Tty) (asked size : ℕ) :
    (s.finishRead asked size).typed = s.typed ∧ (s.finishRead asked size).inputs = s.inputs ∧
      (s.finishRead asked size).readers = s.readers ∧
      (s.finishRead asked size).termios = s.termios ∧
      (s.finishRead asked size).overflow = s.overflow := by
  rw [finishRead]
  dsimp only
  split <;> exact ⟨rfl, rfl, rfl, rfl, rfl⟩

theorem queue_finishRead (s : Tty) (asked size : ℕ) :
    (s.finishRead asked size).queue = dropEof (s.queue.drop size) := by
  have hdrop : s.queue.drop (min size s.bufsize) = s.queue.drop size := by
    rw [← length_queue s]
    exact List.drop_eq_drop_min.symm
  have hq := queue_ttyReadIntoBuf s (min size s.bufsize)
  rw [hdrop] at hq
  have heof := @eofInFront_iff (s.ttyReadIntoBuf (min size s.bufsize)).1
  rw [hq] at heof
  rw [dropEof]
  by_cases h : (s.queue.drop size).head? = some (0, true)
  · rw [if_pos h, ← List.drop_one, ← hq, ← queue_ttyReadIntoBuf, finishRead]
    simp only [heof.mpr h, if_true]
    rfl
  · rw [if_neg h, ← hq, finishRead]
    simp only [mt heof.mp h, Bool.false_eq_true, if_false]
    rfl

theorem reads_finishRead (s : Tty) (asked size : ℕ) : (s.finishRead asked size).reads =
    s.reads ++ [(asked, (s.queue.take size).map Prod.fst)] := by
  have htake : s.queue.take (min size s.bufsize) = s.queue.take size := by
    rw [← length_queue s]
    exact List.take_eq_take_min.symm
  have hbytes := bytes_ttyReadIntoBuf (Nat.min_le_right size s.bufsize)
  rw [htake] at hbytes
  rw [finishRead, ← hbytes]
  dsimp only
  split <;> rfl

/-! The bounds of the writes. -/

/-- A step after which all writes have stayed inside if and only if `fits` holds. -/
structure Writes (s s' : Tty) (fits : Prop) : Prop where
  size : s'.bufsize ≤ s'.touched
  grows : s.touched ≤ s'.touched
  inside : s.touched ≤ ttyBufSize → (s'.touched ≤ ttyBufSize ↔ fits)

theorem Writes.trans {fits : Prop} (h : Writes s t True) (h' : Writes t s' fits) :
    Writes s s' fits :=
  ⟨h'.size, h.grows.trans h'.grows, fun hs ↦ h'.inside ((h.inside hs).mpr trivial)⟩

/-- Only the size and the bound of the writes count. -/
theorem Writes.of_eq {u u' : Tty} {fits : Prop} (h : Writes u u' fits)
    (hs : u.bufsize = s.bufsize ∧ u.touched = s.touched)
    (hs' : u'.bufsize = s'.bufsize ∧ u'.touched = s'.touched) : Writes s s' fits := by
  obtain ⟨hsize, hgrows, hinside⟩ := h
  rw [hs'.1, hs'.2] at hsize
  rw [hs.2, hs'.2] at hgrows hinside
  exact ⟨hsize, hgrows, hinside⟩

theorem writes_of_le (h : s.bufsize ≤ s.touched) (hsize : s'.bufsize ≤ s.bufsize)
    (htouched : s'.touched = s.touched) : Writes s s' True :=
  ⟨htouched ▸ hsize.trans h, htouched.ge, fun hs ↦ iff_of_true (htouched ▸ hs) trivial⟩

theorem eraseChars_le (lflags : Dword) (echo : Bool) (count : ℕ) (s : Tty) :
    (s.eraseChars lflags echo count).bufsize ≤ s.bufsize ∧
      (s.eraseChars lflags echo count).touched = s.touched := by
  induction count generalizing s with
  | zero => exact ⟨le_rfl, rfl⟩
  | succ count ih =>
    rw [eraseChars]
    split
    · exact ⟨le_rfl, rfl⟩
    · obtain ⟨hsize, htouched⟩ := ih _
      constructor
      · refine hsize.trans (le_trans (le_of_eq ?_) (Nat.sub_le s.bufsize 1))
        dsimp only
        split
        · split <;> rfl
        · rfl
      · refine htouched.trans ?_
        dsimp only
        split
        · split <;> rfl
        · rfl

theorem ttyPushChar_writes (h : s.bufsize ≤ s.touched) (ch : Byte) (flag : Bool) :
    Writes s (s.ttyPushChar ch flag) True := by
  rw [ttyPushChar]
  split
  · exact writes_of_le h le_rfl rfl
  · rename_i hfull
    refine ⟨Nat.le_max_right _ _, Nat.le_max_left _ _, fun hs ↦ iff_of_true ?_ trivial⟩
    exact Nat.max_le.mpr ⟨hs, Nat.not_le.mp hfull⟩

theorem canonChar_writes (h : s.bufsize ≤ s.touched) (lflags iflags : Dword) (ch : Byte) :
    Writes s (canonChar lflags iflags s ch).1 True := by
  rw [canonChar]
  dsimp only
  split
  · exact writes_of_le h le_rfl rfl
  · split
    · obtain ⟨hsize, htouched⟩ := eraseChars_le lflags _ _ s
      exact writes_of_le h hsize htouched
    · split
      · exact ttyPushChar_writes h _ _
      · split
        · split
          · have hwrite : Writes s (s.write [13, 10]) True := writes_of_le h le_rfl rfl
            exact hwrite.trans (ttyPushChar_writes hwrite.size _ _)
          · exact ttyPushChar_writes h _ _
        · have hpush := ttyPushChar_writes h (mapChar iflags ch) false
          split
          · split <;> exact hpush.trans (writes_of_le hpush.size le_rfl rfl)
          · exact hpush

theorem canonChars_writes (h : s.bufsize ≤ s.touched) (lflags iflags : Dword) (input : List Byte) :
    Writes s (canonChars lflags iflags s input).1 True := by
  induction input generalizing s with
  | nil => exact writes_of_le h le_rfl rfl
  | cons ch rest ih =>
    have hchar := (@canonChar_writes { s with typed := s.typed ++ [ch] } h lflags iflags ch).of_eq
      (s := s) ⟨rfl, rfl⟩ ⟨rfl, rfl⟩
    rw [canonChars]
    dsimp only
    split
    · exact hchar
    · exact hchar.trans (ih hchar.size)

theorem canonInput_writes (h : s.bufsize ≤ s.touched) (lflags iflags : Dword) (input : List Byte) :
    Writes s (s.canonInput lflags iflags input) True := by
  have hchars := canonChars_writes h lflags iflags input
  rw [canonInput]
  split
  · rename_i heq
    rwa [heq] at hchars
  · rename_i heq
    rw [heq] at hchars
    exact hchars.trans (writes_of_le hchars.size le_rfl rfl)

theorem rawRoom_eq (s : Tty) (h : s.bufsize ≤ ttyBufSize) :
    s.rawRoom = if s.bufsize = ttyBufSize then 2 ^ 64 - 1 else ttyBufSize - 1 - s.bufsize := by
  rw [rawRoom, BitVec.toNat_sub, BitVec.toNat_ofNat, BitVec.toNat_ofNat]
  unfold ttyBufSize at h ⊢
  split <;> omega

/-- One byte is kept free, unless all are taken: then the room is not bounded. -/
theorem rawInput_writes (h : s.bufsize ≤ s.touched) (input : List Byte) :
    Writes s (s.rawInput input) ¬(s.bufsize = ttyBufSize ∧ input ≠ []) := by
  rw [rawInput]
  dsimp only
  split
  · rename_i hzero
    have hnil : s.touched ≤ ttyBufSize → ¬(s.bufsize = ttyBufSize ∧ input ≠ []) := by
      intro hs hfull
      have hroom := rawRoom_eq s (h.trans hs)
      rw [if_pos hfull.1] at hroom
      have hlen := List.length_pos_of_ne_nil hfull.2
      omega
    exact ⟨h, le_rfl, fun hs ↦ iff_of_true hs (hnil hs)⟩
  · rename_i hpos
    refine ⟨Nat.le_max_right _ _, Nat.le_max_left _ _, fun hs ↦ ?_⟩
    have hroom := rawRoom_eq s (h.trans hs)
    have hlen : input ≠ [] := by
      intro hnil
      rw [hnil, List.length_nil, Nat.min_zero] at hpos
      exact hpos rfl
    simp only [touch, Nat.max_le, hs, true_and, hlen, ne_eq, not_false_eq_true, and_true]
    constructor
    · intro hle hfull
      rw [hfull] at hle
      omega
    · intro hroomy
      rw [if_neg hroomy] at hroom
      unfold ttyBufSize at *
      omega

/-- A raw input of some bytes that finds the buffer full. -/
def FullRaw (s : Tty) (lflags : Dword) (input : List Byte) : Prop :=
  has lflags icanon = false ∧ s.bufsize = ttyBufSize ∧ input ≠ []

theorem inputFrom_writes (h : s.bufsize ≤ s.touched) (lflags iflags : Dword) (input : List Byte) :
    Writes s (s.inputFrom lflags iflags input) ¬s.FullRaw lflags input := by
  rw [inputFrom]
  split
  · rename_i hcanon
    have hno : ¬s.FullRaw lflags input := fun hfull ↦ by
      rw [hfull.1] at hcanon
      cases hcanon
    have hin := canonInput_writes h lflags iflags input
    exact ⟨hin.size, hin.grows, fun hs ↦ iff_of_true ((hin.inside hs).mpr trivial) hno⟩
  · rename_i hraw
    have hin := rawInput_writes h input
    refine ⟨hin.size, hin.grows, fun hs ↦ (hin.inside hs).trans (not_congr ?_)⟩
    rw [FullRaw]
    exact (and_iff_right (Bool.not_eq_true _ ▸ hraw)).symm

/-- What the scan for interrupt characters leaves to process before it pauses. -/
def scanned (s : Tty) (skip : Bool) (input : List Byte) : List Byte :=
  match (scanIntr (s.termios.cc vIntr) (s.fgGroup != 0) skip [] input).2 with
  | .signalled _ => []
  | .done input => input

theorem scanInput_writes (h : s.bufsize ≤ s.touched) (lflags iflags : Dword) (skip : Bool)
    (input : List Byte) :
    Writes s (s.scanInput lflags iflags skip input) ¬s.FullRaw lflags (s.scanned skip input) := by
  rw [scanInput, scanned]
  split
  · rename_i heq
    have hno : ¬s.FullRaw lflags [] := fun hfull ↦ hfull.2.2 rfl
    simp only [heq]
    exact ⟨h, le_rfl, fun hs ↦ iff_of_true hs hno⟩
  · rename_i gone input' heq
    simp only [heq]
    exact (@inputFrom_writes { s with typed := s.typed ++ gone } h lflags iflags input').of_eq
      ⟨rfl, rfl⟩ ⟨rfl, rfl⟩

theorem ttyReadIntoBuf_writes (h : s.bufsize ≤ s.touched) (size : ℕ) :
    Writes s (s.ttyReadIntoBuf size).1 True := by
  have hle : s.bufsize - size ≤ s.touched := (Nat.sub_le _ _).trans h
  exact writes_of_le h (Nat.sub_le _ _) (Nat.max_eq_left hle)

theorem finishRead_writes (h : s.bufsize ≤ s.touched) (asked size : ℕ) :
    Writes s (s.finishRead asked size) True := by
  have hread := ttyReadIntoBuf_writes h (min size s.bufsize)
  rw [finishRead]
  dsimp only
  split
  · exact (hread.trans (ttyReadIntoBuf_writes hread.size 1)).of_eq ⟨rfl, rfl⟩ ⟨rfl, rfl⟩
  · exact hread.of_eq ⟨rfl, rfl⟩ ⟨rfl, rfl⟩

theorem tryRead_writes (h : s.bufsize ≤ s.touched) (hs : s.tryRead r = some s') :
    Writes s s' True := by
  rw [tryRead] at hs
  split at hs
  · obtain ⟨size, -, hs⟩ := Option.bind_eq_some_iff.mp hs
    cases hs
    exact finishRead_writes h _ _
  · split at hs
    · cases hs
    · cases hs
      exact finishRead_writes h _ _

theorem ttyRead_writes (h : s.bufsize ≤ s.touched) (hs : s.ttyRead size = some s') :
    Writes s s' True := by
  rw [ttyRead] at hs
  split at hs
  · cases hs
    exact writes_of_le h le_rfl rfl
  · obtain ⟨r, -, hs⟩ := Option.bind_eq_some_iff.mp hs
    cases hs
    cases htry : s.tryRead r with
    | none => exact writes_of_le h le_rfl rfl
    | some u => exact tryRead_writes h htry

theorem ttyIoctl_writes (h : s.bufsize ≤ s.touched) (cmd : Ioctl) :
    Writes s (s.ttyIoctl cmd) True := by
  cases cmd with
  | tcsetsf termios => exact writes_of_le h (Nat.zero_le _) rfl
  | tcflsh arg =>
    rw [ttyIoctl]
    split
    · exact writes_of_le h (Nat.zero_le _) rfl
    · exact writes_of_le h le_rfl rfl
  | tcgets | tcsets _ | tcsetsw _ | fionread | setGroup _ => exact writes_of_le h le_rfl rfl

/-- No raw input of some bytes finds the buffer full. -/
def RoomForRaw (s : Tty) : Event → Prop
  | .input bytes => ¬s.FullRaw s.termios.lflags
      (if has s.termios.lflags isig then s.scanned false bytes else bytes)
  | .resumeInput k => ∀ i rest, s.inputs[k]? = some i → i.at' = .signal rest →
      ¬s.FullRaw i.lflags (s.scanned true rest)
  | _ => True

theorem step_writes {ev : Event} (h : s.bufsize ≤ s.touched) (hs : step s ev = some s') :
    Writes s s' (s.RoomForRaw ev) := by
  cases ev with
  | input bytes =>
    cases hs
    rw [ttyInput, RoomForRaw]
    split
    · exact scanInput_writes h _ _ _ _
    · exact inputFrom_writes h _ _ _
  | resumeInput k =>
    obtain ⟨i, hi, hs⟩ := Option.bind_eq_some_iff.mp hs
    cases hs
    rw [RoomForRaw, resumeInput]
    cases hat : i.at' with
    | signal rest =>
      have hscan := @scanInput_writes { s with inputs := s.inputs.eraseIdx k } h i.lflags i.iflags
        true rest
      refine ⟨hscan.size, hscan.grows, fun htouched ↦ (hscan.inside htouched).trans ?_⟩
      constructor
      · intro hfull i' rest' hi' hat'
        obtain rfl := Option.some.inj (hi.symm.trans hi')
        cases hat.symm.trans hat'
        exact hfull
      · intro hfull
        exact hfull i rest hi hat
    | wake rest =>
      have hcanon := @canonInput_writes { s with inputs := s.inputs.eraseIdx k } h i.lflags
        i.iflags rest
      refine ⟨hcanon.size, hcanon.grows, fun htouched ↦
        iff_of_true ((hcanon.inside htouched).mpr trivial) fun i' rest' hi' hat' ↦ ?_⟩
      obtain rfl := Option.some.inj (hi.symm.trans hi')
      cases hat.symm.trans hat'
  | read size => exact ttyRead_writes h hs
  | resumeRead k =>
    obtain ⟨r, -, hs⟩ := Option.bind_eq_some_iff.mp hs
    cases hs
    cases htry : { s with readers := s.readers.eraseIdx k }.tryRead r with
    | none => exact writes_of_le h le_rfl rfl
    | some u =>
      have htry := @tryRead_writes { s with readers := s.readers.eraseIdx k } u r h htry
      exact htry.of_eq ⟨rfl, rfl⟩ ⟨rfl, rfl⟩
  | interrupt k =>
    obtain ⟨r, -, hs⟩ := Option.bind_eq_some_iff.mp hs
    cases hs
    exact writes_of_le h le_rfl rfl
  | ioctl cmd =>
    cases hs
    exact ttyIoctl_writes h cmd

/-- The terminal of `tty_get`. -/
def fresh (buf : ℕ → Byte) (termios : Termios) : Tty where
  buf := buf
  bufFlag _ := false
  bufsize := 0
  termios := termios
  fgGroup := 0
  inputs := []
  readers := []
  output := []
  touched := 0
  typed := []
  reads := []
  overflow := false

/-- All writes of a run lie inside the arrays, and the size of the buffer is in
bounds, if and only if no raw input of the run finds the buffer full. -/
theorem inside_iff_guarded {buf : ℕ → Byte} {termios : Termios} {evs : List Event}
    (h : exec step (fresh buf termios) evs = some t) :
    t.touched ≤ ttyBufSize ∧ t.bufsize ≤ ttyBufSize ↔
      Guarded step RoomForRaw (fresh buf termios) evs := by
  have hstep (s : Tty) (ev : Event) (t : Tty) (hs : s.bufsize ≤ s.touched) (_ : True)
      (ht : step s ev = some t) : t.bufsize ≤ t.touched ∧
        (t.touched ≤ ttyBufSize ↔ s.touched ≤ ttyBufSize ∧ s.RoomForRaw ev) := by
    have hwrites := step_writes hs ht
    refine ⟨hwrites.size, fun hin ↦ ?_, fun hin ↦ (hwrites.inside hin.1).mpr hin.2⟩
    have hin' := hwrites.grows.trans hin
    exact ⟨hin', (hwrites.inside hin').mp hin⟩
  obtain ⟨hsize, hiff⟩ := exec_iff_guarded hstep (Nat.zero_le 0) (fun _ _ ↦ trivial) h
  constructor
  · intro hin
    exact (hiff.mp hin.1).2
  · intro hg
    have hin := hiff.mpr ⟨Nat.zero_le _, hg⟩
    exact ⟨hin, hsize.trans hin⟩

theorem inside_read : ∃ t, exec step (fresh (fun _ ↦ 0) ⟨0, 0, 0, 0, 0, fun _ ↦ 0⟩)
    [.input [97, 98], .read 1] = some t ∧ t.touched ≤ ttyBufSize ∧ t.bufsize ≤ ttyBufSize := by
  have hrun := Option.some_get (show (exec step (fresh (fun _ ↦ 0) ⟨0, 0, 0, 0, 0, fun _ ↦ 0⟩)
    [.input [97, 98], .read 1]).isSome from rfl)
  refine ⟨_, hrun.symm, (inside_iff_guarded hrun.symm).mpr ⟨fun hfull ↦ ?_, fun u hu ↦ ?_⟩⟩
  · cases hfull.2.1
  · exact ⟨trivial, fun _ _ ↦ trivial⟩

/-- Canonical mode without anything else. -/
def plain : Termios := ⟨0, 0, 0, icanon, 0, fun _ ↦ 0⟩

theorem ttyPushChar_plain (h : s.bufsize < ttyBufSize) :
    (s.ttyPushChar ch flag).bufsize = s.bufsize + 1 ∧
      (s.ttyPushChar ch flag).termios = s.termios := by
  rw [ttyPushChar, if_neg (Nat.not_le.mpr h)]
  exact ⟨rfl, rfl⟩

theorem canonChars_plain (n : ℕ) (hs : s.termios = plain) (hroom : s.bufsize + n ≤ ttyBufSize) :
    (canonChars icanon 0 s (List.replicate n 97)).2 = none ∧
      (canonChars icanon 0 s (List.replicate n 97)).1.bufsize = s.bufsize + n := by
  induction n generalizing s with
  | zero => exact ⟨rfl, rfl⟩
  | succ n ih =>
    let u : Tty := { s with typed := s.typed ++ [97] }
    have hlt : u.bufsize < ttyBufSize := by
      change s.bufsize < ttyBufSize
      omega
    have hchar : canonChar icanon 0 u 97 = (u.ttyPushChar 97 false, false) := by
      rw [canonChar, show u.termios = plain from hs]
      rfl
    obtain ⟨hsize, htermios⟩ := @ttyPushChar_plain u 97 false hlt
    have hu : u.bufsize = s.bufsize := rfl
    obtain ⟨hnone, hrest⟩ := ih (htermios.trans hs) (by omega)
    rw [List.replicate_succ, canonChars, show canonChar icanon 0 _ 97 = _ from hchar]
    refine ⟨hnone, hrest.trans ?_⟩
    omega

theorem ttyInput_canon (hisig : has s.termios.lflags isig = false)
    (hcanon : has s.termios.lflags icanon = true) (input : List Byte) :
    s.ttyInput input = s.canonInput s.termios.lflags s.termios.iflags input := by
  simp only [ttyInput, hisig, inputFrom, hcanon, Bool.false_eq_true, if_false, if_true]

theorem ttyInput_raw (hisig : has s.termios.lflags isig = false)
    (hraw : has s.termios.lflags icanon = false) (input : List Byte) :
    s.ttyInput input = s.rawInput input := by
  simp only [ttyInput, hisig, inputFrom, hraw, Bool.false_eq_true, if_false]

theorem canonInput_of_none (h : (canonChars lflags iflags s input).2 = none) :
    s.canonInput lflags iflags input = (canonChars lflags iflags s input).1 := by
  rw [canonInput]
  split
  · rename_i heq
    rw [heq]
  · rename_i heq
    rw [heq] at h
    cases h

theorem ttyInput_full (hs : s.termios = plain) (hzero : s.bufsize = 0) :
    ∃ input, (s.ttyInput input).bufsize = ttyBufSize ∧ Writes s (s.ttyInput input) True := by
  obtain ⟨n, hn⟩ : ∃ n, n = ttyBufSize := ⟨_, rfl⟩
  have hisig : has s.termios.lflags isig = false := by rw [hs]; rfl
  have hcanon : has s.termios.lflags icanon = true := by rw [hs]; rfl
  obtain ⟨hnone, hsize⟩ := canonChars_plain n hs (by rw [hzero, Nat.zero_add, hn])
  have hwrites := canonChars_writes (hzero ▸ Nat.zero_le _) icanon 0 (List.replicate n 97)
  refine ⟨List.replicate n 97, ?_⟩
  rw [ttyInput_canon hisig hcanon, hs, plain, canonInput_of_none hnone, hsize, hzero, hn]
  exact ⟨Nat.zero_add _, hn ▸ hwrites⟩

/-- A full line without its end, then raw mode and one byte. -/
theorem not_inside_switched : ¬∀ buf termios evs t, exec step (fresh buf termios) evs = some t →
    t.touched ≤ ttyBufSize ∧ t.bufsize ≤ ttyBufSize := by
  intro h
  obtain ⟨input, hsize, hfull⟩ := @ttyInput_full (fresh (fun _ ↦ 0) plain) rfl rfl
  let raw : Termios := ⟨0, 0, 0, 0, 0, fun _ ↦ 0⟩
  have hflag (flag : Dword) : has 0 flag = false := by simp [has]
  have hraw (u : Tty) : { u with termios := raw }.ttyInput [1] =
      { u with termios := raw }.rawInput [1] := ttyInput_raw (hflag isig) (hflag icanon) _
  have hrun (s : Tty) : exec step s [.input input, .ioctl (.tcsets raw), .input [1]] =
      some ({ s.ttyInput input with termios := raw }.rawInput [1]) := by
    rw [← hraw]
    simp only [exec, step, ttyIoctl, Option.bind_some]
  have hin := h (fun _ ↦ 0) plain _ _ (hrun (fresh (fun _ ↦ 0) plain))
  have hwrites := @rawInput_writes { (fresh (fun _ ↦ 0) plain).ttyInput input with termios := raw }
    hfull.size [1]
  exact (hwrites.inside ((hfull.inside (Nat.zero_le _)).mpr trivial)).mp hin.1
    ⟨hsize, List.cons_ne_nil _ _⟩

end Tty

end

end Isl.Fs.Terminal
