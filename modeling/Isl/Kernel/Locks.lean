import Isl.Lib.LockOrder
import Mathlib.Tactic.FinCases

/-!
The locks that the calls of `kernel/` and `fs/` take, and the order they take them in. Left out
are the locks of address spaces, of the mounts and of the log, and the paths on which a function
returns without giving a lock back.
-/

namespace Isl.Kernel.Locks

open Isl.Lib LockOrder

/-- Files, polls, terminals, groups and so on are numbered, each kind for itself. The lock of
an eventfd or a timerfd is `fd`, that of any other file `file`. -/
inductive Lock
  | fs (fs : ℕ)
  | file (fd : ℕ)
  | timerfd (fd : ℕ)
  | ttys
  | fds (tty : ℕ)
  | pollLock (fd : ℕ)
  | poll (poll : ℕ)
  | tty (tty : ℕ)
  | pids
  | general (task : ℕ)
  | group (group : ℕ)
  | itimer (group : ℕ)
  | sighand (sighand : ℕ)
  | fd (fd : ℕ)
  | futex
  | vfork (task : ℕ)
  | waitingCond (task : ℕ)
deriving DecidableEq

abbrev Prog := List (Op Lock)

/-- Taken and given back, with nothing in between that locks. -/
def briefly (l : Lock) : Prog := locked l []

/-- A loop that sleeps in `wait_for` so many times, and has `before` and `body` with the lock
held. A sleeper can be woken at any time. -/
def waits (l : Lock) (task : ℕ) : ℕ → Prog → Prog → Prog
  | 0, before, body => locked l (before ++ body)
  | n + 1, before, body =>
    locked l (before ++ briefly (.waitingCond task)) ++
      waits l task n (briefly (.waitingCond task)) body

/-! `fs/poll.c` and `fs/fd.c` -/

def pollChange (fd poll : ℕ) : Prog := locked (.pollLock fd) (briefly (.poll poll))

def pollAddFd (fd poll : ℕ) : Prog := pollChange fd poll

def pollDelFd (fd poll : ℕ) : Prog := pollChange fd poll

def pollModFd (fd poll : ℕ) : Prog := pollChange fd poll

/-- `polls` are those the file is registered with. -/
def pollWake (fd : ℕ) (polls : List ℕ) : Prog :=
  locked (.pollLock fd) (polls.flatMap fun p ↦ briefly (.poll p))

/-- `ops->poll`; a file of the host has none. -/
inductive PollOp
  | host
  | eventfdPoll (fd : ℕ)
  | timerfdPoll (fd : ℕ)
  | ttyPoll (tty : ℕ)

def PollOp.prog : PollOp → Prog
  | host => []
  | eventfdPoll f => briefly (.fd f)
  | timerfdPoll f => briefly (.fd f)
  | ttyPoll t => briefly (.tty t)

/-- The files it looks at each time it has the lock. -/
def pollWait (poll : ℕ) (rounds : List (List PollOp)) : Prog :=
  rounds.flatMap fun files ↦ locked (.poll poll) (files.flatMap PollOp.prog)

def pollDestroy (fds : List ℕ) : Prog := fds.flatMap fun f ↦ briefly (.pollLock f)

def ttyRelease (tty : ℕ) : Prog := locked .ttys (briefly (.tty tty))

def ttyClose (tty : ℕ) : Prog := briefly (.fds tty) ++ ttyRelease tty

/-- `ops->close` -/
inductive CloseOp
  | unlocked
  | ttyClose (tty : ℕ)
  | epollClose (fds : List ℕ)

def CloseOp.prog : CloseOp → Prog
  | unlocked => []
  | ttyClose t => Locks.ttyClose t
  | epollClose fds => pollDestroy fds

structure Closing where
  fd : ℕ
  polls : List ℕ
  close : CloseOp

def fdClose (c : Closing) : Prog :=
  locked (.pollLock c.fd) (c.polls.flatMap fun p ↦ briefly (.poll p)) ++ c.close.prog

/-! `kernel/user-signal.c` -/

/-- What a signal meets: a zombie (or it is signal zero), a mask or a handler that holds it back,
the task that sends it, or another task and the lock that it has given up in `wait_for`. -/
inductive Target
  | gone
  | heldBack
  | current
  | other (waiting : Option Lock)

structure Signal where
  sighand : ℕ
  task : ℕ
  target : Target

/-- To a task that waits: the loop gets both locks or none, unless the caller has the second
one. -/
def deliverSignal (holdsPids : Bool) (task : ℕ) : Option Lock → Prog
  | none => briefly (.waitingCond task)
  | some l =>
    if holdsPids ∧ l = .pids then briefly (.waitingCond task)
    else lockedAll [l, .waitingCond task] []

def sendSignal (holdsPids : Bool) (s : Signal) : Prog :=
  match s.target with
  | .gone => []
  | .heldBack => briefly (.sighand s.sighand)
  | .current => briefly (.sighand s.sighand)
  | .other waiting => locked (.sighand s.sighand) (deliverSignal holdsPids s.task waiting)

def sendGroupSignal (signals : List Signal) : Prog :=
  locked .pids (signals.flatMap (sendSignal true))

/-! `kernel/eventfd.c`, `kernel/time.c` and `util/timer.c` -/

/-- `polls` is missing when it returns `EAGAIN`. -/
def eventfdTransfer (fd task sleeps : ℕ) (polls : Option (List ℕ)) : Prog :=
  waits (.fd fd) task sleeps [] [] ++ (polls.map (pollWake fd)).getD []

def eventfdRead (fd task sleeps : ℕ) (polls : Option (List ℕ)) : Prog :=
  eventfdTransfer fd task sleeps polls

def eventfdWrite (fd task sleeps : ℕ) (polls : Option (List ℕ)) : Prog :=
  eventfdTransfer fd task sleeps polls

def timerfdRead (fd task sleeps : ℕ) : Prog := waits (.fd fd) task sleeps [] []

def timerfdCallback (fd : ℕ) (polls : List ℕ) : Prog := briefly (.fd fd) ++ pollWake fd polls

def sysSetitimer (group : ℕ) : Prog := locked (.group group) (briefly (.itimer group))

/-- The callbacks each time the thread has the lock. -/
def itimerThread (group : ℕ) (turns : List (List Signal)) : Prog :=
  turns.flatMap fun signals ↦ locked (.itimer group) (signals.flatMap (sendSignal false))

def timerfdThread (fd : ℕ) (turns : List (List (List ℕ))) : Prog :=
  turns.flatMap fun calls ↦ locked (.timerfd fd) (calls.flatMap (timerfdCallback fd))

/-! `fs/tty.c` -/

/-- The terminal of the group, or one that `tty_get` finds or makes. -/
inductive TtyGet
  | controlling
  | get
  | driverFails

def ttyOpen (tty group : ℕ) (how : TtyGet) (leader : Bool) : Prog :=
  let opened := briefly (.fds tty) ++ locked .pids (if leader then briefly (.group group) else [])
  match how with
  | .controlling => locked .ttys (briefly (.group group)) ++ opened
  | .get => locked .ttys (briefly (.tty tty)) ++ opened
  | .driverFails => briefly .ttys

/-- With the lock of the terminal given up in between. -/
def ttyWake (tty : ℕ) (fds : List (ℕ × List ℕ)) : Prog :=
  locked (.fds tty) (fds.flatMap fun f ↦ pollWake f.1 f.2)

inductive Typed
  | interrupt (signals : List Signal)
  | wake (fds : List (ℕ × List ℕ))

def Typed.prog (tty : ℕ) : Typed → Prog
  | interrupt signals => sendGroupSignal signals
  | wake fds => ttyWake tty fds

def ttyInput (tty : ℕ) (typed : List Typed) : Prog :=
  briefly (.tty tty) ++ typed.flatMap fun e ↦ e.prog tty ++ briefly (.tty tty)

def ttyRead (tty task sleeps : ℕ) : Prog := waits (.tty tty) task sleeps [] []

def ttyWrite (tty : ℕ) : Prog := briefly (.tty tty)

/-- The groups of the session that loses the terminal, and whether it is given to `group`. -/
def tiocsctty (group : ℕ) (stolen : List ℕ) (set : Bool) : Prog :=
  locked .pids (stolen.flatMap (fun g ↦ briefly (.group g)) ++
    if set then briefly (.group group) else [])

inductive Ioctl
  | plain
  | setControlling (stolen : List ℕ) (set : Bool)
  | getForeground
  | setForeground
  | setWinsize (signals : Option (List Signal))

def ttyIoctl (tty group : ℕ) : Ioctl → Prog
  | .plain => briefly (.tty tty)
  | .setControlling stolen set => locked (.tty tty) (tiocsctty group stolen set)
  | .getForeground => locked (.tty tty) (briefly (.group group))
  | .setForeground => locked (.tty tty) (briefly .pids ++ briefly (.group group))
  | .setWinsize none => briefly (.tty tty)
  | .setWinsize (some signals) =>
    briefly (.tty tty) ++ sendGroupSignal signals ++ briefly (.tty tty)

/-! `kernel/exit.c` and `kernel/fork.c` -/

/-- What `do_exit` finds when the group is dead: its timer, and the parent. -/
structure GroupDead where
  timer : Bool
  parent : ℕ
  childExit : Signal

structure Exit where
  task : ℕ
  group : ℕ
  clearTid : Bool
  files : List Closing
  dead : Option GroupDead

def futexWake : Prog := briefly .futex

def exitTgroup (group : ℕ) : Option GroupDead → Prog
  | none => briefly (.group group)
  | some d => locked (.group group) (if d.timer then briefly (.itimer group) else []) ++
      briefly .pids

def vforkNotify (task : ℕ) : Prog := briefly (.vfork task)

def notifyParent : Option GroupDead → Prog
  | none => []
  | some d => briefly (.group d.parent) ++ sendSignal true d.childExit

def doExit (e : Exit) : Prog :=
  (if e.clearTid then futexWake else []) ++ e.files.flatMap fdClose ++
    exitTgroup e.group e.dead ++ vforkNotify e.task ++ briefly (.group e.group) ++
      locked .pids (notifyParent e.dead)

/-- The threads of the group are signalled, and then the caller exits. -/
def doExitGroup (signals : List Signal) (e : Exit) : Prog :=
  locked (.group e.group) (signals.flatMap (sendSignal false)) ++ doExit e

/-- `reaped` is the group of the zombie. -/
def sysWait4 (task sleeps : ℕ) (reaped : Option ℕ) : Prog :=
  waits .pids task sleeps [] ((reaped.map fun g ↦ briefly (.group g)).getD [])

/-- `vfork` is the child that is waited for, and the times the parent sleeps. -/
def sysClone (task group : ℕ) (vfork : Option (ℕ × ℕ)) : Prog :=
  briefly .pids ++ locked .pids (briefly (.group group)) ++
    (vfork.map fun w ↦ waits (.vfork w.1) task w.2 [] []).getD []

/-! `kernel/exec.c`, `kernel/fs.c` and `fs/proc/root.c` -/

/-- What `sys_execve` does with files, handlers and the name once the new program is there. -/
def execDone (task sighand : ℕ) (files : List Closing) : Prog :=
  files.flatMap fdClose ++ vforkNotify task ++ briefly (.sighand sighand) ++
    briefly (.general task)

def fsChdir (fs : ℕ) (pwd : Option Closing) : Prog :=
  locked (.fs fs) ((pwd.map fdClose).getD [])

/-- A task, with its group and handlers, where there is one. -/
structure Shown where
  task : ℕ
  group : ℕ
  sighand : ℕ

def procPidStatShow : Option Shown → Prog
  | none => briefly .pids
  | some t =>
    locked .pids (locked (.general t.task) (locked (.group t.group) (briefly (.sighand t.sighand))))

/-- The read of a file with `lseek`; `proc` tells that it is the `stat` of a task. -/
def sysPread (fd : ℕ) (proc : Option (Option Shown)) : Prog :=
  locked (.file fd) ((proc.map procPidStatShow).getD [])

/-! The calls. -/

inductive Call
  | pollAddFd (fd poll : ℕ)
  | pollDelFd (fd poll : ℕ)
  | pollModFd (fd poll : ℕ)
  | pollWait (poll : ℕ) (rounds : List (List PollOp))
  | pollDestroy (fds : List ℕ)
  | fdClose (c : Closing)
  | eventfdRead (fd task sleeps : ℕ) (polls : Option (List ℕ))
  | eventfdWrite (fd task sleeps : ℕ) (polls : Option (List ℕ))
  | timerfdRead (fd task sleeps : ℕ)
  | timerfdThread (fd : ℕ) (turns : List (List (List ℕ)))
  | itimerThread (group : ℕ) (turns : List (List Signal))
  | sysSetitimer (group : ℕ)
  | ttyOpen (tty group : ℕ) (how : TtyGet) (leader : Bool)
  | ttyInput (tty : ℕ) (typed : List Typed)
  | ttyRead (tty task sleeps : ℕ)
  | ttyWrite (tty : ℕ)
  | ttyIoctl (tty group : ℕ) (request : Ioctl)
  | sendGroupSignal (signals : List Signal)
  | sysKill (signal : Option Signal)
  | sighand (sighand : ℕ)
  | futexWait (task sleeps : ℕ)
  | futexWake
  | sysSetsid (group : ℕ)
  | sysSetpgid
  | sysClone (task group : ℕ) (vfork : Option (ℕ × ℕ))
  | execDone (task sighand : ℕ) (files : List Closing)
  | doExit (e : Exit)
  | doExitGroup (signals : List Signal) (e : Exit)
  | sysWait4 (task sleeps : ℕ) (reaped : Option ℕ)
  | rlimit (group : ℕ)
  | fsChdir (fs : ℕ) (pwd : Option Closing)
  | sysGetcwd (fs : ℕ)
  | sysLseek (fd : ℕ)
  | sysPread (fd : ℕ) (proc : Option (Option Shown))
  | procPidStatShow (shown : Option Shown)

def Call.prog : Call → Prog
  | pollAddFd f p => Locks.pollAddFd f p
  | pollDelFd f p => Locks.pollDelFd f p
  | pollModFd f p => Locks.pollModFd f p
  | pollWait p rounds => Locks.pollWait p rounds
  | pollDestroy fds => Locks.pollDestroy fds
  | fdClose c => Locks.fdClose c
  | eventfdRead f k n polls => Locks.eventfdRead f k n polls
  | eventfdWrite f k n polls => Locks.eventfdWrite f k n polls
  | timerfdRead f k n => Locks.timerfdRead f k n
  | timerfdThread f turns => Locks.timerfdThread f turns
  | itimerThread g turns => Locks.itimerThread g turns
  | sysSetitimer g => Locks.sysSetitimer g
  | ttyOpen t g how leader => Locks.ttyOpen t g how leader
  | ttyInput t typed => Locks.ttyInput t typed
  | ttyRead t k n => Locks.ttyRead t k n
  | ttyWrite t => Locks.ttyWrite t
  | ttyIoctl t g request => Locks.ttyIoctl t g request
  | sendGroupSignal signals => Locks.sendGroupSignal signals
  | sysKill signal => Locks.sendGroupSignal signal.toList
  | sighand s => briefly (.sighand s)
  | futexWait k n => waits .futex k n [] []
  | futexWake => Locks.futexWake
  | sysSetsid g => locked .pids (briefly (.group g))
  | sysSetpgid => briefly .pids
  | sysClone k g vfork => Locks.sysClone k g vfork
  | execDone k s files => Locks.execDone k s files
  | doExit e => Locks.doExit e
  | doExitGroup signals e => Locks.doExitGroup signals e
  | sysWait4 k n reaped => Locks.sysWait4 k n reaped
  | rlimit g => briefly (.group g)
  | fsChdir i pwd => Locks.fsChdir i pwd
  | sysGetcwd i => briefly (.fs i)
  | sysLseek f => briefly (.file f)
  | sysPread f proc => Locks.sysPread f proc
  | procPidStatShow shown => Locks.procPidStatShow shown

def thread (calls : List Call) : Prog := calls.flatMap Call.prog

/-! The order. -/

/-- Terminals come late when no `ioctl` asks for groups with the lock of one. -/
def rank (late : Bool) : Lock → ℕ
  | .fs _ => 0
  | .file _ => 0
  | .timerfd _ => 1
  | .ttys => 1
  | .fds _ => 1
  | .pollLock _ => 2
  | .poll _ => 3
  | .tty _ => if late then 10 else 4
  | .pids => 5
  | .general _ => 6
  | .group _ => 7
  | .itimer _ => 8
  | .sighand _ => 9
  | .fd _ => 10
  | .futex => 10
  | .vfork _ => 10
  | .waitingCond _ => 11

def CanWake (late holdsPids : Bool) : Option Lock → Prop
  | none => True
  | some (.fd _) => True
  | some .futex => True
  | some (.vfork _) => True
  | some (.tty _) => late
  | some .pids => holdsPids
  | some _ => False

def Signal.Ok (late holdsPids : Bool) (s : Signal) : Prop :=
  ∀ waiting, s.target = .other waiting → CanWake late holdsPids waiting

def Typed.Ok (late : Bool) : Typed → Prop
  | interrupt signals => ∀ s ∈ signals, s.Ok late true
  | wake _ => True

def Ioctl.Ok (late : Bool) : Ioctl → Prop
  | plain => True
  | setWinsize signals => ∀ ss ∈ signals, ∀ s ∈ ss, s.Ok late true
  | _ => ¬late

def Exit.Ok (late : Bool) (e : Exit) : Prop := ∀ d ∈ e.dead, d.childExit.Ok late true

/-- No signal is sent to a task that sleeps in `wait4` but with `pids_lock` held. Terminals do
not ask for groups, or no signal is sent to a task that sleeps in a read of a terminal. -/
def Call.Ok (late : Bool) : Call → Prop
  | itimerThread _ turns => ∀ ss ∈ turns, ∀ s ∈ ss, s.Ok late false
  | ttyInput _ typed => ∀ e ∈ typed, e.Ok late
  | ttyIoctl _ _ request => request.Ok late
  | sendGroupSignal signals => ∀ s ∈ signals, s.Ok late true
  | sysKill signal => ∀ s ∈ signal, s.Ok late true
  | doExit e => e.Ok late
  | doExitGroup signals e => (∀ s ∈ signals, s.Ok late false) ∧ e.Ok late
  | _ => True

section

variable {late holdsPids : Bool} {l : Lock} {r n : ℕ} {before body : Prog}

theorem above_briefly (hr : r ≤ rank late l) : Above (rank late) r (briefly l) :=
  Above.locked above_nil hr

theorem above_option {α : Type*} {o : Option α} {f : α → Prog}
    (h : ∀ a ∈ o, Above (rank late) r (f a)) : Above (rank late) r ((o.map f).getD []) := by
  cases o with
  | none => exact above_nil
  | some a => exact h a rfl

theorem above_waits (hl : rank late l ≤ 10) (hr : r ≤ rank late l)
    (hbefore : Above (rank late) (rank late l + 1) before)
    (hbody : Above (rank late) (rank late l + 1) body) (task : ℕ) :
    Above (rank late) r (waits l task n before body) := by
  have hcond : Above (rank late) (rank late l + 1) (briefly (.waitingCond task)) :=
    above_briefly (Nat.succ_le_succ hl)
  induction n generalizing before with
  | zero => exact Above.locked (hbefore.append hbody) hr
  | succ n ih => exact (Above.locked (hbefore.append hcond) hr).append (ih hcond)

theorem above_pollChange (fd poll : ℕ) : Above (rank late) 0 (pollChange fd poll) :=
  Above.locked (above_briefly (by simp [rank])) (by simp [rank])

theorem above_pollWake (fd : ℕ) (polls : List ℕ) : Above (rank late) 2 (pollWake fd polls) := by
  refine Above.locked (above_flatMap fun p _ ↦ ?_) (by simp [rank])
  exact above_briefly (by simp [rank])

theorem above_pollOp (o : PollOp) : Above (rank late) 4 o.prog := by
  cases o with
  | host => exact above_nil
  | eventfdPoll f => exact above_briefly (by simp [rank])
  | timerfdPoll f => exact above_briefly (by simp [rank])
  | ttyPoll t => exact above_briefly (by cases late <;> simp [rank])

theorem above_pollWait (poll : ℕ) (rounds : List (List PollOp)) :
    Above (rank late) 0 (pollWait poll rounds) := by
  refine above_flatMap fun files _ ↦ ?_
  exact Above.locked (above_flatMap fun o _ ↦ above_pollOp o) (by simp [rank])

theorem above_pollDestroy (fds : List ℕ) : Above (rank late) 1 (pollDestroy fds) :=
  above_flatMap fun f _ ↦ above_briefly (by simp [rank])

theorem above_ttyRelease (tty : ℕ) : Above (rank late) 1 (ttyRelease tty) :=
  Above.locked (above_briefly (by cases late <;> simp [rank])) (by simp [rank])

theorem above_fdClose (c : Closing) : Above (rank late) 1 (fdClose c) := by
  have hpolls : Above (rank late) 1
      (locked (.pollLock c.fd) (c.polls.flatMap fun p ↦ briefly (.poll p))) :=
    (above_pollWake c.fd c.polls).mono (by decide)
  refine hpolls.append ?_
  cases c.close with
  | unlocked => exact above_nil
  | ttyClose t => exact (above_briefly (by simp [rank])).append (above_ttyRelease t)
  | epollClose fds => exact above_pollDestroy fds

/-! Signals. -/

theorem above_deliverSignal (task : ℕ) {waiting : Option Lock}
    (h : CanWake late holdsPids waiting) :
    Above (rank late) 10 (deliverSignal holdsPids task waiting) := by
  have hcond : Above (rank late) 10 (briefly (.waitingCond task)) := above_briefly (by simp [rank])
  cases waiting with
  | none => exact hcond
  | some l =>
    rw [deliverSignal]
    split
    · exact hcond
    · rename_i hmine
      have hlast : rank late l = 10 := by
        cases l <;> simp_all [CanWake, rank]
      have hne : l ≠ .waitingCond task := by
        rintro rfl
        simp [rank] at hlast
      refine (above_nil (r := 12)).lockedAll (by simpa using hne) ?_ (by decide)
      intro l' hl'
      rcases List.mem_pair.mp hl' with rfl | rfl
      · rw [hlast]
        decide
      · simp [rank]

theorem above_sendSignal {s : Signal} (h : s.Ok late holdsPids) :
    Above (rank late) 9 (sendSignal holdsPids s) := by
  unfold sendSignal
  cases ht : s.target with
  | gone => exact above_nil
  | heldBack => exact above_briefly (by simp [rank])
  | current => exact above_briefly (by simp [rank])
  | other waiting =>
    refine Above.locked ?_ (by simp [rank])
    exact above_deliverSignal s.task (h waiting ht)

theorem above_signals {signals : List Signal} (h : ∀ s ∈ signals, s.Ok late holdsPids) :
    Above (rank late) 9 (signals.flatMap (sendSignal holdsPids)) :=
  above_flatMap fun s hs ↦ above_sendSignal (h s hs)

theorem above_sendGroupSignal {signals : List Signal} (h : ∀ s ∈ signals, s.Ok late true) :
    Above (rank late) 0 (sendGroupSignal signals) :=
  Above.locked ((above_signals h).mono (by simp [rank])) (by simp [rank])

theorem above_itimerThread (group : ℕ) {turns : List (List Signal)}
    (h : ∀ ss ∈ turns, ∀ s ∈ ss, s.Ok late false) :
    Above (rank late) 0 (itimerThread group turns) := by
  refine above_flatMap fun signals hs ↦ ?_
  exact Above.locked ((above_signals (h signals hs)).mono (by simp [rank])) (by simp [rank])

/-! Files that wait, and terminals. -/

theorem above_eventfdTransfer (fd task sleeps : ℕ) (polls : Option (List ℕ)) :
    Above (rank late) 0 (eventfdTransfer fd task sleeps polls) := by
  have hwaits : Above (rank late) 0 (waits (.fd fd) task sleeps [] []) :=
    above_waits (by simp [rank]) (by simp [rank]) above_nil above_nil task
  refine hwaits.append (above_option fun ps _ ↦ ?_)
  exact (above_pollWake fd ps).mono (by decide)

theorem above_timerfdThread (fd : ℕ) (turns : List (List (List ℕ))) :
    Above (rank late) 0 (timerfdThread fd turns) := by
  refine above_flatMap fun calls _ ↦ Above.locked (above_flatMap fun ps _ ↦ ?_) (by simp [rank])
  exact (above_briefly (by simp [rank])).append ((above_pollWake fd ps).mono (by simp [rank]))

theorem above_ttyOpen (tty group : ℕ) (how : TtyGet) (leader : Bool) :
    Above (rank late) 0 (ttyOpen tty group how leader) := by
  have hset : Above (rank late) 6 (if leader then briefly (.group group) else []) := by
    split
    · exact above_briefly (by simp [rank])
    · exact above_nil
  have hfds : Above (rank late) 0 (briefly (.fds tty)) := above_briefly (Nat.zero_le _)
  have hpids : Above (rank late) 0
      (locked .pids (if leader then briefly (.group group) else [])) :=
    Above.locked hset (Nat.zero_le _)
  have hopened := hfds.append hpids
  cases how with
  | controlling =>
    exact (Above.locked (above_briefly (by simp [rank])) (by simp [rank])).append hopened
  | get => exact ((above_ttyRelease tty).mono (by decide)).append hopened
  | driverFails => exact above_briefly (by simp [rank])

theorem above_typed (tty : ℕ) {e : Typed} (h : e.Ok late) : Above (rank late) 0 (e.prog tty) := by
  cases e with
  | interrupt signals => exact above_sendGroupSignal h
  | wake fds =>
    refine Above.locked (above_flatMap fun f _ ↦ ?_) (by simp [rank])
    exact above_pollWake f.1 f.2

theorem above_ttyInput (tty : ℕ) {typed : List Typed} (h : ∀ e ∈ typed, e.Ok late) :
    Above (rank late) 0 (ttyInput tty typed) := by
  refine (above_briefly (Nat.zero_le _)).append (above_flatMap fun e he ↦ ?_)
  exact (above_typed tty (h e he)).append (above_briefly (Nat.zero_le _))

theorem above_tiocsctty (group : ℕ) (stolen : List ℕ) (set : Bool) :
    Above (rank late) 5 (tiocsctty group stolen set) := by
  refine Above.locked (Above.append ?_ ?_) (by simp [rank])
  · exact above_flatMap fun g _ ↦ above_briefly (by simp [rank])
  · split
    · exact above_briefly (by simp [rank])
    · exact above_nil

theorem above_ttyIoctl (tty group : ℕ) {request : Ioctl} (h : request.Ok late) :
    Above (rank late) 0 (ttyIoctl tty group request) := by
  have htty : Above (rank late) 0 (briefly (.tty tty)) := above_briefly (Nat.zero_le _)
  cases request with
  | plain => exact htty
  | setControlling stolen set =>
    cases late with
    | true => exact absurd rfl h
    | false => exact Above.locked (above_tiocsctty group stolen set) (Nat.zero_le _)
  | getForeground =>
    cases late with
    | true => exact absurd rfl h
    | false => exact Above.locked (above_briefly (by simp [rank])) (Nat.zero_le _)
  | setForeground =>
    cases late with
    | true => exact absurd rfl h
    | false =>
      refine Above.locked (Above.append ?_ ?_) (Nat.zero_le _)
      · exact above_briefly (by simp [rank])
      · exact above_briefly (by simp [rank])
  | setWinsize signals =>
    cases signals with
    | none => exact htty
    | some signals => exact (htty.append (above_sendGroupSignal (h signals rfl))).append htty

/-! Processes. -/

theorem above_files (files : List Closing) : Above (rank late) 0 (files.flatMap fdClose) :=
  above_flatMap fun c _ ↦ (above_fdClose c).mono (by decide)

theorem above_exitTgroup (group : ℕ) (dead : Option GroupDead) :
    Above (rank late) 0 (exitTgroup group dead) := by
  cases dead with
  | none => exact above_briefly (by simp [rank])
  | some d =>
    refine (Above.locked ?_ (by simp [rank])).append (above_briefly (by simp [rank]))
    split
    · exact above_briefly (by simp [rank])
    · exact above_nil

theorem above_notifyParent {dead : Option GroupDead} (h : ∀ d ∈ dead, d.childExit.Ok late true) :
    Above (rank late) 6 (notifyParent dead) := by
  cases dead with
  | none => exact above_nil
  | some d =>
    have hsignal := (above_sendSignal (h d rfl)).mono (r := 6) (by decide)
    exact (above_briefly (by simp [rank])).append hsignal

theorem above_doExit {e : Exit} (h : e.Ok late) : Above (rank late) 0 (doExit e) := by
  have hclear : Above (rank late) 0 (if e.clearTid then futexWake else []) := by
    split
    · exact above_briefly (by simp [rank])
    · exact above_nil
  have hvfork : Above (rank late) 0 (vforkNotify e.task) := above_briefly (by simp [rank])
  have hgroup : Above (rank late) 0 (briefly (.group e.group)) := above_briefly (by simp [rank])
  have hparent : Above (rank late) 0 (locked .pids (notifyParent e.dead)) :=
    Above.locked (above_notifyParent h) (by simp [rank])
  exact ((((hclear.append (above_files e.files)).append (above_exitTgroup e.group e.dead)).append
    hvfork).append hgroup).append hparent

theorem above_doExitGroup {signals : List Signal} {e : Exit} (h : ∀ s ∈ signals, s.Ok late false)
    (he : e.Ok late) : Above (rank late) 0 (doExitGroup signals e) := by
  refine (Above.locked ?_ (by simp [rank])).append (above_doExit he)
  exact (above_signals h).mono (by simp [rank])

theorem above_sysClone (task group : ℕ) (vfork : Option (ℕ × ℕ)) :
    Above (rank late) 0 (sysClone task group vfork) := by
  have hcreate : Above (rank late) 0 (briefly .pids) := above_briefly (by simp [rank])
  have hcopy : Above (rank late) 0 (locked .pids (briefly (.group group))) :=
    Above.locked (above_briefly (by simp [rank])) (by simp [rank])
  refine (hcreate.append hcopy).append (above_option fun w _ ↦ ?_)
  exact above_waits (by simp [rank]) (by simp [rank]) above_nil above_nil task

theorem above_procPidStatShow (shown : Option Shown) :
    Above (rank late) 5 (procPidStatShow shown) := by
  cases shown with
  | none => exact above_briefly (by simp [rank])
  | some t =>
    refine Above.locked (Above.locked (Above.locked ?_ ?_) ?_) ?_
    · exact above_briefly (by simp [rank])
    all_goals simp [rank]

theorem above_call {c : Call} (h : c.Ok late) : Above (rank late) 0 c.prog := by
  cases c with
  | pollAddFd f p => exact above_pollChange f p
  | pollDelFd f p => exact above_pollChange f p
  | pollModFd f p => exact above_pollChange f p
  | pollWait p rounds => exact above_pollWait p rounds
  | pollDestroy fds => exact (above_pollDestroy fds).mono (by decide)
  | fdClose c => exact (above_fdClose c).mono (by decide)
  | eventfdRead f k n polls => exact above_eventfdTransfer f k n polls
  | eventfdWrite f k n polls => exact above_eventfdTransfer f k n polls
  | timerfdRead f k n =>
    exact above_waits (by simp [rank]) (by simp [rank]) above_nil above_nil k
  | timerfdThread f turns => exact above_timerfdThread f turns
  | itimerThread g turns => exact above_itimerThread g h
  | sysSetitimer g => exact Above.locked (above_briefly (by simp [rank])) (by simp [rank])
  | ttyOpen t g how leader => exact above_ttyOpen t g how leader
  | ttyInput t typed => exact above_ttyInput t h
  | ttyRead t k n =>
    exact above_waits (by cases late <;> simp [rank]) (Nat.zero_le _) above_nil above_nil k
  | ttyWrite t => exact above_briefly (Nat.zero_le _)
  | ttyIoctl t g request => exact above_ttyIoctl t g h
  | sendGroupSignal signals => exact above_sendGroupSignal h
  | sysKill signal => exact above_sendGroupSignal fun s hs ↦ h s (Option.mem_toList.mp hs)
  | sighand s => exact above_briefly (Nat.zero_le _)
  | futexWait k n => exact above_waits (by simp [rank]) (by simp [rank]) above_nil above_nil k
  | futexWake => exact above_briefly (Nat.zero_le _)
  | sysSetsid g => exact Above.locked (above_briefly (by simp [rank])) (by simp [rank])
  | sysSetpgid => exact above_briefly (Nat.zero_le _)
  | sysClone k g vfork => exact above_sysClone k g vfork
  | execDone k s files =>
    exact (((above_files files).append (above_briefly (Nat.zero_le _))).append
      (above_briefly (Nat.zero_le _))).append (above_briefly (Nat.zero_le _))
  | doExit e => exact above_doExit h
  | doExitGroup signals e => exact above_doExitGroup h.1 h.2
  | sysWait4 k n reaped =>
    refine above_waits (by simp [rank]) (by simp [rank]) above_nil ?_ k
    exact above_option fun g _ ↦ above_briefly (by simp [rank])
  | rlimit g => exact above_briefly (Nat.zero_le _)
  | fsChdir i pwd =>
    exact Above.locked (above_option fun c _ ↦ above_fdClose c) (Nat.zero_le _)
  | sysGetcwd i => exact above_briefly (Nat.zero_le _)
  | sysLseek f => exact above_briefly (Nat.zero_le _)
  | sysPread f proc =>
    refine Above.locked (above_option fun shown _ ↦ ?_) (Nat.zero_le _)
    exact (above_procPidStatShow shown).mono (by simp [rank])
  | procPidStatShow shown => exact (above_procPidStatShow shown).mono (by decide)

end

/-- Task 1 sleeps in `wait_for` with this lock. -/
def sigkill (waiting : Option Lock) : Signal := ⟨1, 1, .other waiting⟩

/-- A task that reads from a terminal, a signal to it, and an `ioctl`. -/
def readers : Fin 3 → List Call
  | 0 => [.ttyRead 0 1 1]
  | 1 => [.sysKill (some (sigkill (some (.tty 0))))]
  | 2 => [.ttyIoctl 0 0 (.setWinsize none)]

end Isl.Kernel.Locks
