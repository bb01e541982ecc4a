import Isl.Kernel.SignalMask
import Isl.Lib.Links
import Isl.Lib.Matched

/-!
The signals of all tasks, from `send_signal` to `receive_signals`, with a record
of what was sent and acted on. A task starts as a copy of its parent.
-/

namespace Isl.Kernel.SignalHistory

open Isl.Lib Isl.Lib.Run Emu Memory

/-- Tasks are numbered in the order of their creation, so that no two ever have
one number. In `log`, newest first, a signal is put when it is sent to a task
and taken when the task acts on it. -/
structure State where
  task : ℕ → Option Task
  next : ℕ
  log : List (Mark (ℕ × Sig))

/-- What a task does may also change the memory and the handlers of the tasks
it shares them with, which then is a `guest` event of theirs. -/
inductive Event
  | send (t : ℕ) (zombie : Bool) (sig : Sig)
  | deliver (t : ℕ) (sig : Sig)
  | receive (t : ℕ) (symbol : Addr)
  | sigprocmask (t : ℕ) (how : Dword) (set : SigSet)
  | sigreturn (t : ℕ) (frame : SigFrame)
  | guest (t : ℕ) (cpu : CpuState) (mem : GuestMem) (sighand : SigHand)
  | clone (t : ℕ) (flags stack tls : Dword) (mem : GuestMem) (fails : Bool)
  | exit (t : ℕ)

def cloneSighand : Dword := 0x800
def cloneSettls : Dword := 0x80000

/-- `send_signal` does not drop the signal. -/
def accepts (t : Task) (zombie : Bool) (sig : Sig) : Bool :=
  sig != 0 && !zombie && signalAction t.sighand sig != .ignore

def deliverSignal (t : Task) (sig : Sig) : Task := { t with pending := t.pending ||| sigBit sig }

/-- The signals that the loop of `receive_signals` acts on, the last one of a
task that exits included. -/
def actsOn (symbol : Addr) (t : Task) : List Sig → List Sig
  | [] => []
  | sig :: sigs =>
    if t.pending.getLsbD sig then
      sig :: match receiveSignal symbol t sig with
        | .ok t => actsOn symbol t sigs
        | .error _ => []
    else actsOn symbol t sigs

/-- `*task = *parent`, after which no signal set is changed. -/
def taskCreate (parent : Task) : Task := parent

def sighandCopy (sighand : SigHand) : SigHand :=
  { handler := sighand.handler, altstack := 0, onAltstack := false }

/-- What `copy_task` and `sys_clone` change in the new task. Its memory is that
of the parent or a copy, with the number of the task stored where the flags ask
for it, and `tls` is the base that the descriptor gives. -/
def copyTask (task : Task) (flags stack tls : Dword) (mem : GuestMem) : Task :=
  let esp := if stack ≠ 0 then stack else task.cpu.regs .esp
  { task with
    cpu :=
      { task.cpu with
        regs := Function.update (Function.update task.cpu.regs .esp esp) .eax 0
        tlsPtr := if flags &&& cloneSettls ≠ 0 then tls else task.cpu.tlsPtr }
    mem := mem
    sighand := if flags &&& cloneSighand ≠ 0 then task.sighand else sighandCopy task.sighand }

namespace State

def put (s : State) (t : ℕ) (task : Task) : State :=
  { s with task := Function.update s.task t (some task) }

def mark (s : State) (marks : List (Mark (ℕ × Sig))) : State := { s with log := marks ++ s.log }

def receive (s : State) (t : ℕ) (symbol : Addr) (task : Task) : State :=
  let acts := if task.pending ≠ 0 then actsOn symbol task (List.finRange numSigs) else []
  { s with
    task := Function.update s.task t (receiveSignals symbol task).toOption
    log := (acts.reverse.map fun sig ↦ Mark.take (t, sig)) ++ s.log }

def clone (s : State) (parent : Task) (flags stack tls : Dword) (mem : GuestMem) : State :=
  { s with
    task := Function.update s.task s.next (some (copyTask (taskCreate parent) flags stack tls mem))
    next := s.next + 1 }

/-- A task that does not exist does nothing and is sent nothing. -/
def step (s : State) : Event → Option State
  | .send t zombie sig => do
    let task ← s.task t
    let s := if accepts task zombie sig then s.mark [.put (t, sig)] else s
    some (s.put t (sendSignal task zombie sig))
  | .deliver t sig => do
    let task ← s.task t
    some ((s.mark [.put (t, sig)]).put t (deliverSignal task sig))
  | .receive t symbol => do
    let task ← s.task t
    some (s.receive t symbol task)
  | .sigprocmask t how mask => do
    let task ← s.task t
    some (s.put t (doSigprocmask task how mask).1)
  | .sigreturn t frame => do
    let task ← s.task t
    some (s.put t (Isl.Kernel.sigreturn task frame))
  | .guest t cpu mem sighand => do
    let task ← s.task t
    some (s.put t { task with cpu := cpu, mem := mem, sighand := sighand })
  | .clone t flags stack tls mem fails => do
    let task ← s.task t
    some (if fails then s else s.clone task flags stack tls mem)
  | .exit t => do
    let _ ← s.task t
    some { s with task := Function.update s.task t none }

/-- The first process. -/
def init : State where
  task := Function.update (fun _ ↦ none) 0 (some Task.idle)
  next := 1
  log := []

/-- A task that is copied has no signal waiting. -/
def Keeps (s : State) : Event → Prop
  | .clone t _ _ _ _ fails => fails ∨ ∀ task, s.task t = some task →
      task.pending = 0 ∧ task.queued = 0
  | _ => True

end State

/-- The sets that a signal waits in. -/
def waiting (t : Task) (sig : Sig) : ℕ :=
  (t.pending.getLsbD sig).toNat + (t.queued.getLsbD sig).toNat

section

variable {t t' : Task} {sig : Sig} {symbol : Addr} {sigs : List Sig}

theorem waiting_congr (hp : t'.pending = t.pending) (hq : t'.queued = t.queued) (sig : Sig) :
    waiting t' sig = waiting t sig := by
  rw [waiting, waiting, hp, hq]

theorem waiting_setMask (t : Task) (blocked : SigSet) (sig : Sig) :
    waiting (t.setMask blocked) sig ≤ waiting t sig := by
  rw [waiting, waiting, Task.setMask_pending, Task.setMask_queued]
  cases t.pending.getLsbD sig <;> cases t.queued.getLsbD sig <;>
    cases t.blocked.getLsbD sig <;> cases blocked.getLsbD sig <;> decide

theorem waiting_doSigprocmask (t : Task) (how : Dword) (set : SigSet) (sig : Sig) :
    waiting (doSigprocmask t how set).1 sig ≤ waiting t sig := by
  rw [doSigprocmask_eq]
  cases newMask t how set with
  | none => exact le_rfl
  | some blocked => exact waiting_setMask t blocked sig

theorem waiting_sigreturn (t : Task) (frame : SigFrame) (sig : Sig) :
    waiting (sigreturn t frame) sig ≤ waiting t sig := by
  obtain ⟨-, hp, hq⟩ := sigreturn_sets t frame
  rw [waiting_congr hp hq]
  exact waiting_setMask t _ sig

theorem waiting_pending_or (t : Task) (sig s : Sig) :
    waiting { t with pending := t.pending ||| sigBit sig } s ≤
      waiting t s + if s = sig then 1 else 0 := by
  simp only [waiting, BitVec.getLsbD_or, getLsbD_sigBit]
  by_cases hs : s = sig
  · cases t.pending.getLsbD s <;> cases t.queued.getLsbD s <;> simp [hs]
  · simp [hs]

theorem waiting_queued_or (t : Task) (sig s : Sig) :
    waiting { t with queued := t.queued ||| sigBit sig } s ≤
      waiting t s + if s = sig then 1 else 0 := by
  simp only [waiting, BitVec.getLsbD_or, getLsbD_sigBit]
  by_cases hs : s = sig
  · cases t.pending.getLsbD s <;> cases t.queued.getLsbD s <;> simp [hs]
  · simp [hs]

/-- A signal that is not dropped goes to one of the sets. -/
theorem waiting_sendSignal (t : Task) (zombie : Bool) (sig s : Sig) :
    waiting (sendSignal t zombie sig) s ≤
      waiting t s + if accepts t zombie sig ∧ s = sig then 1 else 0 := by
  by_cases ha : accepts t zombie sig = true
  · simp only [ha, true_and]
    simp only [accepts, Bool.and_eq_true, bne_iff_ne, ne_eq, Bool.not_eq_true'] at ha
    obtain ⟨⟨hsig, hz⟩, hact⟩ := ha
    rw [sendSignal, if_neg hsig, if_neg (by simp [hz]), if_neg hact]
    split
    · exact waiting_queued_or t sig s
    · exact waiting_pending_or t sig s
  · have hdrop : sendSignal t zombie sig = t := by
      simp only [accepts, Bool.and_eq_true, bne_iff_ne, ne_eq, Bool.not_eq_true'] at ha
      unfold sendSignal
      split_ifs with hsig hz hact
      · rfl
      · rfl
      · rfl
      · exact absurd ⟨⟨hsig, by simpa using hz⟩, hact⟩ ha
      · exact absurd ⟨⟨hsig, by simpa using hz⟩, hact⟩ ha
    rw [hdrop]
    exact Nat.le_add_right _ _

theorem waiting_receiveSignal (h : receiveSignal symbol t sig = .ok t')
    (hp : t.pending.getLsbD sig) (s : Sig) :
    waiting t' s + (if s = sig then 1 else 0) = waiting t s := by
  obtain ⟨hq, hpending, -, -⟩ := Task.receiveSignal_sets h
  rw [waiting, waiting, hq, hpending, BitVec.getLsbD_and, getLsbD_compl, getLsbD_sigBit]
  by_cases hs : s = sig
  · rw [hs, hp, if_pos rfl, decide_eq_true rfl, Bool.not_true, Bool.and_false, Bool.toNat_false,
      Bool.toNat_true, Nat.zero_add, Nat.add_comm]
  · simp [hs]

/-- Every signal that is acted on was waiting, and waits no more. -/
theorem waiting_receivePending (symbol : Addr) (t : Task) (sigs : List Sig) (s : Sig) :
    (actsOn symbol t sigs).count s + ((receivePending symbol t sigs).toOption.elim 0 (waiting · s)) ≤
      waiting t s := by
  induction sigs generalizing t with
  | nil => simp [actsOn, receivePending, Except.toOption]
  | cons sig sigs ih =>
    rw [actsOn, receivePending]
    by_cases hp : t.pending.getLsbD sig = true
    · rw [if_pos hp, if_pos hp, List.count_cons]
      cases hr : receiveSignal symbol t sig with
      | ok t' =>
        have hw := waiting_receiveSignal hr hp s
        have hrest := ih t'
        simp only [beq_iff_eq, eq_comm (b := s)]
        omega
      | error e =>
        have hpos : (if s = sig then 1 else 0) ≤ waiting t s := by
          split
          · rename_i hs
            rw [hs, waiting, hp]
            exact Nat.le_add_right _ _
          · exact Nat.zero_le _
        simpa [Except.toOption, eq_comm (b := s)] using hpos
    · rw [if_neg hp, if_neg hp]
      exact ih t

namespace State

variable {s s' : State} {n : ℕ} {ev : Event} {task : Task}

/-- The record is matched, and for each signal that waits in a task there is one
that was sent to it. -/
structure Inv (s : State) : Prop where
  matched : Matched s.log
  backed : ∀ n task sig, s.task n = some task →
    waiting task sig + s.log.count (.take (n, sig)) ≤ s.log.count (.put (n, sig))

/-- A task whose sets hold nothing new. -/
theorem Inv.put (h : s.Inv) (hw : ∀ sig, waiting task sig + s.log.count (.take (n, sig)) ≤
    s.log.count (.put (n, sig))) : (s.put n task).Inv := by
  refine ⟨h.matched, fun m u sig hu ↦ ?_⟩
  obtain ⟨rfl, rfl⟩ | ⟨-, hu⟩ := update_some_eq_some.mp hu
  · exact hw sig
  · exact h.backed m u sig hu

theorem Inv.put_of_le {old : Task} (h : s.Inv) (ht : s.task n = some old)
    (hw : ∀ sig, waiting task sig ≤ waiting old sig) : (s.put n task).Inv :=
  h.put fun sig ↦ (Nat.add_le_add_right (hw sig) _).trans (h.backed n old sig ht)

theorem Inv.mark (h : s.Inv) (n : ℕ) (sig : Sig) : (s.mark [.put (n, sig)]).Inv := by
  refine ⟨h.matched.put _, fun m u x hu ↦ ?_⟩
  have hb := h.backed m u x hu
  dsimp only [State.mark, List.singleton_append]
  rw [List.count_cons_of_ne (by simp)]
  exact hb.trans List.count_le_count_cons

theorem count_mark (s : State) (n : ℕ) (sig x : Sig) :
    (s.mark [.put (n, sig)]).log.count (.take (n, x)) = s.log.count (.take (n, x)) ∧
      (s.mark [.put (n, sig)]).log.count (.put (n, x)) =
        s.log.count (.put (n, x)) + if x = sig then 1 else 0 := by
  dsimp only [State.mark, List.singleton_append]
  rw [List.count_cons_of_ne (by simp), List.count_cons]
  simp only [beq_iff_eq, Mark.put.injEq, Prod.mk.injEq, true_and, eq_comm (a := sig)]

theorem Inv.send (h : s.Inv) (ht : s.task n = some t) (zombie : Bool) (sig : Sig) :
    ((if accepts t zombie sig then s.mark [.put (n, sig)] else s).put n
      (sendSignal t zombie sig)).Inv := by
  by_cases ha : accepts t zombie sig = true
  · rw [if_pos ha]
    refine (h.mark n sig).put fun x ↦ ?_
    have hw := waiting_sendSignal t zombie sig x
    have hb := h.backed n t x ht
    obtain ⟨htake, hput⟩ := count_mark s n sig x
    simp only [ha, true_and] at hw
    omega
  · rw [if_neg ha]
    refine h.put_of_le ht fun x ↦ ?_
    have hw := waiting_sendSignal t zombie sig x
    rwa [if_neg (fun hx ↦ ha hx.1)] at hw

theorem Inv.deliver (h : s.Inv) (ht : s.task n = some t) (sig : Sig) :
    ((s.mark [.put (n, sig)]).put n (deliverSignal t sig)).Inv := by
  refine (h.mark n sig).put fun x ↦ ?_
  have hw := waiting_pending_or t sig x
  have hb := h.backed n t x ht
  obtain ⟨htake, hput⟩ := count_mark s n sig x
  rw [deliverSignal]
  omega

theorem Inv.remove (h : s.Inv) (n : ℕ) : { s with task := Function.update s.task n none }.Inv := by
  exact ⟨h.matched, fun m u sig hu ↦ h.backed m u sig (update_none_eq_some.mp hu).2⟩

/-- The loop of `receive_signals`, whose result may be the end of the task. -/
theorem waiting_receiveSignals (symbol : Addr) (t : Task) (x : Sig) :
    (if t.pending ≠ 0 then actsOn symbol t (List.finRange numSigs) else []).count x +
      (receiveSignals symbol t).toOption.elim 0 (waiting · x) ≤ waiting t x := by
  unfold receiveSignals
  split
  · exact waiting_receivePending symbol t _ x
  · simp [Except.toOption]

theorem Inv.receive (h : s.Inv) (ht : s.task n = some t) (symbol : Addr) :
    (s.receive n symbol t).Inv := by
  have hw := waiting_receiveSignals symbol t
  unfold State.receive
  generalize (if t.pending ≠ 0 then actsOn symbol t (List.finRange numSigs) else []) = acts at hw ⊢
  dsimp only
  have htakes : (acts.reverse.map fun sig ↦ Mark.take (n, sig)) =
      (acts.reverse.map fun sig ↦ (n, sig)).map Mark.take := by
    rw [List.map_map]
    rfl
  have hcount (k : ℕ × Sig) : (acts.reverse.map fun sig ↦ (n, sig)).count k =
      if k.1 = n then acts.count k.2 else 0 := by
    obtain ⟨m, x⟩ := k
    dsimp only
    by_cases hm : m = n
    · rw [if_pos hm, hm, ← List.count_reverse (l := acts)]
      exact List.count_map_of_injective _ (Prod.mk n) (Prod.mk_right_injective n) x
    · rw [if_neg hm]
      exact List.count_eq_zero.mpr (by simp [Ne.symm hm])
  have hput (k : ℕ × Sig) :
      ((acts.reverse.map fun sig ↦ Mark.take (n, sig)) ++ s.log).count (.put k) =
        s.log.count (.put k) := by
    rw [List.count_append, List.count_eq_zero.mpr (by simp), Nat.zero_add]
  have htake (k : ℕ × Sig) :
      ((acts.reverse.map fun sig ↦ Mark.take (n, sig)) ++ s.log).count (.take k) =
        (if k.1 = n then acts.count k.2 else 0) + s.log.count (.take k) := by
    rw [List.count_append, htakes, List.count_map_of_injective _ _ fun _ _ ↦ Mark.take.inj,
      hcount]
  refine ⟨?_, fun m u x hu ↦ ?_⟩
  · rw [htakes]
    refine h.matched.takes fun k ↦ ?_
    obtain ⟨m, x⟩ := k
    rw [← htakes, htake]
    dsimp only
    have hle := h.matched.count_le (m, x)
    by_cases hm : m = n
    · have hb := h.backed n t x ht
      have hx := hw x
      rw [if_pos hm, hm]
      omega
    · rw [if_neg hm]
      omega
  · dsimp only at hu ⊢
    rw [hput, htake]
    by_cases hm : m = n
    · subst hm
      rw [Function.update_self] at hu
      have hx := hw x
      have hb := h.backed m t x ht
      rw [hu] at hx
      simp only [Option.elim_some, if_true] at hx ⊢
      omega
    · rw [Function.update_of_ne hm] at hu
      rw [if_neg hm, Nat.zero_add]
      exact h.backed m u x hu

theorem waiting_eq_zero (hp : t.pending = 0) (hq : t.queued = 0) (sig : Sig) :
    waiting t sig = 0 := by
  rw [waiting, hp, hq, BitVec.ofNat_eq_ofNat, BitVec.getLsbD_zero]
  rfl

theorem Inv.clone (h : s.Inv) (hp : t.pending = 0) (hq : t.queued = 0)
    (flags stack tls : Dword) (mem : GuestMem) : (s.clone t flags stack tls mem).Inv := by
  have hnew : (s.put s.next (copyTask (taskCreate t) flags stack tls mem)).Inv := by
    refine h.put fun sig ↦ ?_
    have hzero : waiting (copyTask (taskCreate t) flags stack tls mem) sig = 0 :=
      waiting_eq_zero hp hq sig
    rw [hzero, Nat.zero_add]
    exact h.matched.count_le _
  exact ⟨hnew.matched, hnew.backed⟩

/-- One event keeps the invariant. -/
theorem Inv.step (h : s.Inv) (hk : s.Keeps ev) (hs : s.step ev = some s') : s'.Inv := by
  cases ev with
  | send n zombie sig =>
    obtain ⟨t, ht, hs⟩ := Option.bind_eq_some_iff.mp hs
    cases hs
    exact h.send ht zombie sig
  | deliver n sig =>
    obtain ⟨t, ht, hs⟩ := Option.bind_eq_some_iff.mp hs
    cases hs
    exact h.deliver ht sig
  | receive n symbol =>
    obtain ⟨t, ht, hs⟩ := Option.bind_eq_some_iff.mp hs
    cases hs
    exact h.receive ht symbol
  | sigprocmask n how set =>
    obtain ⟨t, ht, hs⟩ := Option.bind_eq_some_iff.mp hs
    cases hs
    exact h.put_of_le ht (waiting_doSigprocmask t how set)
  | sigreturn n frame =>
    obtain ⟨t, ht, hs⟩ := Option.bind_eq_some_iff.mp hs
    cases hs
    exact h.put_of_le ht (waiting_sigreturn t frame)
  | guest n cpu mem sighand =>
    obtain ⟨t, ht, hs⟩ := Option.bind_eq_some_iff.mp hs
    cases hs
    exact h.put_of_le ht fun _ ↦ le_rfl
  | clone n flags stack tls mem fails =>
    obtain ⟨t, ht, hs⟩ := Option.bind_eq_some_iff.mp hs
    cases hs
    cases fails with
    | true => exact h
    | false =>
      obtain ⟨hp, hq⟩ := hk.resolve_left Bool.false_ne_true t ht
      exact h.clone hp hq flags stack tls mem
  | exit n =>
    obtain ⟨t, ht, hs⟩ := Option.bind_eq_some_iff.mp hs
    cases hs
    exact h.remove n

theorem init_inv : init.Inv := by
  refine ⟨.nil, fun n task sig ht ↦ ?_⟩
  have hidle : task.pending = 0 ∧ task.queued = 0 := by
    dsimp only [init] at ht
    obtain ⟨-, rfl⟩ | ⟨-, ht⟩ := update_some_eq_some.mp ht
    · exact ⟨rfl, rfl⟩
    · cases ht
  rw [waiting_eq_zero hidle.1 hidle.2]
  exact Nat.zero_le _

/-- No signal waits in the task. -/
def Clear (s : State) (n : ℕ) : Prop :=
  ∃ task, s.task n = some task ∧ task.pending = 0 ∧ task.queued = 0

end State

end

end Isl.Kernel.SignalHistory
