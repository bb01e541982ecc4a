import Isl.Kernel.Signal
import Isl.Lib.Run

/-!
Mask changes of `kernel/user-signal.c`. A signal that is sent while it is
blocked waits in the queued set, and a mask change moves it.
-/

namespace Isl.Kernel

open Isl.Lib.Run Emu Memory

variable {t t' : Task} {sig : Sig} {blocked set : SigSet}

/-- The flag `zombie` is the task's own. -/
def sendSignal (t : Task) (zombie : Bool) (sig : Sig) : Task :=
  if sig = 0 then t
  else if zombie then t
  else if signalAction t.sighand sig = .ignore then t
  else if t.blocked.getLsbD sig && signalIsBlockable sig then
    { t with queued := t.queued ||| sigBit sig }
  else { t with pending := t.pending ||| sigBit sig }

/-- The mask that `sys_rt_sigreturn` finds in the frame. -/
def savedMask (t : Task) (frame : SigFrame) : SigSet :=
  let frame :=
    SigFrame.ofBytes (t.mem.userRead (t.cpu.regs .esp - scOffset) frame.toBytes).1
  frame.extramask.setWidth 64 <<< 32 ||| frame.sc.oldmask.setWidth 64

/-- `sys_pselect`, `sys_ppoll` and `sys_epoll_pwait` call `do_sigprocmask` with
`SIG_SETMASK` before and after the wait. Between the calls the guest runs, which
changes anything but the three sets. -/
inductive SigAction
  | send (zombie : Bool) (sig : Sig)
  | sigprocmask (how : Dword) (set : SigSet)
  | sigreturn (frame : SigFrame)
  | receive (symbol : Addr)
  | guest (cpu : CpuState) (mem : GuestMem) (sighand : SigHand)

namespace Task

/-- A task that exits has no next state. -/
def step (t : Task) : SigAction → Option Task
  | .send zombie sig => some (sendSignal t zombie sig)
  | .sigprocmask how set => some (doSigprocmask t how set).1
  | .sigreturn frame => some (Isl.Kernel.sigreturn t frame)
  | .receive symbol => (receiveSignals symbol t).toOption
  | .guest cpu mem sighand => some { t with cpu := cpu, mem := mem, sighand := sighand }

/-- The task with the mask `blocked`, the signals that become unblocked moved to
the pending set and the ones that become blocked to the queued set. -/
def setMask (t : Task) (blocked : SigSet) : Task :=
  let unblocked := t.blocked &&& ~~~blocked
  let newly := blocked &&& ~~~t.blocked
  { t with
    blocked := blocked
    queued := (t.queued &&& ~~~unblocked) ||| ((t.pending ||| (t.queued &&& unblocked)) &&& newly)
    pending := (t.pending ||| (t.queued &&& unblocked)) &&& ~~~newly }

/-- The sets are those of another task. -/
def SameSets (t t' : Task) : Prop :=
  t'.blocked = t.blocked ∧ t'.pending = t.pending ∧ t'.queued = t.queued

end Task

theorem getLsbD_sigBit (sig s : Sig) : (sigBit sig).getLsbD s = decide (s = sig) := by
  unfold sigBit
  rw [BitVec.getLsbD_shiftLeft]
  have hs := s.isLt
  by_cases h : s = sig
  · subst h
    simp
  · have hne : s.val ≠ sig.val := fun heq ↦ h (Fin.ext heq)
    have hd : s.val < sig.val ∨ ¬s.val - sig.val = 0 := by omega
    rcases hd with hd | hd <;> simp [h, hd]

theorem getLsbD_compl (x : SigSet) (sig : Sig) : (~~~x).getLsbD sig = !x.getLsbD sig := by
  rw [BitVec.getLsbD_not, decide_eq_true sig.isLt, Bool.true_and]

@[simp] theorem Task.setMask_blocked : (t.setMask blocked).blocked = blocked := rfl

theorem Task.setMask_pending : (t.setMask blocked).pending.getLsbD sig =
    ((t.pending.getLsbD sig || (t.queued.getLsbD sig && (t.blocked.getLsbD sig &&
      !blocked.getLsbD sig))) && !(blocked.getLsbD sig && !t.blocked.getLsbD sig)) := by
  simp only [setMask, getLsbD_compl, BitVec.getLsbD_or, BitVec.getLsbD_and]

theorem Task.setMask_queued : (t.setMask blocked).queued.getLsbD sig =
    ((t.queued.getLsbD sig && !(t.blocked.getLsbD sig && !blocked.getLsbD sig)) ||
      ((t.pending.getLsbD sig || (t.queued.getLsbD sig && (t.blocked.getLsbD sig &&
        !blocked.getLsbD sig))) && (blocked.getLsbD sig && !t.blocked.getLsbD sig))) := by
  simp only [setMask, getLsbD_compl, BitVec.getLsbD_or, BitVec.getLsbD_and]

/-- The mask that `do_sigprocmask` makes, unless it does not know the argument. -/
def newMask (t : Task) (how : Dword) (set : SigSet) : Option SigSet :=
  if how = sigBlock then some (t.blocked ||| set)
  else if how = sigUnblock then some (t.blocked &&& ~~~set)
  else if how = sigSetmask then some set
  else none

theorem doSigprocmask_eq (t : Task) (how : Dword) (set : SigSet) :
    (doSigprocmask t how set).1 = ((newMask t how set).map t.setMask).getD t := by
  unfold doSigprocmask newMask
  split_ifs <;> rfl

theorem sigreturn_sets (t : Task) (frame : SigFrame) :
    (t.setMask (savedMask t frame)).SameSets (sigreturn t frame) := ⟨rfl, rfl, rfl⟩

/-! Queued signals are blocked. -/

namespace Task

def QueuedBlocked (t : Task) : Prop :=
  ∀ sig : Sig, t.queued.getLsbD sig → t.blocked.getLsbD sig

/-- What a mask change does to the signals that wait. -/
structure Transfers (t t' : Task) : Prop where
  union : t'.pending ||| t'.queued = t.pending ||| t.queued
  unblocked : ∀ sig : Sig, t.blocked.getLsbD sig → ¬t'.blocked.getLsbD sig →
    t.queued.getLsbD sig → t'.pending.getLsbD sig
  queued : t'.QueuedBlocked

theorem toOption_eq_some {ε α : Type} {r : Except ε α} {a : α} (h : r.toOption = some a) :
    r = .ok a := by
  cases r with
  | ok b =>
    cases h
    rfl
  | error e => cases h

theorem ext_sets {x y : SigSet} (h : ∀ sig : Sig, x.getLsbD sig = y.getLsbD sig) : x = y :=
  BitVec.eq_of_getLsbD_eq fun i hi ↦ h ⟨i, hi⟩

theorem QueuedBlocked.congr (h : t.QueuedBlocked) (hs : t.SameSets t') : t'.QueuedBlocked := by
  intro sig
  rw [hs.1, hs.2.2]
  exact h sig

theorem QueuedBlocked.refl (h : t.QueuedBlocked) : t.Transfers t where
  union := rfl
  unblocked _ hb hn _ := absurd hb hn
  queued := h

theorem Transfers.congr {u : Task} (h : t.Transfers t') (hs : t'.SameSets u) : t.Transfers u where
  union := by
    rw [hs.2.1, hs.2.2]
    exact h.union
  unblocked := by
    rw [hs.1, hs.2.1]
    exact h.unblocked
  queued := h.queued.congr hs

theorem QueuedBlocked.setMask (h : t.QueuedBlocked) (blocked : SigSet) :
    t.Transfers (t.setMask blocked) where
  union := by
    apply ext_sets
    intro sig
    simp only [BitVec.getLsbD_or, setMask_pending, setMask_queued]
    cases t.pending.getLsbD sig <;> cases t.queued.getLsbD sig <;>
      cases t.blocked.getLsbD sig <;> cases blocked.getLsbD sig <;> rfl
  unblocked sig hb hn hq := by
    rw [setMask_blocked, Bool.not_eq_true] at hn
    rw [setMask_pending, hb, hn, hq]
    simp
  queued sig hq := by
    rw [setMask_blocked]
    rw [setMask_queued] at hq
    by_contra hn
    rw [Bool.not_eq_true] at hn
    have hold : t.queued.getLsbD sig → t.blocked.getLsbD sig := h sig
    rw [hn] at hq
    cases hb : t.blocked.getLsbD sig <;> cases hq' : t.queued.getLsbD sig <;> simp_all

theorem QueuedBlocked.doSigprocmask (h : t.QueuedBlocked) (how : Dword) (set : SigSet) :
    t.Transfers (doSigprocmask t how set).1 := by
  rw [doSigprocmask_eq]
  cases newMask t how set with
  | none => exact h.refl
  | some blocked => exact h.setMask blocked

theorem QueuedBlocked.sigreturn (h : t.QueuedBlocked) (frame : SigFrame) :
    t.Transfers (sigreturn t frame) := (h.setMask _).congr (sigreturn_sets t frame)

theorem QueuedBlocked.sendSignal (h : t.QueuedBlocked) (zombie : Bool) (sig : Sig) :
    (sendSignal t zombie sig).QueuedBlocked := by
  unfold Isl.Kernel.sendSignal
  split_ifs with _ _ _ hb
  · exact h
  · exact h
  · exact h
  · intro s hs
    simp only [BitVec.getLsbD_or, getLsbD_sigBit, Bool.or_eq_true, decide_eq_true_eq] at hs
    obtain hs | rfl := hs
    · exact h s hs
    · exact (Bool.and_eq_true_iff.mp hb).1
  · exact h

/-- A delivery that returns to the guest takes a blockable signal out of the
pending set. -/
theorem receiveSignal_sets {symbol : Addr} (h : receiveSignal symbol t sig = .ok t') :
    t'.queued = t.queued ∧ t'.pending = t.pending &&& ~~~sigBit sig ∧
      (∀ s : Sig, t.blocked.getLsbD s → t'.blocked.getLsbD s) ∧ signalIsBlockable sig := by
  have hblock (hne : signalAction t.sighand sig ≠ .kill) : signalIsBlockable sig := by
    by_contra hb
    have hdefault : signalAction t.sighand sig = defaultAction sig := if_neg hb
    have hsig : sig = sigKill ∨ sig = sigStop := by
      unfold signalIsBlockable at hb
      grind
    obtain rfl | rfl := hsig
    · exact hne (hdefault.trans (by decide))
    · exact hne (hdefault.trans (by decide))
  unfold Isl.Kernel.receiveSignal at h
  dsimp only at h
  split at h
  · rename_i ha
    cases h
    refine ⟨rfl, rfl, fun _ hs ↦ hs, hblock fun hk ↦ ?_⟩
    rw [hk] at ha
    cases ha
  · cases h
  · rename_i ha
    split at h
    · cases h
    · cases h
      refine ⟨rfl, rfl, fun s hs ↦ ?_, hblock fun hk ↦ ?_⟩
      · simp only [callHandler, BitVec.getLsbD_or, hs, Bool.true_or]
      · rw [hk] at ha
        cases ha

theorem QueuedBlocked.receivePending {symbol : Addr} {sigs : List Sig} (h : t.QueuedBlocked)
    (hr : receivePending symbol t sigs = .ok t') : t'.QueuedBlocked := by
  induction sigs generalizing t with
  | nil =>
    cases hr
    exact h
  | cons sig sigs ih =>
    unfold Isl.Kernel.receivePending at hr
    split at hr
    · cases hs : receiveSignal symbol t sig with
      | ok u =>
        rw [hs] at hr
        obtain ⟨hq, -, hb, -⟩ := receiveSignal_sets hs
        refine ih (fun s hm ↦ hb s (h s ?_)) hr
        rwa [hq] at hm
      | error e =>
        rw [hs] at hr
        cases hr
    · exact ih h hr

theorem QueuedBlocked.receiveSignals {symbol : Addr} (h : t.QueuedBlocked)
    (hr : receiveSignals symbol t = .ok t') : t'.QueuedBlocked := by
  unfold Isl.Kernel.receiveSignals at hr
  split at hr
  · exact h.receivePending hr
  · cases hr
    exact h

theorem QueuedBlocked.step {a : SigAction} (h : t.QueuedBlocked) (hs : t.step a = some t') :
    t'.QueuedBlocked := by
  cases a with
  | send zombie sig =>
    cases hs
    exact h.sendSignal zombie sig
  | sigprocmask how set =>
    cases hs
    exact (h.doSigprocmask how set).queued
  | sigreturn frame =>
    cases hs
    exact (h.sigreturn frame).queued
  | receive symbol => exact h.receiveSignals (toOption_eq_some hs)
  | guest cpu mem sighand =>
    cases hs
    exact h

/-- In every run from a state in which every queued signal is blocked, a mask
change moves signals between the two sets and loses none. -/
theorem transfers_of_reaches (h : t.QueuedBlocked)
    (hr : Reaches Task.step (fun _ _ ↦ True) t t') :
    t'.QueuedBlocked ∧ (∀ how set, t'.Transfers (doSigprocmask t' how set).1) ∧
      ∀ frame, t'.Transfers (sigreturn t' frame) := by
  have hq : t'.QueuedBlocked := hr.invariant h fun _ _ _ hq _ hs ↦ hq.step hs
  exact ⟨hq, hq.doSigprocmask, hq.sigreturn⟩

/-- A task that handles no signal, in a state in which none waits. -/
def idle : Task where
  cpu :=
    { regs := fun _ ↦ 0, xmm := fun _ ↦ 0, eip := 0x1000, eflags := 0x202, cf := 0, of := 0
      res := 0, op1 := 0, op2 := 0, pfRes := false, zfRes := false, sfRes := false, afOps := false
      fp := fun _ ↦ ⟨0, 0⟩, fsw := 0, fcw := 0, gs := 0, tlsPtr := 0
      segfaultAddr := 0, trapno := 0 }
  mem := ⟨fun _ ↦ .readWrite, fun _ ↦ 0⟩
  vdso := 0xf7ffc000
  blocked := 0
  pending := 0
  queued := 0
  sighand := ⟨fun _ ↦ sigDfl, 0, false⟩

/-- A signal is queued behind a mask. -/
theorem transfers_queued : ∃ t t', t.QueuedBlocked ∧
    Reaches Task.step (fun _ _ ↦ True) (doSigprocmask t sigBlock (sigBit 10)).1 t' ∧
      t'.queued.getLsbD 10 ∧ t'.Transfers (doSigprocmask t' sigUnblock (sigBit 10)).1 := by
  have hq : idle.QueuedBlocked := fun _ hs ↦ absurd hs (by simp [idle])
  have hr : Reaches Task.step (fun _ _ ↦ True) (doSigprocmask idle sigBlock (sigBit 10)).1 _ :=
    .next (a := .send false 10) .start trivial rfl
  have hq' := (hq.doSigprocmask sigBlock (sigBit 10)).queued
  exact ⟨idle, _, hq, hr, by decide, (transfers_of_reaches hq' hr).2.1 _ _⟩

/-! Signals that can not be blocked. -/

/-- A mask change does not block a signal that is pending and that can not be
held back. -/
def KeepsPending (t : Task) : SigAction → Prop
  | .sigprocmask how set => how = sigBlock ∨ how = sigSetmask → ∀ sig, ¬signalIsBlockable sig →
      t.pending.getLsbD sig → set.getLsbD sig → t.blocked.getLsbD sig
  | .sigreturn frame => ∀ sig, ¬signalIsBlockable sig → t.pending.getLsbD sig →
      (savedMask t frame).getLsbD sig → t.blocked.getLsbD sig
  | _ => True

/-- No signal that can not be blocked waits in the queued set, and a pending one
stays pending. -/
def Prompt (t t' : Task) : Prop := ∀ sig, ¬signalIsBlockable sig →
  ¬t'.queued.getLsbD sig ∧ (t.pending.getLsbD sig → t'.pending.getLsbD sig)

theorem setMask_prompt_iff (hq : ∀ sig, ¬signalIsBlockable sig → ¬t.queued.getLsbD sig) :
    t.Prompt (t.setMask blocked) ↔ ∀ sig, ¬signalIsBlockable sig → t.pending.getLsbD sig →
      blocked.getLsbD sig → t.blocked.getLsbD sig := by
  refine forall_congr' fun sig ↦ forall_congr' fun hsig ↦ ?_
  have hnot := hq sig hsig
  rw [Bool.not_eq_true] at hnot
  rw [setMask_pending, setMask_queued, hnot]
  cases t.pending.getLsbD sig <;> cases t.blocked.getLsbD sig <;>
    cases blocked.getLsbD sig <;> simp

theorem Prompt.refl (hq : ∀ sig, ¬signalIsBlockable sig → ¬t.queued.getLsbD sig) : t.Prompt t :=
  fun sig hsig ↦ ⟨hq sig hsig, id⟩

theorem doSigprocmask_prompt_iff (hq : ∀ sig, ¬signalIsBlockable sig → ¬t.queued.getLsbD sig)
    (how : Dword) (set : SigSet) :
    t.Prompt (doSigprocmask t how set).1 ↔ t.KeepsPending (.sigprocmask how set) := by
  rw [doSigprocmask_eq]
  unfold newMask KeepsPending
  split_ifs with hblock hunblock hset
  · refine (setMask_prompt_iff hq).trans ?_
    simp only [hblock, true_or, true_imp_iff, BitVec.getLsbD_or, Bool.or_eq_true]
    refine forall_congr' fun sig ↦ forall_congr' fun _ ↦ forall_congr' fun _ ↦ ?_
    exact ⟨fun h hs ↦ h (.inr hs), fun h hs ↦ hs.elim id h⟩
  · refine (setMask_prompt_iff hq).trans (iff_of_true (fun sig _ _ hb ↦ ?_) ?_)
    · rw [BitVec.getLsbD_and] at hb
      exact (Bool.and_eq_true_iff.mp hb).1
    · rintro (rfl | rfl)
      · exact absurd rfl hblock
      · cases hunblock
  · refine (setMask_prompt_iff hq).trans ?_
    simp only [hset, or_true, true_imp_iff]
  · exact iff_of_true (Prompt.refl hq) fun h ↦ absurd h (not_or.mpr ⟨hblock, hset⟩)

theorem sendSignal_prompt (hq : ∀ sig, ¬signalIsBlockable sig → ¬t.queued.getLsbD sig)
    (zombie : Bool) (s : Sig) : t.Prompt (sendSignal t zombie s) := by
  unfold Isl.Kernel.sendSignal
  split_ifs with _ _ _ hb
  · exact Prompt.refl hq
  · exact Prompt.refl hq
  · exact Prompt.refl hq
  · refine fun sig hsig ↦ ⟨?_, id⟩
    simp only [BitVec.getLsbD_or, getLsbD_sigBit, Bool.or_eq_true, decide_eq_true_eq, not_or]
    refine ⟨hq sig hsig, ?_⟩
    rintro rfl
    exact hsig (Bool.and_eq_true_iff.mp hb).2
  · refine fun sig hsig ↦ ⟨hq sig hsig, fun hp ↦ ?_⟩
    simp only [BitVec.getLsbD_or, hp, Bool.true_or]

/-- A signal that can not be blocked reaches every task that has not exited. -/
theorem sendSignal_pending (hsig : ¬signalIsBlockable sig) :
    (sendSignal t false sig).pending.getLsbD sig := by
  have hsig' : sig = sigKill ∨ sig = sigStop := by
    unfold signalIsBlockable at hsig
    grind
  have hne : sig ≠ 0 := by
    obtain rfl | rfl := hsig' <;> decide
  have hact : signalAction t.sighand sig ≠ .ignore := by
    rw [signalAction, if_neg hsig]
    obtain rfl | rfl := hsig' <;> decide
  have hnot : ¬((t.blocked.getLsbD sig && signalIsBlockable sig) = true) := by simp [hsig]
  rw [sendSignal, if_neg hne, if_neg Bool.false_ne_true, if_neg hact, if_neg hnot]
  simp only [BitVec.getLsbD_or, getLsbD_sigBit, decide_true, Bool.or_true]

theorem receivePending_prompt {symbol : Addr} {sigs : List Sig}
    (hr : receivePending symbol t sigs = .ok t') :
    t'.queued = t.queued ∧
      ∀ sig, ¬signalIsBlockable sig → t.pending.getLsbD sig → t'.pending.getLsbD sig := by
  induction sigs generalizing t with
  | nil =>
    cases hr
    exact ⟨rfl, fun _ _ ↦ id⟩
  | cons s sigs ih =>
    unfold Isl.Kernel.receivePending at hr
    split at hr
    · cases hs : receiveSignal symbol t s with
      | ok u =>
        rw [hs] at hr
        obtain ⟨hq, hp, -, hblockable⟩ := receiveSignal_sets hs
        obtain ⟨hq', hp'⟩ := ih hr
        refine ⟨hq'.trans hq, fun sig hsig hm ↦ hp' sig hsig ?_⟩
        have hne : sig ≠ s := by
          rintro rfl
          exact hsig hblockable
        rw [hp, BitVec.getLsbD_and, getLsbD_compl, getLsbD_sigBit, hm]
        simpa using hne
      | error e =>
        rw [hs] at hr
        cases hr
    · exact ih hr

theorem receiveSignals_prompt {symbol : Addr}
    (hq : ∀ sig, ¬signalIsBlockable sig → ¬t.queued.getLsbD sig)
    (hr : receiveSignals symbol t = .ok t') : t.Prompt t' := by
  unfold Isl.Kernel.receiveSignals at hr
  split at hr
  · obtain ⟨hq', hp⟩ := receivePending_prompt hr
    exact fun sig hsig ↦ ⟨hq' ▸ hq sig hsig, hp sig hsig⟩
  · cases hr
    exact Prompt.refl hq

theorem step_prompt_iff {a : SigAction}
    (hq : ∀ sig, ¬signalIsBlockable sig → ¬t.queued.getLsbD sig) (hs : t.step a = some t') :
    t.Prompt t' ↔ t.KeepsPending a := by
  cases a with
  | send zombie s =>
    cases hs
    exact iff_of_true (sendSignal_prompt hq zombie s) trivial
  | sigprocmask how set =>
    cases hs
    exact doSigprocmask_prompt_iff hq how set
  | sigreturn frame =>
    cases hs
    obtain ⟨-, hp, hq'⟩ := sigreturn_sets t frame
    unfold Prompt
    rw [hp, hq']
    exact setMask_prompt_iff hq
  | receive symbol =>
    exact iff_of_true (receiveSignals_prompt hq (toOption_eq_some hs)) trivial
  | guest cpu mem sighand =>
    cases hs
    exact iff_of_true (Prompt.refl hq) trivial

/-- In every run of such mask changes a signal that can not be blocked stays in
the pending set from the moment it is sent. -/
theorem pending_of_reaches (hq : ∀ sig, ¬signalIsBlockable sig → ¬t.queued.getLsbD sig)
    (hr : Reaches Task.step KeepsPending t t') :
    (∀ sig, ¬signalIsBlockable sig → ¬t'.queued.getLsbD sig ∧
      ∀ u, Reaches Task.step KeepsPending (sendSignal t' false sig) u → u.pending.getLsbD sig) ∧
    ∀ a u, t'.step a = some u → (t'.Prompt u ↔ t'.KeepsPending a) := by
  have hstep {t u : Task} {a : SigAction} (h : ∀ sig, ¬signalIsBlockable sig →
      ¬t.queued.getLsbD sig) (hok : t.KeepsPending a) (hs : t.step a = some u) : t.Prompt u :=
    (step_prompt_iff h hs).mpr hok
  have hq' := hr.invariant hq fun _ _ _ h hok hs sig hsig ↦ (hstep h hok hs sig hsig).1
  refine ⟨fun sig hsig ↦ ⟨hq' sig hsig, fun u hu ↦ ?_⟩, fun a u ↦ step_prompt_iff hq'⟩
  have hkept : (∀ s, ¬signalIsBlockable s → ¬u.queued.getLsbD s) ∧ u.pending.getLsbD sig := by
    induction hu with
    | start => exact ⟨fun s hs ↦ (sendSignal_prompt hq' false sig s hs).1, sendSignal_pending hsig⟩
    | next _ hok hs ih =>
      have hp := hstep ih.1 hok hs
      exact ⟨fun s hs ↦ (hp s hs).1, (hp sig hsig).2 ih.2⟩
  exact hkept.2

/-- `SIGKILL` comes while another signal is blocked. -/
theorem pending_sigkill : ∃ t u, Reaches Task.step KeepsPending idle t ∧
    Reaches Task.step KeepsPending (sendSignal t false sigKill) u ∧ u.pending.getLsbD sigKill := by
  have hblock : idle.KeepsPending (.sigprocmask sigBlock (sigBit 10)) :=
    fun _ _ _ hp ↦ absurd hp (by simp [idle])
  have hq : ∀ sig, ¬signalIsBlockable sig → ¬idle.queued.getLsbD sig :=
    fun _ _ hs ↦ absurd hs (by simp [idle])
  have hr : Reaches Task.step KeepsPending idle _ := .next .start hblock rfl
  have hr' : Reaches Task.step KeepsPending
    (sendSignal (doSigprocmask idle sigBlock (sigBit 10)).1 false sigKill) _ :=
    .next (a := .send false sigChld) .start trivial rfl
  have hkill : ¬signalIsBlockable sigKill := by decide
  exact ⟨_, _, hr, hr', ((pending_of_reaches hq hr).1 sigKill hkill).2 _ hr'⟩

/-- A mask of all signals takes a `SIGKILL` that is pending to the queued set. -/
theorem sigprocmask_queues_sigkill : ∃ t, exec Task.step idle
    [.send false sigKill, .sigprocmask sigSetmask (BitVec.allOnes 64)] = some t ∧
      t.queued.getLsbD sigKill ∧ ¬t.pending.getLsbD sigKill := by
  refine ⟨_, rfl, ?_, ?_⟩ <;> decide

end Task

end Isl.Kernel
