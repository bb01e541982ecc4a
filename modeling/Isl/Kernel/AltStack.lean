import Isl.Kernel.SignalReturn
import Isl.Lib.Run

/-!
Alternate signal stacks: threads that share a `struct sighand`, with the handlers
that they are running and the places of their frames.
-/

namespace Isl.Kernel.AltStack

open Isl.Lib Isl.Lib.Run Emu Memory GuestMem

abbrev TaskId := ℕ

def ePerm : ℤ := -1
def eFault : ℤ := -14

def ssOnstack : Dword := 1
def ssDisable : Dword := 2

/-- A handler that has not returned: where its frame is, the stack pointer of the
code that it interrupted, and the alternate stack that was set, with its size. -/
structure Handler where
  sp : Addr
  interrupted : Addr
  stack : Option (Addr × Dword)

/-- The innermost handler of a thread comes first. The copies of the memory and of
the handlers in a task are not used. -/
structure State where
  sighand : SigHand
  altstackSize : Dword
  mem : GuestMem
  task : TaskId → Task
  running : TaskId → List Handler

/-- `run` stands for the code of the guest and for all other calls, which leave the
alternate stack alone. The code may leave handlers by a jump. -/
inductive Event
  | receive (t : TaskId) (sig : Sig)
  | run (t : TaskId) (task : Task) (left : ℕ)
  | sigreturn (t : TaskId) (frame : SigFrame)
  | sigaltstack (ssAddr oldSsAddr : Addr)
  | exec (t : TaskId) (task : Task)

namespace State

def view (s : State) (t : TaskId) : Task := { s.task t with mem := s.mem, sighand := s.sighand }

def update (s : State) (t : TaskId) (task : Task) : State :=
  { s with sighand := task.sighand, mem := task.mem, task := Function.update s.task t task }

def setRunning (s : State) (t : TaskId) (handlers : List Handler) : State :=
  { s with running := Function.update s.running t handlers }

/-- The alternate stack that is set. -/
def stack (s : State) : Option (Addr × Dword) :=
  if s.sighand.altstack = 0 then none else some (s.sighand.altstack, s.altstackSize)

/-- The bytes of `struct stack_t_`. -/
def stackBytes (stack : Addr) (flags size : Dword) : List Byte :=
  Layout.image [(4, stack.toNat), (4, flags.toNat), (4, size.toNat)]

def oldFlags (s : State) : Dword :=
  (if s.sighand.altstack = 0 then ssDisable else 0) |||
    if s.sighand.onAltstack then ssOnstack else 0

/-- `sys_sigaltstack` from the test of `ss_addr` on. -/
def setAltstack (s : State) (ssAddr : Addr) : State × ℤ :=
  if ssAddr = 0 then (s, 0)
  else if s.sighand.onAltstack then (s, ePerm)
  else
    let (bytes, err) := s.mem.userRead ssAddr (stackBytes 0 0 0)
    if err ≠ 0 then (s, eFault)
    else
      let ss := Layout.values [4, 4, 4] bytes
      let field (i : ℕ) : Dword := BitVec.ofNat 32 (ss.getD i 0)
      if field 1 &&& ssDisable ≠ 0 then
        ({ s with sighand := { s.sighand with altstack := 0 } }, 0)
      else
        ({ s with
            sighand := { s.sighand with altstack := field 0 }
            altstackSize := field 2 }, 0)

def sysSigaltstack (s : State) (ssAddr oldSsAddr : Addr) : State × ℤ :=
  if oldSsAddr = 0 then s.setAltstack ssAddr
  else
    let oldSs := stackBytes s.sighand.altstack s.oldFlags s.altstackSize
    let (mem, err) := s.mem.userWrite oldSsAddr oldSs
    let s := { s with mem := mem }
    if err ≠ 0 then (s, eFault) else s.setAltstack ssAddr

/-- `receive_signal` for a pending signal. A handler that is called is running from
then on. -/
def receive (symbol : Addr) (s : State) (t : TaskId) (sig : Sig) : Option State :=
  if (s.task t).pending.getLsbD sig then
    match receiveSignal symbol (s.view t) sig with
    | .error _ => none
    | .ok task =>
      let s' := s.update t task
      if signalAction s.sighand sig = .callHandler then
        let handler := ⟨task.cpu.regs .esp, (s.task t).cpu.regs .esp, s.stack⟩
        some (s'.setRunning t (handler :: s.running t))
      else some s'
  else none

def step (symbol : Addr) (s : State) : Event → Option State
  | .receive t sig => s.receive symbol t sig
  | .run t task left =>
    let sighand := { s.sighand with handler := task.sighand.handler }
    some ((s.update t { task with sighand := sighand }).setRunning t ((s.running t).drop left))
  | .sigreturn t frame =>
    some ((s.update t (Kernel.sigreturn (s.view t) frame)).setRunning t (s.running t).tail)
  | .sigaltstack ssAddr oldSsAddr => some (s.sysSigaltstack ssAddr oldSsAddr).1
  | .exec t task =>
    let sighand := { s.sighand with altstack := 0 }
    some ((s.update t { task with sighand := sighand }).setRunning t [])

end State

/-! Where the frames are. -/

def InFrame (sp x : Addr) : Prop := dist sp x < sigframeSize

/-- The bytes of `[stack, stack + size)`. -/
def InStack (stack : Addr × Dword) (x : Addr) : Prop := dist stack.1 x < stack.2.toNat

/-- The frame of a handler and the stack from its stack pointer up to the frame. -/
def Handler.Uses (h : Handler) (esp x : Addr) : Prop :=
  InFrame h.sp x ∨ dist esp x < dist esp h.sp

/-- The handlers of a thread with their stack pointers. -/
def stackPointers (esp : Addr) : List Handler → List (Handler × Addr)
  | [] => []
  | h :: hs => (h, esp) :: stackPointers h.interrupted hs

def State.handlers (s : State) (t : TaskId) : List (Handler × Addr) :=
  stackPointers ((s.task t).cpu.regs .esp) (s.running t)

/-- Two handlers on alternate stacks have no byte of their frames in common. -/
def Handler.Apart (h k : Handler) : Prop :=
  h.stack.isSome → k.stack.isSome → ∀ x, InFrame h.sp x → ¬InFrame k.sp x

/-- The event writes no frame with an alternate stack set, or one inside this stack
that keeps off the handlers on alternate stacks. -/
def FrameFits (s : State) : Event → Prop
  | .receive t sig =>
    signalAction s.sighand sig = .callHandler → ∀ stack ∈ s.stack,
      let sp := frameSp s.sighand ((s.task t).cpu.regs .esp)
      (∀ x, InFrame sp x → InStack stack x) ∧
      ∀ u, ∀ h ∈ s.handlers u, h.1.stack.isSome → ∀ x, InFrame sp x → ¬h.1.Uses h.2 x
  | _ => True

/-- The frames of running handlers on alternate stacks are in these stacks and apart. -/
structure State.Sound (s : State) : Prop where
  inside : ∀ t, ∀ h ∈ s.running t, ∀ stack ∈ h.stack, ∀ x, InFrame h.sp x → InStack stack x
  nested : ∀ t, (s.running t).Pairwise Handler.Apart
  threads : ∀ t u, t ≠ u → ∀ h ∈ s.running t, ∀ k ∈ s.running u, h.Apart k

/-- The first handler on an alternate stack that reaches round to its low end. -/
def Clear (s : State) : Event → Prop
  | .receive _ sig =>
    signalAction s.sighand sig = .callHandler → ∀ stack ∈ s.stack,
      2 ^ 32 ≤ stack.2.toNat + (stack.1.toNat + 8) % 16 ∧
      ∀ u, ∀ h ∈ s.running u, h.stack = none
  | _ => True

variable {s s' : State} {symbol esp : Addr} {t u : TaskId} {sig : Sig} {e : Event}
  {stack : Addr × Dword} {events : List Event}

/-! The place of a frame. -/

theorem stack_eq_some (h : stack ∈ s.stack) :
    s.sighand.altstack = stack.1 ∧ s.altstackSize = stack.2 ∧ s.sighand.altstack ≠ 0 := by
  unfold State.stack at h
  split at h
  · cases h
  · cases h
    exact ⟨rfl, rfl, ‹_›⟩

theorem toNat_low_bits (a : Addr) :
    ((a - 732#32 + 4#32) &&& 0xf#32).toNat = (a.toNat + 8) % 16 := by
  have hlt := a.isLt
  rw [BitVec.toNat_and]
  refine (Nat.and_two_pow_sub_one_eq_mod _ 4).trans ?_
  rw [BitVec.toNat_add, BitVec.toNat_sub, BitVec.toNat_ofNat, BitVec.toNat_ofNat]
  omega

theorem frameSp_of_stack (h : stack ∈ s.stack) (esp : Addr) :
    frameSp s.sighand esp =
      (stack.1 - 732#32 + 4#32) - ((stack.1 - 732#32 + 4#32) &&& 0xf#32) - 4#32 := by
  obtain ⟨ha, -, hne⟩ := stack_eq_some h
  have hextra : ¬xsaveExtra ≠ 0 := not_not.mpr rfl
  rw [← sub_and_not, ← ha, frameSp, if_pos hne, if_neg hextra]
  rfl

/-- The frame ends at the low end of the stack, or a few bytes below it. -/
theorem dist_frameSp (h : stack ∈ s.stack) (esp : Addr) {i : ℕ} (hi : i < sigframeSize) :
    dist stack.1 (frameSp s.sighand esp + BitVec.ofNat 32 i) =
      2 ^ 32 - sigframeSize - (stack.1.toNat + 8) % 16 + i := by
  have hr := toNat_low_bits stack.1
  have hlt : (stack.1.toNat + 8) % 16 < 16 := Nat.mod_lt _ (by decide)
  rw [frameSp_of_stack h]
  generalize (stack.1 - 732#32 + 4#32) &&& 0xf#32 = r at hr
  generalize (stack.1.toNat + 8) % 16 = n at hr hlt ⊢
  unfold GuestMem.dist
  unfold sigframeSize at *
  have hsub : stack.1 - 732#32 + 4#32 - r - 4#32 + BitVec.ofNat 32 i - stack.1 =
      BitVec.ofNat 32 i - 732#32 - r := by
    bv_omega
  rw [hsub, BitVec.toNat_sub, BitVec.toNat_sub, BitVec.toNat_ofNat, BitVec.toNat_ofNat, hr]
  omega

theorem mem_frame {sp x : Addr} (h : InFrame sp x) :
    ∃ i < sigframeSize, x = sp + BitVec.ofNat 32 i :=
  ⟨dist sp x, h, (GuestMem.add_dist sp x).symm⟩

/-- Only a stack that goes round to its own low end holds the frame. -/
theorem frame_inside_iff (h : stack ∈ s.stack) (esp : Addr) :
    (∀ x, InFrame (frameSp s.sighand esp) x → InStack stack x) ↔
      2 ^ 32 ≤ stack.2.toNat + (stack.1.toNat + 8) % 16 := by
  have hlt : (stack.1.toNat + 8) % 16 < 16 := Nat.mod_lt _ (by decide)
  have hsize : sigframeSize = 732 := rfl
  constructor
  · intro hinside
    -- the last byte of the frame
    have hlast : sigframeSize - 1 < sigframeSize := by decide
    have hin := hinside (frameSp s.sighand esp + BitVec.ofNat 32 (sigframeSize - 1))
      ((dist_add _ (by decide)).trans_lt hlast)
    rw [InStack, dist_frameSp h esp hlast] at hin
    omega
  · intro hsize x hx
    obtain ⟨i, hi, rfl⟩ := mem_frame hx
    rw [InStack, dist_frameSp h esp hi]
    omega

/-! Runs. -/

/-- Threads that leave handlers, or enter none. -/
theorem State.Sound.of_suffix (h : s.Sound) (hr : ∀ t, s'.running t <:+ s.running t) : s'.Sound where
  inside t h' hh := h.inside t h' ((hr t).subset hh)
  nested t := (h.nested t).sublist (hr t).sublist
  threads t u hne h' hh k hk := h.threads t u hne h' ((hr t).subset hh) k ((hr u).subset hk)

theorem setRunning_suffix {t : TaskId} {hs : List Handler} (hsuf : hs <:+ s.running t)
    (hr : s'.running = s.running) (u : TaskId) : (s'.setRunning t hs).running u <:+ s.running u := by
  change Function.update s'.running t hs u <:+ s.running u
  by_cases hu : u = t
  · subst hu
    rwa [Function.update_self]
  · rw [Function.update_of_ne hu, hr]

theorem sysSigaltstack_running (s : State) (ssAddr oldSsAddr : Addr) :
    (s.sysSigaltstack ssAddr oldSsAddr).1.running = s.running := by
  have hset (s : State) : (s.setAltstack ssAddr).1.running = s.running := by
    unfold State.setAltstack
    dsimp only
    repeat' split
    all_goals rfl
  unfold State.sysSigaltstack
  dsimp only
  split
  · exact hset s
  · split
    · rfl
    · exact hset _

/-- A delivery enters no handler, or one with its frame at `frameSp`. -/
theorem receive_cases (hs : s.receive symbol t sig = some s') :
    s'.running = s.running ∨
      signalAction s.sighand sig = .callHandler ∧ s'.running = Function.update s.running t
        (⟨frameSp s.sighand ((s.task t).cpu.regs .esp), (s.task t).cpu.regs .esp, s.stack⟩ ::
          s.running t) := by
  unfold State.receive at hs
  split at hs
  · split at hs
    · cases hs
    · rename_i task hrecv
      dsimp only at hs
      split at hs
      · rename_i hact
        cases hs
        have htask := receiveSignal_callHandler (t := s.view t) hact hrecv
        have hesp : task.cpu.regs .esp = frameSp s.sighand ((s.task t).cpu.regs .esp) := by
          rw [htask, callHandler_esp]
          rfl
        refine .inr ⟨hact, ?_⟩
        rw [← hesp]
        rfl
      · cases hs
        exact .inl rfl
  · cases hs

/-- What a step does to the handlers. -/
theorem step_cases (hs : s.step symbol e = some s') :
    (∀ u, s'.running u <:+ s.running u) ∨
      ∃ t sig, e = .receive t sig ∧ signalAction s.sighand sig = .callHandler ∧
        s'.running = Function.update s.running t
          (⟨frameSp s.sighand ((s.task t).cpu.regs .esp), (s.task t).cpu.regs .esp, s.stack⟩ ::
            s.running t) := by
  cases e with
  | receive t sig =>
    obtain heq | ⟨hact, heq⟩ := receive_cases hs
    · exact .inl fun u ↦ heq ▸ List.suffix_rfl
    · exact .inr ⟨t, sig, rfl, hact, heq⟩
  | run t task left =>
    cases hs
    exact .inl (setRunning_suffix (List.drop_suffix left _) rfl)
  | sigreturn t frame =>
    cases hs
    exact .inl (setRunning_suffix (List.tail_suffix _) rfl)
  | sigaltstack ssAddr oldSsAddr =>
    cases hs
    exact .inl fun u ↦ sysSigaltstack_running s ssAddr oldSsAddr ▸ List.suffix_rfl
  | exec t task =>
    cases hs
    exact .inl (setRunning_suffix (List.nil_suffix) rfl)

theorem stackPointers_fst {hs : List Handler} {p : Handler × Addr} (hp : p ∈ stackPointers esp hs) :
    p.1 ∈ hs := by
  induction hs generalizing esp with
  | nil => cases hp
  | cons h hs ih =>
    obtain rfl | hp := List.mem_cons.mp hp
    · exact List.mem_cons_self
    · exact List.mem_cons_of_mem h (ih hp)

theorem exists_stackPointer {hs : List Handler} {h : Handler} (hh : h ∈ hs) :
    ∃ low, (h, low) ∈ stackPointers esp hs := by
  induction hs generalizing esp with
  | nil => cases hh
  | cons k hs ih =>
    obtain rfl | hh := List.mem_cons.mp hh
    · exact ⟨esp, List.mem_cons_self⟩
    · obtain ⟨low, hlow⟩ := @ih k.interrupted hh
      exact ⟨low, List.mem_cons_of_mem _ hlow⟩

theorem Handler.Apart.symm {h k : Handler} (hap : h.Apart k) : k.Apart h :=
  fun hk hh x hx hx' ↦ hap hh hk x hx' hx

/-- A step that meets the condition writes a frame that fits. -/
theorem Clear.frameFits (h : Clear s e) : FrameFits s e := by
  cases e with
  | receive t sig =>
    intro hact stack hstack
    obtain ⟨hround, hnone⟩ := h hact stack hstack
    refine ⟨(frame_inside_iff hstack _).mpr hround, fun u p hp halt ↦ ?_⟩
    rw [hnone u p.1 (stackPointers_fst hp)] at halt
    cases halt
  | run t task left => trivial
  | sigreturn t frame => trivial
  | sigaltstack ssAddr oldSsAddr => trivial
  | exec t task => trivial

/-- The condition is exact as long as the handlers on an alternate stack run on the
one that is set: a further frame is written over theirs. -/
theorem frameFits_iff (hsame : ∀ u, ∀ h ∈ s.running u, h.stack.isSome →
      h.sp = frameSp s.sighand ((s.task t).cpu.regs .esp)) :
    FrameFits s (.receive t sig) ↔ Clear s (.receive t sig) := by
  refine ⟨fun h hact stack hstack ↦ ?_, Clear.frameFits⟩
  obtain ⟨hinside, hused⟩ := h hact stack hstack
  refine ⟨(frame_inside_iff hstack _).mp hinside, fun u k hk ↦ ?_⟩
  by_contra halt
  have halt := Option.isSome_iff_ne_none.mpr halt
  obtain ⟨low, hlow⟩ := @exists_stackPointer ((s.task u).cpu.regs .esp) _ _ hk
  have hself : InFrame k.sp k.sp := by simp [InFrame, GuestMem.dist, sigframeSize]
  refine hused u (k, low) hlow halt k.sp ?_ (.inl hself)
  rwa [← hsame u k hk halt]

/-- The step lemma: a handler is entered with no other one on an alternate stack. -/
theorem State.Sound.step (h : s.Sound) (hc : Clear s e) (hs : s.step symbol e = some s') : s'.Sound := by
  obtain hsuf | ⟨t, sig, rfl, hact, hrun⟩ := step_cases hs
  · exact h.of_suffix hsuf
  generalize hnew : (⟨frameSp s.sighand ((s.task t).cpu.regs .esp), (s.task t).cpu.regs .esp,
    s.stack⟩ : Handler) = new at hrun
  have hself : s'.running t = new :: s.running t := by rw [hrun, Function.update_self]
  have hother (u : TaskId) (hu : u ≠ t) : s'.running u = s.running u := by
    rw [hrun, Function.update_of_ne hu]
  have hinside : ∀ stack ∈ new.stack, ∀ x, InFrame new.sp x → InStack stack x := by
    intro stack hstack
    subst hnew
    exact (frame_inside_iff hstack _).mpr (hc hact stack hstack).1
  have hapart (u : TaskId) (k : Handler) (hk : k ∈ s.running u) : new.Apart k := by
    intro hstack halt
    obtain ⟨stack, hstack⟩ := Option.isSome_iff_exists.mp hstack
    subst hnew
    rw [(hc hact stack hstack).2 u k hk] at halt
    cases halt
  refine ⟨fun u k hk ↦ ?_, fun u ↦ ?_, fun u v huv k hk l hl ↦ ?_⟩
  · by_cases hu : u = t
    · subst hu
      rw [hself] at hk
      obtain rfl | hk := List.mem_cons.mp hk
      · exact hinside
      · exact h.inside u k hk
    · rw [hother u hu] at hk
      exact h.inside u k hk
  · by_cases hu : u = t
    · subst hu
      rw [hself]
      exact List.pairwise_cons.mpr ⟨hapart u, h.nested u⟩
    · rw [hother u hu]
      exact h.nested u
  · by_cases hu : u = t
    · subst hu
      rw [hother v huv.symm] at hl
      rw [hself] at hk
      obtain rfl | hk := List.mem_cons.mp hk
      · exact hapart v l hl
      · exact h.threads u v huv k hk l hl
    · rw [hother u hu] at hk
      by_cases hv : v = t
      · subst hv
        rw [hself] at hl
        obtain rfl | hl := List.mem_cons.mp hl
        · exact (hapart u k hk).symm
        · exact h.threads u v huv k hk l hl
      · rw [hother v hv] at hl
        exact h.threads u v huv k hk l hl

theorem State.Sound.along {events : List Event} (h : s.Sound)
    (hg : Guarded (State.step symbol) Clear s events) :
    AllAlong (State.step symbol) State.Sound s events ∧
      Guarded (State.step symbol) FrameFits s events := by
  induction events generalizing s with
  | nil => exact ⟨.nil h, trivial⟩
  | cons e events ih =>
    obtain ⟨hc, hg⟩ := hg
    refine ⟨.cons h fun t ht ↦ (ih (h.step hc ht) (hg t ht)).1, hc.frameFits, fun t ht ↦ ?_⟩
    exact (ih (h.step hc ht) (hg t ht)).2

/-- In a run in which signals come to an alternate stack only when no handler runs
on one, and the stack goes round to its low end, all frames fit. -/
theorem altstack_frames (hs : ∀ t, s.running t = [])
    (hg : Guarded (State.step symbol) Clear s events) :
    AllAlong (State.step symbol) State.Sound s events ∧
      Guarded (State.step symbol) FrameFits s events := by
  refine State.Sound.along ⟨fun t h hh ↦ ?_, fun t ↦ ?_, fun t u _ h hh ↦ ?_⟩ hg
  · rw [hs] at hh
    cases hh
  · rw [hs]
    exact .nil
  · rw [hs] at hh
    cases hh

/-- A thread with the signals 10 and 12 pending, and a `struct stack_t_` at `0x1000`. -/
def threadWith (stack : Addr) (size : Dword) : State where
  sighand := ⟨fun _ ↦ 0x8000, 0, false⟩
  altstackSize := 0
  mem := ⟨fun _ ↦ .readWrite, fun x ↦ (State.stackBytes stack 0 size).getD (x.toNat - 0x1000) 0⟩
  task _ := comparing
  running _ := []

theorem altstack_frames_round :
    Guarded (State.step 0x420) FrameFits (threadWith 4 0xfffffffc)
      [.sigaltstack 0x1000 0, .receive 0 10] := by
  have hset : ((threadWith 4 0xfffffffc).sysSigaltstack 0x1000 0).1.stack =
      some (4, 0xfffffffc) := by
    decide
  have hguard : Guarded (State.step 0x420) Clear (threadWith 4 0xfffffffc)
      [.sigaltstack 0x1000 0, .receive 0 10] := by
    refine ⟨trivial, fun s hs ↦ ⟨fun _ stack hstack ↦ ?_, fun _ _ ↦ trivial⟩⟩
    cases hs
    rw [hset] at hstack
    cases hstack
    refine ⟨by decide, fun u h hh ↦ ?_⟩
    rw [sysSigaltstack_running] at hh
    cases hh
  exact (altstack_frames (fun _ ↦ rfl) hguard).2

/-- A stack of 64 KiB: the frame is written below it, and the second one over the
first, whose handler is running. -/
theorem altstack_frames_below : ∃ s₁ s₂,
    (threadWith 0x70000000 0x10000).step 0x420 (.sigaltstack 0x1000 0) = some s₁ ∧
    s₁.stack = some (0x70000000, 0x10000) ∧ s₁.step 0x420 (.receive 0 10) = some s₂ ∧
    ¬FrameFits s₁ (.receive 0 10) ∧
    (∃ h ∈ s₂.running 0, h.stack = some (0x70000000, 0x10000) ∧
      h.sp = frameSp s₂.sighand ((s₂.task 0).cpu.regs .esp)) ∧
    ¬FrameFits s₂ (.receive 0 12) := by
  have hset : ((threadWith 0x70000000 0x10000).sysSigaltstack 0x1000 0).1.stack =
      some (0x70000000, 0x10000) := by
    decide
  have hround : ¬2 ^ 32 ≤ (0x10000 : Dword).toNat + ((0x70000000 : Addr).toNat + 8) % 16 := by
    decide
  refine ⟨_, _, rfl, hset, rfl, fun hfits ↦ ?_, ⟨_, List.mem_cons_self, rfl, rfl⟩, fun hfits ↦ ?_⟩
  · exact hround ((frame_inside_iff hset _).mp (hfits (by decide) _ hset).1)
  · exact hround ((frame_inside_iff hset _).mp (hfits (by decide) _ hset).1)

end Isl.Kernel.AltStack
