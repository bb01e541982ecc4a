import Isl.Kernel.Signal

/-!
What `sys_rt_sigreturn` restores: everything but the bytes `cf` and `of`, which
keep the values the handler left in them.
-/

namespace Isl.Kernel

open Emu Memory Isl.Lib.Layout GuestMem

theorem SigFrame.toBytes_length (frame : SigFrame) : frame.toBytes.length = sigframeSize := by
  simp [toBytes, fields, SigContext.fields, field, fpstateSize, sigframeSize]

theorem SigFrame.field_lt {frame : SigFrame} : ∀ f ∈ frame.fields, f.2 < 256 ^ f.1 := by
  simp only [fields, SigContext.fields, List.cons_append, List.nil_append, List.forall_mem_cons,
    Kernel.field_lt, true_and]
  simp

theorem SigFrame.ofBytes_toBytes (frame : SigFrame) : ofBytes frame.toBytes = frame := by
  have hv := values_image frame.field_lt
  have hsizes : ({} : SigFrame).fields.map Prod.fst = frame.fields.map Prod.fst := rfl
  rw [ofBytes, hsizes, toBytes, hv]
  simp [ofValues, fields, SigContext.fields, field]

variable {symbol : Addr} {t a b c u : Task} {sig : Sig} {frame : SigFrame}

/-- The two halves of the mask that the frame holds. -/
theorem mask_halves (mask : SigSet) :
    ((mask >>> 32).setWidth 32).setWidth 64 <<< 32 ||| (mask.setWidth 32).setWidth 64 = mask := by
  apply BitVec.eq_of_getLsbD_eq
  intro i hi
  simp only [BitVec.getLsbD_or, BitVec.getLsbD_shiftLeft, BitVec.getLsbD_setWidth,
    BitVec.getLsbD_ushiftRight]
  by_cases h : i < 32
  · simp [h, hi]
  · have hs : 32 + (i - 32) = i := by omega
    have hlt : i - 32 < 32 := by omega
    simpa [h, hi, hs, hlt] using fun _ ↦ by omega

/-- The frame a task finds above its stack pointer is the one of `a`. -/
def FrameAt (symbol : Addr) (a : Task) (sig : Sig) (addr : Addr) (g : GuestMem) : Prop :=
  ∀ (i : ℕ) (hi : i < (setupFrame symbol a sig).toBytes.length),
    g.load (addr + BitVec.ofNat 32 i) = some (setupFrame symbol a sig).toBytes[i]

theorem setupFrame_regs (symbol : Addr) (a : Task) (sig : Sig) :
    (setupFrame symbol a sig).sc.regs = a.cpu.regs := by
  funext r
  cases r <;> rfl

theorem sysRtSigreturn_eq (h : FrameAt symbol a sig (u.cpu.regs .esp - scOffset) u.mem) :
    sysRtSigreturn u frame =
      ((doSigprocmask
        { u with
          cpu :=
            { u.cpu.collapseFlags with
              regs := a.cpu.regs
              eip := a.cpu.eip
              eflags := a.cpu.collapseFlags.eflags }
          sighand := { u.sighand with onAltstack := false } } sigSetmask a.blocked).1,
        a.cpu.regs .eax) := by
  have hlen : frame.toBytes.length = (setupFrame symbol a sig).toBytes.length := by
    rw [SigFrame.toBytes_length, SigFrame.toBytes_length]
  have hread := userRead_of_load hlen h
  unfold sysRtSigreturn
  rw [hread, SigFrame.ofBytes_toBytes]
  dsimp only
  rw [setupFrame_regs]
  simp only [setupFrame, mask_halves]

/-- What the task's code can tell about the moment the signal came. -/
structure Restored (a r : Task) : Prop where
  regs : r.cpu.regs = a.cpu.regs
  eip : r.cpu.eip = a.cpu.eip
  flags : r.cpu.flags = a.cpu.flags
  blocked : r.blocked = a.blocked

/-- The flags after a return: those of the frame, but for the two bytes. -/
theorem flags_sigreturn (h : FrameAt symbol a sig (u.cpu.regs .esp - scOffset) u.mem) :
    (sigreturn u frame).cpu.flags = { a.cpu.flags with cf := u.cpu.cf, of := u.cpu.of } := by
  have hcpu : (sigreturn u frame).cpu =
      { u.cpu.collapseFlags with
        regs := Function.update a.cpu.regs .eax (a.cpu.regs .eax)
        eip := a.cpu.eip
        eflags := a.cpu.collapseFlags.eflags } := by
    unfold sigreturn
    rw [sysRtSigreturn_eq h]
    rfl
  rw [hcpu, ← a.cpu.flags_collapseFlags]
  rfl

theorem restored_iff (h : FrameAt symbol a sig (u.cpu.regs .esp - scOffset) u.mem) :
    Restored a (sigreturn u frame) ↔ u.cpu.cf = a.cpu.cf ∧ u.cpu.of = a.cpu.of := by
  have hflags := @flags_sigreturn _ _ _ _ frame h
  constructor
  · intro hr
    have heq := hflags.symm.trans hr.flags
    exact ⟨congrArg CpuState.Flags.cf heq, congrArg CpuState.Flags.of heq⟩
  · rintro ⟨hc, ho⟩
    refine ⟨?_, ?_, ?_, ?_⟩
    · unfold sigreturn
      rw [sysRtSigreturn_eq h]
      exact Function.update_eq_self _ _
    · unfold sigreturn
      rw [sysRtSigreturn_eq h]
      rfl
    · rw [hflags, hc, ho]
      rfl
    · unfold sigreturn
      rw [sysRtSigreturn_eq h]
      rfl

/-! Frames below one another. -/

/-- A frame ends at most sixteen bytes below the stack pointer. -/
theorem frameSp_dist {sighand : SigHand} (h : sighand.altstack = 0) (esp : Addr) :
    sigframeSize ≤ GuestMem.dist (frameSp sighand esp) esp ∧
      GuestMem.dist (frameSp sighand esp) esp < sigframeSize + 16 := by
  have hsp : frameSp sighand esp =
      (esp - 732#32 + 4#32) - ((esp - 732#32 + 4#32) &&& 0xf#32) - 4#32 := by
    rw [← sub_and_not]
    simp [frameSp, h, xsaveExtra, sigframeSize]
  have hlt : ((esp - 732#32 + 4#32) &&& 0xf#32).toNat < 16 := by
    rw [BitVec.toNat_and]
    exact Nat.lt_succ_of_le Nat.and_le_right
  rw [hsp, GuestMem.dist]
  generalize (esp - 732#32 + 4#32) &&& 0xf#32 = r at hlt
  unfold sigframeSize
  bv_omega

theorem callHandler_esp (symbol : Addr) (t : Task) (sig : Sig) :
    (callHandler symbol t sig).cpu.regs .esp = frameSp t.sighand (t.cpu.regs .esp) := by
  simp [callHandler]

theorem receiveSignal_callHandler (hact : signalAction t.sighand sig = .callHandler)
    (h : receiveSignal symbol t sig = .ok u) :
    u = callHandler symbol { t with pending := t.pending &&& ~~~sigBit sig } sig := by
  unfold receiveSignal at h
  simp only [hact] at h
  split at h <;> cases h
  rfl

/-- A delivery leaves the stack alone or puts one frame on it. -/
theorem receiveSignal_cases (h : receiveSignal symbol t sig = .ok u) :
    (u.cpu = t.cpu ∧ u.mem = t.mem ∧ u.sighand = t.sighand) ∨
      u = callHandler symbol { t with pending := t.pending &&& ~~~sigBit sig } sig := by
  cases hact : signalAction t.sighand sig with
  | ignore =>
    simp only [receiveSignal, hact, Except.ok.injEq] at h
    subst h
    exact .inl ⟨rfl, rfl, rfl⟩
  | kill => simp [receiveSignal, hact] at h
  | callHandler => exact .inr (receiveSignal_callHandler hact h)

/-- At most `n` frames were put below `addr`, and the bytes of the frame at
`addr` are the ones that `g` has. -/
structure Below (addr : Addr) (g : GuestMem) (n : ℕ) (t : Task) : Prop where
  altstack : t.sighand.altstack = 0
  depth : GuestMem.dist (t.cpu.regs .esp) addr ≤ n * (sigframeSize + 16)
  kept : ∀ i < sigframeSize, t.mem.load (addr + BitVec.ofNat 32 i) = g.load (addr + BitVec.ofNat 32 i)

theorem Below.receiveSignal {addr : Addr} {g : GuestMem} {n : ℕ} (h : Below addr g n t)
    (hn : n < numSigs) (hr : receiveSignal symbol t sig = .ok u) : Below addr g (n + 1) u := by
  obtain ⟨hcpu, hmem, hsig⟩ | rfl := receiveSignal_cases hr
  · refine ⟨hsig ▸ h.altstack, ?_, hmem ▸ h.kept⟩
    rw [hcpu]
    exact h.depth.trans (Nat.mul_le_mul_right _ (Nat.le_succ n))
  · obtain ⟨hlo, hhi⟩ := frameSp_dist h.altstack (t.cpu.regs .esp)
    have hd := h.depth
    have hadd : GuestMem.dist (frameSp t.sighand (t.cpu.regs .esp)) addr =
        GuestMem.dist (frameSp t.sighand (t.cpu.regs .esp)) (t.cpu.regs .esp) +
          GuestMem.dist (t.cpu.regs .esp) addr := by
      simp only [GuestMem.dist, sigframeSize, numSigs] at *
      bv_omega
    refine ⟨by simp [callHandler, h.altstack], ?_, fun i hi ↦ ?_⟩
    · rw [callHandler_esp, hadd, Nat.succ_mul]
      omega
    · refine (load_userWrite_of_outside _ ?_).trans (h.kept i hi)
      rw [SigFrame.toBytes_length]
      simp only [GuestMem.dist, sigframeSize, numSigs] at *
      bv_omega

theorem Below.receivePending {addr : Addr} {g : GuestMem} {n : ℕ} {sigs : List Sig}
    (h : Below addr g n t) (hn : n + sigs.length ≤ numSigs)
    (hr : receivePending symbol t sigs = .ok u) : Below addr g numSigs u := by
  induction sigs generalizing t n with
  | nil =>
    cases hr
    refine ⟨h.altstack, ?_, h.kept⟩
    have hd := h.depth
    rw [List.length_nil] at hn
    exact hd.trans (Nat.mul_le_mul_right _ hn)
  | cons sig sigs ih =>
    rw [List.length_cons] at hn
    unfold Kernel.receivePending at hr
    split at hr
    · cases hs : Kernel.receiveSignal symbol t sig with
      | ok t' =>
        rw [hs] at hr
        exact ih (h.receiveSignal (by omega) hs) (by omega) hr
      | error e =>
        rw [hs] at hr
        cases hr
    · exact ih h (by omega) hr

/-- A frame that a delivery of `receive_signals` puts on the stack, with the
signals `post` still to be looked at, is in place when the guest goes on. -/
theorem frameAt_receivePending {post : List Sig} (hact : signalAction a.sighand sig = .callHandler)
    (hstack : a.sighand.altstack = 0)
    (hfit : a.mem.writable (frameSp a.sighand (a.cpu.regs .esp)) sigframeSize)
    (hrecv : receiveSignal symbol a sig = .ok b) (hlen : post.length ≤ numSigs)
    (hpost : receivePending symbol b post = .ok c) :
    FrameAt symbol a sig (b.cpu.regs .esp) c.mem := by
  obtain rfl := receiveSignal_callHandler hact hrecv
  set b := callHandler symbol { a with pending := a.pending &&& ~~~sigBit sig } sig
  have hesp : b.cpu.regs .esp = frameSp a.sighand (a.cpu.regs .esp) := callHandler_esp _ _ _
  have hbelow : Below (b.cpu.regs .esp) b.mem 0 b := by
    refine ⟨hstack, ?_, fun _ _ ↦ rfl⟩
    simp [GuestMem.dist]
  have hkept := (hbelow.receivePending (by omega) hpost).kept
  intro i hi
  have hframe : (setupFrame symbol a sig).toBytes.length = sigframeSize :=
    SigFrame.toBytes_length _
  have hok : (a.mem.userWrite (b.cpu.regs .esp) (setupFrame symbol a sig).toBytes).2 = 0 := by
    rw [hesp]
    exact userWrite_ok (hframe ▸ hfit)
  have hle : (setupFrame symbol a sig).toBytes.length ≤ 2 ^ 32 := by
    rw [hframe]
    decide
  rw [hkept i (hframe ▸ hi), ← load_userWrite hok hle hi, hesp]
  rfl

/-- Whatever the handler did to the registers and flags, `sys_rt_sigreturn` at
an unmodified frame restores the state the signal met if and only if the
bytes `cf` and `of` are the ones they were then. The frame may be one of
several: `receive_signals` goes on with the signals `post` before the guest
runs. -/
theorem sigreturn_restores_iff {post : List Sig} (frame : SigFrame)
    (hact : signalAction a.sighand sig = .callHandler) (hstack : a.sighand.altstack = 0)
    (hfit : a.mem.writable (frameSp a.sighand (a.cpu.regs .esp)) sigframeSize)
    (hrecv : receiveSignal symbol a sig = .ok b) (hlen : post.length ≤ numSigs)
    (hpost : receivePending symbol b post = .ok c)
    (hesp : u.cpu.regs .esp = b.cpu.regs .esp + scOffset)
    (hframe : ∀ i < sigframeSize, u.mem.load (b.cpu.regs .esp + BitVec.ofNat 32 i) =
      c.mem.load (b.cpu.regs .esp + BitVec.ofNat 32 i)) :
    Restored a (sigreturn u frame) ↔ u.cpu.cf = a.cpu.cf ∧ u.cpu.of = a.cpu.of := by
  have hat := frameAt_receivePending hact hstack hfit hrecv hlen hpost
  have haddr : u.cpu.regs .esp - scOffset = b.cpu.regs .esp := by
    rw [hesp, BitVec.add_sub_cancel]
  apply restored_iff
  intro i hi
  rw [haddr, hframe i (by rwa [SigFrame.toBytes_length] at hi)]
  exact hat i hi

/-- A task in the middle of a comparison that sets the carry, with two signals
pending and a handler at `0x8000` for each. -/
def comparing : Task where
  cpu :=
    { regs := fun r ↦ if r = .esp then 0xffff0000 else 0
      xmm := fun _ ↦ 0, eip := 0x1000, eflags := 0x202, cf := 1, of := 0
      res := 0xffffffff, op1 := 0, op2 := 1
      pfRes := true, zfRes := true, sfRes := true, afOps := true
      fp := fun _ ↦ ⟨0, 0⟩, fsw := 0, fcw := 0, gs := 0, tlsPtr := 0
      segfaultAddr := 0, trapno := 0 }
  mem := ⟨fun _ ↦ .readWrite, fun _ ↦ 0⟩
  vdso := 0xf7ffc000
  blocked := 0
  pending := 0x1400
  queued := 0
  sighand := ⟨fun _ ↦ 0x8000, 0, false⟩

/-- The task at the end of a handler whose frame is at `addr`: its flags are the
ones `comparing` has, its registers lost. -/
def handled (g : GuestMem) (addr : Addr) : Task :=
  { comparing with mem := g, cpu := { comparing.cpu with regs := fun _ ↦ addr + scOffset } }

/-- Two frames are put on the stack, and the outer one is returned from. -/
theorem sigreturn_comparing :
    ∃ b c, receiveSignal 0x420 comparing 10 = .ok b ∧ receivePending 0x420 b [12] = .ok c ∧
      Restored comparing (sigreturn (handled c.mem (b.cpu.regs .esp)) {}) := by
  obtain ⟨b, c, hb, hc⟩ : ∃ b c, receiveSignal 0x420 comparing 10 = .ok b ∧
      receivePending 0x420 b [12] = .ok c := ⟨_, _, rfl, rfl⟩
  have hact : signalAction comparing.sighand 10 = .callHandler := by decide
  have hstack : comparing.sighand.altstack = 0 := rfl
  have hfit (addr : Addr) : comparing.mem.writable addr sigframeSize := fun _ _ ↦ rfl
  have hlen : [(12 : Sig)].length ≤ numSigs := by decide
  have hiff := sigreturn_restores_iff (u := handled c.mem (b.cpu.regs .esp)) {} hact hstack
    (hfit _) hb hlen hc rfl (fun _ _ ↦ rfl)
  exact ⟨b, c, hb, hc, hiff.mpr ⟨rfl, rfl⟩⟩

/-- A handler that leaves the carry clear: the comparison is left without it. -/
theorem sigreturn_loses_carry :
    signalAction comparing.sighand 10 = .callHandler ∧ comparing.sighand.altstack = 0 ∧
      comparing.mem.writable (frameSp comparing.sighand (comparing.cpu.regs .esp)) sigframeSize ∧
      ∃ b u, receiveSignal 0x420 comparing 10 = .ok b ∧ u.mem = b.mem ∧
        u.cpu.regs .esp = b.cpu.regs .esp + scOffset ∧
        ∀ frame, ¬Restored comparing (sigreturn u frame) := by
  obtain ⟨b, hb⟩ : ∃ b, receiveSignal 0x420 comparing 10 = .ok b := ⟨_, rfl⟩
  let u := handled b.mem (b.cpu.regs .esp)
  refine ⟨by decide, rfl, fun _ _ ↦ rfl, b, { u with cpu := { u.cpu with cf := 0 } }, hb, rfl, rfl,
    fun frame h ↦ ?_⟩
  have hcf : (0 : BitVec 8) = comparing.cpu.cf := congrArg CpuState.Flags.cf h.flags
  exact absurd hcf (by decide)

end Isl.Kernel
