import Isl.Fs.PollScan
import Isl.Fs.PollWait

/-!
`poll_wait` of `fs/poll.c` on a poll of one thread, while other threads change the files that
it watches and call `poll_wake`. A file is unlocked before its `poll_wake` takes the lock of
the poll, and the loop of `poll_wait` looks at one file after the other.
-/

namespace Isl.Fs.PollWake

open Isl.Lib.Run
open PollScan (FdId Types PollFd)
open PollWait (ThreadId Place Polled)

/-- A kind of file that has a `poll`. A step that makes it ready is one of a thread that goes
on to `poll_wake`. -/
structure PollOps (σ α : Type*) where
  step : σ → α → Option σ
  poll : σ → Types
  waker : σ → α → Option ThreadId
  waker_isSome {s s' : σ} {a : α} {b : ℕ} : step s a = some s' → (poll s').getLsbD b = true →
    (poll s).getLsbD b = true ∨ (waker s a).isSome = true

/-- `waking` has the file of each thread in `poll_wake` and the number of its nodes in the poll
that the thread still comes to. `looking` is where the loop of `poll_wait` is, with its count,
while the thread of the poll has the lock. -/
structure State (σ : Type*) where
  files : FdId → σ
  waking : ThreadId → Option (FdId × ℕ)
  looking : Option (List PollFd × ℕ)
  poll : PollWait.State

inductive Action (α : Type*)
  | file (f : FdId) (a : α)
  | wake (u : ThreadId) (stored : Bool)
  | hostPoll (p : Polled)
  | lock
  | look
  | unlock

variable {σ α : Type*}

def init (files : FdId → σ) : State σ := ⟨files, fun _ ↦ none, none, PollWait.fresh⟩

def nodes (pollFds : List PollFd) (f : FdId) : ℕ := pollFds.countP fun p ↦ p.fd = f

def ready (ops : PollOps σ α) (files : FdId → σ) (p : PollFd) : Bool :=
  ops.poll (files p.fd) &&& p.types ≠ 0

namespace State

/-- The callbacks of `sys_poll` and `sys_select` count every file that is ready. The thread of
the poll is `t`, and its `pipe` does not fail. -/
def step (ops : PollOps σ α) (pollFds : List PollFd) (t : ThreadId) (s : State σ) :
    Action α → Option (State σ)
  | .file f a =>
    (ops.step (s.files f) a).bind fun file ↦
      match ops.waker (s.files f) a with
      | none => some { s with files := Function.update s.files f file }
      | some u =>
        if s.waking u = none then
          some { s with files := Function.update s.files f file
                        waking := Function.update s.waking u (some (f, nodes pollFds f)) }
        else none
  | .wake u stored =>
    match s.waking u with
    | none => none
    | some (_, 0) => some { s with waking := Function.update s.waking u none }
    | some (f, k + 1) =>
      -- a `write` fails only if the pipe is full
      if s.looking.isSome = true ∨ stored = false ∧ ¬∃ n ∈ s.poll.notifyPipe, 0 < n then none
      else
        (s.poll.step (.wake stored)).map fun poll ↦
          { s with waking := Function.update s.waking u (some (f, k)), poll := poll }
  | .hostPoll p => (s.poll.step (.hostPoll t p)).map fun poll ↦ { s with poll := poll }
  | .lock =>
    if s.looking.isSome then none
    else
      match s.poll.place t with
      | .out | .back (.ready _) => some { s with looking := some (pollFds, 0) }
      | .asleep _ => none
      | .back _ => (s.poll.step (.resume t 0)).map fun poll ↦ { s with poll := poll }
  | .look =>
    match s.looking with
    | some (p :: rest, n) =>
      some { s with looking := some (rest, n + if ready ops s.files p then 1 else 0) }
    | _ => none
  | .unlock =>
    match s.looking with
    | some ([], n) =>
      (s.poll.step (if s.poll.place t = .out then .enter t none n else .resume t n)).map
        fun poll ↦ { s with looking := none, poll := poll }
    | _ => none

end State

variable {ops : PollOps σ α} {pollFds : List PollFd} {t : ThreadId} {s s' : State σ}
  {p : PollFd} {a : Action α}

variable (ops s p) in
/-- If the file is ready a thread is about to wake the poll for it. -/
def Heard : Prop := ready ops s.files p = true → ∃ u k, s.waking u = some (p.fd, k + 1)

variable (ops pollFds s) in
/-- The loop has counted nothing only if what it has looked at is not ready, or about to be
announced. -/
def Looked (rest : List PollFd) (n : ℕ) : Prop :=
  ∃ seen, pollFds = seen ++ rest ∧ (n = 0 → ∀ p ∈ seen, Heard ops s p)

variable (ops pollFds t s) in
structure Attentive : Prop where
  sound : PollWait.Sound s.poll
  alone : ∀ u, u ≠ t → s.poll.place u = .out
  pipe : ∀ b, s.poll.place t = .asleep b → b = true
  byte : s.poll.place t = .back (.ready true) → ∃ n ∈ s.poll.notifyPipe, 0 < n
  awake : s.looking.isSome = true →
    s.poll.place t = .out ∨ ∃ b, s.poll.place t = .back (.ready b)
  looked : ∀ rest n, s.looking = some (rest, n) → Looked ops pollFds s rest n
  asleep : ∀ b, s.poll.place t = .asleep b → s.poll.notifyPipe = some 0 →
    ∀ p ∈ pollFds, Heard ops s p

section

variable {files : FdId → σ} {f : FdId} {act : α}

theorem ready_iff : ready ops files p = true ↔
    ∃ b, (ops.poll (files p.fd)).getLsbD b = true ∧ p.types.getLsbD b = true := by
  rw [ready, decide_eq_true_iff, PollScan.types_ne_zero_iff]
  refine exists_congr fun b ↦ ?_
  rw [BitVec.getLsbD_and, Bool.and_eq_true]

theorem nodes_pos (hp : p ∈ pollFds) : 0 < nodes pollFds p.fd :=
  List.countP_pos_iff.mpr ⟨p, hp, decide_eq_true rfl⟩

theorem file_cases (hs : s.step ops pollFds t (.file f act) = some s') :
    ∃ file, ops.step (s.files f) act = some file ∧ s'.files = Function.update s.files f file ∧
      s'.looking = s.looking ∧ s'.poll = s.poll ∧
      (ops.waker (s.files f) act = none ∧ s'.waking = s.waking ∨
        ∃ u, ops.waker (s.files f) act = some u ∧ s.waking u = none ∧
          s'.waking = Function.update s.waking u (some (f, nodes pollFds f))) := by
  obtain ⟨file, hfile, hs⟩ := Option.bind_eq_some_iff.mp hs
  refine ⟨file, hfile, ?_⟩
  split at hs
  · cases hs
    exact ⟨rfl, rfl, rfl, .inl ⟨‹_›, rfl⟩⟩
  · obtain ⟨hnone, hs⟩ := Option.ite_none_right_eq_some.mp hs
    cases hs
    exact ⟨rfl, rfl, rfl, .inr ⟨_, ‹_›, hnone, rfl⟩⟩

theorem Heard.file (h : Heard ops s p) (hp : p ∈ pollFds)
    (hs : s.step ops pollFds t (.file f act) = some s') : Heard ops s' p := by
  obtain ⟨file, hfile, hfiles, -, -, hwaking⟩ := file_cases hs
  have hkept (hold : ready ops s.files p = true) : ∃ u k, s'.waking u = some (p.fd, k + 1) := by
    obtain ⟨u, k, hu⟩ := h hold
    obtain ⟨-, hw⟩ | ⟨v, -, hv, hw⟩ := hwaking
    · exact ⟨u, k, by rw [hw, hu]⟩
    · have hne : u ≠ v := by
        rintro rfl
        cases hv.symm.trans hu
      exact ⟨u, k, by rw [hw, Function.update_of_ne hne, hu]⟩
  intro hready
  obtain ⟨b, hb, htypes⟩ := ready_iff.mp hready
  rw [hfiles] at hb
  by_cases hf : p.fd = f
  · subst hf
    rw [Function.update_self] at hb
    rcases ops.waker_isSome hfile hb with hold | hwaker
    · exact hkept (ready_iff.mpr ⟨b, hold, htypes⟩)
    · obtain ⟨hnone, -⟩ | ⟨u, -, -, hw⟩ := hwaking
      · rw [hnone] at hwaker
        cases hwaker
      · refine ⟨u, nodes pollFds p.fd - 1, ?_⟩
        rw [hw, Function.update_self, Nat.sub_add_cancel (nodes_pos hp)]
  · rw [Function.update_of_ne hf] at hb
    exact hkept (ready_iff.mpr ⟨b, hb, htypes⟩)

theorem Heard.congr (h : Heard ops s p) (hfiles : s'.files = s.files)
    (hwaking : ∀ u f k, s.waking u = some (f, k + 1) → s'.waking u = some (f, k + 1)) :
    Heard ops s' p := by
  intro hready
  rw [hfiles] at hready
  obtain ⟨u, k, hu⟩ := h hready
  exact ⟨u, k, hwaking u p.fd k hu⟩

theorem Looked.mono {rest : List PollFd} {n : ℕ} (h : Looked ops pollFds s rest n)
    (hheard : ∀ p ∈ pollFds, Heard ops s p → Heard ops s' p) : Looked ops pollFds s' rest n := by
  obtain ⟨seen, heq, hseen⟩ := h
  refine ⟨seen, heq, fun hn p hp ↦ hheard p ?_ (hseen hn p hp)⟩
  rw [heq]
  exact List.mem_append_left rest hp

theorem Attentive.quiet (h : Attentive ops pollFds t s) (hlooking : s'.looking = s.looking)
    (hpoll : s'.poll = s.poll) (hheard : ∀ p ∈ pollFds, Heard ops s p → Heard ops s' p) :
    Attentive ops pollFds t s' where
  sound := hpoll ▸ h.sound
  alone := hpoll ▸ h.alone
  pipe := hpoll ▸ h.pipe
  byte := hpoll ▸ h.byte
  awake := by
    rw [hlooking, hpoll]
    exact h.awake
  looked rest n hl := by
    rw [hlooking] at hl
    exact (h.looked rest n hl).mono hheard
  asleep b hb hempty p hp := by
    rw [hpoll] at hb hempty
    exact hheard p hp (h.asleep b hb hempty p hp)

theorem Attentive.wake {u : ThreadId} {stored : Bool} (h : Attentive ops pollFds t s)
    (hs : s.step ops pollFds t (.wake u stored) = some s') : Attentive ops pollFds t s' := by
  rw [State.step] at hs
  split at hs
  · cases hs
  · rename_i f hu
    cases hs
    refine h.quiet rfl rfl fun p _ hheard ↦ hheard.congr rfl fun v g k hv ↦ ?_
    have hne : v ≠ u := by
      rintro rfl
      cases hv.symm.trans hu
    exact (Function.update_of_ne hne _ _).trans hv
  · obtain ⟨hnot, hs⟩ := Option.ite_none_left_eq_some.mp hs
    obtain ⟨poll, hpoll, rfl⟩ := Option.map_eq_some_iff.mp hs
    obtain ⟨hlooking, hstored⟩ := not_or.mp hnot
    have hsound := (PollWait.step_sound_iff h.sound hpoll).mpr trivial
    rw [PollWait.State.step, if_neg (Bool.eq_false_iff.mp h.sound.alive)] at hpoll
    cases hpoll
    refine ⟨hsound, h.alone, h.pipe, fun hback ↦ ?_, fun hl ↦ absurd hl hlooking, fun rest n hl ↦ ?_,
      fun b hb hempty ↦ ?_⟩
    · obtain ⟨n, hn, hpos⟩ := h.byte hback
      refine ⟨_, Option.mem_map.mpr ⟨n, hn, rfl⟩, ?_⟩
      split
      · exact Nat.succ_pos n
      · exact hpos
    · exact absurd (Option.isSome_of_eq_some hl) hlooking
    · -- the byte is in the pipe, and so were those that did not fit
      obtain ⟨n, hn, hzero⟩ := Option.map_eq_some_iff.mp hempty
      cases stored with
      | true => cases hzero
      | false =>
        obtain ⟨m, hm, hpos⟩ := not_not.mp fun hno ↦ hstored ⟨rfl, hno⟩
        cases hn.symm.trans hm
        exact absurd hzero hpos.ne'

theorem Attentive.looking_none {b : Bool} (h : Attentive ops pollFds t s)
    (hb : s.poll.place t = .asleep b) : s.looking = none := by
  cases hl : s.looking with
  | none => rfl
  | some l =>
    have hplace := h.awake (Option.isSome_of_eq_some hl)
    rw [hb] at hplace
    obtain hplace | ⟨c, hplace⟩ := hplace
    · cases hplace
    · cases hplace

theorem Attentive.hostPoll {q : Polled} (h : Attentive ops pollFds t s)
    (hs : s.step ops pollFds t (.hostPoll q) = some s') : Attentive ops pollFds t s' := by
  obtain ⟨poll, hpoll, rfl⟩ := Option.map_eq_some_iff.mp hs
  have hsound := (PollWait.step_sound_iff h.sound hpoll).mpr trivial
  rw [PollWait.State.step, if_neg (Bool.eq_false_iff.mp h.sound.alive)] at hpoll
  split at hpoll
  · rename_i b hb
    obtain ⟨hbyte, hpoll⟩ := Option.ite_none_left_eq_some.mp hpoll
    cases hpoll
    have hplace : (s.poll.moveTo t (.back q)).place t = .back q := Function.update_self t _ _
    have hlooking := h.looking_none hb
    refine ⟨hsound, fun u hu ↦ ?_, fun c hc ↦ ?_, fun hback ↦ ?_, fun hl ↦ ?_, fun rest n hl ↦ ?_,
      fun c hc ↦ ?_⟩
    · exact (Function.update_of_ne hu _ _).trans (h.alone u hu)
    · cases hplace.symm.trans hc
    · cases hplace.symm.trans hback
      exact (not_not.mp fun hno ↦ hbyte ⟨rfl, hno⟩).2
    · rw [hlooking] at hl
      cases hl
    · cases hlooking.symm.trans hl
    · cases hplace.symm.trans hc
  · cases hpoll

/-- The thread that has given up its lock is out of `poll_wait`. -/
theorem Attentive.leave {poll : PollWait.State} {r : PollWait.Return}
    (h : Attentive ops pollFds t s) (hlooking : s'.looking = none) (hpoll : s'.poll = poll.leave t r)
    (hplace : ∀ u, poll.place u = s.poll.place u) (hsound : PollWait.Sound (poll.leave t r)) :
    Attentive ops pollFds t s' := by
  have hout : s'.poll.place t = .out := by
    rw [hpoll]
    exact Function.update_self t _ _
  refine ⟨hpoll ▸ hsound, fun u hu ↦ ?_, fun c hc ↦ ?_, fun hback ↦ ?_, fun _ ↦ .inl hout,
    fun rest n hl ↦ ?_, fun c hc ↦ ?_⟩
  · rw [hpoll]
    exact (Function.update_of_ne hu _ _).trans ((hplace u).trans (h.alone u hu))
  · cases hout.symm.trans hc
  · cases hout.symm.trans hback
  · cases hlooking.symm.trans hl
  · cases hout.symm.trans hc

theorem Attentive.startLook (h : Attentive ops pollFds t s)
    (hplace : s.poll.place t = .out ∨ ∃ b, s.poll.place t = .back (.ready b)) :
    Attentive ops pollFds t { s with looking := some (pollFds, 0) } := by
  refine ⟨h.sound, h.alone, h.pipe, h.byte, fun _ ↦ hplace, fun rest n hl ↦ ?_, h.asleep⟩
  cases hl
  exact ⟨[], rfl, fun _ p hp ↦ absurd hp List.not_mem_nil⟩

theorem Attentive.lock (h : Attentive ops pollFds t s)
    (hs : s.step ops pollFds t .lock = some s') : Attentive ops pollFds t s' := by
  obtain ⟨hlooking, hs⟩ := Option.ite_none_left_eq_some.mp hs
  have hnone : s.looking = none := by
    cases hl : s.looking with
    | none => rfl
    | some l => exact absurd (Option.isSome_of_eq_some hl) hlooking
  cases hplace : s.poll.place t with
  | out =>
    simp only [hplace] at hs
    cases hs
    exact h.startLook (.inl hplace)
  | asleep b =>
    simp only [hplace] at hs
    cases hs
  | back q =>
    have hresume : s.poll.step (.resume t 0) = some (s.poll.resume t q 0) := by
      rw [PollWait.State.step, if_neg (Bool.eq_false_iff.mp h.sound.alive)]
      simp only [hplace]
    cases q with
    | ready b =>
      simp only [hplace] at hs
      cases hs
      exact h.startLook (.inr ⟨b, hplace⟩)
    | error | timeout =>
      simp only [hplace, hresume] at hs
      cases hs
      refine h.leave hnone rfl (fun u ↦ rfl) ((PollWait.step_sound_iff h.sound hresume).mpr ?_)
      intro hready
      cases hplace.symm.trans hready

theorem Attentive.look (h : Attentive ops pollFds t s)
    (hs : s.step ops pollFds t .look = some s') : Attentive ops pollFds t s' := by
  rw [State.step] at hs
  split at hs
  · rename_i p rest n hl
    cases hs
    have hplace := h.awake (Option.isSome_of_eq_some hl)
    refine ⟨h.sound, h.alone, h.pipe, h.byte, fun _ ↦ hplace, fun rest' n' hl' ↦ ?_, h.asleep⟩
    cases hl'
    obtain ⟨seen, heq, hseen⟩ := h.looked _ _ hl
    refine ⟨seen ++ [p], by rw [heq, List.append_assoc, List.singleton_append], fun hn q hq ↦ ?_⟩
    obtain ⟨hn, hone⟩ := Nat.add_eq_zero_iff.mp hn
    rcases List.mem_append.mp hq with hq | hq
    · exact hseen hn q hq
    · rw [List.mem_singleton.mp hq]
      intro hready
      have hready' : ready ops s.files p = true := hready
      rw [if_pos hready'] at hone
      cases hone
  · cases hs

theorem Attentive.unlock_eq {n : ℕ} {poll : PollWait.State} (h : Attentive ops pollFds t s)
    (hl : s.looking = some ([], n))
    (hpoll : s.poll.step (if s.poll.place t = .out then .enter t none n else .resume t n) =
      some poll) :
    PollWait.Sound poll ∧ ∃ poll₀ : PollWait.State, poll₀.notifyPipe.isSome = true ∧
      poll₀.returns = s.poll.returns ∧ (∀ u, poll₀.place u = s.poll.place u) ∧
      poll = poll₀.scan t n := by
  have hsafe := PollWait.step_sound_iff h.sound hpoll
  have hdied := Bool.eq_false_iff.mp h.sound.alive
  obtain hout | ⟨b, hback⟩ := h.awake (Option.isSome_of_eq_some hl)
  · rw [if_pos hout] at hsafe hpoll
    rw [PollWait.State.step, if_neg hdied] at hpoll
    simp only [if_pos hout] at hpoll
    cases hpoll
    have hzero : s.poll.waiters = 0 := by
      obtain ⟨inside, hmem, hcard⟩ := h.sound.counted
      have hempty : inside = ∅ := by
        refine Finset.eq_empty_of_forall_notMem fun u hu ↦ (hmem u).mp hu ?_
        by_cases hut : u = t
        · rw [hut]
          exact hout
        · exact h.alone u hut
      rw [hcard, hempty]
      rfl
    have hclosed : ¬s.poll.notifyPipe.isSome = true := fun hopen ↦ by
      have := h.sound.pipe.mp hopen
      omega
    refine ⟨hsafe.mpr fun _ ↦ rfl,
      { s.poll with waiters := s.poll.waiters + 1, notifyPipe := some 0 }, rfl, rfl,
      fun u ↦ rfl, ?_⟩
    rw [PollWait.State.enter, if_pos hzero, if_neg hclosed]
  · have hne : s.poll.place t ≠ .out := by
      rw [hback]
      simp
    rw [if_neg hne] at hsafe hpoll
    rw [PollWait.State.step, if_neg hdied] at hpoll
    simp only [hback] at hpoll
    cases hpoll
    have hsound := hsafe.mpr h.byte
    refine ⟨hsound, ?_⟩
    cases b with
    | false =>
      refine ⟨s.poll, h.sound.pipe.mpr ?_, rfl, fun u ↦ rfl, rfl⟩
      obtain ⟨inside, hmem, hcard⟩ := h.sound.counted
      have hpos : 0 < inside.card := Finset.card_pos.mpr ⟨t, (hmem t).mpr hne⟩
      omega
    | true =>
      obtain ⟨m, hm, hpos⟩ := h.byte hback
      obtain ⟨k, rfl⟩ := Nat.exists_eq_succ_of_ne_zero hpos.ne'
      have hpipe : s.poll.notifyPipe = some (k + 1) := hm
      refine ⟨{ s.poll with notifyPipe := some k }, rfl, rfl, fun u ↦ rfl, ?_⟩
      rw [PollWait.State.resume]
      simp only [hpipe]

theorem Attentive.unlock (h : Attentive ops pollFds t s)
    (hs : s.step ops pollFds t .unlock = some s') : Attentive ops pollFds t s' := by
  rw [State.step] at hs
  split at hs
  · rename_i n hl
    obtain ⟨poll, hpoll, rfl⟩ := Option.map_eq_some_iff.mp hs
    obtain ⟨hsound, poll₀, hopen, -, hplace, rfl⟩ := h.unlock_eq hl hpoll
    obtain ⟨seen, heq, hseen⟩ := h.looked _ _ hl
    rw [List.append_nil] at heq
    rw [PollWait.State.scan] at hsound ⊢
    by_cases hn : 0 < n
    · rw [if_pos hn] at hsound ⊢
      exact h.leave rfl rfl hplace hsound
    · rw [if_neg hn] at hsound ⊢
      have hself : (poll₀.moveTo t (.asleep poll₀.notifyPipe.isSome)).place t = .asleep true := by
        rw [hopen]
        exact Function.update_self t _ _
      refine ⟨hsound, fun u hu ↦ ?_, fun b hb ↦ ?_, fun hback ↦ ?_, fun hl ↦ ?_, fun rest m hl ↦ ?_,
        fun b hb _ p hp ↦ ?_⟩
      · exact (Function.update_of_ne hu _ _).trans ((hplace u).trans (h.alone u hu))
      · cases hself.symm.trans hb
        rfl
      · cases hself.symm.trans hback
      · cases hl
      · cases hl
      · exact hseen (Nat.eq_zero_of_not_pos hn) p (heq ▸ hp)
  · cases hs

theorem Attentive.step (h : Attentive ops pollFds t s) (hs : s.step ops pollFds t a = some s') :
    Attentive ops pollFds t s' := by
  cases a with
  | file f act =>
    obtain ⟨_, _, _, hlooking, hpoll, _⟩ := file_cases hs
    exact h.quiet hlooking hpoll fun p hp hheard ↦ hheard.file hp hs
  | wake u stored => exact h.wake hs
  | hostPoll q => exact h.hostPoll hs
  | lock => exact h.lock hs
  | look => exact h.look hs
  | unlock => exact h.unlock hs

theorem attentive_init (files : FdId → σ) : Attentive ops pollFds t (init files) where
  sound := PollWait.sound_fresh
  alone _ _ := rfl
  pipe b hb := by cases hb
  byte hb := by cases hb
  awake hl := by cases hl
  looked rest n hl := by cases hl
  asleep b hb := by cases hb

theorem Attentive.run {actions : List (Action α)} (h : Attentive ops pollFds t s)
    (hs : exec (State.step ops pollFds t) s actions = some s') : Attentive ops pollFds t s' := by
  have hall : AllAlong (State.step ops pollFds t) (fun _ ↦ True) s actions :=
    fun _ _ _ _ ↦ trivial
  exact hall.keeps (fun s a u hs _ hu ↦ hs.step hu) h hs

/-! The rest of a call that is woken. -/

theorem exec_look {rest : List PollFd} {n : ℕ} (hl : s.looking = some (rest, n)) :
    exec (State.step ops pollFds t) s (rest.map fun _ ↦ .look) =
      some { s with looking := some ([], n + rest.countP (ready ops s.files)) } := by
  induction rest generalizing s n with
  | nil => rw [List.map_nil, exec, List.countP_nil, Nat.add_zero, ← hl]
  | cons p rest ih =>
    have hstep : s.step ops pollFds t .look =
        some { s with looking := some (rest, n + if ready ops s.files p then 1 else 0) } := by
      simp only [State.step, hl]
    rw [List.map_cons, exec, hstep, Option.bind_some, ih rfl, List.countP_cons]
    simp only [Nat.add_assoc, Nat.add_comm (List.countP _ rest)]

variable (α pollFds) in
def afterByte : List (Action α) :=
  .hostPoll (.ready true) :: .lock :: (pollFds.map (fun _ ↦ .look) ++ [.unlock])

theorem exec_readable {b : Bool} {m : ℕ} (h : Attentive ops pollFds t s)
    (hb : s.poll.place t = .asleep b) (hpipe : s.poll.notifyPipe = some (m + 1))
    (hpos : 0 < pollFds.countP (ready ops s.files)) :
    ∃ s', exec (State.step ops pollFds t) s (afterByte α pollFds) = some s' ∧
      s'.poll.place t = .out ∧
      s'.poll.returns = s.poll.returns ++ [⟨pollFds.countP (ready ops s.files), false⟩] := by
  obtain rfl := h.pipe b hb
  have hdied := Bool.eq_false_iff.mp h.sound.alive
  have hback : (s.poll.moveTo t (.back (.ready true))).place t = .back (.ready true) :=
    Function.update_self t _ _
  have hpoll : s.step ops pollFds t (.hostPoll (.ready true)) =
      some { s with poll := s.poll.moveTo t (.back (.ready true)) } := by
    have hbyte : ∃ n ∈ s.poll.notifyPipe, 0 < n := ⟨m + 1, hpipe, Nat.succ_pos m⟩
    rw [State.step, PollWait.State.step, if_neg hdied]
    simp only [hb]
    rw [if_neg fun hno ↦ hno.2 ⟨trivial, hbyte⟩]
    rfl
  have hlock : State.step ops pollFds t { s with poll := s.poll.moveTo t (.back (.ready true)) }
      .lock = some { s with poll := s.poll.moveTo t (.back (.ready true))
                            looking := some (pollFds, 0) } := by
    have hfree : ¬s.looking.isSome = true := by
      rw [h.looking_none hb]
      exact Bool.false_ne_true
    rw [State.step, if_neg hfree]
    simp only [hback]
  have hunlock (n : ℕ) (hn : 0 < n) : ∃ poll : PollWait.State,
      State.step ops pollFds t { s with poll := s.poll.moveTo t (.back (.ready true))
                                        looking := some ([], n) } .unlock =
        some { s with looking := none, poll := poll.leave t ⟨n, false⟩ } ∧
      poll.returns = s.poll.returns := by
    have hopen : (s.poll.moveTo t (.back (.ready true))).notifyPipe = some (m + 1) := hpipe
    have hdied' : ¬(s.poll.moveTo t (.back (.ready true))).died = true := hdied
    have hout : ¬(s.poll.moveTo t (.back (.ready true))).place t = .out := by
      rw [hback]
      simp
    refine ⟨{ s.poll.moveTo t (.back (.ready true)) with notifyPipe := some m }, ?_, rfl⟩
    rw [State.step]
    simp only [if_neg hout]
    rw [PollWait.State.step, if_neg hdied']
    simp only [hback, PollWait.State.resume, hopen, PollWait.State.scan, if_pos hn]
    rfl
  obtain ⟨poll, hunlock, hreturns⟩ := hunlock _ hpos
  refine ⟨{ s with looking := none
                   poll := poll.leave t ⟨pollFds.countP (ready ops s.files), false⟩ },
    ?_, Function.update_self t _ _, ?_⟩
  · rw [afterByte, exec, hpoll, Option.bind_some, exec, hlock, Option.bind_some, exec_append,
      exec_look rfl, Option.bind_some, Nat.zero_add, exec, hunlock, Option.bind_some, exec]
  · rw [← hreturns]
    rfl

/-- If a file is ready that a sleeping thread waits for, there is a byte for the thread or
another one is about to write it, and nothing more is needed for the call to return the number
of files that are ready. -/
theorem Attentive.recovers {b : Bool} (h : Attentive ops pollFds t s)
    (hb : s.poll.place t = .asleep b) (hpos : 0 < pollFds.countP (ready ops s.files)) :
    ∃ wakes s', (wakes = [] ∨ ∃ u, wakes = [.wake u true]) ∧
      exec (State.step ops pollFds t) s (wakes ++ afterByte α pollFds) = some s' ∧
      s'.poll.place t = .out ∧
      s'.poll.returns = s.poll.returns ++ [⟨pollFds.countP (ready ops s.files), false⟩] := by
  have hopen : s.poll.notifyPipe.isSome = true := by
    obtain ⟨inside, hmem, hcard⟩ := h.sound.counted
    have hin : t ∈ inside := (hmem t).mpr (by rw [hb]; simp)
    have := Finset.card_pos.mpr ⟨t, hin⟩
    exact h.sound.pipe.mpr (by omega)
  obtain ⟨n, hn⟩ := Option.isSome_iff_exists.mp hopen
  cases n with
  | succ m =>
    obtain ⟨s', hs', hout, hreturns⟩ := exec_readable h hb hn hpos
    exact ⟨[], s', .inl rfl, hs', hout, hreturns⟩
  | zero =>
    obtain ⟨p, hp, hready⟩ := List.countP_pos_iff.mp hpos
    obtain ⟨u, k, hu⟩ := h.asleep b hb hn p hp hready
    have hwake : s.step ops pollFds t (.wake u true) =
        some { s with waking := Function.update s.waking u (some (p.fd, k))
                      poll := { s.poll with notifyPipe := some 1 } } := by
      have hfree : ¬(s.looking.isSome = true ∨
          true = false ∧ ¬∃ n ∈ s.poll.notifyPipe, 0 < n) := by
        rw [h.looking_none hb]
        simp
      rw [State.step]
      simp only [hu]
      rw [if_neg hfree, PollWait.State.step, if_neg (Bool.eq_false_iff.mp h.sound.alive)]
      simp only [hn]
      rfl
    obtain ⟨s', hs', hout, hreturns⟩ := exec_readable (h.step hwake) hb rfl hpos
    refine ⟨[.wake u true], s', .inr ⟨u, rfl⟩, ?_, hout, hreturns⟩
    rw [List.singleton_append, exec, hwake, Option.bind_some]
    exact hs'

end

end Isl.Fs.PollWake
