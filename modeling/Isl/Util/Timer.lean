import Isl.Lib.Run
import Mathlib.Algebra.Order.Ring.Int
import Mathlib.Data.List.Nodup

/-!
Timers of `util/timer.c`: calls of `timer_set`, and the turns that the threads of a timer
take with its lock. The clock may change in any way between them.
-/

namespace Isl.Util.Timers

open Isl.Lib.Run

abbrev ThreadId := ℕ

structure Timespec where
  sec : ℤ
  nsec : ℤ
deriving DecidableEq

namespace Timespec

def add (x y : Timespec) : Timespec :=
  if 1000000000 ≤ x.nsec + y.nsec then ⟨x.sec + y.sec + 1, x.nsec + y.nsec - 1000000000⟩
  else ⟨x.sec + y.sec, x.nsec + y.nsec⟩

def subtract (x y : Timespec) : Timespec :=
  if x.nsec < y.nsec then ⟨x.sec - 1 - y.sec, x.nsec + 1000000000 - y.nsec⟩
  else ⟨x.sec - y.sec, x.nsec - y.nsec⟩

def isZero (ts : Timespec) : Bool := ts.sec = 0 && ts.nsec = 0

def positive (ts : Timespec) : Bool := ts.sec > 0 || (ts.sec = 0 && ts.nsec > 0)

/-- The time in nanoseconds. -/
def ns (ts : Timespec) : ℤ := ts.sec * 1000000000 + ts.nsec

end Timespec

structure TimerSpec where
  value : Timespec
  interval : Timespec

/-- What the callers of `timer_set` ask for: no `tv_nsec` is negative, but it may be a second
or more. -/
abbrev Request := { spec : TimerSpec // 0 ≤ spec.value.nsec ∧ 0 ≤ spec.interval.nsec }

structure Timer where
  start : Timespec
  endTime : Timespec
  interval : Timespec
  running : Bool

namespace Timer

/-- `timer_set`, with the old setting, and whether it starts a thread. -/
def set (timer : Timer) (now : Timespec) (spec : TimerSpec) : Timer × TimerSpec × Bool :=
  let oldspec : TimerSpec := ⟨timer.endTime.subtract now, timer.interval⟩
  let timer : Timer := ⟨now, now.add spec.value, spec.interval, timer.running⟩
  if !spec.value.isZero then
    if !timer.running then ({ timer with running := true }, oldspec, true)
    else (timer, oldspec, false)
  else if timer.running then ({ timer with running := false }, oldspec, false)
  else (timer, oldspec, false)

/-- `timer_thread` with the lock, from where it looks at the time: it goes to sleep without
the lock, or goes on with its loop, or ends. -/
inductive Turn
  | sleep
  | again (timer : Timer)
  | exit (timer : Timer)

/-- The callback is called unless the thread goes to sleep or the timer does not run. -/
def turn (timer : Timer) (now : Timespec) : Turn :=
  if timer.running && (timer.endTime.subtract now).positive then .sleep
  else if timer.interval.positive then
    .again { timer with start := timer.endTime, endTime := timer.endTime.add timer.interval }
  else .exit { timer with running := false }

end Timer

/-- A call of the callback: for which arming of the timer, and for which of its times. -/
structure Callback where
  arming : ℕ
  time : Timespec

/-- `lock` is the thread that keeps the lock while it goes on with its loop. `armed` says that
the last `timer_set` had a value, and `armings` counts those. -/
structure State where
  timer : Timer
  now : Timespec
  lock : Option ThreadId
  live : ThreadId → Bool
  started : ℕ
  armed : Bool
  armings : ℕ
  callbacks : List Callback

/-- `timer_new` -/
def new (start endTime interval now : Timespec) : State :=
  ⟨⟨start, endTime, interval, false⟩, now, none, fun _ ↦ false, 0, false, 0, []⟩

inductive Action
  | tick (now : Timespec)
  | set (spec : Request)
  | turn (t : ThreadId)

namespace State

def set (s : State) (spec : TimerSpec) : State :=
  let r := s.timer.set s.now spec
  { s with timer := r.1
           live := if r.2.2 then Function.update s.live s.started true else s.live
           started := if r.2.2 then s.started + 1 else s.started
           armed := !spec.value.isZero
           armings := if spec.value.isZero then s.armings else s.armings + 1 }

/-- The callback, if the timer runs. -/
def call (s : State) : List Callback :=
  if s.timer.running then s.callbacks ++ [⟨s.armings, s.timer.endTime⟩] else s.callbacks

def turn (s : State) (t : ThreadId) : State :=
  match s.timer.turn s.now with
  | .sleep => { s with lock := none }
  | .again timer => { s with timer := timer, lock := some t, callbacks := s.call }
  | .exit timer =>
    { s with timer := timer, lock := none, live := Function.update s.live t false,
             callbacks := s.call }

def step (s : State) : Action → Option State
  | .tick now => some { s with now := now }
  | .set spec => if s.lock = none then some (s.set spec.val) else none
  | .turn t =>
    if s.live t ∧ (s.lock = none ∨ s.lock = some t) then some (s.turn t) else none

/-- A thread that is there can call the callback as long as the timer runs. -/
def CanCall (s : State) (t : ThreadId) : Prop := s.live t = true ∧ s.timer.running = true

/-- No thread is there. -/
def Idle (s : State) : Prop := ∀ t, s.live t = false

end State

/-- At most one thread can call the callback. While the timer is not armed no turn of a thread
calls it, and each thread can take its turn and then ends. No time of an arming leads to two
calls. -/
structure Sound (s : State) : Prop where
  oneCaller : ∀ t u, s.CanCall t → s.CanCall u → t = u
  quiet : s.armed = false → ∀ t s', s.step (.turn t) = some s' → s'.callbacks = s.callbacks
  exits : s.armed = false → ∀ t, s.live t = true →
    ∃ s', s.step (.turn t) = some s' ∧ s'.live t = false
  once : (s.callbacks.map fun c ↦ (c.arming, c.time.ns)).Nodup

/-- A timer that does not run is armed, and one whose interval is not zero is disarmed, only
if no thread is left. -/
def Safe (s : State) : Action → Prop
  | .set spec =>
    (spec.val.value.isZero = false → s.timer.running = false → s.Idle) ∧
      (spec.val.value.isZero = true → spec.val.interval.positive = true → s.Idle)
  | _ => True

/-- What holds besides along a run of safe steps. -/
structure Inv (s : State) : Prop where
  armed : s.timer.running = true → s.armed = true
  idle : s.armed = true → s.timer.running = false → s.Idle
  free : s.timer.running = false → s.lock = none
  interval : s.armed = false → s.timer.interval.positive = false ∨ s.Idle
  nsec : s.timer.running = true → 0 ≤ s.timer.interval.nsec
  started : ∀ t, s.started ≤ t → s.live t = false
  callbacks : ∀ c ∈ s.callbacks, c.arming ≤ s.armings ∧
    (c.arming = s.armings → s.timer.running = true → c.time.ns < s.timer.endTime.ns)

section

variable {s s' : State} {t : ThreadId} {a : Action} {x : Timespec}

theorem Timespec.ns_add (x y : Timespec) : (x.add y).ns = x.ns + y.ns := by
  unfold Timespec.add Timespec.ns
  split
  · dsimp only
    omega
  · dsimp only
    omega

theorem Timespec.ns_pos (h : x.positive = true) (hnsec : 0 ≤ x.nsec) : 0 < x.ns := by
  unfold Timespec.positive at h
  unfold Timespec.ns
  simp only [Bool.or_eq_true, Bool.and_eq_true, decide_eq_true_eq] at h
  omega

theorem set_arm {timer : Timer} {now : Timespec} {spec : TimerSpec}
    (h : spec.value.isZero = false) : (timer.set now spec).1 =
      ⟨now, now.add spec.value, spec.interval, true⟩ ∧
    (timer.set now spec).2.2 = !timer.running := by
  cases hr : timer.running <;> simp [Timer.set, h, hr]

theorem set_disarm {timer : Timer} {now : Timespec} {spec : TimerSpec}
    (h : spec.value.isZero = true) : (timer.set now spec).1 =
      ⟨now, now.add spec.value, spec.interval, false⟩ ∧ (timer.set now spec).2.2 = false := by
  cases hr : timer.running <;> simp [Timer.set, h, hr]

/-- What a turn does, by where it ends. -/
theorem turn_cases (timer : Timer) (now : Timespec) :
    (timer.running = true ∧ timer.turn now = .sleep) ∨
      (timer.interval.positive = true ∧ timer.turn now =
        .again { timer with start := timer.endTime, endTime := timer.endTime.add timer.interval }) ∨
      (timer.interval.positive = false ∧ timer.turn now =
        .exit { timer with running := false }) := by
  unfold Timer.turn
  by_cases hsleep : (timer.running && (timer.endTime.subtract now).positive) = true
  · rw [if_pos hsleep]
    exact .inl ⟨(Bool.and_eq_true_iff.mp hsleep).1, rfl⟩
  · rw [if_neg hsleep]
    cases hp : timer.interval.positive with
    | true => exact .inr (.inl ⟨rfl, rfl⟩)
    | false => exact .inr (.inr ⟨rfl, rfl⟩)

theorem call_of_not_running (h : s.timer.running = false) : s.call = s.callbacks :=
  if_neg (Bool.eq_false_iff.mp h)

/-- A thread that finds the timer stopped, with no interval, ends. -/
theorem turn_stopped (hrun : s.timer.running = false) (hp : s.timer.interval.positive = false) :
    s.turn t = { s with lock := none, live := Function.update s.live t false } := by
  unfold State.turn Timer.turn
  rw [call_of_not_running hrun, hrun, hp]
  cases s with
  | mk timer now lock live started armed armings callbacks =>
    cases timer
    cases hrun
    rfl

theorem Inv.stopped (h : Inv s) (harmed : s.armed = false) : s.timer.running = false := by
  by_contra hrun
  rw [h.armed (Bool.not_eq_false _ ▸ hrun)] at harmed
  cases harmed

/-- A thread that is there although the timer does not run is one of a disarmed timer. -/
theorem Inv.left (h : Inv s) (hrun : s.timer.running = false) (ht : s.live t = true) :
    s.armed = false ∧ s.timer.interval.positive = false := by
  have hbusy : ¬s.Idle := fun hidle ↦ Bool.false_ne_true ((hidle t).symm.trans ht)
  have harmed : s.armed = false := by
    cases harmed : s.armed with
    | true => exact absurd (h.idle harmed hrun) hbusy
    | false => rfl
  exact ⟨harmed, (h.interval harmed).resolve_right hbusy⟩

/-- The threads of a disarmed timer end without a call. -/
theorem Inv.sound (h : Inv s) (hone : ∀ t u, s.CanCall t → s.CanCall u → t = u)
    (honce : (s.callbacks.map fun c ↦ (c.arming, c.time.ns)).Nodup) : Sound s := by
  refine ⟨hone, fun harmed t s' hs ↦ ?_, fun harmed t ht ↦ ?_, honce⟩
  · have hrun := h.stopped harmed
    rw [State.step] at hs
    split at hs
    · rename_i hlive
      cases hs
      rw [turn_stopped hrun (h.left hrun hlive.1).2]
    · cases hs
  · have hrun := h.stopped harmed
    refine ⟨s.turn t, if_pos ⟨ht, .inl (h.free hrun)⟩, ?_⟩
    rw [turn_stopped hrun (h.left hrun ht).2]
    exact Function.update_self t false s.live

theorem arm_eq (spec : TimerSpec) (h : spec.value.isZero = false) : s.set spec =
    { s with timer := ⟨s.now, s.now.add spec.value, spec.interval, true⟩
             live := if s.timer.running then s.live else Function.update s.live s.started true
             started := if s.timer.running then s.started else s.started + 1
             armed := true
             armings := s.armings + 1 } := by
  obtain ⟨htimer, hcreate⟩ := @set_arm s.timer s.now spec h
  unfold State.set
  dsimp only
  rw [htimer, hcreate, h]
  cases s.timer.running <;> rfl

theorem disarm_eq (spec : TimerSpec) (h : spec.value.isZero = true) : s.set spec =
    { s with timer := ⟨s.now, s.now.add spec.value, spec.interval, false⟩
             armed := false } := by
  obtain ⟨htimer, hcreate⟩ := @set_disarm s.timer s.now spec h
  unfold State.set
  dsimp only
  rw [htimer, hcreate, h]
  rfl

theorem arm_sound (h : Inv s) (hs : Sound s) (spec : Request) (hz : spec.val.value.isZero = false)
    (hidle : s.timer.running = false → s.Idle) :
    Inv (s.set spec.val) ∧ Sound (s.set spec.val) := by
  rw [arm_eq spec.val hz]
  have hinv : Inv { s with
      timer := ⟨s.now, s.now.add spec.val.value, spec.val.interval, true⟩
      live := if s.timer.running then s.live else Function.update s.live s.started true
      started := if s.timer.running then s.started else s.started + 1
      armed := true
      armings := s.armings + 1 } := by
    refine ⟨fun _ ↦ rfl, fun _ hrun ↦ (by cases hrun), fun hrun ↦ (by cases hrun),
      fun harmed ↦ (by cases harmed), fun _ ↦ spec.property.2, fun t ht ↦ ?_, fun c hc ↦ ?_⟩
    · dsimp only at ht ⊢
      split at ht
      · rw [if_pos ‹_›]
        exact h.started t ht
      · rw [if_neg ‹_›, Function.update_of_ne (Nat.lt_of_succ_le ht).ne']
        exact h.started t (Nat.le_of_succ_le ht)
    · have hle := (h.callbacks c hc).1
      exact ⟨hle.trans (Nat.le_succ _), fun heq ↦ absurd heq (Nat.lt_succ_of_le hle).ne⟩
  refine ⟨hinv, hinv.sound ?_ hs.once⟩
  rintro t u ⟨ht, -⟩ ⟨hu, -⟩
  dsimp only at ht hu
  cases hrun : s.timer.running with
  | true =>
    rw [hrun, if_pos rfl] at ht hu
    exact hs.oneCaller t u ⟨ht, hrun⟩ ⟨hu, hrun⟩
  | false =>
    have hnew {v : ThreadId} (hv : Function.update s.live s.started true v = true) :
        v = s.started := by
      by_contra hne
      rw [Function.update_of_ne hne, hidle hrun v] at hv
      cases hv
    rw [hrun, if_neg Bool.false_ne_true] at ht hu
    rw [hnew ht, hnew hu]

theorem disarm_sound (h : Inv s) (hs : Sound s) (hlock : s.lock = none) (spec : Request)
    (hz : spec.val.value.isZero = true)
    (hidle : spec.val.interval.positive = true → s.Idle) :
    Inv (s.set spec.val) ∧ Sound (s.set spec.val) := by
  rw [disarm_eq spec.val hz]
  have hinv : Inv { s with
      timer := ⟨s.now, s.now.add spec.val.value, spec.val.interval, false⟩
      armed := false } := by
    refine ⟨fun hrun ↦ (by cases hrun), fun harmed ↦ (by cases harmed), fun _ ↦ hlock, fun _ ↦ ?_,
      fun hrun ↦ (by cases hrun), h.started,
      fun c hc ↦ ⟨(h.callbacks c hc).1, fun _ hrun ↦ (by cases hrun)⟩⟩
    cases hp : spec.val.interval.positive with
    | true => exact .inr (hidle hp)
    | false => exact .inl rfl
  exact ⟨hinv, hinv.sound (fun t u ht _ ↦ nomatch ht.2) hs.once⟩

/-- The call of a running timer is the first for this time of this arming. -/
theorem call_once (h : Inv s) (hs : Sound s) (hrun : s.timer.running = true) :
    (s.call.map fun c ↦ (c.arming, c.time.ns)).Nodup := by
  have hcall : s.call = s.callbacks ++ [⟨s.armings, s.timer.endTime⟩] := if_pos hrun
  rw [hcall, List.map_append, List.map_singleton]
  refine List.nodup_append.mpr ⟨hs.once, List.nodup_singleton _, fun x hx y hy hxy ↦ ?_⟩
  obtain ⟨c, hc, rfl⟩ := List.mem_map.mp hx
  obtain rfl := List.mem_singleton.mp hy
  obtain ⟨harming, htime⟩ := Prod.mk.injEq .. ▸ hxy
  have hlt := (h.callbacks c hc).2 harming hrun
  exact hlt.ne htime

/-- A turn of a thread while the timer runs. -/
theorem turn_running (h : Inv s) (hs : Sound s) (hrun : s.timer.running = true)
    (ht : s.live t = true) : Inv (s.turn t) ∧ Sound (s.turn t) := by
  have hcall : s.call = s.callbacks ++ [⟨s.armings, s.timer.endTime⟩] := if_pos hrun
  have harmed := h.armed hrun
  unfold State.turn
  obtain ⟨-, hturn⟩ | ⟨hp, hturn⟩ | ⟨hp, hturn⟩ := turn_cases s.timer s.now
  · rw [hturn]
    have hinv : Inv { s with lock := none } :=
      ⟨h.armed, h.idle, fun _ ↦ rfl, h.interval, h.nsec, h.started, h.callbacks⟩
    exact ⟨hinv, hinv.sound hs.oneCaller hs.once⟩
  · rw [hturn]
    have hnext : s.timer.endTime.ns < (s.timer.endTime.add s.timer.interval).ns := by
      rw [Timespec.ns_add]
      have hpos := Timespec.ns_pos hp (h.nsec hrun)
      omega
    have hinv : Inv { s with
        timer := { s.timer with
          start := s.timer.endTime, endTime := s.timer.endTime.add s.timer.interval }
        lock := some t
        callbacks := s.call } := by
      refine ⟨fun _ ↦ harmed, fun _ hstop ↦ ?_, fun hstop ↦ ?_, h.interval, h.nsec, h.started,
        fun c hc ↦ ?_⟩
      · cases hrun.symm.trans hstop
      · cases hrun.symm.trans hstop
      · rw [hcall] at hc
        rcases List.mem_append.mp hc with hc | hc
        · obtain ⟨hle, hlt⟩ := h.callbacks c hc
          exact ⟨hle, fun heq _ ↦ (hlt heq hrun).trans hnext⟩
        · rw [List.mem_singleton.mp hc]
          exact ⟨le_rfl, fun _ _ ↦ hnext⟩
    exact ⟨hinv, hinv.sound hs.oneCaller (call_once h hs hrun)⟩
  · rw [hturn]
    have hidle : ∀ u, Function.update s.live t false u = false := by
      intro u
      by_cases hu : u = t
      · rw [hu, Function.update_self]
      · rw [Function.update_of_ne hu]
        by_contra hlive
        exact hu (hs.oneCaller u t ⟨Bool.not_eq_false _ ▸ hlive, hrun⟩ ⟨ht, hrun⟩)
    have hinv : Inv { s with
        timer := { s.timer with running := false }
        lock := none
        live := Function.update s.live t false
        callbacks := s.call } := by
      refine ⟨fun hrun ↦ (by cases hrun), fun _ _ ↦ hidle, fun _ ↦ rfl, fun _ ↦ .inr hidle,
        fun hrun ↦ (by cases hrun), fun u _ ↦ hidle u, fun c hc ↦ ⟨?_, fun _ hrun ↦ (by cases hrun)⟩⟩
      rw [hcall] at hc
      rcases List.mem_append.mp hc with hc | hc
      · exact (h.callbacks c hc).1
      · rw [List.mem_singleton.mp hc]
    exact ⟨hinv, hinv.sound (fun t u hcan _ ↦ nomatch hcan.2) (call_once h hs hrun)⟩

theorem turn_sound (h : Inv s) (hs : Sound s) (ht : s.live t = true) :
    Inv (s.turn t) ∧ Sound (s.turn t) := by
  cases hrun : s.timer.running with
  | true => exact turn_running h hs hrun ht
  | false =>
    obtain ⟨harmed, hp⟩ := h.left hrun ht
    rw [turn_stopped hrun hp]
    have hinv : Inv { s with lock := none, live := Function.update s.live t false } := by
      refine ⟨h.armed, fun harmed' ↦ ?_, fun _ ↦ rfl, fun _ ↦ .inl hp, h.nsec, fun u hu ↦ ?_,
        h.callbacks⟩
      · cases harmed.symm.trans harmed'
      · by_cases hut : u = t
        · rw [hut]
          exact Function.update_self t false s.live
        · exact (Function.update_of_ne hut _ _).trans (h.started u hu)
    exact ⟨hinv, hinv.sound (fun u v hu _ ↦ nomatch hrun.symm.trans hu.2) hs.once⟩

theorem safe_sound (h : Inv s) (hs : Sound s) (hsafe : Safe s a) (hstep : s.step a = some s') :
    Inv s' ∧ Sound s' := by
  cases a with
  | tick now =>
    cases hstep
    have hinv : Inv { s with now := now } :=
      ⟨h.armed, h.idle, h.free, h.interval, h.nsec, h.started, h.callbacks⟩
    exact ⟨hinv, hinv.sound hs.oneCaller hs.once⟩
  | set spec =>
    rw [State.step] at hstep
    split at hstep
    · rename_i hlock
      cases hstep
      cases hz : spec.val.value.isZero with
      | false => exact arm_sound h hs spec hz (hsafe.1 hz)
      | true => exact disarm_sound h hs hlock spec hz (hsafe.2 hz)
    · cases hstep
  | turn t =>
    rw [State.step] at hstep
    split at hstep
    · rename_i hlive
      cases hstep
      exact turn_sound h hs hlive.1
    · cases hstep

/-- A second thread beside an old one can call, too, and with an interval an old one
goes on without end. -/
theorem safe_of_sound (h : Inv s) (hs : Sound s') (hstep : s.step a = some s') : Safe s a := by
  cases a with
  | tick now => trivial
  | turn t => trivial
  | set spec =>
    rw [State.step] at hstep
    split at hstep
    · cases hstep
      refine ⟨fun hz hrun t ↦ ?_, fun hz hp t ↦ ?_⟩
      · rw [arm_eq spec.val hz, hrun] at hs
        by_contra ht
        have hne : t ≠ s.started := by
          rintro rfl
          exact ht (h.started _ le_rfl)
        refine hne (hs.oneCaller t s.started ⟨?_, rfl⟩ ⟨?_, rfl⟩)
        · exact (Function.update_of_ne hne _ _).trans (Bool.not_eq_false _ ▸ ht)
        · exact Function.update_self s.started true s.live
      · rw [disarm_eq spec.val hz] at hs
        by_contra ht
        obtain ⟨u, hu, hdead⟩ := hs.exits rfl t (Bool.not_eq_false _ ▸ ht)
        rw [State.step] at hu
        split at hu
        · cases hu
          unfold State.turn Timer.turn at hdead
          rw [if_neg (by simp), if_pos hp] at hdead
          exact ht hdead
        · cases hu
    · cases hstep

/-- A run of a new timer is sound all along if and only if each of its steps is safe. -/
theorem timer_sound_iff {start endTime interval now : Timespec} {actions : List Action}
    (he : exec State.step (new start endTime interval now) actions = some s) :
    AllAlong State.step Sound (new start endTime interval now) actions ↔
      Guarded State.step Safe (new start endTime interval now) actions := by
  have hinv : Inv (new start endTime interval now) :=
    ⟨fun hrun ↦ (by cases hrun), fun _ _ _ ↦ rfl, fun _ ↦ rfl, fun _ ↦ .inr fun _ ↦ rfl,
      fun hrun ↦ (by cases hrun), fun _ _ ↦ rfl, fun c hc ↦ (by cases hc)⟩
  have hsound := hinv.sound (fun t u ht _ ↦ nomatch ht.1) List.nodup_nil
  refine forall_prefix_iff_guarded (fun s a s' hs h hstep ↦ ?_) hsound hinv he
  have hsafe (hs' : Sound s') : Safe s a := safe_of_sound h hs' hstep
  exact ⟨⟨hsafe, fun hok ↦ (safe_sound h hs hok hstep).2⟩,
    fun hs' ↦ (safe_sound h hs (hsafe hs') hstep).1⟩

def zero : Timespec := ⟨0, 0⟩

/-- So many seconds, and an interval of so many. -/
def seconds (value interval : ℕ) : Request :=
  ⟨⟨⟨value, 0⟩, ⟨interval, 0⟩⟩, le_rfl, le_rfl⟩

theorem timer_sound_interval : ∃ s, exec State.step (new zero zero zero zero)
    [.set (seconds 1 1), .turn 0, .tick ⟨1, 0⟩, .turn 0, .turn 0, .set (seconds 0 0), .turn 0] =
      some s ∧ s.callbacks.length = 1 ∧ AllAlong State.step Sound (new zero zero zero zero)
    [.set (seconds 1 1), .turn 0, .tick ⟨1, 0⟩, .turn 0, .turn 0, .set (seconds 0 0),
      .turn 0] := by
  refine ⟨_, rfl, rfl, (timer_sound_iff rfl).mpr ⟨⟨fun _ _ _ ↦ rfl, nofun⟩, fun s hs ↦ ?_⟩⟩
  cases hs
  refine ⟨trivial, fun s hs ↦ ?_⟩
  cases hs
  refine ⟨trivial, fun s hs ↦ ?_⟩
  cases hs
  refine ⟨trivial, fun s hs ↦ ?_⟩
  cases hs
  refine ⟨trivial, fun s hs ↦ ?_⟩
  cases hs
  refine ⟨⟨nofun, nofun⟩, fun s hs ↦ ?_⟩
  cases hs
  exact ⟨trivial, fun _ _ ↦ trivial⟩

/-- A thread that has the lock while the timer is stopped with an interval. -/
structure Spins (s : State) (t : ThreadId) : Prop where
  live : s.live t = true
  lock : s.lock = some t
  running : s.timer.running = false
  interval : s.timer.interval.positive = true

/-- Such a thread goes round its loop for ever, and nobody else gets the lock. -/
theorem Spins.exec (h : Spins s t) {actions : List Action}
    (he : exec State.step s actions = some s') : Spins s' t := by
  induction actions generalizing s with
  | nil =>
    cases he
    exact h
  | cons a actions ih =>
    obtain ⟨u, hu, he'⟩ := Option.bind_eq_some_iff.mp he
    refine ih ?_ he'
    cases a with
    | tick now =>
      cases hu
      exact ⟨h.live, h.lock, h.running, h.interval⟩
    | set spec =>
      rw [State.step, h.lock] at hu
      cases hu
    | turn v =>
      rw [State.step] at hu
      split at hu
      · rename_i hlive
        rw [h.lock] at hlive
        obtain rfl : t = v := Option.some.inj (hlive.2.resolve_left (Option.some_ne_none t))
        cases hu
        unfold State.turn Timer.turn
        rw [h.running, if_neg (by simp), if_pos h.interval]
        exact ⟨h.live, rfl, rfl, h.interval⟩
      · cases hu

/-- To disarm a timer and arm it again while its thread sleeps gives it two threads. To disarm
it with an interval makes its thread go round for ever. -/
theorem not_timer_sound :
    (∃ s, exec State.step (new zero zero zero zero)
        [.set (seconds 1 0), .set (seconds 0 0), .set (seconds 1 0)] = some s ∧
      s.CanCall 0 ∧ s.CanCall 1 ∧ ¬Sound s) ∧
    ∃ s, exec State.step (new zero zero zero zero)
        [.set (seconds 1 1), .set (seconds 0 1), .turn 0] = some s ∧ s.armed = false ∧
      (∀ actions s', exec State.step s actions = some s' → s'.live 0 = true) ∧ ¬Sound s := by
  constructor
  · refine ⟨_, rfl, ⟨rfl, rfl⟩, ⟨rfl, rfl⟩, fun hs ↦ ?_⟩
    cases hs.oneCaller 0 1 ⟨rfl, rfl⟩ ⟨rfl, rfl⟩
  · refine ⟨_, rfl, rfl, fun actions s' he ↦ ?_, fun hs ↦ ?_⟩
    · exact (Spins.exec ⟨rfl, rfl, rfl, rfl⟩ he).live
    · obtain ⟨s', hs', hdead⟩ := hs.exits rfl 0 rfl
      cases hs'
      cases hdead

end

end Isl.Util.Timers
