import Isl.Emu.GuestMem
import Isl.Kernel.Wait

/-!
`reap_if_zombie` and `sys_wait4` with the locks that they take, the usage that
they add up and the stores to the guest's memory.
-/

namespace Isl.Kernel.WaitFault

open Isl.Lib
open Isl.Emu (GuestMem)
open Isl.Emu.Memory (Addr Byte)
open Isl.Kernel.Process (System TaskId GroupId Pid Dword efault echild eintr wnohang)
open Isl.Kernel.Process.System (has pastTable)

structure Timeval where
  sec : Dword
  usec : Dword
deriving Inhabited

structure Rusage where
  utime : Timeval
  stime : Timeval
  maxrss : Dword
  ixrss : Dword
  idrss : Dword
  isrss : Dword
  minflt : Dword
  majflt : Dword
  nswap : Dword
  inblock : Dword
  oublock : Dword
  msgsnd : Dword
  msgrcv : Dword
  nsignals : Dword
  nvcsw : Dword
  nivcsw : Dword
deriving Inhabited

inductive Lock
  | pids
  | group (g : GroupId)
deriving DecidableEq

/-- `groupExitCode` is set while the group does a group exit. `locks` are the
locks that the call holds, and those that nobody will release. -/
structure WaitState where
  system : System
  exitCode : TaskId → Dword
  groupExitCode : GroupId → Option Dword
  rusage : GroupId → Rusage
  childrenRusage : GroupId → Rusage
  mem : GuestMem
  locks : List Lock

/-- What a look at the children comes to: `found_zombie` with the value of `id`
and what `reap_if_zombie` returned, `error`, or another look with `id`. -/
inductive Look
  | found (id : Option Pid) (ret : ℤ)
  | failed (err : ℤ)
  | sleeps (id : Option Pid)
deriving DecidableEq

/-- The end of `wait_for`: what other calls have made of the state meanwhile,
and whether a signal is pending. -/
structure Wakeup where
  interrupted : Bool
  state : WaitState

/-- A call with the state before its last look. -/
structure Outcome where
  looked : WaitState
  after : WaitState
  look : Look

def timevalAdd (dst src : Timeval) : Timeval :=
  let sec := dst.sec + src.sec
  let usec := dst.usec + src.usec
  if 1000000 ≤ usec then ⟨sec + 1, usec - 1000000⟩ else ⟨sec, usec⟩

def rusageAdd (dst src : Rusage) : Rusage :=
  { dst with
    utime := timevalAdd dst.utime src.utime
    stime := timevalAdd dst.stime src.stime }

def Rusage.bytes (r : Rusage) : List Byte :=
  let fields := [r.utime.sec, r.utime.usec, r.stime.sec, r.stime.usec, r.maxrss, r.ixrss, r.idrss,
    r.isrss, r.minflt, r.majflt, r.nswap, r.inblock, r.oublock, r.msgsnd, r.msgrcv, r.nsignals,
    r.nvcsw, r.nivcsw]
  Layout.image (fields.map fun v ↦ (4, v.toNat))

/-- What the call returns. -/
def Look.value : Look → Option ℤ
  | .found id _ => id.map Int.ofNat
  | .failed err => some err
  | .sleeps _ => none

/-- What the process model knows of a look. -/
def Look.pass : Look → Process.WaitPass
  | .found id _ => .returned id
  | .failed err => .failed err
  | .sleeps id => .sleeps id

namespace WaitState

/-- A lock that is held already is never got. -/
def lock (s : WaitState) (l : Lock) : Option WaitState :=
  if l ∈ s.locks then none else some { s with locks := l :: s.locks }

def unlock (s : WaitState) (l : Lock) : Option WaitState :=
  if l ∈ s.locks then some { s with locks := s.locks.erase l } else none

/-- `user_put` unless the address is null, with whether it fails. -/
def userPut (s : WaitState) (addr : Addr) (bytes : List Byte) : WaitState × Bool :=
  if addr = 0 then (s, false)
  else
    let (mem, err) := s.mem.userWrite addr bytes
    ({ s with mem := mem }, err != 0)

def addRusage (s : WaitState) (g : GroupId) (rusage : Rusage) : WaitState :=
  { s with
    childrenRusage :=
      Function.update s.childrenRusage g (rusageAdd (s.childrenRusage g) rusage) }

/-- `reap_if_zombie` after the status was stored. -/
def reapRusage (s : WaitState) (current t : TaskId) (g : GroupId) (rusageAddr : Addr) :
    Option (WaitState × ℤ) := do
  let me ← s.system.task current
  let rusage := s.rusage g
  let (s, failed) := (s.addRusage me.group rusage).userPut rusageAddr rusage.bytes
  if failed then some (s, efault)
  else
    let s ← s.unlock (.group g)
    let system ← s.system.reap t
    some ({ s with system := system }, 1)

def reapIfZombie (s : WaitState) (current t : TaskId) (statusAddr rusageAddr : Addr) :
    Option (WaitState × ℤ) := do
  guard (s.system.isLeader t)
  let r ← s.system.task t
  if !r.zombie then some (s, 0)
  else
    let s ← s.lock (.group r.group)
    let exitCode := (s.groupExitCode r.group).getD (s.exitCode t)
    let (s, failed) := s.userPut statusAddr (Layout.leBytes 4 exitCode.toNat)
    if failed then some (s, efault) else s.reapRusage current t r.group rusageAddr

/-- The loop over the children, with the value of `id` and what the last
`reap_if_zombie` returned. -/
def scanChildren (current : TaskId) (statusAddr rusageAddr : Addr) :
    WaitState → List TaskId → Option Pid → Option (WaitState × Option Pid × ℤ)
  | s, [], id => some (s, id, 0)
  | s, t :: ts, id =>
    if !s.system.isLeader t then scanChildren current statusAddr rusageAddr s ts id
    else do
      let id := (s.system.task t).map Process.Task.pid
      let (s, ret) ← s.reapIfZombie current t statusAddr rusageAddr
      if ret ≠ 0 then some (s, id, ret)
      else scanChildren current statusAddr rusageAddr s ts id

/-- What follows a look that found no zombie. -/
def noZombie (id : Option Pid) (options : Dword) : Look :=
  if has options wnohang then .failed echild else .sleeps id

def look (s : WaitState) (current : TaskId) (id : Option Pid) (statusAddr : Addr)
    (options : Dword) (rusageAddr : Addr) : Option (WaitState × Look) :=
  match id with
  | none =>
    if s.system.children current = [] then some (s, .failed echild)
    else do
      let (s, id, ret) ←
        scanChildren current statusAddr rusageAddr s (s.system.children current) none
      some (s, if ret ≠ 0 then .found id ret else noZombie id options)
  | some id =>
    if pastTable id then none
    else
      match s.system.pidGetTaskZombie id with
      | none => some (s, .failed echild)
      | some t => do
        let me ← s.system.task current
        let r ← s.system.task t
        let parent ← r.parent.bind s.system.task
        if parent.group ≠ me.group then some (s, .failed echild)
        else do
          let group ← s.system.group r.group
          let (s, ret) ← s.reapIfZombie current group.leader statusAddr rusageAddr
          some (s, if ret ≠ 0 then .found (some id) ret else noZombie (some id) options)

/-- The looks of a call. One that sleeps past the last wake-up has not returned. -/
def looks (current : TaskId) (statusAddr : Addr) (options : Dword) (rusageAddr : Addr) :
    WaitState → Option Pid → List Wakeup → Option Outcome
  | s, id, [] => do
    let (s', look) ← s.look current id statusAddr options rusageAddr
    match look with
    | .sleeps id => some ⟨s, s', .sleeps id⟩
    | look => (s'.unlock .pids).map (⟨s, ·, look⟩)
  | s, id, w :: ws => do
    let (s', look) ← s.look current id statusAddr options rusageAddr
    match look with
    | .sleeps id =>
      if w.interrupted then (w.state.unlock .pids).map (⟨w.state, ·, .failed eintr⟩)
      else looks current statusAddr options rusageAddr w.state id ws
    | look => (s'.unlock .pids).map (⟨s, ·, look⟩)

def sysWait4 (s : WaitState) (current : TaskId) (id : Option Pid) (statusAddr : Addr)
    (options : Dword) (rusageAddr : Addr) (wakeups : List Wakeup) : Option Outcome := do
  let s ← s.lock .pids
  looks current statusAddr options rusageAddr s id wakeups

end WaitState

/-- What the call should leave of a store that fails: an error, the zombie, the
usage of the caller's group, and no lock that it did not find. -/
structure FaultHandled (current : TaskId) (o : Outcome) : Prop where
  value : o.look.value = some efault
  zombie : o.after.system = o.looked.system
  rusage : ∀ me, o.looked.system.task current = some me →
    o.after.childrenRusage me.group = o.looked.childrenRusage me.group
  locks : ∀ l ∈ o.after.locks, l ∈ o.looked.locks ∧ l ≠ .pids

section

variable {s s' : WaitState} {current t : TaskId} {statusAddr rusageAddr addr : Addr}
  {options : Dword} {id id' : Option Pid} {ret : ℤ} {l : Lock} {bytes : List Byte} {o : Outcome}
  {ts : List TaskId} {lk : Look} {g : GroupId}

/-- A call that leaves the group of a zombie locked. -/
def Leaks (s s' : WaitState) : Prop :=
  s'.system = s.system ∧ ∃ g, .group g ∉ s.locks ∧ s'.locks = .group g :: s.locks

/-- The ends of `reap_if_zombie` for a zombie. -/
def Ended (s s' : WaitState) (t : TaskId) (ret : ℤ) : Prop :=
  ret = efault ∧ Leaks s s' ∨
    ret = 1 ∧ s.system.reap t = some s'.system ∧ s'.locks = s.locks

theorem Ended.ne_zero (h : Ended s s' t ret) : ret ≠ 0 := by
  obtain ⟨rfl, -⟩ | ⟨rfl, -⟩ := h <;> decide

theorem Ended.reapZombie (h : Ended s s' t ret) :
    ∃ fault, s.system.reapZombie t fault = some s'.system := by
  obtain ⟨-, hsys, -⟩ | ⟨-, hreap, -⟩ := h
  · exact ⟨true, congrArg some hsys.symm⟩
  · exact ⟨false, hreap⟩

namespace WaitState

theorem lock_eq_some : s.lock l = some s' ↔ l ∉ s.locks ∧ s' = { s with locks := l :: s.locks } := by
  simp only [lock, Option.ite_none_left_eq_some, Option.some.injEq]
  exact and_congr_right fun _ ↦ eq_comm

theorem unlock_eq_some :
    s.unlock l = some s' ↔ l ∈ s.locks ∧ s' = { s with locks := s.locks.erase l } := by
  simp only [unlock, Option.ite_none_right_eq_some, Option.some.injEq]
  exact and_congr_right fun _ ↦ eq_comm

theorem userPut_fst (s : WaitState) (addr : Addr) (bytes : List Byte) :
    ∃ mem, (s.userPut addr bytes).1 = { s with mem := mem } := by
  unfold userPut
  split
  · exact ⟨s.mem, rfl⟩
  · exact ⟨_, rfl⟩

theorem reapRusage_cases {s₁ : WaitState}
    (h : s₁.reapRusage current t g rusageAddr = some (s', ret)) (hsys : s₁.system = s.system)
    (hg : .group g ∉ s.locks) (hlocks : s₁.locks = .group g :: s.locks) : Ended s s' t ret := by
  obtain ⟨me, -, h⟩ := Option.bind_eq_some_iff.mp h
  obtain ⟨mem, hput⟩ := userPut_fst (s₁.addRusage me.group (s₁.rusage g)) rusageAddr
    (s₁.rusage g).bytes
  dsimp only at h
  rw [hput] at h
  split at h
  · cases h
    exact .inl ⟨rfl, hsys, g, hg, hlocks⟩
  · obtain ⟨s₂, hunlock, h⟩ := Option.bind_eq_some_iff.mp h
    obtain ⟨system, hreap, h⟩ := Option.bind_eq_some_iff.mp h
    obtain ⟨-, rfl⟩ := unlock_eq_some.mp hunlock
    cases h
    refine .inr ⟨rfl, hsys ▸ hreap, ?_⟩
    exact (congrArg (List.erase · (Lock.group g)) hlocks).trans (List.erase_cons_head _ _)

theorem reapIfZombie_cases (h : s.reapIfZombie current t statusAddr rusageAddr = some (s', ret)) :
    ret = 0 ∧ s' = s ∧ s.system.isZombie t = false ∨
      s.system.isZombie t ∧ Ended s s' t ret := by
  obtain ⟨-, -, h⟩ := Option.bind_eq_some_iff.mp h
  obtain ⟨r, hr, h⟩ := Option.bind_eq_some_iff.mp h
  have hzombie : s.system.isZombie t = r.zombie := by rw [System.isZombie, hr, Option.any_some]
  rw [hzombie]
  split at h
  · rename_i hz
    cases h
    exact .inl ⟨rfl, rfl, by simpa using hz⟩
  rename_i hz
  refine .inr ⟨by simpa using hz, ?_⟩
  obtain ⟨s₁, hlock, h⟩ := Option.bind_eq_some_iff.mp h
  obtain ⟨hg, rfl⟩ := lock_eq_some.mp hlock
  obtain ⟨mem, hput⟩ := userPut_fst { s with locks := .group r.group :: s.locks } statusAddr
    (Layout.leBytes 4 ((s.groupExitCode r.group).getD (s.exitCode t)).toNat)
  dsimp only at h
  rw [hput] at h
  split at h
  · cases h
    exact .inl ⟨rfl, rfl, r.group, hg, rfl⟩
  · exact reapRusage_cases h rfl hg rfl

/-- One of the stores for a zombie fails. -/
def storeFails (s : WaitState) (t : TaskId) (g : GroupId) (statusAddr rusageAddr : Addr) : Bool :=
  let exitCode := (s.groupExitCode g).getD (s.exitCode t)
  let (s, failed) := s.userPut statusAddr (Layout.leBytes 4 exitCode.toNat)
  failed || (s.userPut rusageAddr (s.rusage g).bytes).2

theorem userPut_congr {s₁ : WaitState} (hmem : s₁.mem = s.mem) :
    (s₁.userPut addr bytes).2 = (s.userPut addr bytes).2 ∧
      (s₁.userPut addr bytes).1.mem = (s.userPut addr bytes).1.mem := by
  unfold userPut
  rw [hmem]
  split
  · exact ⟨rfl, hmem⟩
  · exact ⟨rfl, rfl⟩

theorem userPut_rusage (s : WaitState) (addr : Addr) (bytes : List Byte) :
    (s.userPut addr bytes).1.rusage = s.rusage := by
  obtain ⟨mem, hput⟩ := userPut_fst s addr bytes
  rw [hput]

theorem reapRusage_fault (h : s.reapRusage current t g rusageAddr = some (s', ret)) :
    ret = efault ↔ (s.userPut rusageAddr (s.rusage g).bytes).2 := by
  obtain ⟨me, -, h⟩ := Option.bind_eq_some_iff.mp h
  have hput := (@userPut_congr s rusageAddr (s.rusage g).bytes (s.addRusage me.group (s.rusage g))
    rfl).1
  dsimp only at h
  rw [← hput]
  split at h
  · rename_i hfailed
    cases h
    exact iff_of_true rfl hfailed
  · rename_i hok
    obtain ⟨s₂, -, h⟩ := Option.bind_eq_some_iff.mp h
    obtain ⟨system, -, h⟩ := Option.bind_eq_some_iff.mp h
    cases h
    exact iff_of_false (by decide) hok

/-- The error of `reap_if_zombie` stands for a store that failed. -/
theorem reapIfZombie_fault_iff {r : Process.Task} (hr : s.system.task t = some r)
    (h : s.reapIfZombie current t statusAddr rusageAddr = some (s', ret)) :
    ret = efault ↔ r.zombie ∧ s.storeFails t r.group statusAddr rusageAddr := by
  obtain ⟨-, -, h⟩ := Option.bind_eq_some_iff.mp h
  rw [hr, Option.bind_eq_bind, Option.bind_some] at h
  split at h
  · rename_i hz
    cases h
    exact iff_of_false (by decide) fun hfails ↦ by simp [hfails.1] at hz
  rename_i hz
  obtain ⟨s₁, hlock, h⟩ := Option.bind_eq_some_iff.mp h
  obtain ⟨-, rfl⟩ := lock_eq_some.mp hlock
  obtain ⟨hfst, hmem⟩ := @userPut_congr s statusAddr
    (Layout.leBytes 4 ((s.groupExitCode r.group).getD (s.exitCode t)).toNat)
    { s with locks := .group r.group :: s.locks } rfl
  dsimp only at h
  rw [and_iff_right (by simpa using hz), storeFails]
  dsimp only
  rw [← hfst]
  split at h
  · rename_i hfailed
    cases h
    exact iff_of_true rfl (by rw [hfailed, Bool.true_or])
  · rename_i hok
    rw [reapRusage_fault h, (userPut_congr hmem).1, userPut_rusage, userPut_rusage,
      Bool.eq_false_iff.mpr hok, Bool.false_or]

/-- The loop goes the way of the loop of the process model. -/
theorem scanChildren_cases
    (h : scanChildren current statusAddr rusageAddr s ts id = some (s', id', ret)) :
    ret = 0 ∧ s' = s ∧ s.system.scanChildren ts id = (none, id') ∨
      ∃ t, s.system.scanChildren ts id = (some t, id') ∧ Ended s s' t ret := by
  induction ts generalizing id with
  | nil =>
    cases h
    exact .inl ⟨rfl, rfl, rfl⟩
  | cons t ts ih =>
    rw [scanChildren] at h
    rw [System.scanChildren]
    split at h
    · rename_i hl
      rw [if_pos hl]
      exact ih h
    · rename_i hl
      rw [if_neg hl]
      obtain ⟨⟨s₁, r⟩, hreap, h⟩ := Option.bind_eq_some_iff.mp h
      obtain ⟨rfl, rfl, hz⟩ | ⟨hz, hend⟩ := reapIfZombie_cases hreap
      · dsimp only
        rw [hz]
        exact ih h
      · dsimp only at h ⊢
        rw [if_pos hend.ne_zero] at h
        cases h
        rw [if_pos hz]
        exact .inr ⟨t, rfl, hend⟩

theorem noZombie_spec (id : Option Pid) (options : Dword) :
    (noZombie id options).pass = System.waitFor id options false ∧
      ∀ id' ret, noZombie id options ≠ .found id' ret := by
  unfold noZombie System.waitFor
  split
  · exact ⟨rfl, nofun⟩
  · exact ⟨rfl, nofun⟩

/-- A look is one of the process model, which knows whether a store failed. -/
theorem look_cases (h : s.look current id statusAddr options rusageAddr = some (s', lk)) :
    ∃ fault, s.system.waitPass current id options fault false = some (s'.system, lk.pass) ∧
      (s' = s ∧ (∀ id' ret, lk ≠ .found id' ret) ∨
        ∃ t id' ret, lk = .found id' ret ∧ Ended s s' t ret) := by
  unfold look at h
  cases id with
  | none =>
    dsimp only at h
    simp only [System.waitPass]
    split at h
    · rename_i hnil
      cases h
      exact ⟨false, if_pos hnil, .inl ⟨rfl, fun _ _ hfound ↦ by cases hfound⟩⟩
    · rename_i hne
      obtain ⟨⟨s₁, id', ret⟩, hscan, h⟩ := Option.bind_eq_some_iff.mp h
      cases h
      obtain ⟨rfl, rfl, hscan⟩ | ⟨t, hscan, hend⟩ := scanChildren_cases hscan
      · obtain ⟨hpass, hno⟩ := noZombie_spec id' options
        refine ⟨false, ?_, .inl ⟨rfl, hno⟩⟩
        rw [if_neg hne, hscan, if_neg (not_not.mpr rfl), hpass]
      · obtain ⟨fault, hfault⟩ := hend.reapZombie
        refine ⟨fault, ?_, .inr ⟨t, id', ret, if_pos hend.ne_zero, hend⟩⟩
        rw [if_neg hne, hscan, if_pos hend.ne_zero]
        dsimp only
        rw [hfault]
        rfl
  | some id =>
    dsimp only at h
    split at h
    · cases h
    rename_i hpast
    split at h
    · rename_i hnone
      cases h
      refine ⟨false, ?_, .inl ⟨rfl, fun _ _ hfound ↦ by cases hfound⟩⟩
      rw [System.waitPass, if_neg hpast, hnone]
      rfl
    · rename_i t ht
      obtain ⟨me, hme, h⟩ := Option.bind_eq_some_iff.mp h
      obtain ⟨r, hr, h⟩ := Option.bind_eq_some_iff.mp h
      obtain ⟨parent, hparent, h⟩ := Option.bind_eq_some_iff.mp h
      have hpass (fault : Bool) : s.system.waitPass current (some id) options fault false =
          if parent.group ≠ me.group then some (s.system, .failed echild)
          else (s.system.group r.group).bind fun group ↦
            if s.system.isZombie group.leader then
              (s.system.reapZombie group.leader fault).map (·, .returned (some id))
            else some (s.system, System.waitFor (some id) options false) := by
        rw [System.waitPass, if_neg hpast, ht]
        dsimp only
        rw [hme, Option.bind_eq_bind, Option.bind_some, hr, Option.bind_eq_bind, Option.bind_some,
          hparent, Option.bind_some]
      split at h
      · rename_i hother
        cases h
        exact ⟨false, (hpass false).trans (if_pos hother), .inl ⟨rfl, fun _ _ hfound ↦ by cases hfound⟩⟩
      · rename_i hsame
        obtain ⟨group, hgroup, h⟩ := Option.bind_eq_some_iff.mp h
        obtain ⟨⟨s₁, ret⟩, hreap, h⟩ := Option.bind_eq_some_iff.mp h
        cases h
        obtain ⟨rfl, rfl, hz⟩ | ⟨hz, hend⟩ := reapIfZombie_cases hreap
        · obtain ⟨hwait, hno⟩ := noZombie_spec (some id) options
          refine ⟨false, ?_, .inl ⟨rfl, hno⟩⟩
          rw [hpass, if_neg hsame, hgroup, Option.bind_some, hz, if_neg Bool.false_ne_true,
            if_neg (not_not.mpr rfl), hwait]
        · obtain ⟨fault, hfault⟩ := hend.reapZombie
          refine ⟨fault, ?_, .inr ⟨group.leader, some id, ret, if_pos hend.ne_zero, hend⟩⟩
          rw [hpass, if_neg hsame, hgroup, Option.bind_some, if_pos hz, hfault,
            if_pos hend.ne_zero]
          rfl

/-- The last look of a call, and the release of the lock of the table. -/
theorem looks_cases {ws : List Wakeup} {p : Option Pid}
    (h : looks current statusAddr options rusageAddr s id ws = some o) (hf : o.look = .found p ret) :
    ∃ id s', o.looked.look current id statusAddr options rusageAddr = some (s', .found p ret) ∧
      s'.unlock .pids = some o.after := by
  induction ws generalizing s id with
  | nil =>
    obtain ⟨⟨s', lk⟩, hlook, h⟩ := Option.bind_eq_some_iff.mp h
    cases lk with
    | sleeps id' =>
      cases h
      cases hf
    | failed err =>
      obtain ⟨after, hunlock, rfl⟩ := Option.map_eq_some_iff.mp h
      cases hf
    | found id' r =>
      obtain ⟨after, hunlock, rfl⟩ := Option.map_eq_some_iff.mp h
      cases hf
      exact ⟨id, s', hlook, hunlock⟩
  | cons w ws ih =>
    obtain ⟨⟨s', lk⟩, hlook, h⟩ := Option.bind_eq_some_iff.mp h
    cases lk with
    | sleeps id' =>
      dsimp only at h
      split at h
      · obtain ⟨after, hunlock, rfl⟩ := Option.map_eq_some_iff.mp h
        cases hf
      · exact ih h
    | failed err =>
      obtain ⟨after, hunlock, rfl⟩ := Option.map_eq_some_iff.mp h
      cases hf
    | found id' r =>
      obtain ⟨after, hunlock, rfl⟩ := Option.map_eq_some_iff.mp h
      cases hf
      exact ⟨id, s', hlook, hunlock⟩

end WaitState

theorem Look.value_found_ne (p : Option Pid) : (Look.found p efault).value ≠ some efault := by
  intro h
  obtain ⟨n, -, hn⟩ := Option.map_eq_some_iff.mp h
  cases hn

/-- A call in which a store fails keeps the group of the zombie locked and
returns a number that is not an error. -/
theorem sysWait4_fault {ws : List Wakeup} {p : Option Pid}
    (h : s.sysWait4 current id statusAddr options rusageAddr ws = some o)
    (hf : o.look = .found p efault) :
    o.look.value ≠ some efault ∧
    (∃ g, .group g ∈ o.after.locks ∧ .group g ∉ o.looked.locks) ∧ ¬FaultHandled current o := by
  obtain ⟨s₀, -, h⟩ := Option.bind_eq_some_iff.mp h
  obtain ⟨id', s', hlook, hunlock⟩ := WaitState.looks_cases h hf
  obtain ⟨-, -, ⟨-, hno⟩ | ⟨t, p', ret, heq, hend⟩⟩ := WaitState.look_cases hlook
  · exact absurd rfl (hno p efault)
  cases heq
  obtain ⟨-, -, g, hfresh, hlocks⟩ | ⟨hret, -⟩ := hend
  · obtain ⟨-, hafter⟩ := WaitState.unlock_eq_some.mp hunlock
    have hleak : .group g ∈ o.after.locks := by
      rw [hafter]
      refine (List.mem_erase_of_ne Lock.noConfusion).mpr ?_
      rw [hlocks]
      exact List.mem_cons_self
    refine ⟨?_, ⟨g, hleak, hfresh⟩, fun hhandled ↦ hfresh (hhandled.locks _ hleak).1⟩
    rw [hf]
    exact Look.value_found_ne p
  · cases hret

end

/-- A system in which no memory is mapped and the group 1 has used one second. -/
def unmappedState (system : System) : WaitState where
  system := system
  exitCode _ := 0
  groupExitCode _ := none
  rusage := Function.update (fun _ ↦ default) 1 { (default : Rusage) with utime := ⟨1, 0⟩ }
  childrenRusage _ := default
  mem := ⟨fun _ ↦ .unmapped, fun _ ↦ 0⟩
  locks := []

theorem sysWait4_status_fault : ∃ s o,
    (System.init.step (.clone 0 17 .ok)).bind (·.step (.exit 1)) = some s ∧
    (unmappedState s).sysWait4 0 none 0x1000 0 0 [] = some o ∧
    ∃ g, .group g ∈ o.after.locks ∧ .group g ∉ o.looked.locks := by
  have hrun : ((System.init.step (.clone 0 17 .ok)).bind (·.step (.exit 1))).any fun s ↦
      ((unmappedState s).sysWait4 0 none 0x1000 0 0 []).any fun o ↦
        decide (o.look = .found (some 2) efault) := by
    decide +kernel
  obtain ⟨s, hs, hrun⟩ := (Option.any_eq_true _ _).mp hrun
  obtain ⟨o, ho, hlook⟩ := (Option.any_eq_true _ _).mp hrun
  exact ⟨s, o, hs, ho, (sysWait4_fault ho (of_decide_eq_true hlook)).2.1⟩

/-- The usage of the child is added and the call returns its number. -/
theorem sysWait4_rusage_fault : ∃ s o,
    (System.init.step (.clone 0 17 .ok)).bind (·.step (.exit 1)) = some s ∧
    (unmappedState s).sysWait4 0 none 0 0 0x1000 [] = some o ∧ o.look = .found (some 2) efault ∧
    o.look.value = some 2 ∧ .group 1 ∈ o.after.locks ∧ (o.after.childrenRusage 0).utime.sec = 1 ∧
    ¬FaultHandled 0 o := by
  have hrun : ((System.init.step (.clone 0 17 .ok)).bind (·.step (.exit 1))).any fun s ↦
      ((unmappedState s).sysWait4 0 none 0 0 0x1000 []).any fun o ↦
        decide (o.look = .found (some 2) efault ∧ .group 1 ∈ o.after.locks ∧
          (o.after.childrenRusage 0).utime.sec = 1) := by
    decide +kernel
  obtain ⟨s, hs, hrun⟩ := (Option.any_eq_true _ _).mp hrun
  obtain ⟨o, ho, hstate⟩ := (Option.any_eq_true _ _).mp hrun
  obtain ⟨hlook, hlock, hsec⟩ := of_decide_eq_true hstate
  have hvalue : o.look.value = some 2 := by
    rw [hlook]
    rfl
  refine ⟨s, o, hs, ho, hlook, hvalue, hlock, hsec, fun hhandled ↦ ?_⟩
  have hfault := hhandled.value
  rw [hvalue] at hfault
  exact absurd hfault (by decide)

end Isl.Kernel.WaitFault
