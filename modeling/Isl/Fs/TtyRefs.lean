import Isl.Kernel.Process
import Isl.Lib.Owners
import Isl.Lib.Run

/-!
Who points to a terminal: `tty_get`, `tty_release`, `tty_open`, `tty_close` and
`tiocsctty` of `fs/tty.c`, and the calls that copy or clear the terminal of a
thread group. A call that follows a null pointer or a pointer to a freed object,
that fails an assertion, or that waits for a lock nobody gives back, has no
result.
-/

namespace Isl.Fs.TtyRefs

open Isl.Lib Isl.Kernel.Process

abbrev TtyId := ℕ
abbrev FdId := ℕ

def enxio : ℤ := -6

inductive TtyType
  | virtual
  | pseudo
deriving DecidableEq

structure Tty where
  refcount : ℕ
  type : TtyType
  num : ℕ
  session : Pid
  fgGroup : Pid
deriving DecidableEq

/-- An open file, and the task that is still in `tty_open` for it. -/
structure Fd where
  tty : TtyId
  opening : Option TaskId
deriving DecidableEq

/-- `ttysLocked` tells that the lock of the table is held by nobody who runs. -/
structure State where
  sys : System
  groupTty : GroupId → Option TtyId
  tty : TtyId → Option Tty
  nextTty : TtyId
  ttys : TtyType × ℕ → Option TtyId
  ttysLocked : Bool
  fd : FdId → Option Fd
  nextFd : FdId

/-- How it ends to make a terminal. -/
inductive Made
  | ok
  | noMemory
  | driverFails (err : ℤ)
deriving DecidableEq

namespace State

def withSys (s : State) (sys : System) : State := { s with sys := sys }

def setTty (s : State) (t : TtyId) (r : Option Tty) : State :=
  { s with tty := Function.update s.tty t r }

def setGroupTty (s : State) (g : GroupId) (t : Option TtyId) : State :=
  { s with groupTty := Function.update s.groupTty g t }

def setFd (s : State) (f : FdId) (d : Option Fd) : State :=
  { s with fd := Function.update s.fd f d }

def retain (s : State) (t : TtyId) : Option State :=
  (s.tty t).map fun r ↦ s.setTty t (some { r with refcount := r.refcount + 1 })

/-- The terminal, or the error. -/
def ttyGet (s : State) (type : TtyType) (num : ℕ) (made : Made) : Option (State × Except ℤ TtyId) :=
  if s.ttysLocked ∨ num ≥ 64 then none
  else
    match s.ttys (type, num) with
    | some t => (s.retain t).map (·, .ok t)
    | none =>
      match made with
      -- returns with the lock of the table
      | .noMemory => some ({ s with ttysLocked := true }, .error enomem)
      -- the new terminal is in no table
      | .driverFails err =>
        some ({ s.setTty s.nextTty (some ⟨0, type, num, 0, 0⟩) with nextTty := s.nextTty + 1 },
          .error err)
      | .ok =>
        some ({ s.setTty s.nextTty (some ⟨1, type, num, 0, 0⟩) with
          nextTty := s.nextTty + 1
          ttys := Function.update s.ttys (type, num) (some s.nextTty) }, .ok s.nextTty)

def ttyRelease (s : State) (t : TtyId) : Option State :=
  if s.ttysLocked then none
  else (s.tty t).map fun r ↦
    if r.refcount = 1 then
      { s.setTty t none with ttys := Function.update s.ttys (r.type, r.num) none }
    else s.setTty t (some { r with refcount := r.refcount - 1 })

def ttySetControlling (s : State) (g : GroupId) (group : Group) (t : TtyId) : Option State :=
  match s.groupTty g with
  | some _ => some s
  | none => (s.tty t).map fun r ↦
      (s.setTty t (some { r with session := group.sid, fgGroup := group.pgid })).setGroupTty g t

def addFd (s : State) (current : TaskId) (t : TtyId) : State :=
  { s.setFd s.nextFd (some ⟨t, some current⟩) with nextFd := s.nextFd + 1 }

/-- The device of the numbers. The rest fail the assertion. -/
def ttyType (major minor : ℕ) : Option TtyType :=
  if major = 4 ∧ minor < 64 then some .virtual
  else if 136 ≤ major ∧ major ≤ 143 then some .pseudo
  else none

/-- `tty_open`, until it takes `pids_lock`. -/
def ttyOpen (s : State) (current : TaskId) (major minor : ℕ) (made : Made) : Option (State × ℤ) :=
  if major = 5 ∧ minor = 0 then do
    let me ← s.sys.task current
    if s.ttysLocked then none
    else
      match s.groupTty me.group with
      -- returns with the lock of the table
      | none => some ({ s with ttysLocked := true }, enxio)
      | some t => (s.retain t).map fun s ↦ (s.addFd current t, 0)
  else do
    match ← s.ttyGet (← ttyType major minor) minor made with
    | (s, .error err) => some (s, err)
    | (s, .ok t) => some (s.addFd current t, 0)

/-- The end of `tty_open`. -/
def ttyOpened (s : State) (current : TaskId) (f : FdId) : Option State := do
  let d ← s.fd f
  if d.opening = some current then do
    let me ← s.sys.task current
    let group ← s.sys.group me.group
    let s := s.setFd f (some { d with opening := none })
    if group.sid = me.pid then s.ttySetControlling me.group group d.tty else some s
  else none

def ttyClose (s : State) (f : FdId) : Option State := do
  let d ← s.fd f
  if d.opening = none then (s.setFd f none).ttyRelease d.tty else none

/-- Takes the terminal from the groups of a session. -/
def steal (s : State) (groups : List GroupId) : State :=
  { s with groupTty := fun g ↦ if g ∈ groups then none else s.groupTty g }

def tiocsctty (s : State) (current : TaskId) (f : FdId) (force : Dword) (superuser : Bool) :
    Option (State × ℤ) := do
  let d ← s.fd f
  let r ← s.tty d.tty
  let me ← s.sys.task current
  let group ← s.sys.group me.group
  if d.opening ≠ none then none
  -- do nothing if this is already our controlling tty
  else if group.sid = me.pid ∧ group.sid = r.session then some (s, 0)
  -- must not already have a tty
  else if s.groupTty me.group ≠ none then some (s, eperm)
  else if r.session ≠ 0 then
    if force = 1 ∧ superuser then
      if System.pastTable r.session then none
      else do
        let pid ← s.sys.pidGet r.session
        ((s.steal (s.sys.session pid)).ttySetControlling me.group group d.tty).map (·, 0)
    else some (s, eperm)
  else (s.ttySetControlling me.group group d.tty).map (·, 0)

/-! Processes. -/

/-- Whether a call gets to `tgroup_copy`. -/
def copiesGroup (flags : Dword) (result : CopyResult) : Bool :=
  System.accepted flags && result != .noMemory && !System.has flags System.cloneThread

/-- `tgroup_copy` retains the terminal that the new group has with its copy. -/
def sysClone (s : State) (current : TaskId) (flags : Dword) (result : CopyResult) :
    Option State := do
  let me ← s.sys.task current
  let (sys, _) ← s.sys.sysClone current flags result
  if copiesGroup flags result then
    match s.groupTty me.group with
    | none => some ((s.withSys sys).setGroupTty s.sys.nextGroup none)
    | some t => ((s.withSys sys).setGroupTty s.sys.nextGroup (some t)).retain t
  else some (s.withSys sys)

def sysSetsid (s : State) (current : TaskId) : Option State := do
  let me ← s.sys.task current
  let (sys, err) ← s.sys.sysSetsid current
  if err < 0 then some (s.withSys sys) else some ((s.withSys sys).setGroupTty me.group none)

def process (s : State) : Action → Option State
  | .clone t flags result => s.sysClone t flags result
  | .setsid t => s.sysSetsid t
  | a => (s.sys.apply a).map s.withSys

/-- The state after `create_first_process`. -/
def init : State where
  sys := .init
  groupTty := fun _ ↦ none
  tty := fun _ ↦ none
  nextTty := 0
  ttys := fun _ ↦ none
  ttysLocked := false
  fd := fun _ ↦ none
  nextFd := 0

end State

inductive Act
  | open (current : TaskId) (major minor : ℕ) (made : Made)
  | opened (current : TaskId) (f : FdId)
  | close (current : TaskId) (f : FdId)
  | tiocsctty (current : TaskId) (f : FdId) (force : Dword) (superuser : Bool)
  | process (a : Action)

def Act.current : Act → TaskId
  | .open t _ _ _ | .opened t _ | .close t _ | .tiocsctty t _ _ _ => t
  | .process a => a.current

namespace State

def apply (s : State) : Act → Option State
  | .open t major minor made => (s.ttyOpen t major minor made).map Prod.fst
  | .opened t f => s.ttyOpened t f
  | .close _ f => s.ttyClose f
  | .tiocsctty t f force superuser => (s.tiocsctty t f force superuser).map Prod.fst
  | .process a => s.process a

/-- The calls are made by tasks that run. -/
def step (s : State) (a : Act) : Option State :=
  if s.sys.runs a.current then s.apply a else none

/-! Counts. -/

/-- The open files on a terminal. -/
def fds (s : State) (t : TtyId) : Set FdId := {f | (s.fd f).map Fd.tty = some t}

/-- The thread groups whose terminal it is. -/
def groups (s : State) (t : TtyId) : Set GroupId :=
  {g | (s.sys.group g).isSome ∧ s.groupTty g = some t}

/-- Every count is right, no group points to a freed terminal, and no terminal
without users is left. -/
structure Counted (s : State) : Prop where
  refcount : ∀ {t r}, s.tty t = some r → r.refcount = (s.fds t).ncard + (s.groups t).ncard
  pointed : ∀ {t g}, g ∈ s.groups t → (s.tty t).isSome
  used : ∀ {t r}, s.tty t = some r → r.refcount ≠ 0

/-- The caller leads its session, and has no terminal. -/
def mayControl (s : State) (current : TaskId) : Bool :=
  (s.sys.task current).any fun me ↦
    (s.sys.group me.group).any fun group ↦ group.sid == me.pid && s.groupTty me.group == none

/-- `TIOCSCTTY` goes through for a caller without a terminal. -/
def takes (s : State) (current : TaskId) (f : FdId) (force : Dword) (superuser : Bool) : Bool :=
  (s.fd f).any fun d ↦ (s.tty d.tty).any fun r ↦ (s.sys.task current).any fun me ↦
    (s.sys.group me.group).any fun group ↦
      s.groupTty me.group == none && !(group.sid == me.pid && group.sid == r.session) &&
        (r.session == 0 || force == 1 && superuser)

/-- A terminal has to be made for the device. -/
def makes (s : State) (major minor : ℕ) : Bool :=
  !(major == 5 && minor == 0) && (ttyType major minor).any fun type ↦ s.ttys (type, minor) == none

/-- The calls that make no terminal the one of a group, and for which no driver
fails to open a new one. -/
def Keeps (s : State) : Act → Prop
  | .open _ major minor (.driverFails _) => s.makes major minor = false
  | .opened current _ => s.mayControl current = false
  | .tiocsctty current f force superuser => s.takes current f force superuser = false
  | _ => True

def count (s : State) (t : TtyId) : ℕ := ((s.tty t).map Tty.refcount).getD 0

def fdTty (s : State) (f : FdId) : Option TtyId := (s.fd f).map Fd.tty

/-- What holds as long as no group has had a terminal. -/
structure Inv (s : State) : Prop where
  noTty : ∀ g, s.groupTty g = none
  owned : Owned s.count s.fdTty
  used : ∀ {t r}, s.tty t = some r → r.refcount ≠ 0
  freshTty : ∀ {t}, s.nextTty ≤ t → s.tty t = none
  freshFd : ∀ {f}, s.nextFd ≤ f → s.fd f = none

variable {s s' : State} {t : TtyId} {r : Tty} {f : FdId} {current : TaskId} {type : TtyType}
  {num : ℕ}

theorem tty_setTty (s : State) (t : TtyId) (r : Option Tty) (y : TtyId) :
    (s.setTty t r).tty y = if y = t then r else s.tty y := Function.update_apply _ _ _ _

theorem groupTty_setGroupTty (s : State) (g : GroupId) (t : Option TtyId) (g' : GroupId) :
    (s.setGroupTty g t).groupTty g' = if g' = g then t else s.groupTty g' :=
  Function.update_apply _ _ _ _

theorem fd_setFd (s : State) (f : FdId) (d : Option Fd) (f' : FdId) :
    (s.setFd f d).fd f' = if f' = f then d else s.fd f' := Function.update_apply _ _ _ _

theorem fd_addFd (s : State) (current : TaskId) (t : TtyId) (f : FdId) :
    (s.addFd current t).fd f = if f = s.nextFd then some ⟨t, some current⟩ else s.fd f :=
  Function.update_apply _ _ _ _

theorem count_setTty (s : State) (t : TtyId) (r : Option Tty) (y : TtyId) :
    (s.setTty t r).count y = if y = t then (r.map Tty.refcount).getD 0 else s.count y := by
  rw [count, tty_setTty]
  split <;> rfl

theorem count_of_tty (h : s.tty t = some r) : s.count t = r.refcount := by
  rw [count, h]
  rfl

theorem Inv.groups_eq (h : s.Inv) (t : TtyId) : s.groups t = ∅ := by
  ext g
  simp [groups, h.noTty]

theorem Inv.counted (h : s.Inv) : s.Counted := by
  constructor
  · intro t r hr
    rw [h.groups_eq, Set.ncard_empty, ← count_of_tty hr, h.owned.counts t]
    rfl
  · intro t g hg
    rw [h.groups_eq] at hg
    exact hg.elim
  · exact h.used

theorem Inv.init : init.Inv where
  noTty _ := rfl
  owned := ⟨by simp [State.init, fdTty], fun t ↦ by simp [State.init, count, fdTty]⟩
  used h := by cases h
  freshTty _ := rfl
  freshFd _ := rfl

theorem Inv.withSys (h : s.Inv) (sys : System) : (s.withSys sys).Inv :=
  ⟨h.noTty, h.owned, h.used, h.freshTty, h.freshFd⟩

theorem Inv.locked (h : s.Inv) : { s with ttysLocked := true }.Inv :=
  ⟨h.noTty, h.owned, h.used, h.freshTty, h.freshFd⟩

theorem Inv.setGroupTty (h : s.Inv) (g : GroupId) : (s.setGroupTty g none).Inv := by
  refine ⟨fun g' ↦ ?_, h.owned, h.used, h.freshTty, h.freshFd⟩
  rw [groupTty_setGroupTty, h.noTty, ite_self]

theorem Inv.steal (h : s.Inv) (groups : List GroupId) : (s.steal groups).Inv := by
  refine ⟨fun g ↦ ?_, h.owned, h.used, h.freshTty, h.freshFd⟩
  simp only [State.steal, h.noTty, ite_self]

/-! The steps. -/

/-- A new open file on a terminal that counts one more. -/
theorem Inv.addFd (h : s.Inv) (hnoTty : s'.groupTty = s.groupTty) (hfd : s'.fd = s.fd)
    (hnext : s'.nextFd = s.nextFd) (hcount : ∀ y, s'.count y = s.count y + if y = t then 1 else 0)
    (hused : ∀ {y r}, s'.tty y = some r → r.refcount ≠ 0)
    (hfresh : ∀ {y}, s'.nextTty ≤ y → s'.tty y = none) : (s'.addFd current t).Inv := by
  have hfdTty : (s'.addFd current t).fdTty = Function.update s.fdTty s.nextFd (some t) := by
    funext f
    rw [fdTty, fd_addFd, hfd, hnext, Function.update_apply]
    split <;> rfl
  have hnone : s.fdTty s.nextFd = none := by
    rw [fdTty, h.freshFd le_rfl]
    rfl
  refine ⟨fun g ↦ ?_, ?_, hused, hfresh, fun {f} hf ↦ ?_⟩
  · exact (congrFun hnoTty g).trans (h.noTty g)
  · rw [hfdTty]
    exact h.owned.add hnone hcount
  · have hlt : s.nextFd < f := hnext ▸ hf
    rw [fd_addFd, hnext, if_neg (Nat.ne_of_gt hlt), hfd]
    exact h.freshFd (Nat.le_of_lt hlt)

theorem Inv.addFd_retain (h : s.Inv) (hr : s.tty t = some r) :
    ((s.setTty t (some { r with refcount := r.refcount + 1 })).addFd current t).Inv := by
  refine h.addFd rfl rfl rfl (fun y ↦ ?_) (fun {y r'} hy ↦ ?_) (fun {y} hy ↦ ?_)
  · rw [count_setTty]
    split
    · rename_i hyt
      rw [hyt, count_of_tty hr]
      rfl
    · rfl
  · rw [tty_setTty] at hy
    split at hy
    · cases hy
      exact Nat.succ_ne_zero _
    · exact h.used hy
  · have hne : y ≠ t := by
      rintro rfl
      rw [h.freshTty hy] at hr
      cases hr
    rw [tty_setTty, if_neg hne]
    exact h.freshTty hy

/-- The state with a terminal that has just been made. -/
def made (s : State) (type : TtyType) (num : ℕ) : State :=
  { s.setTty s.nextTty (some ⟨1, type, num, 0, 0⟩) with
    nextTty := s.nextTty + 1
    ttys := Function.update s.ttys (type, num) (some s.nextTty) }

/-- The state with a terminal that its driver has not opened. -/
def lost (s : State) (type : TtyType) (num : ℕ) : State :=
  { s.setTty s.nextTty (some ⟨0, type, num, 0, 0⟩) with nextTty := s.nextTty + 1 }

theorem Inv.addFd_made (h : s.Inv) : ((s.made type num).addFd current s.nextTty).Inv := by
  refine h.addFd rfl rfl rfl (fun y ↦ ?_) (fun {y r'} hy ↦ ?_) (fun {y} hy ↦ ?_)
  · change (s.setTty s.nextTty _).count y = _
    rw [count_setTty]
    split
    · rename_i hyt
      rw [hyt, count, h.freshTty le_rfl]
      rfl
    · rfl
  · change (s.setTty s.nextTty _).tty y = _ at hy
    rw [tty_setTty] at hy
    split at hy
    · cases hy
      exact one_ne_zero
    · exact h.used hy
  · have hlt : s.nextTty < y := hy
    change (s.setTty s.nextTty _).tty y = none
    rw [tty_setTty, if_neg (Nat.ne_of_gt hlt)]
    exact h.freshTty (Nat.le_of_lt hlt)

theorem not_counted_lost : ¬(s.lost type num).Counted := by
  intro h
  have hr : (s.lost type num).tty s.nextTty = some ⟨0, type, num, 0, 0⟩ := Function.update_self _ _ _
  exact h.used hr rfl

/-- A terminal that becomes the one of a group is not counted. -/
theorem Inv.not_counted_control (h : s.Inv) {g : GroupId} {group : Group}
    (hg : (s.sys.group g).isSome) (hs : s.ttySetControlling g group t = some s') :
    ¬s'.Counted := by
  rw [ttySetControlling, h.noTty] at hs
  obtain ⟨r, hr, rfl⟩ := Option.map_eq_some_iff.mp hs
  intro hc
  have hold := h.counted.refcount hr
  have hnew := hc.refcount (t := t) (Function.update_self _ _ _)
  have hgroups : State.groups ((s.setTty t (some { r with
      session := group.sid, fgGroup := group.pgid })).setGroupTty g t) t = {g} := by
    ext g'
    constructor
    · rintro ⟨-, hg'⟩
      by_contra hne
      rw [groupTty_setGroupTty, if_neg (Set.mem_singleton_iff.not.mp hne)] at hg'
      exact Option.some_ne_none _ (hg'.symm.trans (h.noTty g'))
    · rintro rfl
      exact ⟨hg, Function.update_self _ _ _⟩
  rw [hgroups, Set.ncard_singleton] at hnew
  rw [h.groups_eq, Set.ncard_empty] at hold
  have hfds : State.fds ((s.setTty t (some { r with
      session := group.sid, fgGroup := group.pgid })).setGroupTty g t) t = s.fds t := rfl
  rw [hfds] at hnew
  have hsame : r.refcount = (s.fds t).ncard + 1 := hnew
  omega

/-- What a release changes. -/
structure Released (s s' : State) (t : TtyId) (r : Tty) : Prop where
  old : s.tty t = some r
  tty : ∀ y, s'.tty y = if y = t then
    if r.refcount = 1 then none else some { r with refcount := r.refcount - 1 } else s.tty y
  groupTty : s'.groupTty = s.groupTty
  fd : s'.fd = s.fd
  nextFd : s'.nextFd = s.nextFd
  nextTty : s'.nextTty = s.nextTty

theorem released_of_ttyRelease (hs : s.ttyRelease t = some s') : ∃ r, Released s s' t r := by
  rw [ttyRelease] at hs
  split at hs
  · cases hs
  obtain ⟨r, hr, rfl⟩ := Option.map_eq_some_iff.mp hs
  refine ⟨r, ?_⟩
  split
  · rename_i hone
    refine ⟨hr, fun y ↦ ?_, rfl, rfl, rfl, rfl⟩
    rw [if_pos hone]
    exact tty_setTty s t none y
  · rename_i hone
    refine ⟨hr, fun y ↦ ?_, rfl, rfl, rfl, rfl⟩
    rw [if_neg hone]
    exact tty_setTty s t _ y

theorem Released.count (h : Released s s' t r) (hr : r.refcount ≠ 0) (y : TtyId) :
    s.count y = s'.count y + if y = t then 1 else 0 := by
  by_cases hy : y = t
  · have hcount := count_of_tty h.old
    rw [if_pos hy, hy, hcount, State.count, h.tty, if_pos rfl]
    split
    · rename_i hone
      exact hone
    · exact (Nat.succ_pred_eq_of_ne_zero hr).symm
  · rw [State.count, State.count, h.tty, if_neg hy, if_neg hy, Nat.add_zero]

theorem Inv.close (h : s.Inv) (hs : s.ttyClose f = some s') : s'.Inv := by
  obtain ⟨d, hd, hs⟩ := Option.bind_eq_some_iff.mp hs
  split at hs
  case isFalse => cases hs
  obtain ⟨r, hr⟩ := released_of_ttyRelease hs
  have hpos : r.refcount ≠ 0 := h.used hr.old
  have hfdTty : s'.fdTty = Function.update s.fdTty f none := by
    funext f'
    rw [fdTty, hr.fd, fd_setFd, Function.update_apply]
    split <;> rfl
  have hold : s.fdTty f = some d.tty := by
    rw [fdTty, hd]
    rfl
  refine ⟨fun g ↦ ?_, ?_, fun {y r'} hy ↦ ?_, fun {y} hy ↦ ?_, fun {f'} hf ↦ ?_⟩
  · exact (congrFun hr.groupTty g).trans (h.noTty g)
  · rw [hfdTty]
    exact h.owned.drop hold (hr.count hpos)
  · rw [hr.tty] at hy
    split at hy
    · split at hy
      · cases hy
      · cases hy
        rename_i hone
        change r.refcount - 1 ≠ 0
        omega
    · exact h.used hy
  · have hnone : s.tty y = none := h.freshTty (hr.nextTty ▸ hy)
    have hne : y ≠ d.tty := by
      rintro rfl
      exact Option.some_ne_none _ (hr.old.symm.trans hnone)
    rw [hr.tty, if_neg hne]
    exact hnone
  · have hnone : s.fd f' = none := h.freshFd (hr.nextFd ▸ hf)
    rw [hr.fd, fd_setFd, hnone, ite_self]

theorem Inv.opened (h : s.Inv) {d : Fd} (hd : s.fd f = some d) (o : Option TaskId) :
    (s.setFd f (some { d with opening := o })).Inv := by
  have hfdTty : (s.setFd f (some { d with opening := o })).fdTty = s.fdTty := by
    funext f'
    rw [fdTty, fdTty, fd_setFd]
    split
    · rename_i hf
      rw [hf, hd]
      rfl
    · rfl
  refine ⟨h.noTty, ?_, h.used, h.freshTty, fun {f'} hf ↦ ?_⟩
  · rw [hfdTty]
    exact h.owned
  · have hne : f' ≠ f := by
      rintro rfl
      exact Option.some_ne_none _ (hd.symm.trans (h.freshFd hf))
    rw [fd_setFd, if_neg hne]
    exact h.freshFd hf

/-- One call keeps the counts, or is one of those that do not. -/
theorem Inv.step_opened (h : s.Inv) (hs : s.ttyOpened current f = some s') :
    (s'.Inv ∧ s.mayControl current = false) ∨ (¬s'.Counted ∧ s.mayControl current = true) := by
  obtain ⟨d, hd, hs⟩ := Option.bind_eq_some_iff.mp hs
  split at hs
  case isFalse => cases hs
  obtain ⟨me, hme, hs⟩ := Option.bind_eq_some_iff.mp hs
  obtain ⟨group, hgroup, hs⟩ := Option.bind_eq_some_iff.mp hs
  have hinv := h.opened hd none
  have hmay : s.mayControl current = (group.sid == me.pid) := by
    simp [mayControl, hme, hgroup, h.noTty]
  rw [hmay]
  split at hs
  · rename_i hlead
    have hg : (s.sys.group me.group).isSome := Option.isSome_of_eq_some hgroup
    exact .inr ⟨hinv.not_counted_control hg hs, beq_iff_eq.mpr hlead⟩
  · rename_i hlead
    cases hs
    exact .inl ⟨hinv, beq_eq_false_iff_ne.mpr hlead⟩

theorem Inv.step_tiocsctty (h : s.Inv) {force : Dword} {superuser : Bool} {e : ℤ}
    (hs : s.tiocsctty current f force superuser = some (s', e)) :
    (s'.Inv ∧ s.takes current f force superuser = false) ∨
      (¬s'.Counted ∧ s.takes current f force superuser = true) := by
  obtain ⟨d, hd, hs⟩ := Option.bind_eq_some_iff.mp hs
  obtain ⟨r, hr, hs⟩ := Option.bind_eq_some_iff.mp hs
  obtain ⟨me, hme, hs⟩ := Option.bind_eq_some_iff.mp hs
  obtain ⟨group, hgroup, hs⟩ := Option.bind_eq_some_iff.mp hs
  have htakes : s.takes current f force superuser =
      (!(group.sid == me.pid && group.sid == r.session) &&
        (r.session == 0 || force == 1 && superuser)) := by
    simp [takes, hd, hr, hme, hgroup, h.noTty]
  have hg : (s.sys.group me.group).isSome := Option.isSome_of_eq_some hgroup
  rw [htakes]
  split at hs
  · cases hs
  split at hs
  · rename_i hown
    cases hs
    have hown' : (group.sid == me.pid && group.sid == r.session) = true := by simpa using hown
    refine .inl ⟨h, ?_⟩
    rw [hown']
    rfl
  rename_i hown
  have hown' : (group.sid == me.pid && group.sid == r.session) = false := by simpa using hown
  rw [if_neg (not_not_intro (h.noTty me.group))] at hs
  split at hs
  · rename_i hsession
    split at hs
    · rename_i hforce
      split at hs
      · cases hs
      obtain ⟨pid, -, hs⟩ := Option.bind_eq_some_iff.mp hs
      obtain ⟨s₁, hs₁, heq⟩ := Option.map_eq_some_iff.mp hs
      cases heq
      refine .inr ⟨(h.steal _).not_counted_control hg hs₁, ?_⟩
      have hforce' : (force == 1 && superuser) = true := by simpa using hforce
      rw [hown', hforce', Bool.or_true]
      rfl
    · rename_i hforce
      cases hs
      refine .inl ⟨h, ?_⟩
      have hforce' : (force == 1 && superuser) = false := by simpa using hforce
      have hsession' : (r.session == 0) = false := beq_eq_false_iff_ne.mpr hsession
      rw [hown', hsession', hforce']
      rfl
  · rename_i hsession
    obtain ⟨s₁, hs₁, heq⟩ := Option.map_eq_some_iff.mp hs
    cases heq
    refine .inr ⟨h.not_counted_control hg hs₁, ?_⟩
    have hsession' : (r.session == 0) = true := beq_iff_eq.mpr (not_not.mp hsession)
    rw [hown', hsession']
    rfl

/-- How a terminal is found or made. -/
theorem Inv.step_get (h : s.Inv) {made : Made} {res : Except ℤ TtyId}
    (hs : s.ttyGet type num made = some (s', res)) :
    (∃ t, res = .ok t ∧ (s'.addFd current t).Inv ∧ (made = .ok ∨ s.ttys (type, num) ≠ none)) ∨
      (∃ e, res = .error e ∧ s'.Inv ∧ made = .noMemory) ∨
      (∃ e, res = .error e ∧ s' = s.lost type num ∧ made = .driverFails e ∧
        s.ttys (type, num) = none) := by
  unfold ttyGet at hs
  split at hs
  · cases hs
  split at hs
  · rename_i t hentry
    obtain ⟨s₁, hs₁, heq⟩ := Option.map_eq_some_iff.mp hs
    cases heq
    obtain ⟨r, hr, rfl⟩ := Option.map_eq_some_iff.mp hs₁
    refine .inl ⟨t, rfl, h.addFd_retain hr, .inr ?_⟩
    rw [hentry]
    exact Option.some_ne_none t
  · rename_i hentry
    cases made with
    | noMemory =>
      cases hs
      exact .inr (.inl ⟨_, rfl, h.locked, rfl⟩)
    | driverFails err =>
      cases hs
      exact .inr (.inr ⟨_, rfl, rfl, rfl, hentry⟩)
    | ok =>
      cases hs
      exact .inl ⟨_, rfl, h.addFd_made, .inl rfl⟩

theorem Inv.step_open (h : s.Inv) {major minor : ℕ} {made : Made} {e : ℤ}
    (hs : s.ttyOpen current major minor made = some (s', e)) :
    (s'.Inv ∧ s.Keeps (.open current major minor made)) ∨
      (¬s'.Counted ∧ ¬s.Keeps (.open current major minor made)) := by
  rw [ttyOpen] at hs
  split at hs
  · rename_i hdev
    have hkeeps : s.Keeps (.open current major minor made) := by
      cases made with
      | driverFails err => simp [Keeps, makes, hdev]
      | _ => trivial
    obtain ⟨me, -, hs⟩ := Option.bind_eq_some_iff.mp hs
    rw [h.noTty] at hs
    split at hs
    · cases hs
    · cases hs
      exact .inl ⟨h.locked, hkeeps⟩
  · rename_i hdev
    obtain ⟨type, htype, hs₁⟩ := Option.bind_eq_some_iff.mp hs
    obtain ⟨⟨s₁, res⟩, hget, hs₂⟩ := Option.bind_eq_some_iff.mp hs₁
    have hmakes : s.makes major minor = (s.ttys (type, minor) == none) := by
      have hdev' : (major == 5 && minor == 0) = false := by simpa using hdev
      simp [makes, hdev', htype]
    have hcases : (∃ t, res = .ok t ∧ (s₁.addFd current t).Inv ∧ _) ∨ _ := h.step_get hget
    rcases hcases with
      ⟨t, rfl, hinv, hmade⟩ | ⟨e', rfl, hinv, rfl⟩ | ⟨e', rfl, rfl, rfl, hentry⟩
    · cases hs₂
      refine .inl ⟨hinv, ?_⟩
      cases made with
      | driverFails err =>
        have hentry : s.ttys (type, minor) ≠ none := hmade.resolve_left Made.noConfusion
        simp only [Keeps, hmakes]
        exact beq_eq_false_iff_ne.mpr hentry
      | _ => trivial
    · cases hs₂
      exact .inl ⟨hinv, trivial⟩
    · cases hs₂
      refine .inr ⟨not_counted_lost, ?_⟩
      simp [Keeps, hmakes, hentry]

theorem Inv.process (h : s.Inv) {a : Action} (hs : s.process a = some s') : s'.Inv := by
  cases a with
  | clone t flags result =>
    obtain ⟨me, -, hs⟩ := Option.bind_eq_some_iff.mp hs
    obtain ⟨⟨sys, r⟩, -, hs⟩ := Option.bind_eq_some_iff.mp hs
    simp only [h.noTty] at hs
    split at hs
    · obtain rfl := Option.some.inj hs
      exact (h.withSys sys).setGroupTty _
    · obtain rfl := Option.some.inj hs
      exact h.withSys sys
  | setsid t =>
    obtain ⟨me, -, hs⟩ := Option.bind_eq_some_iff.mp hs
    obtain ⟨⟨sys, e⟩, -, hs⟩ := Option.bind_eq_some_iff.mp hs
    dsimp only at hs
    split at hs
    · obtain rfl := Option.some.inj hs
      exact h.withSys sys
    · obtain rfl := Option.some.inj hs
      exact (h.withSys sys).setGroupTty _
  | _ =>
    obtain ⟨sys, -, rfl⟩ := Option.map_eq_some_iff.mp hs
    exact h.withSys sys

/-- As long as no group has had a terminal, a call keeps the counts right exactly
if it gives no group a terminal and loses none. -/
theorem Inv.step_iff (h : s.Inv) {a : Act} (hs : s.step a = some s') :
    (s'.Counted ↔ s.Keeps a) ∧ (s'.Counted → s'.Inv) := by
  have hcases : (s'.Inv ∧ s.Keeps a) ∨ (¬s'.Counted ∧ ¬s.Keeps a) := by
    rw [step] at hs
    split at hs
    case isFalse => cases hs
    cases a with
    | «open» t major minor made =>
      obtain ⟨⟨s₁, e⟩, hs₁, rfl⟩ := Option.map_eq_some_iff.mp hs
      exact h.step_open hs₁
    | opened t f => simpa [Keeps] using h.step_opened hs
    | close t f => exact .inl ⟨h.close hs, trivial⟩
    | tiocsctty t f force superuser =>
      obtain ⟨⟨s₁, e⟩, hs₁, rfl⟩ := Option.map_eq_some_iff.mp hs
      simpa [Keeps] using h.step_tiocsctty hs₁
    | process a => exact .inl ⟨h.process hs, trivial⟩
  rcases hcases with ⟨hinv, hkeeps⟩ | ⟨hnot, hnot'⟩
  · exact ⟨iff_of_true hinv.counted hkeeps, fun _ ↦ hinv⟩
  · exact ⟨iff_of_false hnot hnot', fun hc ↦ absurd hc hnot⟩

/-- The counts are right all along a run exactly if no call of it makes a terminal
the one of a group, and no driver fails to open a new terminal. -/
theorem counted_iff_keeps {as : List Act} (he : Run.exec step init as = some s) :
    (∀ pre u, pre <+: as → Run.exec step init pre = some u → u.Counted) ↔
      Run.Guarded step Keeps init as :=
  Run.forall_prefix_iff_guarded (fun _ _ _ _ hinv hs ↦ hinv.step_iff hs) Inv.init.counted Inv.init he

/-- The first process forks, and its child, which leads no session, opens a terminal. -/
def childOpens : List Act :=
  [.process (.clone 0 17 .ok), .open 1 4 0 .ok, .opened 1 0, .close 1 0]

theorem counted_iff_keeps_child :
    (∀ pre u, pre <+: childOpens → Run.exec step init pre = some u → u.Counted) ↔
      Run.Guarded step Keeps init childOpens := by
  obtain ⟨s, hs⟩ := Option.isSome_iff_exists.mp
    (show (Run.exec step init childOpens).isSome by decide +kernel)
  exact counted_iff_keeps hs

/-- The first process opens a terminal, which becomes the one of its group, and
closes it. -/
def initOpens : List Act := [.open 0 4 0 .ok, .opened 0 0, .close 0 0]

/-- The group still points to the terminal, which has been freed. -/
theorem not_counted_initOpens :
    ¬∀ as s, Run.exec step init as = some s → s.Counted := by
  intro h
  obtain ⟨s, hs⟩ := Option.isSome_iff_exists.mp
    (show (Run.exec step init initOpens).isSome from rfl)
  have hc := h _ _ hs
  cases hs
  have hfreed : false = true := hc.pointed (t := 0) (g := 0) ⟨rfl, rfl⟩
  cases hfreed

end State

end Isl.Fs.TtyRefs
