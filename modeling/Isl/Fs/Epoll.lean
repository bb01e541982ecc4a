import Isl.Lib.Links
import Isl.Lib.Run
import Mathlib.Data.BitVec
import Mathlib.Data.Int.Notation

/-!
The lists of `fs/poll.c` and `kernel/epoll.c`. A `struct poll_fd` is on two of
them, that of its file and that of its poll, and is freed with either of the two.
-/

namespace Isl.Fs.Epoll

open Isl.Lib Isl.Lib.Run

abbrev FdId := ℕ
abbrev PollId := ℕ
abbrev NodeId := ℕ
abbrev Dword := BitVec 32

def eNoent : ℤ := -2
def eBadf : ℤ := -9
def eNomem : ℤ := -12
def eFault : ℤ := -14
def eExist : ℤ := -17
def eInval : ℤ := -22

def epollCtlAdd : ℤ := 1
def epollCtlDel : ℤ := 2
def epollet : Dword := 1 <<< 31
def epolloneshot : Dword := 1 <<< 30

/-- A `struct poll_fd`, its links apart. -/
structure PollFd where
  fd : FdId
  poll : PollId
  types : Dword
  info : BitVec 64

inductive FdOps
  | epoll
  | other
deriving DecidableEq

/-- `poll` is null where the memory for one was missing. -/
structure Fd where
  refcount : ℕ
  ops : FdOps
  poll : Option PollId

/-- What has created a poll: `sys_epoll_create`, or a call that keeps it to itself. -/
inductive Creator
  | epoll
  | call
deriving DecidableEq

/-- `fdNodes` and `pollNodes` are the lists that start at a file and at a poll. -/
structure State where
  fds : FdId → Option Fd
  polls : PollId → Option Creator
  nodes : NodeId → Option PollFd
  fdNodes : FdId → List NodeId
  pollNodes : PollId → List NodeId

/-- What `user_get` reads for `sys_epoll_ctl`. -/
structure EpollEvent where
  events : Dword
  data : BitVec 64

namespace State

def init : State := ⟨fun _ ↦ none, fun _ ↦ none, fun _ ↦ none, fun _ ↦ [], fun _ ↦ []⟩

def fdCreate (s : State) (f : FdId) (ops : FdOps) (poll : Option PollId) : State :=
  { s with fds := Function.update s.fds f (some ⟨1, ops, poll⟩)
           fdNodes := Function.update s.fdNodes f [] }

def pollCreate (s : State) (p : PollId) (c : Creator) : State :=
  { s with polls := Function.update s.polls p (some c)
           pollNodes := Function.update s.pollNodes p [] }

/-- Both `list_remove`s, and `free`. -/
def freeNode (s : State) (n : NodeId) : State :=
  { s with nodes := Function.update s.nodes n none
           fdNodes := Links.remove s.fdNodes n
           pollNodes := Links.remove s.pollNodes n }

/-- A loop over a list, the next item of which is taken before the current one is freed. -/
def freeNodes (s : State) (ns : List NodeId) : State := ns.foldl freeNode s

def pollFindFd (s : State) (p : PollId) (f : FdId) : Option NodeId :=
  (s.pollNodes p).find? fun n ↦ (s.nodes n).any fun e ↦ e.fd = f

def pollHasFd (s : State) (p : PollId) (f : FdId) : Bool := (s.pollFindFd p f).isSome

/-- `node` is the result of `malloc`. -/
def pollAddFd (s : State) (p : PollId) (f : FdId) (types : Dword) (info : BitVec 64)
    (node : Option NodeId) : ℤ × State :=
  match node with
  | none => (eNomem, s)
  | some n =>
    (0, { s with nodes := Function.update s.nodes n (some ⟨f, p, types, info⟩)
                 fdNodes := Links.add s.fdNodes f n
                 pollNodes := Links.add s.pollNodes p n })

def pollDelFd (s : State) (p : PollId) (f : FdId) : ℤ × State :=
  match s.pollFindFd p f with
  | none => (eNoent, s)
  | some n => (0, s.freeNode n)

def pollModFd (s : State) (p : PollId) (f : FdId) (types : Dword) (info : BitVec 64) : ℤ × State :=
  match s.pollFindFd p f with
  | none => (eNoent, s)
  | some n =>
    let node := (s.nodes n).map fun e ↦ { e with types := types, info := info }
    (0, { s with nodes := Function.update s.nodes n node })

def pollDestroy (s : State) (p : PollId) : State :=
  { s.freeNodes (s.pollNodes p) with polls := Function.update s.polls p none }

/-- `fd->ops->close`, which for an epoll is `epoll_close`. -/
def close (s : State) (fd : Fd) : Option State :=
  match fd.ops with
  | .epoll => fd.poll.map s.pollDestroy
  | .other => some s

def fdClose (s : State) (f : FdId) (fd : Fd) : Option State :=
  if fd.refcount - 1 = 0 then
    ((s.freeNodes (s.fdNodes f)).close fd).map fun s ↦
      { s with fds := Function.update s.fds f none }
  else some { s with fds := Function.update s.fds f (some { fd with refcount := fd.refcount - 1 }) }

/-- `epoll` and `fd` are what `f_get` finds for the descriptors, and there is no
`event` if it can not be read. -/
def sysEpollCtl (s : State) (epoll : Option FdId) (op : ℤ) (fd : Option FdId)
    (event : Option EpollEvent) (node : Option NodeId) : Option (ℤ × State) :=
  match epoll with
  | none => some (eBadf, s)
  | some epoll =>
    (s.fds epoll).bind fun epoll ↦
      if epoll.ops ≠ .epoll then some (eInval, s)
      else
        match fd with
        | none => some (eBadf, s)
        | some fd =>
          if op = epollCtlDel then epoll.poll.map fun p ↦ s.pollDelFd p fd
          else
            match event with
            | none => some (eFault, s)
            | some event =>
              if event.events &&& (epollet ||| epolloneshot) ≠ 0 then some (eInval, s)
              else epoll.poll.map fun p ↦
                if op = epollCtlAdd then
                  if s.pollHasFd p fd then (eExist, s)
                  else s.pollAddFd p fd event.events event.data node
                else s.pollModFd p fd event.events event.data

end State

/-- New objects and nodes are any that are not in use. The polls of `pollCreate`,
`pollAddFd` and `pollDestroy` are those of `sys_poll` and `sys_select`. -/
inductive Action
  | fdCreate (f : FdId)
  | fdRetain (f : FdId)
  | fdClose (f : FdId)
  | epollCreate (f : FdId) (poll : Option PollId)
  | epollCtl (epoll : Option FdId) (op : ℤ) (fd : Option FdId) (event : Option EpollEvent)
      (node : Option NodeId)
  | pollCreate (p : PollId)
  | pollAddFd (p : PollId) (f : FdId) (types : Dword) (info : BitVec 64) (node : Option NodeId)
  | pollDestroy (p : PollId)

namespace State

/-- A step to `none` follows a null pointer, or is not one that can be taken. -/
def step (s : State) : Action → Option State
  | .fdCreate f => if s.fds f = none then some (s.fdCreate f .other none) else none
  | .fdRetain f => (s.fds f).map fun fd ↦
    { s with fds := Function.update s.fds f (some { fd with refcount := fd.refcount + 1 }) }
  | .fdClose f => (s.fds f).bind (s.fdClose f)
  | .epollCreate f none => if s.fds f = none then some (s.fdCreate f .epoll none) else none
  | .epollCreate f (some p) =>
    if s.fds f = none ∧ s.polls p = none then
      some ((s.pollCreate p .epoll).fdCreate f .epoll (some p))
    else none
  | .epollCtl epoll op fd event node =>
    if (∀ f ∈ fd, (s.fds f).isSome) ∧ ∀ n ∈ node, s.nodes n = none then
      (s.sysEpollCtl epoll op fd event node).map Prod.snd
    else none
  | .pollCreate p => if s.polls p = none then some (s.pollCreate p .call) else none
  | .pollAddFd p f types info node =>
    if s.polls p = some .call ∧ (s.fds f).isSome ∧ ∀ n ∈ node, s.nodes n = none then
      some (s.pollAddFd p f types info node).2
    else none
  | .pollDestroy p => if s.polls p = some .call then some (s.pollDestroy p) else none

/-- The file and the poll of an allocated node. -/
def link (s : State) (n : NodeId) : Option (FdId × PollId) :=
  (s.nodes n).map fun e ↦ (e.fd, e.poll)

end State

/-- Each allocated node is on the lists of its file and of its poll, once and
on no others. An epoll has one node for a file. The lists of live objects hold
nodes of live objects only. -/
structure Consistent (s : State) : Prop where
  onFd : ∀ n e, s.nodes n = some e →
    (s.fdNodes e.fd).count n = 1 ∧ ∀ f, n ∈ s.fdNodes f → f = e.fd
  onPoll : ∀ n e, s.nodes n = some e →
    (s.pollNodes e.poll).count n = 1 ∧ ∀ p, n ∈ s.pollNodes p → p = e.poll
  single : ∀ f fd p, s.fds f = some fd → fd.ops = .epoll → fd.poll = some p →
    ∀ n ∈ s.pollNodes p, ∀ n' ∈ s.pollNodes p,
      (s.nodes n).map PollFd.fd = (s.nodes n').map PollFd.fd → n = n'
  fdLists : ∀ f, (s.fds f).isSome → ∀ n ∈ s.fdNodes f,
    ∃ e, s.nodes n = some e ∧ (s.fds e.fd).isSome ∧ (s.polls e.poll).isSome
  pollLists : ∀ p, (s.polls p).isSome → ∀ n ∈ s.pollNodes p,
    ∃ e, s.nodes n = some e ∧ (s.fds e.fd).isSome ∧ (s.polls e.poll).isSome

/-- The lists hold the allocated nodes, freed heads included. -/
structure Linked (s : State) : Prop where
  fdNodes : ∀ n f, n ∈ s.fdNodes f ↔ ∃ p, s.link n = some (f, p)
  pollNodes : ∀ n p, n ∈ s.pollNodes p ↔ ∃ f, s.link n = some (f, p)
  fdNodup : Links.Nodup s.fdNodes
  pollNodup : Links.Nodup s.pollNodes

/-- `owned` and `distinct`: an epoll descriptor has a poll of its own. -/
structure Sound (s : State) : Prop extends Linked s where
  liveFd : ∀ n f p, s.link n = some (f, p) → (s.fds f).isSome
  livePoll : ∀ n f p, s.link n = some (f, p) → (s.polls p).isSome
  owned : ∀ f fd p, s.fds f = some fd → fd.poll = some p → s.polls p = some .epoll
  distinct : ∀ f f' fd fd' p, s.fds f = some fd → s.fds f' = some fd' → fd.poll = some p →
    fd'.poll = some p → f = f'
  single : ∀ n n' f p, s.polls p = some .epoll → s.link n = some (f, p) →
    s.link n' = some (f, p) → n = n'

section

variable {s s' : State} {f f' : FdId} {p p' : PollId} {n n' : NodeId} {ns : List NodeId}

open State

theorem link_eq_some : s.link n = some (f, p) ↔ ∃ e, s.nodes n = some e ∧ e.fd = f ∧ e.poll = p := by
  simp [link]

theorem link_of_node {e : PollFd} (h : s.nodes n = some e) : s.link n = some (e.fd, e.poll) := by
  rw [link, h]
  rfl

/-- What the lists of a sound state hold. -/
theorem Sound.consistent (h : Sound s) : Consistent s := by
  have hlive (n : NodeId) (f : FdId) (p : PollId) (hl : s.link n = some (f, p)) :
      ∃ e, s.nodes n = some e ∧ (s.fds e.fd).isSome ∧ (s.polls e.poll).isSome := by
    obtain ⟨e, he, rfl, rfl⟩ := link_eq_some.mp hl
    exact ⟨e, he, h.liveFd n _ _ hl, h.livePoll n _ _ hl⟩
  refine ⟨fun n e he ↦ ⟨?_, fun f hf ↦ ?_⟩, fun n e he ↦ ⟨?_, fun p hp ↦ ?_⟩, ?_, ?_, ?_⟩
  · exact List.count_eq_one_of_mem (h.fdNodup _) ((h.fdNodes n _).mpr ⟨_, link_of_node he⟩)
  · obtain ⟨p, hl⟩ := (h.fdNodes n f).mp hf
    exact (Prod.mk.inj (Option.some.inj (hl.symm.trans (link_of_node he)))).1
  · exact List.count_eq_one_of_mem (h.pollNodup _) ((h.pollNodes n _).mpr ⟨_, link_of_node he⟩)
  · obtain ⟨f, hl⟩ := (h.pollNodes n p).mp hp
    exact (Prod.mk.inj (Option.some.inj (hl.symm.trans (link_of_node he)))).2
  · intro f fd p hfd _ hp n hn n' hn' heq
    obtain ⟨g, hl⟩ := (h.pollNodes n p).mp hn
    obtain ⟨g', hl'⟩ := (h.pollNodes n' p).mp hn'
    obtain ⟨e, he, rfl, -⟩ := link_eq_some.mp hl
    obtain ⟨e', he', rfl, -⟩ := link_eq_some.mp hl'
    rw [he, he'] at heq
    have hfd' : e.fd = e'.fd := Option.some.inj heq
    exact h.single n n' _ p (h.owned f fd p hfd hp) hl (hfd' ▸ hl')
  · intro f _ n hn
    obtain ⟨p, hl⟩ := (h.fdNodes n f).mp hn
    exact hlive n f p hl
  · intro p _ n hn
    obtain ⟨f, hl⟩ := (h.pollNodes n p).mp hn
    exact hlive n f p hl

theorem sound_init : Sound init where
  fdNodes n f := iff_of_false (by simp [init]) (by simp [init, link])
  pollNodes n p := iff_of_false (by simp [init]) (by simp [init, link])
  fdNodup _ := List.nodup_nil
  pollNodup _ := List.nodup_nil
  liveFd := nofun
  livePoll := nofun
  owned := nofun
  distinct := nofun
  single := nofun

/-! Freeing nodes. -/

theorem link_freeNode (n n' : NodeId) :
    (s.freeNode n).link n' = if n' = n then none else s.link n' := by
  by_cases h : n' = n <;> simp [link, freeNode, h]

theorem Linked.freeNode (h : Linked s) (n : NodeId) : Linked (s.freeNode n) where
  fdNodes n' f := by
    rw [link_freeNode]
    refine Links.mem_remove.trans ((and_congr_left' (h.fdNodes n' f)).trans ?_)
    by_cases hn : n' = n <;> simp [hn]
  pollNodes n' p := by
    rw [link_freeNode]
    refine Links.mem_remove.trans ((and_congr_left' (h.pollNodes n' p)).trans ?_)
    by_cases hn : n' = n <;> simp [hn]
  fdNodup := h.fdNodup.remove n
  pollNodup := h.pollNodup.remove n

theorem Linked.freeNodes (h : Linked s) (ns : List NodeId) : Linked (s.freeNodes ns) := by
  induction ns generalizing s with
  | nil => exact h
  | cons n ns ih => exact ih (h.freeNode n)

theorem link_freeNodes (ns : List NodeId) (n : NodeId) :
    (s.freeNodes ns).link n = if n ∈ ns then none else s.link n := by
  induction ns generalizing s with
  | nil => simp [State.freeNodes]
  | cons n' ns ih =>
    refine ih.trans ?_
    rw [link_freeNode]
    by_cases hn : n = n' <;> simp [hn]

theorem freeNodes_fds (s : State) (ns : List NodeId) : (s.freeNodes ns).fds = s.fds := by
  induction ns generalizing s with
  | nil => rfl
  | cons n ns ih => exact ih (s.freeNode n)

theorem freeNodes_polls (s : State) (ns : List NodeId) : (s.freeNodes ns).polls = s.polls := by
  induction ns generalizing s with
  | nil => rfl
  | cons n ns ih => exact ih (s.freeNode n)

theorem pollDestroy_fds (s : State) (p : PollId) : (s.pollDestroy p).fds = s.fds :=
  freeNodes_fds s _

theorem Linked.pollDestroy (h : Linked s) (p : PollId) : Linked (s.pollDestroy p) :=
  have h := h.freeNodes (s.pollNodes p)
  ⟨h.fdNodes, h.pollNodes, h.fdNodup, h.pollNodup⟩

/-- The nodes that are left when those of a file are freed. -/
theorem Linked.link_freeFd (h : Linked s) : (s.freeNodes (s.fdNodes f)).link n = some (f', p) ↔
    s.link n = some (f', p) ∧ f' ≠ f := by
  rw [link_freeNodes]
  split
  · rename_i hn
    obtain ⟨q, hl⟩ := (h.fdNodes n f).mp hn
    refine iff_of_false nofun fun h' ↦ h'.2 ?_
    exact (Prod.mk.inj (Option.some.inj (h'.1.symm.trans hl))).1
  · rename_i hn
    refine (and_iff_left_of_imp fun hl hf ↦ hn ?_).symm
    exact (h.fdNodes n f).mpr ⟨p, hf ▸ hl⟩

/-- The nodes that are left when a poll is destroyed. -/
theorem Linked.link_pollDestroy (h : Linked s) : (s.pollDestroy p).link n = some (f, p') ↔
    s.link n = some (f, p') ∧ p' ≠ p := by
  refine Iff.trans (Eq.to_iff (congrArg (· = some (f, p')) (link_freeNodes (s.pollNodes p) n))) ?_
  split
  · rename_i hn
    obtain ⟨g, hl⟩ := (h.pollNodes n p).mp hn
    refine iff_of_false nofun fun h' ↦ h'.2 ?_
    exact (Prod.mk.inj (Option.some.inj (h'.1.symm.trans hl))).2
  · rename_i hn
    refine (and_iff_left_of_imp fun hl hp ↦ hn ?_).symm
    exact (h.pollNodes n p).mpr ⟨f, hp ▸ hl⟩

/-- Nodes, files and polls that go, each object after its nodes and each poll
after its epoll descriptor. -/
theorem Sound.shrink (h : Sound s) (hs : Linked s')
    (hlink : ∀ n f p, s'.link n = some (f, p) → s.link n = some (f, p))
    (hfds : ∀ f, s'.fds f = s.fds f ∨ s'.fds f = none ∧ ∀ n p, s'.link n ≠ some (f, p))
    (hpolls : ∀ p, s'.polls p = s.polls p ∨ s'.polls p = none ∧
      (∀ n f, s'.link n ≠ some (f, p)) ∧ ∀ f fd, s'.fds f = some fd → fd.poll ≠ some p) :
    Sound s' := by
  have hfd (f : FdId) (fd : Fd) (hf : s'.fds f = some fd) : s.fds f = some fd := by
    obtain he | ⟨he, -⟩ := hfds f
    · exact he ▸ hf
    · exact absurd (he.symm.trans hf) nofun
  have hpoll (p : PollId) (hp : s'.polls p = some .epoll) : s.polls p = some .epoll := by
    obtain he | ⟨he, -⟩ := hpolls p
    · exact he ▸ hp
    · exact absurd (he.symm.trans hp) nofun
  refine ⟨hs, fun n f p hl ↦ ?_, fun n f p hl ↦ ?_, fun f fd p hf hp ↦ ?_, ?_, ?_⟩
  · obtain he | ⟨-, hno⟩ := hfds f
    · exact he ▸ h.liveFd n f p (hlink n f p hl)
    · exact absurd hl (hno n p)
  · obtain he | ⟨-, hno, -⟩ := hpolls p
    · exact he ▸ h.livePoll n f p (hlink n f p hl)
    · exact absurd hl (hno n f)
  · obtain he | ⟨-, -, hno⟩ := hpolls p
    · exact he ▸ h.owned f fd p (hfd f fd hf) hp
    · exact absurd hp (hno f fd hf)
  · intro f f' fd fd' p hf hf' hp hp'
    exact h.distinct f f' fd fd' p (hfd f fd hf) (hfd f' fd' hf') hp hp'
  · intro n n' f p hp hl hl'
    exact h.single n n' f p (hpoll p hp) (hlink n f p hl) (hlink n' f p hl')

theorem Sound.freeNode (h : Sound s) (n : NodeId) : Sound (s.freeNode n) := by
  refine h.shrink (h.toLinked.freeNode n) (fun n' f p hl ↦ ?_) (fun _ ↦ .inl rfl) fun _ ↦ .inl rfl
  rw [link_freeNode] at hl
  split at hl
  · cases hl
  · exact hl

theorem Sound.pollDestroy (h : Sound s) (hp : s.polls p = some .call) : Sound (s.pollDestroy p) := by
  refine h.shrink (h.toLinked.pollDestroy p) (fun n f q hl ↦ (h.link_pollDestroy.mp hl).1)
    (fun f ↦ .inl (congrFun (pollDestroy_fds s p) f)) fun q ↦ ?_
  by_cases hq : q = p
  · subst hq
    refine .inr ⟨Function.update_self _ _ _, fun n f hl ↦ ?_, fun f fd hf hfd ↦ ?_⟩
    · exact (h.link_pollDestroy.mp hl).2 rfl
    · rw [pollDestroy_fds] at hf
      cases hp.symm.trans (h.owned f fd q hf hfd)
  · exact .inl (Function.update_of_ne hq _ _)

/-- A change to a file that its poll and the lists have no part in. -/
theorem Sound.setFd {fd fd' : Fd} (h : Sound s) (hf : s.fds f = some fd) (hp : fd'.poll = fd.poll) :
    Sound { s with fds := Function.update s.fds f (some fd') } := by
  have hold (g : FdId) (gd : Fd) (hg : Function.update s.fds f (some fd') g = some gd) :
      ∃ gd₀, s.fds g = some gd₀ ∧ gd.poll = gd₀.poll := by
    by_cases hgf : g = f
    · subst hgf
      rw [Function.update_self] at hg
      cases hg
      exact ⟨fd, hf, hp⟩
    · rw [Function.update_of_ne hgf] at hg
      exact ⟨gd, hg, rfl⟩
  refine ⟨⟨h.fdNodes, h.pollNodes, h.fdNodup, h.pollNodup⟩, fun n g p hl ↦ ?_, h.livePoll,
    fun g gd p hg hgp ↦ ?_, fun g g' gd gd' p hg hg' hgp hgp' ↦ ?_, h.single⟩
  · by_cases hgf : g = f
    · simp [hgf]
    · change (Function.update s.fds f (some fd') g).isSome
      rw [Function.update_of_ne hgf]
      exact h.liveFd n g p hl
  · obtain ⟨gd₀, hg₀, he⟩ := hold g gd hg
    exact h.owned g gd₀ p hg₀ (he ▸ hgp)
  · obtain ⟨gd₀, hg₀, he⟩ := hold g gd hg
    obtain ⟨gd₁, hg₁, he'⟩ := hold g' gd' hg'
    exact h.distinct g g' gd₀ gd₁ p hg₀ hg₁ (he ▸ hgp) (he' ▸ hgp')

/-- A file goes with its nodes. -/
theorem Sound.freeFd (h : Sound s) (f : FdId) :
    Sound { s.freeNodes (s.fdNodes f) with fds := Function.update s.fds f none } := by
  have hl := h.toLinked.freeNodes (s.fdNodes f)
  refine h.shrink ⟨hl.fdNodes, hl.pollNodes, hl.fdNodup, hl.pollNodup⟩
    (fun n g p hl ↦ (h.link_freeFd.mp hl).1) (fun g ↦ ?_)
    fun p ↦ .inl (congrFun (freeNodes_polls s _) p)
  by_cases hg : g = f
  · subst hg
    exact .inr ⟨Function.update_self _ _ _, fun n p hl ↦ (h.link_freeFd.mp hl).2 rfl⟩
  · exact .inl (Function.update_of_ne hg _ _)

/-- A descriptor of an epoll goes with its nodes, its poll and the nodes that
are left of that. -/
theorem Sound.freeEpoll {fd : Fd} (h : Sound s) (hf : s.fds f = some fd) (hp : fd.poll = some p) :
    Sound { (s.freeNodes (s.fdNodes f)).pollDestroy p with
      fds := Function.update s.fds f none } := by
  have hl₁ := h.toLinked.freeNodes (s.fdNodes f)
  have hl₂ := hl₁.pollDestroy p
  have hlink (n : NodeId) (g : FdId) (q : PollId)
      (hl : ((s.freeNodes (s.fdNodes f)).pollDestroy p).link n = some (g, q)) :
      s.link n = some (g, q) ∧ g ≠ f ∧ q ≠ p := by
    obtain ⟨hl, hq⟩ := hl₁.link_pollDestroy.mp hl
    obtain ⟨hl, hg⟩ := h.link_freeFd.mp hl
    exact ⟨hl, hg, hq⟩
  refine h.shrink ⟨hl₂.fdNodes, hl₂.pollNodes, hl₂.fdNodup, hl₂.pollNodup⟩
    (fun n g q hl ↦ (hlink n g q hl).1) (fun g ↦ ?_) fun q ↦ ?_
  · by_cases hg : g = f
    · subst hg
      exact .inr ⟨Function.update_self _ _ _, fun n q hl ↦ (hlink n g q hl).2.1 rfl⟩
    · exact .inl (Function.update_of_ne hg _ _)
  · by_cases hq : q = p
    · subst hq
      refine .inr ⟨Function.update_self _ _ _, fun n g hl ↦ (hlink n g q hl).2.2 rfl, ?_⟩
      intro g gd hg hgq
      obtain ⟨hne, hg⟩ := update_none_eq_some.mp hg
      exact hne (h.distinct g f gd fd q hg hf hgq hp)
    · refine .inl ((Function.update_of_ne hq _ _).trans ?_)
      exact congrFun (freeNodes_polls s _) q

theorem Sound.fdClose {fd : Fd} (h : Sound s) (hf : s.fds f = some fd)
    (hs : s.fdClose f fd = some s') : Sound s' := by
  unfold State.fdClose at hs
  split at hs
  · obtain ⟨s₂, hclose, rfl⟩ := Option.map_eq_some_iff.mp hs
    unfold State.close at hclose
    split at hclose
    · obtain ⟨p, hp, rfl⟩ := Option.map_eq_some_iff.mp hclose
      rw [pollDestroy_fds, freeNodes_fds]
      exact h.freeEpoll hf hp
    · cases hclose
      rw [freeNodes_fds]
      exact h.freeFd f
  · cases hs
    exact h.setFd hf rfl

/-! New objects and nodes. -/

theorem Sound.fdCreate {ops : FdOps} {poll : Option PollId} (h : Sound s) (hf : s.fds f = none)
    (hpoll : ∀ p ∈ poll, s.polls p = some .epoll ∧
      ∀ g gd, s.fds g = some gd → gd.poll ≠ some p) : Sound (s.fdCreate f ops poll) := by
  have hnone (n : NodeId) (p : PollId) : s.link n ≠ some (f, p) := fun hl ↦ by
    have hlive := h.liveFd n f p hl
    rw [hf] at hlive
    cases hlive
  have hlists : (s.fdCreate f ops poll).fdNodes = s.fdNodes := by
    refine Links.clear_eq fun n hn ↦ ?_
    obtain ⟨p, hl⟩ := (h.fdNodes n f).mp hn
    exact hnone n p hl
  have hfd (g : FdId) (gd : Fd) (hg : (s.fdCreate f ops poll).fds g = some gd) :
      g = f ∧ gd.poll = poll ∨ s.fds g = some gd := by
    obtain ⟨hgf, rfl⟩ | ⟨-, hg⟩ := update_some_eq_some.mp hg
    · exact .inl ⟨hgf, rfl⟩
    · exact .inr hg
  refine ⟨⟨hlists ▸ h.fdNodes, h.pollNodes, hlists ▸ h.fdNodup, h.pollNodup⟩,
    fun n g p hl ↦ ?_, h.livePoll, fun g gd p hg hp ↦ ?_,
    fun g g' gd gd' p hg hg' hp hp' ↦ ?_, h.single⟩
  · have hgf : g ≠ f := fun hgf ↦ hnone n p (hgf ▸ hl)
    change (Function.update s.fds f _ g).isSome
    rw [Function.update_of_ne hgf]
    exact h.liveFd n g p hl
  · obtain ⟨-, hgp⟩ | hg := hfd g gd hg
    · exact (hpoll p (hgp ▸ hp)).1
    · exact h.owned g gd p hg hp
  · obtain ⟨hgf, hgp⟩ | hg := hfd g gd hg
    · obtain ⟨hgf', -⟩ | hg' := hfd g' gd' hg'
      · exact hgf.trans hgf'.symm
      · exact absurd hp' ((hpoll p (hgp ▸ hp)).2 g' gd' hg')
    · obtain ⟨-, hgp'⟩ | hg' := hfd g' gd' hg'
      · exact absurd hp ((hpoll p (hgp' ▸ hp')).2 g gd hg)
      · exact h.distinct g g' gd gd' p hg hg' hp hp'

theorem Sound.pollCreate (h : Sound s) (hp : s.polls p = none) (c : Creator) :
    Sound (s.pollCreate p c) := by
  have hnone (n : NodeId) (f : FdId) : s.link n ≠ some (f, p) := fun hl ↦ by
    have hlive := h.livePoll n f p hl
    rw [hp] at hlive
    cases hlive
  have hlists : (s.pollCreate p c).pollNodes = s.pollNodes := by
    refine Links.clear_eq fun n hn ↦ ?_
    obtain ⟨f, hl⟩ := (h.pollNodes n p).mp hn
    exact hnone n f hl
  refine ⟨⟨h.fdNodes, hlists ▸ h.pollNodes, h.fdNodup, hlists ▸ h.pollNodup⟩, h.liveFd,
    fun n f q hl ↦ ?_, fun f fd q hf hq ↦ ?_, h.distinct, fun n n' f q hq hl hl' ↦ ?_⟩
  · have hqp : q ≠ p := fun hqp ↦ hnone n f (hqp ▸ hl)
    change (Function.update s.polls p _ q).isSome
    rw [Function.update_of_ne hqp]
    exact h.livePoll n f q hl
  · have hpoll := h.owned f fd q hf hq
    have hqp : q ≠ p := fun hqp ↦ by
      rw [hqp, hp] at hpoll
      cases hpoll
    exact (Function.update_of_ne hqp _ _).trans hpoll
  · have hqp : q ≠ p := fun hqp ↦ hnone n f (hqp ▸ hl)
    exact h.single n n' f q ((Function.update_of_ne hqp _ _).symm.trans hq) hl hl'

theorem Linked.pollFindFd_eq_none (h : Linked s) :
    s.pollFindFd p f = none ↔ ∀ n, s.link n ≠ some (f, p) := by
  refine List.find?_eq_none.trans ⟨fun hno n hl ↦ ?_, fun hno n hn hany ↦ ?_⟩
  · obtain ⟨e, he, rfl, rfl⟩ := link_eq_some.mp hl
    refine hno n ((h.pollNodes n _).mpr ⟨_, hl⟩) ?_
    rw [he]
    exact decide_eq_true rfl
  · obtain ⟨g, hl⟩ := (h.pollNodes n p).mp hn
    obtain ⟨e, he, rfl, rfl⟩ := link_eq_some.mp hl
    rw [he] at hany
    have hfd : e.fd = f := of_decide_eq_true hany
    exact hno n (hfd ▸ hl)

theorem Sound.pollAddFd {types : Dword} {info : BitVec 64} {node : Option NodeId} (h : Sound s)
    (hf : (s.fds f).isSome) (hp : (s.polls p).isSome) (hnode : ∀ n ∈ node, s.nodes n = none)
    (hsingle : s.polls p = some .epoll → ∀ n, s.link n ≠ some (f, p)) :
    Sound (s.pollAddFd p f types info node).2 := by
  cases node with
  | none => exact h
  | some n =>
    have hnew : s.link n = none := by
      rw [link, hnode n rfl]
      rfl
    have hlink (x : NodeId) : (s.pollAddFd p f types info (some n)).2.link x =
        if x = n then some (f, p) else s.link x := by
      by_cases hx : x = n <;> simp [State.pollAddFd, link, hx]
    have hcases (x : NodeId) (g : FdId) (q : PollId)
        (hl : (s.pollAddFd p f types info (some n)).2.link x = some (g, q)) :
        x = n ∧ g = f ∧ q = p ∨ s.link x = some (g, q) := by
      rw [hlink] at hl
      split at hl
      · cases hl
        exact .inl ⟨‹_›, rfl, rfl⟩
      · exact .inr hl
    refine ⟨⟨fun x g ↦ ?_, fun x q ↦ ?_, h.fdNodup.add (fun g hg ↦ ?_) f,
      h.pollNodup.add (fun q hq ↦ ?_) p⟩, fun x g q hl ↦ ?_, fun x g q hl ↦ ?_, h.owned, h.distinct,
      fun x x' g q hq hl hl' ↦ ?_⟩
    · refine Links.mem_add.trans ((or_congr_right (h.fdNodes x g)).trans ?_)
      rw [hlink]
      by_cases hx : x = n <;> simp [hx, hnew, eq_comm]
    · refine Links.mem_add.trans ((or_congr_right (h.pollNodes x q)).trans ?_)
      rw [hlink]
      by_cases hx : x = n <;> simp [hx, hnew, eq_comm]
    · obtain ⟨q, hl⟩ := (h.fdNodes n g).mp hg
      cases hnew.symm.trans hl
    · obtain ⟨g, hl⟩ := (h.pollNodes n q).mp hq
      cases hnew.symm.trans hl
    · obtain ⟨-, rfl, -⟩ | hl := hcases x g q hl
      · exact hf
      · exact h.liveFd x g q hl
    · obtain ⟨-, -, rfl⟩ | hl := hcases x g q hl
      · exact hp
      · exact h.livePoll x g q hl
    · obtain ⟨hx, rfl, rfl⟩ | hold := hcases x g q hl
      · obtain ⟨hx', -⟩ | hold' := hcases x' g q hl'
        · exact hx.trans hx'.symm
        · exact absurd hold' (hsingle hq x')
      · obtain ⟨-, rfl, rfl⟩ | hold' := hcases x' g q hl'
        · exact absurd hold (hsingle hq x)
        · exact h.single x x' g q hq hold hold'

theorem Sound.pollDelFd (h : Sound s) : Sound (s.pollDelFd p f).2 := by
  unfold State.pollDelFd
  split
  · exact h
  · exact h.freeNode _

theorem Sound.pollModFd {types : Dword} {info : BitVec 64} (h : Sound s) :
    Sound (s.pollModFd p f types info).2 := by
  unfold State.pollModFd
  split
  · exact h
  · rename_i n _
    have hlink : State.link { s with
        nodes := Function.update s.nodes n
          ((s.nodes n).map fun e ↦ { e with types := types, info := info }) } = s.link := by
      funext x
      by_cases hx : x = n
      · subst hx
        simp [link, Function.comp_def]
      · simp [link, hx]
    refine ⟨⟨?_, ?_, h.fdNodup, h.pollNodup⟩, ?_, ?_, h.owned, h.distinct, ?_⟩
    all_goals rw [hlink]
    · exact h.fdNodes
    · exact h.pollNodes
    · exact h.liveFd
    · exact h.livePoll
    · exact h.single

theorem Sound.sysEpollCtl {epoll fd : Option FdId} {op r : ℤ} {event : Option EpollEvent}
    {node : Option NodeId} (h : Sound s) (hf : ∀ f ∈ fd, (s.fds f).isSome)
    (hnode : ∀ n ∈ node, s.nodes n = none)
    (hs : s.sysEpollCtl epoll op fd event node = some (r, s')) : Sound s' := by
  unfold State.sysEpollCtl at hs
  cases epoll with
  | none =>
    cases hs
    exact h
  | some g =>
    obtain ⟨gd, hg, hs⟩ := Option.bind_eq_some_iff.mp hs
    split at hs
    · cases hs
      exact h
    cases fd with
    | none =>
      cases hs
      exact h
    | some f =>
      dsimp only at hs
      split at hs
      · obtain ⟨p, -, heq⟩ := Option.map_eq_some_iff.mp hs
        obtain rfl : (s.pollDelFd p f).2 = s' := congrArg Prod.snd heq
        exact h.pollDelFd
      cases event with
      | none =>
        cases hs
        exact h
      | some event =>
        dsimp only at hs
        split at hs
        · cases hs
          exact h
        obtain ⟨p, hp, heq⟩ := Option.map_eq_some_iff.mp hs
        have hpoll := h.owned g gd p hg hp
        split at heq
        · split at heq
          · cases heq
            exact h
          · rename_i hhas
            have hnone : s.pollFindFd p f = none := by
              simpa [State.pollHasFd] using hhas
            obtain rfl : (s.pollAddFd p f event.events event.data node).2 = s' :=
              congrArg Prod.snd heq
            refine h.pollAddFd (hf f rfl) ?_ hnode fun _ ↦ h.pollFindFd_eq_none.mp hnone
            rw [hpoll]
            rfl
        · obtain rfl : (s.pollModFd p f event.events event.data).2 = s' := congrArg Prod.snd heq
          exact h.pollModFd

theorem Sound.step {a : Action} (h : Sound s) (hs : s.step a = some s') : Sound s' := by
  cases a with
  | fdCreate f =>
    obtain ⟨hf, hs⟩ := Option.ite_none_right_eq_some.mp hs
    cases hs
    exact h.fdCreate hf nofun
  | fdRetain f =>
    obtain ⟨fd, hf, rfl⟩ := Option.map_eq_some_iff.mp hs
    exact h.setFd hf rfl
  | fdClose f =>
    obtain ⟨fd, hf, hs⟩ := Option.bind_eq_some_iff.mp hs
    exact h.fdClose hf hs
  | epollCreate f poll =>
    cases poll with
    | none =>
      obtain ⟨hf, hs⟩ := Option.ite_none_right_eq_some.mp hs
      cases hs
      exact h.fdCreate hf nofun
    | some p =>
      obtain ⟨⟨hf, hp⟩, hs⟩ := Option.ite_none_right_eq_some.mp hs
      cases hs
      refine (h.pollCreate hp .epoll).fdCreate hf fun q hq ↦ ?_
      cases hq
      refine ⟨Function.update_self _ _ _, fun g gd hg hgp ↦ ?_⟩
      cases hp.symm.trans (h.owned g gd p hg hgp)
  | epollCtl epoll op fd event node =>
    obtain ⟨⟨hf, hnode⟩, hs⟩ := Option.ite_none_right_eq_some.mp hs
    obtain ⟨⟨r, t⟩, hctl, rfl⟩ := Option.map_eq_some_iff.mp hs
    exact h.sysEpollCtl hf hnode hctl
  | pollCreate p =>
    obtain ⟨hp, hs⟩ := Option.ite_none_right_eq_some.mp hs
    cases hs
    exact h.pollCreate hp .call
  | pollAddFd p f types info node =>
    obtain ⟨⟨hp, hf, hnode⟩, hs⟩ := Option.ite_none_right_eq_some.mp hs
    cases hs
    refine h.pollAddFd hf ?_ hnode fun hepoll ↦ ?_
    · rw [hp]
      rfl
    · cases hp.symm.trans hepoll
  | pollDestroy p =>
    obtain ⟨hp, hs⟩ := Option.ite_none_right_eq_some.mp hs
    cases hs
    exact h.pollDestroy hp

/-- In every state of every run of calls, with objects destroyed in any order,
the lists of files and polls hold the nodes that are theirs and no freed ones. -/
theorem consistent_along (actions : List Action) :
    AllAlong State.step Consistent State.init actions := by
  intro pre u hpre hu
  have hsound : Sound u := by
    have hall : AllAlong State.step (fun _ ↦ True) State.init pre := fun _ _ _ _ ↦ trivial
    exact hall.keeps (fun s a t hs _ ht ↦ hs.step ht) sound_init hu
  exact hsound.consistent

/-- An epoll that watches itself and a file, and is closed before the file. -/
example : (exec State.step State.init
    [.epollCreate 0 (some 0), .fdCreate 1, .epollCtl (some 0) 1 (some 0) (some ⟨1, 0⟩) (some 0),
      .epollCtl (some 0) 1 (some 1) (some ⟨1, 0⟩) (some 1), .fdClose 0]).map
    (fun s ↦ (s.fdNodes 1, s.pollNodes 0, (s.nodes 1).isNone)) = some ([], [], true) := by
  decide

end

end Isl.Fs.Epoll
