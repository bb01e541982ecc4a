import Isl.Fs.Epoll
import Isl.Util.List

/-!
The objects of `fs/poll.c` in memory, with the links that their lists consist
of. A call follows these links, and is `none` where that leads to freed memory.
-/

namespace Isl.Fs.PollHeap

open Isl.Lib Isl.Lib.Rings Isl.Util Isl.Fs.Epoll

/-- The `struct list`s: the `poll_fds` of a file and of a poll, and the `polls`
and the `fds` of a `struct poll_fd`. -/
inductive Place
  | fdHead (f : FdId)
  | pollHead (p : PollId)
  | polls (n : NodeId)
  | fds (n : NodeId)
deriving DecidableEq

structure Memory where
  fds : FdId → Option Fd
  polls : PollId → Option Creator
  nodes : NodeId → Option PollFd
  links : Heap Place

namespace Memory

def init : Memory := ⟨fun _ ↦ none, fun _ ↦ none, fun _ ↦ none, fun _ ↦ none⟩

def fdCreate (m : Memory) (f : FdId) (ops : FdOps) (poll : Option PollId) : Option Memory := do
  let links ← listInit (Function.update m.links (.fdHead f) (some ⟨none, none⟩)) (.fdHead f)
  some { m with fds := Function.update m.fds f (some ⟨1, ops, poll⟩), links := links }

/-- `junk` is what `malloc` leaves in the links. -/
def pollCreate (junk : Cell Place) (m : Memory) (p : PollId) (c : Creator) : Option Memory := do
  let links ← listInit (Function.update m.links (.pollHead p) (some junk)) (.pollHead p)
  some { m with polls := Function.update m.polls p (some c), links := links }

def freeNode (m : Memory) (n : NodeId) : Option Memory := do
  let links ← listRemove m.links (.polls n)
  let links ← listRemove links (.fds n)
  some { m with nodes := Function.update m.nodes n none
                links := Function.update (Function.update links (.polls n) none) (.fds n) none }

def findBody (m : Memory) (f : FdId) (_ : Unit) : Place → Option (Unit ⊕ Option NodeId)
  | .fds n => (m.nodes n).map fun e ↦ if e.fd = f then .inr (some n) else .inl ()
  | _ => none

def pollFindFd (fuel : ℕ) (m : Memory) (p : PollId) (f : FdId) : Option (Option NodeId) :=
  (Loop.run (forEachSafeTurn (fun _ ↦ m.links) (.pollHead p) (findBody m f) fun _ ↦ none) fuel
    (forEachSafeStart (fun _ ↦ m.links) (.pollHead p) ())).join

def pollAddFd (junk : Cell Place) (m : Memory) (p : PollId) (f : FdId) (types : Dword)
    (info : BitVec 64) (node : Option NodeId) : Option (ℤ × Memory) :=
  match node with
  | none => some (eNomem, m)
  | some n => do
    let links := Function.update (Function.update m.links (.polls n) (some junk)) (.fds n) (some junk)
    let links ← listAdd links (.fdHead f) (.polls n)
    let links ← listAdd links (.pollHead p) (.fds n)
    some (0, { m with nodes := Function.update m.nodes n (some ⟨f, p, types, info⟩), links := links })

def pollDelFd (fuel : ℕ) (m : Memory) (p : PollId) (f : FdId) : Option (ℤ × Memory) := do
  match ← pollFindFd fuel m p f with
  | none => some (eNoent, m)
  | some n => (m.freeNode n).map fun m ↦ (0, m)

def pollModFd (fuel : ℕ) (m : Memory) (p : PollId) (f : FdId) (types : Dword) (info : BitVec 64) :
    Option (ℤ × Memory) := do
  match ← pollFindFd fuel m p f with
  | none => some (eNoent, m)
  | some n =>
    let node := (m.nodes n).map fun e ↦ { e with types := types, info := info }
    some (0, { m with nodes := Function.update m.nodes n node })

/-- The body of the loop in `poll_destroy`, which locks the node's file. -/
def destroyBody (m : Memory) : Place → Option (Memory ⊕ Memory)
  | .fds n => do
    let e ← m.nodes n
    let _ ← m.fds e.fd
    (m.freeNode n).map .inl
  | _ => none

def pollDestroy (fuel : ℕ) (m : Memory) (p : PollId) : Option Memory := do
  let m ← (Loop.run (forEachSafeTurn links (.pollHead p) destroyBody id) fuel
    (forEachSafeStart links (.pollHead p) m)).join
  some { m with polls := Function.update m.polls p none
                links := Function.update m.links (.pollHead p) none }

/-- The body of the loop in `fd_close`, which locks the node's poll. -/
def closeBody (m : Memory) : Place → Option (Memory ⊕ Memory)
  | .polls n => do
    let e ← m.nodes n
    let _ ← m.polls e.poll
    (m.freeNode n).map .inl
  | _ => none

def close (fuel : ℕ) (m : Memory) (fd : Fd) : Option Memory :=
  match fd.ops with
  | .epoll => fd.poll.bind (m.pollDestroy fuel)
  | .other => some m

def fdClose (fuel : ℕ) (m : Memory) (f : FdId) (fd : Fd) : Option Memory :=
  if fd.refcount - 1 = 0 then do
    let m ← (Loop.run (forEachSafeTurn links (.fdHead f) closeBody id) fuel
      (forEachSafeStart links (.fdHead f) m)).join
    let m ← m.close fuel fd
    some { m with fds := Function.update m.fds f none
                  links := Function.update m.links (.fdHead f) none }
  else some { m with fds := Function.update m.fds f (some { fd with refcount := fd.refcount - 1 }) }

def sysEpollCtl (junk : Cell Place) (fuel : ℕ) (m : Memory) (epoll : Option FdId) (op : ℤ)
    (fd : Option FdId) (event : Option EpollEvent) (node : Option NodeId) : Option (ℤ × Memory) :=
  match epoll with
  | none => some (eBadf, m)
  | some epoll => do
    let epoll ← m.fds epoll
    if epoll.ops ≠ .epoll then some (eInval, m)
    else
      match fd with
      | none => some (eBadf, m)
      | some fd =>
        if op = epollCtlDel then epoll.poll.bind fun p ↦ m.pollDelFd fuel p fd
        else
          match event with
          | none => some (eFault, m)
          | some event =>
            if event.events &&& (epollet ||| epolloneshot) ≠ 0 then some (eInval, m)
            else do
              let p ← epoll.poll
              if op = epollCtlAdd then
                let found ← m.pollFindFd fuel p fd
                if found.isSome then some (eExist, m)
                else m.pollAddFd junk p fd event.events event.data node
              else m.pollModFd fuel p fd event.events event.data

/-- A step, `none` also where `fuel` turns of a loop do not end it. -/
def step (junk : Cell Place) (fuel : ℕ) (m : Memory) : Action → Option Memory
  | .fdCreate f => if m.fds f = none then m.fdCreate f .other none else none
  | .fdRetain f => (m.fds f).map fun fd ↦
    { m with fds := Function.update m.fds f (some { fd with refcount := fd.refcount + 1 }) }
  | .fdClose f => (m.fds f).bind (m.fdClose fuel f)
  | .epollCreate f none => if m.fds f = none then m.fdCreate f .epoll none else none
  | .epollCreate f (some p) =>
    if m.fds f = none ∧ m.polls p = none then
      (m.fdCreate f .epoll (some p)).bind fun m ↦ m.pollCreate junk p .epoll
    else none
  | .epollCtl epoll op fd event node =>
    if (∀ f ∈ fd, (m.fds f).isSome) ∧ ∀ n ∈ node, m.nodes n = none then
      (m.sysEpollCtl junk fuel epoll op fd event node).map Prod.snd
    else none
  | .pollCreate p => if m.polls p = none then m.pollCreate junk p .call else none
  | .pollAddFd p f types info node =>
    if m.polls p = some .call ∧ (m.fds f).isSome ∧ ∀ n ∈ node, m.nodes n = none then
      (m.pollAddFd junk p f types info node).map Prod.snd
    else none
  | .pollDestroy p => if m.polls p = some .call then m.pollDestroy fuel p else none

inductive Runs (junk : Cell Place) : Memory → List Action → Memory → Prop
  | nil (m : Memory) : Runs junk m [] m
  | cons {m m' m'' : Memory} {a : Action} {as : List Action} (fuel : ℕ) :
      m.step junk fuel a = some m' → Runs junk m' as m'' → Runs junk m (a :: as) m''

end Memory

/-- A memory that holds the objects and the lists of a state. -/
structure Abstracts (m : Memory) (s : State) : Prop where
  fds : m.fds = s.fds
  polls : m.polls = s.polls
  nodes : m.nodes = s.nodes
  fdLists : Represents m.links .fdHead .polls (fun f ↦ (s.fds f).isSome) s.fdNodes
  pollLists : Represents m.links .pollHead .fds (fun p ↦ (s.polls p).isSome) s.pollNodes

section

variable {junk : Cell Place} {m m' : Memory} {s s' : State} {f : FdId} {p : PollId} {n : NodeId}
  {links links' : Heap Place}

theorem fdPlaces : Places Place.fdHead Place.polls :=
  ⟨fun _ _ h ↦ Place.fdHead.inj h, fun _ _ h ↦ Place.polls.inj h, fun _ _ h ↦ Place.noConfusion h⟩

theorem pollPlaces : Places Place.pollHead Place.fds :=
  ⟨fun _ _ h ↦ Place.pollHead.inj h, fun _ _ h ↦ Place.fds.inj h, fun _ _ h ↦ Place.noConfusion h⟩

theorem fdApart (h : Epoll.Linked s) : Apart s.fdNodes where
  nodup := h.fdNodup
  unique f f' n hf hf' := by
    obtain ⟨p, hl⟩ := (h.fdNodes n f).mp hf
    obtain ⟨p', hl'⟩ := (h.fdNodes n f').mp hf'
    exact (Prod.mk.inj (Option.some.inj (hl.symm.trans hl'))).1

theorem pollApart (h : Epoll.Linked s) : Apart s.pollNodes where
  nodup := h.pollNodup
  unique p p' n hp hp' := by
    obtain ⟨f, hl⟩ := (h.pollNodes n p).mp hp
    obtain ⟨f', hl'⟩ := (h.pollNodes n p').mp hp'
    exact (Prod.mk.inj (Option.some.inj (hl.symm.trans hl'))).2

theorem fdLists_congr {live : FdId → Prop} {l : FdId → List NodeId} {t : Set Place}
    (h : Represents links .fdHead .polls live l)
    (hlinks : ∀ a ∉ t, links'.next a = links.next a ∧ links'.prev a = links.prev a)
    (hhead : ∀ f, live f → .fdHead f ∉ t) (hnode : ∀ f n, n ∈ l f → .polls n ∉ t) :
    Represents links' .fdHead .polls live l := by
  refine h.congr fun f hf a ha ↦ hlinks a ?_
  rcases List.mem_cons.mp ha with rfl | ha
  · exact hhead f hf
  · obtain ⟨n, hn, rfl⟩ := List.mem_map.mp ha
    exact hnode f n hn

theorem pollLists_congr {live : PollId → Prop} {l : PollId → List NodeId} {t : Set Place}
    (h : Represents links .pollHead .fds live l)
    (hlinks : ∀ a ∉ t, links'.next a = links.next a ∧ links'.prev a = links.prev a)
    (hhead : ∀ p, live p → .pollHead p ∉ t) (hnode : ∀ p n, n ∈ l p → .fds n ∉ t) :
    Represents links' .pollHead .fds live l := by
  refine h.congr fun p hp a ha ↦ hlinks a ?_
  rcases List.mem_cons.mp ha with rfl | ha
  · exact hhead p hp
  · obtain ⟨n, hn, rfl⟩ := List.mem_map.mp ha
    exact hnode p n hn

theorem update_links (links : Heap Place) (a : Place) (v : Option (Cell Place)) :
    ∀ b ∉ ({a} : Set Place), Heap.next (Function.update links a v) b = links.next b ∧
      Heap.prev (Function.update links a v) b = links.prev b := by
  intro b hb
  rw [Heap.next, Heap.prev, Function.update_of_ne hb]
  exact ⟨rfl, rfl⟩

theorem update_links₂ (links : Heap Place) (a b : Place) (v w : Option (Cell Place)) :
    ∀ c ∉ ({a, b} : Set Place),
      Heap.next (Function.update (Function.update links a v) b w) c = links.next c ∧
      Heap.prev (Function.update (Function.update links a v) b w) c = links.prev c := by
  intro c hc
  obtain ⟨hca, hcb⟩ := not_or.mp hc
  rw [Heap.next, Heap.prev, Function.update_of_ne hcb, Function.update_of_ne hca]
  exact ⟨rfl, rfl⟩

theorem pollHead_notMem {l : List NodeId} :
    (.pollHead p ∉ ({a | a ∈ .polls n :: .fdHead f :: l.map .polls} : Set Place)) ∧
      ∀ n', .fds n' ∉ ({a | a ∈ .polls n :: .fdHead f :: l.map .polls} : Set Place) := by
  constructor <;> intros <;> simp

theorem fdHead_notMem {l : List NodeId} :
    (.fdHead f ∉ ({a | a ∈ .fds n :: .pollHead p :: l.map .fds} : Set Place)) ∧
      ∀ n', .polls n' ∉ ({a | a ∈ .fds n :: .pollHead p :: l.map .fds} : Set Place) := by
  constructor <;> intros <;> simp

theorem Abstracts.freeNode (h : Abstracts m s) (hs : Sound s) (hl : s.link n = some (f, p)) :
    ∃ m', m.freeNode n = some m' ∧ Abstracts m' (s.freeNode n) := by
  obtain ⟨k₁, h₁, hr₁, hf₁, -⟩ := listRemove_node h.fdLists fdPlaces
    (fdApart hs.toLinked) (hs.liveFd n f p hl) ((hs.fdNodes n f).mpr ⟨p, hl⟩)
  have hp₁ := pollLists_congr h.pollLists hf₁.links (fun _ _ ↦ pollHead_notMem.1)
    fun _ n' _ ↦ (pollHead_notMem (p := p)).2 n'
  obtain ⟨k₂, h₂, hr₂, hf₂, -⟩ := listRemove_node hp₁ pollPlaces
    (pollApart hs.toLinked) (hs.livePoll n f p hl) ((hs.pollNodes n p).mpr ⟨f, hl⟩)
  have hfd₂ := fdLists_congr hr₁ hf₂.links (fun _ _ ↦ fdHead_notMem.1)
    fun _ n' _ ↦ (fdHead_notMem (f := f)).2 n'
  have hfree := update_links₂ k₂ (.polls n) (.fds n) none none
  refine ⟨⟨m.fds, m.polls, Function.update m.nodes n none,
    Function.update (Function.update k₂ (.polls n) none) (.fds n) none⟩, ?_,
    ⟨h.fds, h.polls, ?_, fdLists_congr hfd₂ hfree ?_ ?_, pollLists_congr hr₂ hfree ?_ ?_⟩⟩
  · rw [Memory.freeNode, h₁, Option.bind_eq_bind, Option.bind_some, h₂]
    rfl
  · exact congrArg (Function.update · n none) h.nodes
  · simp
  · intro g n' hn'
    simpa using (Links.mem_remove.mp hn').2
  · simp
  · intro q n' hn'
    simpa using (Links.mem_remove.mp hn').2

/-! The loops. -/

theorem freeNode_head_fd (hs : Sound s) {ns : List NodeId} (hf : s.fdNodes f = n :: ns) :
    (s.freeNode n).fdNodes f = ns := by
  obtain ⟨hn, -⟩ := List.nodup_cons.mp (hf ▸ hs.fdNodup f)
  change (s.fdNodes f).filter (· ≠ n) = ns
  rw [hf, List.filter_cons_of_neg (by simp)]
  exact List.filter_eq_self.mpr fun a ha ↦ by simpa using ne_of_mem_of_not_mem ha hn

theorem freeNode_head_poll (hs : Sound s) {ns : List NodeId} (hp : s.pollNodes p = n :: ns) :
    (s.freeNode n).pollNodes p = ns := by
  obtain ⟨hn, -⟩ := List.nodup_cons.mp (hp ▸ hs.pollNodup p)
  change (s.pollNodes p).filter (· ≠ n) = ns
  rw [hp, List.filter_cons_of_neg (by simp)]
  exact List.filter_eq_self.mpr fun a ha ↦ by simpa using ne_of_mem_of_not_mem ha hn

/-- What is left to free when a poll is destroyed: the nodes at the places `xs`. -/
def Destroying (s : State) (p : PollId) (xs : List Place) (m : Memory) : Prop :=
  ∃ t, xs = (t.pollNodes p).map .fds ∧ Sound t ∧ Abstracts m t ∧ (t.polls p).isSome ∧
    t.freeNodes (t.pollNodes p) = s.freeNodes (s.pollNodes p)

theorem Destroying.body {x : Place} {xs : List Place} (h : Destroying s p (x :: xs) m) :
    ∃ m', m.destroyBody x = some (.inl m') ∧ Destroying s p xs m' := by
  obtain ⟨t, hxs, ht, habs, hp, heq⟩ := h
  obtain ⟨n, ns, hns, rfl, rfl⟩ := List.map_eq_cons_iff.mp hxs.symm
  obtain ⟨f, hl⟩ := (ht.pollNodes n p).mp (hns ▸ List.mem_cons_self)
  obtain ⟨e, he, hef, hep⟩ := link_eq_some.mp hl
  obtain ⟨fd, hfd⟩ := Option.isSome_iff_exists.mp (ht.liveFd n f p hl)
  obtain ⟨m', h', habs'⟩ := habs.freeNode ht hl
  refine ⟨m', ?_, t.freeNode n, ?_, ht.freeNode n, habs', hp, ?_⟩
  · rw [Memory.destroyBody, habs.nodes, he, Option.bind_eq_bind, Option.bind_some, habs.fds, hef,
      hfd, Option.bind_eq_bind, Option.bind_some, h', Option.map_some]
  · rw [freeNode_head_poll ht hns]
  · rw [← heq, hns, freeNode_head_poll ht hns]
    rfl

/-- The loop of `poll_destroy` frees the nodes of the poll, and ends. -/
theorem Abstracts.destroyLoop (h : Abstracts m s) (hs : Sound s) (hp : (s.polls p).isSome) :
    ∃ fuel m', Loop.run (forEachSafeTurn Memory.links (.pollHead p) Memory.destroyBody id) fuel
      (forEachSafeStart Memory.links (.pollHead p) m) = some (some m') ∧
        Abstracts m' (s.freeNodes (s.pollNodes p)) := by
  have hring (xs : List Place) (m : Memory) (hd : Destroying s p xs m) :
      Circular m.links (.pollHead p) xs := by
    obtain ⟨t, rfl, -, habs, hp, -⟩ := hd
    exact habs.pollLists p hp
  have hhead : Place.pollHead p ∉ (s.pollNodes p).map .fds := by simp
  obtain ⟨m', ⟨t, ht, -, habs, -, heq⟩, hret⟩ := forEachSafe_returns hhead hring
    (fun x xs m hd ↦ hd.body) ⟨s, rfl, hs, h, hp, rfl⟩
  obtain ⟨fuel, hrun⟩ := Loop.returns_iff_run.mp hret
  refine ⟨fuel, m', hrun, ?_⟩
  rw [← heq, List.map_eq_nil_iff.mp ht.symm]
  exact habs

/-- What is left to free when a file is closed. -/
def Closing (s : State) (f : FdId) (xs : List Place) (m : Memory) : Prop :=
  ∃ t, xs = (t.fdNodes f).map .polls ∧ Sound t ∧ Abstracts m t ∧ (t.fds f).isSome ∧
    t.freeNodes (t.fdNodes f) = s.freeNodes (s.fdNodes f)

theorem Closing.body {x : Place} {xs : List Place} (h : Closing s f (x :: xs) m) :
    ∃ m', m.closeBody x = some (.inl m') ∧ Closing s f xs m' := by
  obtain ⟨t, hxs, ht, habs, hf, heq⟩ := h
  obtain ⟨n, ns, hns, rfl, rfl⟩ := List.map_eq_cons_iff.mp hxs.symm
  obtain ⟨p, hl⟩ := (ht.fdNodes n f).mp (hns ▸ List.mem_cons_self)
  obtain ⟨e, he, hef, hep⟩ := link_eq_some.mp hl
  obtain ⟨c, hc⟩ := Option.isSome_iff_exists.mp (ht.livePoll n f p hl)
  obtain ⟨m', h', habs'⟩ := habs.freeNode ht hl
  refine ⟨m', ?_, t.freeNode n, ?_, ht.freeNode n, habs', hf, ?_⟩
  · rw [Memory.closeBody, habs.nodes, he, Option.bind_eq_bind, Option.bind_some, habs.polls, hep,
      hc, Option.bind_eq_bind, Option.bind_some, h', Option.map_some]
  · rw [freeNode_head_fd ht hns]
  · rw [← heq, hns, freeNode_head_fd ht hns]
    rfl

theorem Abstracts.closeLoop (h : Abstracts m s) (hs : Sound s) (hf : (s.fds f).isSome) :
    ∃ fuel m', Loop.run (forEachSafeTurn Memory.links (.fdHead f) Memory.closeBody id) fuel
      (forEachSafeStart Memory.links (.fdHead f) m) = some (some m') ∧
        Abstracts m' (s.freeNodes (s.fdNodes f)) := by
  have hring (xs : List Place) (m : Memory) (hd : Closing s f xs m) :
      Circular m.links (.fdHead f) xs := by
    obtain ⟨t, rfl, -, habs, hf, -⟩ := hd
    exact habs.fdLists f hf
  have hhead : Place.fdHead f ∉ (s.fdNodes f).map .polls := by simp
  obtain ⟨m', ⟨t, ht, -, habs, -, heq⟩, hret⟩ := forEachSafe_returns hhead hring
    (fun x xs m hd ↦ hd.body) ⟨s, rfl, hs, h, hf, rfl⟩
  obtain ⟨fuel, hrun⟩ := Loop.returns_iff_run.mp hret
  refine ⟨fuel, m', hrun, ?_⟩
  rw [← heq, List.map_eq_nil_iff.mp ht.symm]
  exact habs

theorem findSome_eq_find {α : Type} (xs : List α) (q : α → Bool) :
    (xs.findSome? fun x ↦ if q x then some (some x) else none).getD none = xs.find? q := by
  induction xs with
  | nil => rfl
  | cons x xs ih =>
    rw [List.findSome?_cons, List.find?_cons]
    cases q x
    · exact ih
    · rfl

/-- The node of a file among those of a poll, as a loop over them finds it. -/
def findNode (s : State) (f : FdId) : Place → Option (Option NodeId)
  | .fds n => if (s.nodes n).any fun e ↦ e.fd = f then some (some n) else none
  | _ => none

theorem Abstracts.pollFindFd (h : Abstracts m s) (hs : Sound s) (hp : (s.polls p).isSome)
    (f : FdId) : ∃ fuel, m.pollFindFd fuel p f = some (s.pollFindFd p f) := by
  let g : Place → Option (Option NodeId) := findNode s f
  have hhead : Place.pollHead p ∉ (s.pollNodes p).map .fds := by simp
  have hbody : ∀ x ∈ (s.pollNodes p).map .fds,
      m.findBody f () x = some ((g x).elim (.inl ()) .inr) := by
    intro x hx
    obtain ⟨n, hn, rfl⟩ := List.mem_map.mp hx
    obtain ⟨f', hl⟩ := (hs.pollNodes n p).mp hn
    obtain ⟨e, he, -, -⟩ := link_eq_some.mp hl
    by_cases hef : e.fd = f <;> simp [g, findNode, Memory.findBody, h.nodes, he, hef]
  have hret := forEachSafe_find (r := none) hhead (h.pollLists p hp) hbody
  rw [List.findSome?_map] at hret
  obtain ⟨fuel, hrun⟩ := Loop.returns_iff_run.mp hret
  refine ⟨fuel, ?_⟩
  rw [Memory.pollFindFd, hrun, Option.join_some]
  exact congrArg some (findSome_eq_find _ _)

/-! The calls. -/

theorem Abstracts.fdCreate (h : Abstracts m s) (f : FdId) (ops : FdOps) (poll : Option PollId) :
    ∃ m', m.fdCreate f ops poll = some m' ∧ Abstracts m' (s.fdCreate f ops poll) := by
  have ha : ((Function.update m.links (.fdHead f) (some ⟨none, none⟩)) (.fdHead f)).isSome := by simp
  obtain ⟨k, hk, hrew⟩ := exists_link ha ha
  have hother (a : Place) (hne : a ≠ .fdHead f) :
      k.next a = m.links.next a ∧ k.prev a = m.links.prev a := by
    rw [hrew.next_eq, hrew.prev_eq, Function.update_of_ne hne, Function.update_of_ne hne]
    exact update_links _ _ _ a hne
  refine ⟨⟨Function.update m.fds f (some ⟨1, ops, poll⟩), m.polls, m.nodes, k⟩, ?_,
    ⟨congrArg (Function.update · f _) h.fds, h.polls, h.nodes, fun g hg ↦ ?_, ?_⟩⟩
  · have hk' : listInit (Function.update m.links (.fdHead f) (some ⟨none, none⟩)) (.fdHead f) =
        some k := hk
    rw [Memory.fdCreate, hk']
    rfl
  · by_cases hgf : g = f
    · subst hgf
      change Circular k (.fdHead g) ((Function.update s.fdNodes g [] g).map .polls)
      rw [Function.update_self]
      refine ring_nil.mpr ⟨?_, ?_⟩
      · rw [hrew.next_eq, Function.update_self]
      · rw [hrew.prev_eq, Function.update_self]
    · change (Function.update s.fds f _ g).isSome at hg
      change Circular k (.fdHead g) ((Function.update s.fdNodes f [] g).map .polls)
      rw [Function.update_of_ne hgf] at hg ⊢
      refine (h.fdLists g hg).congr fun a ha ↦ hother a ?_
      rintro rfl
      simp [Ne.symm hgf] at ha
  · exact pollLists_congr h.pollLists (t := {.fdHead f}) hother (by simp) (by simp)

theorem Abstracts.pollCreate (h : Abstracts m s) (junk : Cell Place) (p : PollId) (c : Creator) :
    ∃ m', m.pollCreate junk p c = some m' ∧ Abstracts m' (s.pollCreate p c) := by
  have ha : ((Function.update m.links (.pollHead p) (some junk)) (.pollHead p)).isSome := by simp
  obtain ⟨k, hk, hrew⟩ := exists_link ha ha
  have hother (a : Place) (hne : a ≠ .pollHead p) :
      k.next a = m.links.next a ∧ k.prev a = m.links.prev a := by
    rw [hrew.next_eq, hrew.prev_eq, Function.update_of_ne hne, Function.update_of_ne hne]
    exact update_links _ _ _ a hne
  refine ⟨⟨m.fds, Function.update m.polls p (some c), m.nodes, k⟩, ?_,
    ⟨h.fds, congrArg (Function.update · p _) h.polls, h.nodes, ?_, fun q hq ↦ ?_⟩⟩
  · have hk' : listInit (Function.update m.links (.pollHead p) (some junk)) (.pollHead p) =
        some k := hk
    rw [Memory.pollCreate, hk']
    rfl
  · exact fdLists_congr h.fdLists (t := {.pollHead p}) hother (by simp) (by simp)
  · by_cases hqp : q = p
    · subst hqp
      change Circular k (.pollHead q) ((Function.update s.pollNodes q [] q).map .fds)
      rw [Function.update_self]
      refine ring_nil.mpr ⟨?_, ?_⟩
      · rw [hrew.next_eq, Function.update_self]
      · rw [hrew.prev_eq, Function.update_self]
    · change (Function.update s.polls p _ q).isSome at hq
      change Circular k (.pollHead q) ((Function.update s.pollNodes p [] q).map .fds)
      rw [Function.update_of_ne hqp] at hq ⊢
      refine (h.pollLists q hq).congr fun a ha ↦ hother a ?_
      rintro rfl
      simp [Ne.symm hqp] at ha

theorem Abstracts.setFd {fd : Fd} (h : Abstracts m s) (hf : (s.fds f).isSome) :
    Abstracts { m with fds := Function.update m.fds f (some fd) }
      { s with fds := Function.update s.fds f (some fd) } where
  fds := congrArg (Function.update · f _) h.fds
  polls := h.polls
  nodes := h.nodes
  fdLists g hg := by
    refine h.fdLists g ?_
    by_cases hgf : g = f
    · exact hgf ▸ hf
    · change (Function.update s.fds f _ g).isSome at hg
      rwa [Function.update_of_ne hgf] at hg
  pollLists := h.pollLists

theorem Abstracts.pollDestroy (h : Abstracts m s) (hs : Sound s) (hp : (s.polls p).isSome) :
    ∃ fuel m', m.pollDestroy fuel p = some m' ∧ Abstracts m' (s.pollDestroy p) := by
  obtain ⟨fuel, m₁, hrun, h₁⟩ := h.destroyLoop hs hp
  have hfree := update_links m₁.links (.pollHead p) none
  refine ⟨fuel, ⟨m₁.fds, Function.update m₁.polls p none, m₁.nodes,
    Function.update m₁.links (.pollHead p) none⟩, ?_, ⟨h₁.fds, ?_, h₁.nodes, ?_, fun q hq ↦ ?_⟩⟩
  · rw [Memory.pollDestroy, hrun]
    rfl
  · rw [h₁.polls, freeNodes_polls]
    rfl
  · exact fdLists_congr h₁.fdLists hfree (by simp) (by simp)
  · obtain ⟨c, hc⟩ := Option.isSome_iff_exists.mp hq
    obtain ⟨hqp, hc⟩ := update_none_eq_some.mp hc
    have hlive : ((s.freeNodes (s.pollNodes p)).polls q).isSome := by
      rw [freeNodes_polls, hc]
      rfl
    refine (h₁.pollLists q hlive).congr fun a ha ↦ hfree a ?_
    rintro rfl
    simp [Ne.symm hqp] at ha

theorem pollDestroy_mono {n k : ℕ} (hnk : n ≤ k) (h : m.pollDestroy n p = some m') :
    m.pollDestroy k p = some m' := by
  obtain ⟨m₁, hrun, h⟩ := Option.bind_eq_some_iff.mp h
  rw [Memory.pollDestroy, Loop.run_mono hnk (Option.join_eq_some_iff.mp hrun), Option.join_some]
  exact h

theorem Abstracts.freeFd (h : Abstracts m s) (f : FdId) :
    Abstracts { m with fds := Function.update m.fds f none
                       links := Function.update m.links (.fdHead f) none }
      { s with fds := Function.update s.fds f none } where
  fds := congrArg (Function.update · f _) h.fds
  polls := h.polls
  nodes := h.nodes
  fdLists g hg := by
    obtain ⟨gd, hgd⟩ := Option.isSome_iff_exists.mp hg
    obtain ⟨hgf, hgd⟩ := update_none_eq_some.mp hgd
    refine (h.fdLists g (Option.isSome_of_eq_some hgd)).congr fun a ha ↦ update_links _ _ _ a ?_
    rintro rfl
    simp [Ne.symm hgf] at ha
  pollLists := pollLists_congr h.pollLists (update_links _ _ _) (by simp) (by simp)

theorem sound_freeNodes (hs : Sound s) (ns : List NodeId) : Sound (s.freeNodes ns) := by
  induction ns generalizing s with
  | nil => exact hs
  | cons n ns ih => exact ih (hs.freeNode n)

theorem Abstracts.fdClose {fd : Fd} (h : Abstracts m s) (hs : Sound s) (hf : s.fds f = some fd)
    (hs' : s.fdClose f fd = some s') :
    ∃ fuel m', m.fdClose fuel f fd = some m' ∧ Abstracts m' s' := by
  have hlive : (s.fds f).isSome := by
    rw [hf]
    rfl
  unfold State.fdClose at hs'
  split at hs'
  · rename_i hcount
    obtain ⟨t, hclose, rfl⟩ := Option.map_eq_some_iff.mp hs'
    obtain ⟨n₁, m₁, hrun, h₁⟩ := h.closeLoop hs hlive
    have hs₁ := sound_freeNodes hs (s.fdNodes f)
    have hend : ∃ n₂ m₂, m₁.close n₂ fd = some m₂ ∧ Abstracts m₂ t ∧
        ∀ k, n₂ ≤ k → m₁.close k fd = some m₂ := by
      unfold State.close at hclose
      cases hops : fd.ops with
      | epoll =>
        rw [hops] at hclose
        obtain ⟨p, hp, rfl⟩ := Option.map_eq_some_iff.mp hclose
        have hpoll : ((s.freeNodes (s.fdNodes f)).polls p).isSome := by
          rw [freeNodes_polls, hs.owned f fd p hf hp]
          rfl
        obtain ⟨n₂, m₂, hm₂, h₂⟩ := h₁.pollDestroy hs₁ hpoll
        have hmono (k : ℕ) (hk : n₂ ≤ k) : m₁.close k fd = some m₂ := by
          rw [Memory.close, hops, hp]
          exact pollDestroy_mono hk hm₂
        exact ⟨n₂, m₂, hmono n₂ le_rfl, h₂, hmono⟩
      | other =>
        rw [hops] at hclose
        cases hclose
        have hsame (k : ℕ) : m₁.close k fd = some m₁ := by rw [Memory.close, hops]
        exact ⟨0, m₁, hsame 0, h₁, fun k _ ↦ hsame k⟩
    obtain ⟨n₂, m₂, -, h₂, hmono⟩ := hend
    refine ⟨max n₁ n₂, _, ?_, h₂.freeFd f⟩
    rw [Memory.fdClose, if_pos hcount, Loop.run_mono (le_max_left n₁ n₂) hrun, Option.join_some,
      Option.bind_eq_bind, Option.bind_some, hmono _ (le_max_right n₁ n₂)]
    rfl
  · rename_i hcount
    cases hs'
    exact ⟨0, _, by rw [Memory.fdClose, if_neg hcount], h.setFd hlive⟩

theorem Abstracts.pollAddFd {node : Option NodeId} (h : Abstracts m s) (hs : Sound s)
    (hf : (s.fds f).isSome) (hp : (s.polls p).isSome) (hnode : ∀ n ∈ node, s.nodes n = none)
    (junk : Cell Place) (types : Dword) (info : BitVec 64) : ∃ m',
      m.pollAddFd junk p f types info node = some ((s.pollAddFd p f types info node).1, m') ∧
      Abstracts m' (s.pollAddFd p f types info node).2 := by
  cases node with
  | none => exact ⟨m, rfl, h⟩
  | some n =>
    have hoff : s.link n = none := by
      rw [State.link, hnode n rfl]
      rfl
    have hfd (f' : FdId) : n ∉ s.fdNodes f' := by
      intro hn
      obtain ⟨q, hl⟩ := (hs.fdNodes n f').mp hn
      cases hoff.symm.trans hl
    have hpoll (q : PollId) : n ∉ s.pollNodes q := by
      intro hn
      obtain ⟨g, hl⟩ := (hs.pollNodes n q).mp hn
      cases hoff.symm.trans hl
    have hnew := update_links₂ m.links (.polls n) (.fds n) (some junk) (some junk)
    have hfd₀ := fdLists_congr h.fdLists hnew (by simp) fun f' n' hn' ↦ by
      simpa using ne_of_mem_of_not_mem hn' (hfd f')
    have hpoll₀ := pollLists_congr h.pollLists hnew (by simp) fun q n' hn' ↦ by
      simpa using ne_of_mem_of_not_mem hn' (hpoll q)
    obtain ⟨k₁, h₁, hr₁, hf₁⟩ := listAdd_head hfd₀ fdPlaces (fdApart hs.toLinked) hf hfd
      (by simp)
    have hp₁ := pollLists_congr hpoll₀ hf₁.links (fun _ _ ↦ pollHead_notMem.1)
      fun _ n' _ ↦ (pollHead_notMem (p := p)).2 n'
    have hsome : (k₁ (.fds n)).isSome := by
      rw [hf₁.isSome_eq, Function.update_self]
      rfl
    obtain ⟨k₂, h₂, hr₂, hf₂⟩ := listAdd_head hp₁ pollPlaces (pollApart hs.toLinked) hp
      hpoll hsome
    have hfd₂ := fdLists_congr hr₁ hf₂.links (fun _ _ ↦ fdHead_notMem.1)
      fun _ n' _ ↦ (fdHead_notMem (f := f)).2 n'
    refine ⟨⟨m.fds, m.polls, Function.update m.nodes n (some ⟨f, p, types, info⟩), k₂⟩, ?_,
      ⟨h.fds, h.polls, congrArg (Function.update · n _) h.nodes, hfd₂, hr₂⟩⟩
    rw [Memory.pollAddFd, h₁, Option.bind_eq_bind, Option.bind_some, h₂]
    rfl

theorem Abstracts.pollDelFd (h : Abstracts m s) (hs : Sound s) (hp : (s.polls p).isSome)
    (f : FdId) : ∃ fuel m', m.pollDelFd fuel p f = some ((s.pollDelFd p f).1, m') ∧
      Abstracts m' (s.pollDelFd p f).2 := by
  obtain ⟨fuel, hfind⟩ := h.pollFindFd hs hp f
  refine ⟨fuel, ?_⟩
  rw [Memory.pollDelFd, hfind, Option.bind_eq_bind, Option.bind_some, State.pollDelFd]
  cases hn : s.pollFindFd p f with
  | none => exact ⟨m, rfl, h⟩
  | some n =>
    obtain ⟨g, hl⟩ := (hs.pollNodes n p).mp (List.mem_of_find?_eq_some hn)
    obtain ⟨m', h', habs⟩ := h.freeNode hs hl
    exact ⟨m', by simp [h'], habs⟩

theorem Abstracts.pollModFd (h : Abstracts m s) (hs : Sound s) (hp : (s.polls p).isSome) (f : FdId)
    (types : Dword) (info : BitVec 64) :
    ∃ fuel m', m.pollModFd fuel p f types info = some ((s.pollModFd p f types info).1, m') ∧
      Abstracts m' (s.pollModFd p f types info).2 := by
  obtain ⟨fuel, hfind⟩ := h.pollFindFd hs hp f
  refine ⟨fuel, ?_⟩
  rw [Memory.pollModFd, hfind, Option.bind_eq_bind, Option.bind_some, State.pollModFd]
  cases s.pollFindFd p f with
  | none => exact ⟨m, rfl, h⟩
  | some n =>
    refine ⟨_, rfl, ⟨h.fds, h.polls, ?_, h.fdLists, h.pollLists⟩⟩
    change Function.update m.nodes n _ = Function.update s.nodes n _
    rw [h.nodes]

theorem Abstracts.sysEpollCtl {epoll fd : Option FdId} {op r : ℤ} {event : Option EpollEvent}
    {node : Option NodeId} (h : Abstracts m s) (hs : Sound s) (hf : ∀ f ∈ fd, (s.fds f).isSome)
    (hnode : ∀ n ∈ node, s.nodes n = none)
    (hs' : s.sysEpollCtl epoll op fd event node = some (r, s')) (junk : Cell Place) :
    ∃ fuel m', m.sysEpollCtl junk fuel epoll op fd event node = some (r, m') ∧
      Abstracts m' s' := by
  cases epoll with
  | none =>
    cases hs'
    exact ⟨0, m, rfl, h⟩
  | some g =>
    obtain ⟨gd, hg, hs'⟩ := Option.bind_eq_some_iff.mp hs'
    simp only [Memory.sysEpollCtl, h.fds, hg, Option.bind_eq_bind, Option.bind_some]
    split at hs' <;> rename_i hops
    · cases hs'
      exact ⟨0, m, if_pos hops, h⟩
    simp only [if_neg hops]
    cases fd with
    | none =>
      cases hs'
      exact ⟨0, m, rfl, h⟩
    | some f =>
      dsimp only at hs' ⊢
      split at hs' <;> rename_i hdel
      · obtain ⟨p, hp, heq⟩ := Option.map_eq_some_iff.mp hs'
        have hpoll : (s.polls p).isSome := Option.isSome_of_eq_some (hs.owned g gd p hg hp)
        obtain ⟨fuel, m', h', habs⟩ := h.pollDelFd hs hpoll f
        rw [heq] at h' habs
        exact ⟨fuel, m', by rw [if_pos hdel, hp, Option.bind_some, h'], habs⟩
      simp only [if_neg hdel]
      cases event with
      | none =>
        cases hs'
        exact ⟨0, m, rfl, h⟩
      | some event =>
        dsimp only at hs' ⊢
        split at hs' <;> rename_i hev
        · cases hs'
          exact ⟨0, m, if_pos hev, h⟩
        obtain ⟨p, hp, heq⟩ := Option.map_eq_some_iff.mp hs'
        have hpoll : (s.polls p).isSome := Option.isSome_of_eq_some (hs.owned g gd p hg hp)
        simp only [if_neg hev, hp, Option.bind_some]
        split at heq <;> rename_i hadd
        · obtain ⟨fuel, hfind⟩ := h.pollFindFd hs hpoll f
          simp only [if_pos hadd]
          split at heq <;> rename_i hhas
          · cases heq
            exact ⟨fuel, m, by rw [hfind, Option.bind_some]; exact if_pos hhas, h⟩
          · obtain ⟨m', h', habs⟩ := h.pollAddFd hs (hf f rfl) hpoll hnode junk
              event.events event.data
            rw [heq] at h' habs
            exact ⟨fuel, m', by rw [hfind, Option.bind_some, ← h']; exact if_neg hhas, habs⟩
        · obtain ⟨fuel, m', h', habs⟩ := h.pollModFd hs hpoll f event.events event.data
          rw [heq] at h' habs
          exact ⟨fuel, m', by rw [if_neg hadd, h'], habs⟩

/-- A call that the state can take is one that ends in memory, and does there what
it does to the lists. -/
theorem Abstracts.step {a : Action} (h : Abstracts m s) (hs : Sound s) (ha : s.step a = some s')
    (junk : Cell Place) :
    ∃ fuel m', m.step junk fuel a = some m' ∧ Abstracts m' s' := by
  cases a with
  | fdCreate f =>
    obtain ⟨hf, ha⟩ := Option.ite_none_right_eq_some.mp ha
    cases ha
    obtain ⟨m', h', habs⟩ := h.fdCreate f .other none
    exact ⟨0, m', by rw [Memory.step, h.fds, if_pos hf, h'], habs⟩
  | fdRetain f =>
    obtain ⟨fd, hf, rfl⟩ := Option.map_eq_some_iff.mp ha
    refine ⟨0, _, by rw [Memory.step, h.fds, hf, Option.map_some], h.fds ▸ h.setFd ?_⟩
    exact Option.isSome_of_eq_some hf
  | fdClose f =>
    obtain ⟨fd, hf, ha⟩ := Option.bind_eq_some_iff.mp ha
    obtain ⟨fuel, m', h', habs⟩ := h.fdClose hs hf ha
    exact ⟨fuel, m', by rw [Memory.step, h.fds, hf, Option.bind_some, h'], habs⟩
  | epollCreate f poll =>
    cases poll with
    | none =>
      obtain ⟨hf, ha⟩ := Option.ite_none_right_eq_some.mp ha
      cases ha
      obtain ⟨m', h', habs⟩ := h.fdCreate f .epoll none
      exact ⟨0, m', by rw [Memory.step, h.fds, if_pos hf, h'], habs⟩
    | some p =>
      obtain ⟨hfp, ha⟩ := Option.ite_none_right_eq_some.mp ha
      cases ha
      obtain ⟨m₁, h₁, habs₁⟩ := h.fdCreate f .epoll (some p)
      obtain ⟨m₂, h₂, habs₂⟩ := habs₁.pollCreate junk p .epoll
      refine ⟨0, m₂, ?_, habs₂⟩
      rw [Memory.step, h.fds, h.polls, if_pos hfp, h₁, Option.bind_some, h₂]
  | epollCtl epoll op fd event node =>
    obtain ⟨hfn, ha⟩ := Option.ite_none_right_eq_some.mp ha
    obtain ⟨⟨r, t⟩, hctl, rfl⟩ := Option.map_eq_some_iff.mp ha
    obtain ⟨fuel, m', h', habs⟩ := h.sysEpollCtl hs hfn.1 hfn.2 hctl junk
    exact ⟨fuel, m', by rw [Memory.step, h.fds, h.nodes, if_pos hfn, h', Option.map_some], habs⟩
  | pollCreate p =>
    obtain ⟨hp, ha⟩ := Option.ite_none_right_eq_some.mp ha
    cases ha
    obtain ⟨m', h', habs⟩ := h.pollCreate junk p .call
    exact ⟨0, m', by rw [Memory.step, h.polls, if_pos hp, h'], habs⟩
  | pollAddFd p f types info node =>
    obtain ⟨hpf, ha⟩ := Option.ite_none_right_eq_some.mp ha
    cases ha
    obtain ⟨m', h', habs⟩ := h.pollAddFd hs hpf.2.1 (Option.isSome_of_eq_some hpf.1) hpf.2.2
      junk types info
    refine ⟨0, m', ?_, habs⟩
    rw [Memory.step, h.polls, h.fds, h.nodes, if_pos hpf, h', Option.map_some]
  | pollDestroy p =>
    obtain ⟨hp, ha⟩ := Option.ite_none_right_eq_some.mp ha
    cases ha
    obtain ⟨fuel, m', h', habs⟩ := h.pollDestroy hs (Option.isSome_of_eq_some hp)
    exact ⟨fuel, m', by rw [Memory.step, h.polls, if_pos hp, h'], habs⟩

theorem abstracts_init : Abstracts Memory.init State.init :=
  ⟨rfl, rfl, rfl, fun _ h ↦ Bool.noConfusion h, fun _ h ↦ Bool.noConfusion h⟩

theorem Abstracts.runs {actions : List Action} (h : Abstracts m s) (hs : Sound s)
    (hrun : Run.exec State.step s actions = some s') :
    ∃ m', Memory.Runs junk m actions m' ∧ Abstracts m' s' := by
  induction actions generalizing m s with
  | nil =>
    cases hrun
    exact ⟨m, .nil m, h⟩
  | cons a actions ih =>
    obtain ⟨u, hu, hrun⟩ := Option.bind_eq_some_iff.mp hrun
    obtain ⟨fuel, m₁, h₁, habs₁⟩ := h.step hs hu junk
    obtain ⟨m₂, h₂, habs₂⟩ := ih habs₁ (hs.step hu) hrun
    exact ⟨m₂, .cons fuel h₁ h₂, habs₂⟩

end

end Isl.Fs.PollHeap
