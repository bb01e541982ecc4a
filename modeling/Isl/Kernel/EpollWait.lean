import Isl.Emu.MemWrite
import Isl.Fs.Epoll
import Isl.Fs.PollScan

/-!
`sys_epoll_wait` of `kernel/epoll.c`, while other threads change the epoll between the
turns of the wait.
-/

namespace Isl.Kernel.EpollWait

open Isl.Lib
open Isl.Emu (GuestMem)
open Isl.Fs.PollScan hiding PollFd
open Isl.Fs.Epoll (State EpollEvent PollId Sound eBadf eFault eInval)
open Isl.Emu.Memory (Addr Byte)

/-- `epoll_callback`, with the events that `context->events` holds so far. -/
def epollCallback (maxEvents : ℕ) : Callback (List EpollEvent) := fun events p types ↦
  if maxEvents ≤ events.length then (events, false)
  else (events ++ [⟨types, .ofNat 64 p.info⟩], true)

/-- A `struct epoll_event_`, which is packed. -/
def bytes (e : EpollEvent) : List Byte := Layout.image [(4, e.events.toNat), (8, e.data.toNat)]

/-- The list of a poll, as the loop of `poll_wait` sees it. -/
def pollFds (s : State) (p : PollId) : List Fs.PollScan.PollFd :=
  (s.pollNodes p).filterMap fun n ↦ (s.nodes n).map fun e ↦ ⟨e.fd, e.types, e.info.toNat⟩

/-- A turn of `poll_wait`, with the list that the epoll has in it. -/
def turnStep (host : Host) (maxEvents : ℕ) (lists : ℕ → List Fs.PollScan.PollFd)
    (w : Waiting (List EpollEvent)) :
    Waiting (List EpollEvent) ⊕ Option (Returned (List EpollEvent)) :=
  waitStep host (epollCallback maxEvents) (lists w.turn) w

/-- What the call does with the result of `poll_wait`. -/
def writeEvents (mem : GuestMem) (eventsAddr : Addr) (w : Returned (List EpollEvent)) :
    ℤ × GuestMem :=
  if 0 ≤ w.result then
    let u := mem.userWrite eventsAddr ((w.context.take w.result.toNat).flatMap bytes)
    if u.2 ≠ 0 then (eFault, u.1) else (w.result, u.1)
  else (w.result, mem)

/-- `sys_epoll_wait` ends with this. `epoll` is what `f_get` finds, `states` are the files and
polls in the turns of the wait, and `mem` is the memory after it. -/
def SysEpollWait (states : ℕ → State) (host : Host) (mem : GuestMem) (epoll : Option FdId)
    (eventsAddr : Addr) (maxEvents : ℤ) (r : ℤ × GuestMem) : Prop :=
  match epoll with
  | none => r = (eBadf, mem)
  | some f =>
    ∃ fd, (states 0).fds f = some fd ∧
      if fd.ops ≠ .epoll then r = (eInval, mem)
      else if maxEvents ≤ 0 then r = (eInval, mem)
      else
        ∃ p w, fd.poll = some p ∧
          Loop.Returns (turnStep host maxEvents.toNat fun turn ↦ pollFds (states turn) p)
            ⟨[], 0, false⟩ (some w) ∧
          r = writeEvents mem eventsAddr w

section

variable {host : Host} {maxEvents turn n : ℕ} {list : List Fs.PollScan.PollFd}
  {events events' : List EpollEvent} {lists : ℕ → List Fs.PollScan.PollFd}

/-- What is told of a file that is ready. -/
def eventOf (host : Host) (turn : ℕ) (p : Fs.PollScan.PollFd) : EpollEvent :=
  ⟨host.pollTypes turn p, .ofNat 64 p.info⟩

/-- The first files that are ready get the room that is left, in the order of the list. -/
theorem scan_epoll (hle : events.length ≤ maxEvents)
    (h : scan host (epollCallback maxEvents) turn list events = some (events', n)) :
    events' = events ++
        ((host.reported turn list).take (maxEvents - events.length)).map (eventOf host turn) ∧
      n = min (maxEvents - events.length) (host.reported turn list).length := by
  induction list generalizing events events' n with
  | nil =>
    cases h
    exact ⟨by simp [Host.reported], by simp [Host.reported]⟩
  | cons p list ih =>
    rw [scan] at h
    by_cases hzero : host.pollTypes turn p = 0
    · have hreported : host.reported turn (p :: list) = host.reported turn list :=
        List.filter_cons_of_neg (by simpa using hzero)
      rw [hreported]
      simp only [if_pos hzero] at h
      exact ih hle h
    · have hreported : host.reported turn (p :: list) = p :: host.reported turn list :=
        List.filter_cons_of_pos (by simpa using hzero)
      simp only [if_neg hzero] at h
      obtain ⟨-, h⟩ := Option.ite_none_left_eq_some.mp h
      obtain ⟨⟨c, m⟩, hscan, heq⟩ := Option.map_eq_some_iff.mp h
      obtain ⟨rfl, rfl⟩ := Prod.mk.inj heq
      rw [hreported]
      by_cases hfull : maxEvents ≤ events.length
      · have hroom : maxEvents - events.length = 0 := Nat.sub_eq_zero_of_le hfull
        simp only [epollCallback, if_pos hfull] at hscan ⊢
        obtain ⟨hevents, hn⟩ := ih hle hscan
        rw [hroom, List.take_zero] at hevents ⊢
        rw [hroom, Nat.zero_min] at hn
        rw [hn, Nat.zero_min]
        exact ⟨hevents, rfl⟩
      · obtain ⟨room, hroom⟩ : ∃ room, maxEvents - events.length = room + 1 :=
          ⟨maxEvents - events.length - 1, by omega⟩
        have hrest : maxEvents - (events ++ [eventOf host turn p]).length = room := by
          rw [List.length_append, List.length_singleton]
          omega
        simp only [epollCallback, if_neg hfull] at hscan ⊢
        have hle' : (events ++ [eventOf host turn p]).length ≤ maxEvents := by
          rw [List.length_append, List.length_singleton]
          omega
        obtain ⟨hevents, hn⟩ := ih hle' hscan
        rw [hrest] at hevents hn
        rw [hroom, hevents, hn, List.take_succ_cons, List.map_cons, List.append_assoc,
          List.length_cons, Nat.succ_min_succ]
        exact ⟨rfl, rfl⟩

/-- A turn that counts nothing leaves the events as they are, so that the last one decides. -/
theorem returns_last {w : Returned (List EpollEvent)} (hmax : 0 < maxEvents) {t : ℕ} {slept : Bool}
    (h : Loop.Returns (turnStep host maxEvents lists) ⟨[], t, slept⟩ (some w))
    (hr : 0 ≤ w.result) :
    ∃ n : ℕ, scan host (epollCallback maxEvents) w.turn (lists w.turn) [] = some (w.context, n) ∧
      w.result = n := by
  generalize hs : (⟨[], t, slept⟩ : Waiting (List EpollEvent)) = s at h
  generalize hf : some w = r at h
  induction h generalizing t slept with
  | @done s r hstep =>
    subst hs hf
    rw [turnStep, waitStep] at hstep
    split at hstep
    · cases hstep
    · rename_i c res hscan
      split_ifs at hstep with hres
      · cases hstep
        exact ⟨res, hscan, rfl⟩
      · obtain rfl : res = 0 := by omega
        split at hstep
        · rename_i e he
          cases hstep
          exact absurd e.property (not_lt.mpr hr)
        · cases hstep
          exact ⟨0, hscan, rfl⟩
        · cases hstep
  | @next s u r hstep _ ih =>
    subst hs
    rw [turnStep, waitStep] at hstep
    split at hstep
    · cases hstep
    · rename_i c res hscan
      split_ifs at hstep with hres
      obtain rfl : res = 0 := by omega
      obtain ⟨hc, hn⟩ := scan_epoll (Nat.zero_le _) hscan
      have hnone : host.reported t (lists t) = [] := by
        rw [List.length_nil, Nat.sub_zero] at hn
        have hmin := Nat.min_eq_zero_iff.mp hn.symm
        exact List.length_eq_zero_iff.mp (hmin.resolve_left hmax.ne')
      rw [hnone, List.take_nil] at hc
      split at hstep
      · cases hstep
      · cases hstep
      · cases hstep
        exact ih (by rw [hc]; rfl) hf

theorem length_bytes (e : EpollEvent) : (bytes e).length = 12 := by
  rw [bytes, Layout.image_length]
  rfl

theorem length_flatMap_bytes (events : List EpollEvent) :
    (events.flatMap bytes).length = 12 * events.length := by
  induction events with
  | nil => rfl
  | cons e events ih =>
    rw [List.flatMap_cons, List.length_append, length_bytes, ih, List.length_cons]
    omega

end

section

variable {s : State} {p : PollId}

theorem mem_pollFds {q : Fs.PollScan.PollFd} : q ∈ pollFds s p ↔ ∃ n e, n ∈ s.pollNodes p ∧
    s.nodes n = some e ∧ q = ⟨e.fd, e.types, e.info.toNat⟩ := by
  rw [pollFds, List.mem_filterMap]
  constructor
  · rintro ⟨n, hn, h⟩
    obtain ⟨e, he, rfl⟩ := Option.map_eq_some_iff.mp h
    exact ⟨n, e, hn, he, rfl⟩
  · rintro ⟨n, e, hn, he, rfl⟩
    exact ⟨n, hn, by rw [he, Option.map_some]⟩

theorem nodup_pollFds (hs : Sound s) (hp : s.polls p = some .epoll) :
    ((pollFds s p).map Fs.PollScan.PollFd.fd).Nodup := by
  have hnodup : (s.pollNodes p).Nodup := hs.pollNodup p
  have hmem : ∀ n ∈ s.pollNodes p, ∃ f, s.link n = some (f, p) := fun n hn ↦
    (hs.pollNodes n p).mp hn
  rw [pollFds]
  generalize s.pollNodes p = ns at hnodup hmem
  induction ns with
  | nil => exact List.nodup_nil
  | cons n ns ih =>
    obtain ⟨hn, hns⟩ := List.nodup_cons.mp hnodup
    obtain ⟨f, hl⟩ := hmem n List.mem_cons_self
    obtain ⟨e, he, hef, hep⟩ := Fs.Epoll.link_eq_some.mp hl
    have hrest : ∀ n ∈ ns, ∃ f, s.link n = some (f, p) := fun m hm ↦
      hmem m (List.mem_cons_of_mem n hm)
    rw [List.filterMap_cons, he, Option.map_some, List.map_cons, List.nodup_cons]
    refine ⟨fun hin ↦ ?_, ih hns hrest⟩
    obtain ⟨q, hq, hqf⟩ := List.mem_map.mp hin
    obtain ⟨m, hm, hq⟩ := List.mem_filterMap.mp hq
    obtain ⟨e', he', rfl⟩ := Option.map_eq_some_iff.mp hq
    obtain ⟨f', hl'⟩ := hrest m hm
    obtain ⟨e₁, he₁, hef', -⟩ := Fs.Epoll.link_eq_some.mp hl'
    obtain rfl : e' = e₁ := Option.some.inj (he'.symm.trans he₁)
    have hff : f' = f := by rw [← hef', ← hef]; exact hqf
    have heq := hs.single n m f p hp hl (hff ▸ hl')
    exact hn (heq ▸ hm)

variable (host : Host) (turn : ℕ) (s p) in
/-- `due` are the files of an epoll that are ready for what they are watched for, each once. -/
structure Due (due : List Fs.PollScan.PollFd) : Prop where
  nodup : (due.map Fs.PollScan.PollFd.fd).Nodup
  mem : ∀ q, q ∈ due ↔ host.pollTypes turn q ≠ 0 ∧
    ∃ n e, s.nodes n = some e ∧ e.poll = p ∧ q = ⟨e.fd, e.types, e.info.toNat⟩

theorem due_reported (host : Host) (turn : ℕ) (hs : Sound s) (hp : s.polls p = some .epoll) :
    Due s p host turn (host.reported turn (pollFds s p)) := by
  refine ⟨nodup_reported (nodup_pollFds hs hp), fun q ↦ ?_⟩
  rw [mem_reported, and_comm, mem_pollFds]
  refine and_congr_right fun _ ↦ exists_congr fun n ↦ exists_congr fun e ↦ ?_
  constructor
  · intro ⟨hn, he, hq⟩
    obtain ⟨f, hl⟩ := (hs.pollNodes n p).mp hn
    obtain ⟨e', he', -, hep⟩ := Fs.Epoll.link_eq_some.mp hl
    obtain rfl : e = e' := Option.some.inj (he.symm.trans he')
    exact ⟨he, hep, hq⟩
  · intro ⟨he, hep, hq⟩
    have hl := Fs.Epoll.link_of_node he
    rw [hep] at hl
    exact ⟨(hs.pollNodes n p).mpr ⟨e.fd, hl⟩, he, hq⟩

end

/-- The calls of all threads between the turns of a wait. -/
structure Interleaved (states : ℕ → State) : Prop where
  start : ∃ actions, Run.exec State.step State.init actions = some (states 0)
  next : ∀ turn, ∃ actions, Run.exec State.step (states turn) actions = some (states (turn + 1))

theorem Interleaved.sound {states : ℕ → State} (h : Interleaved states) (turn : ℕ) :
    Sound (states turn) := by
  have hrun {s t : State} {actions : List Fs.Epoll.Action} (hs : Sound s)
      (ht : Run.exec State.step s actions = some t) : Sound t := by
    have hall : Run.AllAlong State.step (fun _ ↦ True) s actions := fun _ _ _ _ ↦ trivial
    exact hall.keeps (fun s a t hs _ ht ↦ hs.step ht) hs ht
  induction turn with
  | zero =>
    obtain ⟨actions, ht⟩ := h.start
    exact hrun Fs.Epoll.sound_init ht
  | succ turn ih =>
    obtain ⟨actions, ht⟩ := h.next turn
    exact hrun ih ht

/-- A run of bytes that the guest reads at an address, with the rest of its memory as before. -/
structure Wrote (mem mem' : GuestMem) (a : Addr) (bs : List Byte) : Prop where
  perm : mem'.perm = mem.perm
  inside : ∀ (i : ℕ) (hi : i < bs.length), mem'.load (a + BitVec.ofNat 32 i) = some bs[i]
  outside : ∀ x, bs.length ≤ GuestMem.dist a x → mem'.load x = mem.load x

theorem wrote_userWrite {mem : GuestMem} {a : Addr} {bs : List Byte} (hlen : bs.length ≤ 2 ^ 32)
    (hok : (mem.userWrite a bs).2 = 0) : Wrote mem (mem.userWrite a bs).1 a bs where
  perm := GuestMem.perm_userWrite mem a bs
  inside _ hi := GuestMem.load_userWrite hok hlen hi
  outside _ hx := GuestMem.load_userWrite_of_outside bs hx

variable {states : ℕ → State} {host : Host} {mem : GuestMem} {f : FdId} {p : PollId}
  {eventsAddr : Addr} {maxEvents : ℤ} {r : ℤ × GuestMem}

end Isl.Kernel.EpollWait
