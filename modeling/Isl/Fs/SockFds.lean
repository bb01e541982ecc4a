import Isl.Fs.Sock

/-! Who closes the descriptors of the host when a call of `fs/pipe.c` or `fs/sock.c` fails. -/

namespace Isl.Fs.Sock

open Isl.Lib
open Isl.Emu (GuestMem)
open Isl.Emu.Memory (Addr Byte)
open Isl.Fs.Cloexec (FdTable Env oCloexec TakesSlot Filled)
open Isl.Fs.OpenFiles (FdId Dword eBadf eNomem)
open Isl.Kernel.FileCalls (userGet sockaddrWrite sockFamilyFromReal)

variable {s s' : Sys} {table table' : FdTable} {d : FdId} {f : ℕ} {flags : Dword} {env : Env}
  {limits limits₀ limits₁ : Limits} {file : HostFile} {ret : ℤ} {new : List HostEvent} {h : ℕ}

namespace Sys

/-! Closing. -/

/-- The last reference closes the descriptor of the host. -/
theorem fdClose_once (h : s.fds.refcount d = 1) : ∃ fds, s.fdClose d =
    some { s with fds := fds, events := s.events ++ [.closed (s.fds.val d).realFd] } := by
  have hlive : s.fds.live d := by
    rw [Pool.live, h]
    decide
  obtain ⟨fds, hrelease, hretained⟩ := Pool.release_of_live hlive
  have hcount := hretained.refcount d
  rw [h, if_pos rfl] at hcount
  have hdead : ¬fds.live d := by
    rw [Pool.live, not_not]
    exact (Nat.succ.inj hcount).symm
  refine ⟨fds, ?_⟩
  rw [fdClose, hrelease, Option.map_some]
  dsimp only
  rw [if_neg hdead, close, ← hretained.val]

theorem fdClose_events (h : s.fdClose d = some s') : ∃ new, s'.events = s.events ++ new := by
  obtain ⟨fds, -, rfl⟩ := Option.map_eq_some_iff.mp h
  dsimp only
  split
  · exact ⟨[], (List.append_nil _).symm⟩
  · exact ⟨_, rfl⟩

theorem fClose_events {f : ℤ} (h : s.fClose f env = some (s', ret)) :
    ∃ new, s'.events = s.events ++ new := by
  obtain ⟨o, -, h⟩ := Option.bind_eq_some_iff.mp h
  cases o with
  | none =>
    cases h
    exact ⟨[], (List.append_nil _).symm⟩
  | some d =>
    obtain ⟨s₁, hclose, h⟩ := Option.bind_eq_some_iff.mp h
    obtain ⟨⟨table, err⟩, -, h⟩ := Option.bind_eq_some_iff.mp h
    cases h
    obtain ⟨new, hnew⟩ := fdClose_events hclose
    exact ⟨new, hnew⟩

theorem fClose_once {f : ℤ} (hget : s.table.fGet (BitVec.ofInt 32 f) = some (some d))
    (hcount : s.fds.refcount d = 1) (h : s.fClose f env = some (s', ret)) :
    s'.events = s.events ++ [.closed (s.fds.val d).realFd] := by
  obtain ⟨fds, hclose⟩ := fdClose_once hcount
  rw [fClose, hget, Option.bind_eq_bind, Option.bind_some] at h
  dsimp only at h
  rw [hclose] at h
  obtain ⟨s₁, hs₁, h⟩ := Option.bind_eq_some_iff.mp h
  cases hs₁
  obtain ⟨⟨table, err⟩, -, h⟩ := Option.bind_eq_some_iff.mp h
  cases h
  rfl

/-! Installing. -/

theorem fSetCloexec_filled {table₀ : FdTable} (hfilled : Filled table₀ f d table) :
    ∃ table', table.fSetCloexec f = some table' ∧ Filled table₀ f d table' := by
  have hlt : f < table.size := by
    rw [hfilled.size]
    omega
  have hbit : f >>> 3 < table.cloexec.length := by
    rw [hfilled.bits, Util.shiftRight_three, Util.bitsSize]
    omega
  obtain ⟨cloexec, hset⟩ : ∃ cloexec, Util.bitSet f table.cloexec = some cloexec := by
    rw [Util.bitSet, List.getElem?_eq_getElem hbit]
    exact ⟨_, rfl⟩
  refine ⟨{ table with cloexec := cloexec, log := .marked f :: table.log }, ?_, hfilled.get,
    hfilled.size, ?_⟩
  · rw [FdTable.fSetCloexec, hset, Option.map_some]
  · exact (Util.bitSet_spec hset).1.trans hfilled.bits

theorem fInstallFlags_filled {env : Env} (hinstall : table.fInstall d env = some (table', (f : ℤ)))
    (hfilled : Filled table f d table') (flags : Dword) :
    ∃ table₂, table.fInstallFlags d flags env = some (table₂, (f : ℤ)) ∧ Filled table f d table₂ := by
  rw [FdTable.fInstallFlags, hinstall, Option.bind_eq_bind, Option.bind_some]
  dsimp only
  split
  · obtain ⟨table₂, hset, hfilled₂⟩ := fSetCloexec_filled hfilled
    rw [Int.toNat_natCast, hset]
    exact ⟨table₂, rfl, hfilled₂⟩
  · exact ⟨table', rfl, hfilled⟩

/-- A file whose only reference was dropped. -/
theorem fInstallFlags_fails (hcount : s.fds.refcount d = 1)
    (hinstall : ∀ r, s.table.fInstall d env = some r → r.2 < 0)
    (h : s.fInstallFlags d flags env = some (s', ret)) :
    ret < 0 ∧ s'.events = s.events ++ [.closed (s.fds.val d).realFd] := by
  obtain ⟨⟨table, f⟩, hflags, h⟩ := Option.bind_eq_some_iff.mp h
  obtain ⟨⟨table₁, f₁⟩, hstart, hflags⟩ := Option.bind_eq_some_iff.mp hflags
  have hneg : f₁ < 0 := hinstall _ hstart
  dsimp only at hflags
  rw [if_neg fun hset ↦ Int.not_lt.mpr hset.1 hneg] at hflags
  cases hflags
  dsimp only at h
  rw [if_pos hneg] at h
  obtain ⟨fds, hclose⟩ := @fdClose_once { s with table := table } d hcount
  rw [hclose] at h
  cases h
  exact ⟨hneg, rfl⟩

/-- A new file is in a slot. -/
structure Installed (s : Sys) (file : HostFile) (f : ℕ) (s' : Sys) : Prop where
  table : Filled s.table f s.fds.next s'.table
  fds : s'.fds = (s.fds.alloc file).2
  mem : s'.mem = s.mem
  events : s'.events = s.events

/-- The file takes the slot, or the descriptor of the host is closed. -/
theorem fdCreate_cases (hbits : s.table.cloexec.length = Util.bitsSize s.table.size)
    (file : HostFile) (flags : Dword) (limits : Limits) :
    limits.noFd = true ∧ s.fdCreate file flags limits = some (s, eNomem) ∨
    limits.noFd = false ∧ (∃ f s', TakesSlot s.table limits.env f ∧
      s.fdCreate file flags limits = some (s', (f : ℤ)) ∧ s.Installed file f s') ∨
    limits.noFd = false ∧ (∀ f, ¬TakesSlot s.table limits.env f) ∧
      ∀ s' ret, s.fdCreate file flags limits = some (s', ret) →
        ret < 0 ∧ s'.events = s.events ++ [.closed file.realFd] := by
  cases hnoFd : limits.noFd with
  | true => exact .inl ⟨rfl, if_pos hnoFd⟩
  | false =>
    have hcreate : s.fdCreate file flags limits =
        fInstallFlags { s with fds := (s.fds.alloc file).2 } s.fds.next flags limits.env := by
      rw [fdCreate, hnoFd]
      rfl
    rw [hcreate]
    obtain ⟨f, table, htakes, hinstall, hfilled⟩ | ⟨hnone, hinstall⟩ :=
      Cloexec.fInstall_cases hbits s.fds.next limits.env
    · obtain ⟨table₂, hflags, hfilled₂⟩ := fInstallFlags_filled hinstall hfilled flags
      refine .inr (.inl ⟨rfl, f, ⟨(s.fds.alloc file).2, table₂, s.mem, s.events⟩, htakes, ?_,
        ⟨hfilled₂, rfl, rfl, rfl⟩⟩)
      rw [fInstallFlags, hflags, Option.bind_eq_bind, Option.bind_some]
      exact if_neg (Int.not_lt.mpr (Int.natCast_nonneg f))
    · refine .inr (.inr ⟨rfl, hnone, fun s' ret h ↦ ?_⟩)
      have hcount : (s.fds.alloc file).2.refcount s.fds.next = 1 := Function.update_self ..
      have hval : (s.fds.alloc file).2.val s.fds.next = file := Function.update_self ..
      have hfails := @fInstallFlags_fails { s with fds := (s.fds.alloc file).2 } s' s.fds.next flags
        limits.env ret hcount (fun r hr ↦ (hinstall r hr).1) h
      rwa [hval] at hfails

end Sys

/-! What a call has done with the descriptors of the host. -/

variable {hs : List ℕ} {returned : Sys → ℤ → List ℕ} {r : Option (Sys × ℤ)}

theorem openedIn_map (hs : List ℕ) (rest : List HostEvent) :
    openedIn (hs.map .opened ++ rest) = hs ++ openedIn rest := by
  induction hs with
  | nil => rfl
  | cons h hs ih =>
    rw [List.map_cons, List.cons_append, openedIn, List.filterMap_cons]
    exact congrArg (List.cons h) ih

theorem openedIn_closed (hs : List ℕ) : openedIn (hs.map .closed) = [] := by
  induction hs with
  | nil => rfl
  | cons h hs ih =>
    rw [List.map_cons, openedIn, List.filterMap_cons]
    exact ih

theorem count_opened (hs : List ℕ) (h : ℕ) : (hs.map HostEvent.opened).count (.closed h) = 0 := by
  rw [List.count_eq_zero]
  intro hmem
  obtain ⟨h', -, heq⟩ := List.mem_map.mp hmem
  cases heq

/-- A call that fails and does not close a descriptor once. -/
theorem not_right_of_count (hmem : h ∈ hs) (hr : ∀ s' ret, r = some (s', ret) → ret < 0 ∧
    ∃ new, s'.events = (s.opened hs).events ++ new ∧ new.count (.closed h) ≠ 1) :
    ¬CallRight s returned r := by
  rintro ⟨s', ret, new', hr', hevents', hneg, -⟩
  obtain ⟨hret, new, hevents, hcount⟩ := hr s' ret hr'
  have hnew : new' = hs.map .opened ++ new := by
    rw [hevents', Sys.opened, List.append_assoc] at hevents
    exact List.append_cancel_left hevents
  have hopened : h ∈ openedIn new' := by
    rw [hnew, openedIn_map]
    exact List.mem_append_left _ hmem
  have honce := (hneg hret).1 h hopened
  rw [hnew, List.count_append, count_opened, Nat.zero_add] at honce
  exact hcount honce

/-- A call that fails and only closes what it has opened. -/
theorem right_of_closed (hnodup : hs.Nodup) (hret : ret < 0) (htable : s'.table = s.table)
    (hevents : s'.events = (s.opened hs).events ++ hs.map .closed) :
    CallRight s returned (some (s', ret)) := by
  refine ⟨s', ret, hs.map .opened ++ hs.map .closed, rfl, ?_, fun _ ↦ ⟨fun h hh ↦ ?_, fun f ↦ ?_⟩,
    fun hge ↦ absurd hret (Int.not_lt.mpr hge)⟩
  · rw [hevents, Sys.opened, List.append_assoc]
  · rw [openedIn_map, openedIn_closed, List.append_nil] at hh
    have hinj : Function.Injective HostEvent.closed := fun a b hab ↦ HostEvent.closed.inj hab
    rw [List.count_append, count_opened, List.count_map_of_injective hs _ hinj,
      List.count_eq_one_of_mem hnodup hh]
  · rw [htable]
    exact ⟨rfl, fun _ ↦ rfl⟩

/-- A call that fails before it opens a descriptor. -/
theorem right_of_nothing (s : Sys) (hret : ret < 0) : CallRight s returned (some (s, ret)) := by
  refine @right_of_closed s s ret [] returned List.nodup_nil hret rfl ?_
  exact ((List.append_nil _).trans (List.append_nil _)).symm

/-- A call that closes nothing. -/
theorem right_success_iff (hret : 0 ≤ ret) (hevents : s'.events = (s.opened hs).events) :
    CallRight s returned (some (s', ret)) ↔ List.Forall₂ (Refers s') (returned s' ret) hs := by
  have hopened : openedIn (hs.map .opened) = hs := by
    have h := openedIn_map hs []
    rw [List.append_nil] at h
    exact h.trans (List.append_nil hs)
  constructor
  · rintro ⟨s', ret, new, h, hnew, -, hrefers⟩
    cases h
    rw [hevents, Sys.opened] at hnew
    have hnew := List.append_cancel_left hnew
    rw [← hnew, hopened] at hrefers
    exact hrefers hret
  · intro h
    refine ⟨s', ret, hs.map .opened, rfl, hevents, fun hneg ↦ absurd hneg (Int.not_lt.mpr hret),
      fun _ ↦ ?_⟩
    rwa [hopened]

/-! The slots after the first file. -/

theorem fGet_slot (hf : f < 2 ^ 31) (hget : table.get f = some d) :
    table.fGet (BitVec.ofInt 32 (f : ℤ)) = some (some d) := by
  have hlt : f < table.size := FdTable.lt_of_get (hget ▸ rfl)
  have hnat := FdTable.toNat_ofNat_of_lt hf
  have hnonneg : (0 : ℤ) ≤ f := Int.natCast_nonneg f
  rw [BitVec.ofInt_natCast, FdTable.fGet, hnat, if_pos hlt, Cloexec.toInt_ofNat hf, if_pos hnonneg, hget]

theorem takesSlot_taken (hfilled : Filled table f d table') {g : ℕ} :
    TakesSlot table' env g ↔ TakesSlot (taken table f) env g := by
  let longer : FdTable :=
    ⟨table.files ++ List.replicate (f + 1 - table.size) none, table.cloexec, table.log⟩
  have hsize : longer.size = max table.size (f + 1) := by
    change (table.files ++ List.replicate (f + 1 - table.size) none).length = _
    rw [List.length_append, List.length_replicate]
    change table.size + _ = _
    omega
  refine Cloexec.takesSlot_congr (fun g ↦ ?_) ?_
  · have hset : (taken table f).get g = if g = f then some 0 else longer.get g :=
      FdTable.get_set longer (some 0) (by omega) g
    have hlonger : longer.get g = table.get g := FdTable.getElem?_append_none _ _ _
    rw [hset, hlonger, hfilled.get]
    split <;> rfl
  · refine hfilled.size.trans (hsize.symm.trans ?_)
    exact (List.length_set ..).symm

/-! The two numbers in the memory of the guest. -/

theorem userGet_of_holds {g : GuestMem} {addr : Addr} {v : ℕ} (hv : v < 2 ^ 31)
    (h : g.Holds addr (Layout.leBytes 4 v)) : userGet g addr = some (BitVec.ofNat 32 v) := by
  have hread : g.userRead addr (List.replicate 4 0) = (Layout.leBytes 4 v, 0) := by
    refine GuestMem.userRead_of_load ?_ h
    rw [List.length_replicate, Layout.leBytes_length]
  have hvalue : Layout.leNat (Layout.leBytes 4 v) = v := by
    rw [Layout.leNat_leBytes]
    exact Nat.mod_eq_of_lt (by omega)
  rw [userGet, hread]
  dsimp only
  rw [if_neg (by decide), hvalue]

theorem pairAt_userWrite {g : GuestMem} {addr : Addr} {a b : ℕ} (ha : a < 2 ^ 31) (hb : b < 2 ^ 31)
    (hok : (g.userWrite addr (Layout.leBytes 4 a ++ Layout.leBytes 4 b)).2 = 0)
    (hmem : s.mem = (g.userWrite addr (Layout.leBytes 4 a ++ Layout.leBytes 4 b)).1) :
    pairAt addr s ret = [a, b] := by
  have hlen : (Layout.leBytes 4 a ++ Layout.leBytes 4 b).length = 8 := by
    rw [List.length_append, Layout.leBytes_length, Layout.leBytes_length]
  have hholds : s.mem.Holds addr (Layout.leBytes 4 a ++ Layout.leBytes 4 b) := by
    intro i hi
    rw [hmem]
    exact GuestMem.load_userWrite hok (by omega) hi
  obtain ⟨hfirst, hsecond⟩ := GuestMem.holds_append.mp hholds
  rw [Layout.leBytes_length] at hsecond
  have hsecond : userGet s.mem (addr + 4) = some (BitVec.ofNat 32 b) := userGet_of_holds hb hsecond
  rw [pairAt, List.filterMap_cons, userGet_of_holds ha hfirst, List.filterMap_cons, hsecond,
    List.filterMap_nil]
  dsimp only [Option.map_some]
  rw [FdTable.toNat_ofNat_of_lt ha, FdTable.toNat_ofNat_of_lt hb]

/-! The calls that open two descriptors. -/

variable {create : Sys → ℕ → Limits → Option (Sys × ℤ)} {p : HostPair} {addr : Addr} {g : ℕ}
  {s₁ s₂ : Sys} {socket : Bool}

theorem installPair_second_fails (hfirst : create s p.first limits₀ = some (s₁, (f : ℤ)))
    (hsecond : ∀ s₂ ret, create s₁ p.second limits₁ = some (s₂, ret) → ret < 0)
    (h : installPair create s p addr limits₀ limits₁ = some (s', ret)) :
    ret < 0 ∧ ∃ s₂ s₃ ret₃, create s₁ p.second limits₁ = some (s₂, ret) ∧
      s₂.fClose f limits₁.env = some (s₃, ret₃) ∧
      s'.events = s₃.events ++ [.closed p.first] ++ [.closed p.second] := by
  rw [installPair, hfirst, Option.bind_eq_bind, Option.bind_some] at h
  dsimp only at h
  rw [if_neg (Int.not_lt.mpr (Int.natCast_nonneg f))] at h
  obtain ⟨⟨s₂, ret₂⟩, hcreate, h⟩ := Option.bind_eq_some_iff.mp h
  have hneg := hsecond s₂ ret₂ hcreate
  dsimp only at h
  rw [if_pos hneg] at h
  obtain ⟨⟨s₃, ret₃⟩, hclose, h⟩ := Option.bind_eq_some_iff.mp h
  cases h
  exact ⟨hneg, s₂, s₃, ret₃, hcreate, hclose, rfl⟩

/-- With two files, and what is written to the guest. -/
theorem installPair_of_both (hfirst : create s p.first limits₀ = some (s₁, (f : ℤ)))
    (hsecond : create s₁ p.second limits₁ = some (s₂, (g : ℤ))) :
    installPair create s p addr limits₀ limits₁ =
      let r := s₂.mem.userWrite addr (Layout.leBytes 4 f ++ Layout.leBytes 4 g)
      if r.2 = 0 then some ({ s₂ with mem := r.1 }, 0)
      else (Sys.fClose { s₂ with mem := r.1 } g limits₁.env).bind fun r₁ ↦
        (r₁.1.fClose f limits₁.env).bind fun r₂ ↦
          some ((r₂.1.close p.first).close p.second, eFault) := by
  rw [installPair, hfirst, Option.bind_eq_bind, Option.bind_some]
  dsimp only
  rw [if_neg (Int.not_lt.mpr (Int.natCast_nonneg f)), hsecond, Option.bind_some]
  dsimp only
  rw [if_neg (Int.not_lt.mpr (Int.natCast_nonneg g))]
  rfl

namespace Sys.Installed

variable {file file₀ file₁ : HostFile}

theorem val_self (h : s.Installed file f s') : s'.fds.val s.fds.next = file := by
  rw [h.fds]
  exact Function.update_self ..

theorem val_of_ne (h : s.Installed file f s') (hd : d ≠ s.fds.next) : s'.fds.val d = s.fds.val d := by
  rw [h.fds]
  exact Function.update_of_ne hd ..

theorem count_self (h : s.Installed file f s') : s'.fds.refcount s.fds.next = 1 := by
  rw [h.fds]
  exact Function.update_self ..

theorem get_self (h : s.Installed file f s') : s'.table.get f = some s.fds.next :=
  (h.table.get f).trans (if_pos rfl)

theorem refers_self (h : s.Installed file f s') : Refers s' f file.realFd :=
  ⟨s.fds.next, h.get_self, congrArg _ h.val_self⟩

/-- The slot of the first file still has it, unless the second one was put there. -/
theorem refers_first_iff (h₁ : s.Installed file₀ f s₁) (h₂ : s₁.Installed file₁ g s₂)
    (hne : file₀.realFd ≠ file₁.realFd) : Refers s₂ f file₀.realFd ↔ g ≠ f := by
  constructor
  · rintro ⟨d, hget, hval⟩ rfl
    rw [h₂.get_self] at hget
    cases hget
    rw [h₂.val_self] at hval
    exact hne hval.symm
  · intro hg
    have hget : s₂.table.get f = some s.fds.next := by
      rw [h₂.table.get, if_neg hg.symm, h₁.get_self]
    have hnext : s.fds.next ≠ s₁.fds.next := by
      rw [h₁.fds]
      exact Nat.ne_of_lt (Nat.lt_succ_self _)
    refine ⟨s.fds.next, hget, ?_⟩
    rw [h₂.val_of_ne hnext, h₁.val_self]

/-- The file of a slot is closed by `f_close`. -/
theorem fClose (h : s.Installed file f s') (hf : f < 2 ^ 31) {mem : GuestMem}
    (hclose : Sys.fClose { s' with mem := mem } f env = some (s₂, ret)) :
    s₂.events = s.events ++ [.closed file.realFd] := by
  have hget : s'.table.fGet (BitVec.ofInt 32 (f : ℤ)) = some (some s.fds.next) :=
    fGet_slot hf h.get_self
  have hevents := @fClose_once { s' with mem := mem } s₂ s.fds.next env ret f hget h.count_self hclose
  dsimp only at hevents
  rw [hevents, h.val_self, h.events]

end Sys.Installed

/-- With a slot for each file. -/
theorem installPair_both_right_iff (hf : f < 2 ^ 31) (hg : g < 2 ^ 31)
    (hfirst : create (s.opened [p.first, p.second]) p.first limits₀ = some (s₁, (f : ℤ)))
    (h₁ : (s.opened [p.first, p.second]).Installed ⟨p.first, socket⟩ f s₁)
    (hsecond : create s₁ p.second limits₁ = some (s₂, (g : ℤ)))
    (h₂ : s₁.Installed ⟨p.second, socket⟩ g s₂) :
    CallRight s (pairAt addr)
        (installPair create (s.opened [p.first, p.second]) p addr limits₀ limits₁) ↔
      s.mem.writable addr 8 ∧ g ≠ f := by
  have hmem : s₂.mem = s.mem := h₂.mem.trans h₁.mem
  have hlen : (Layout.leBytes 4 f ++ Layout.leBytes 4 g).length = 8 := by
    rw [List.length_append, Layout.leBytes_length, Layout.leBytes_length]
  have hok : (s.mem.userWrite addr (Layout.leBytes 4 f ++ Layout.leBytes 4 g)).2 = 0 ↔
      s.mem.writable addr 8 := by
    rw [GuestMem.userWrite_ok_iff, hlen]
  rw [installPair_of_both hfirst hsecond, hmem, ← hok]
  dsimp only
  split
  · rename_i hwritten
    have hsuccess := @right_success_iff s
      { s₂ with mem := (s.mem.userWrite addr (Layout.leBytes 4 f ++ Layout.leBytes 4 g)).1 } 0 _
      (pairAt addr) le_rfl (h₂.events.trans h₁.events)
    rw [hsuccess, pairAt_userWrite hf hg hwritten rfl, List.forall₂_cons, List.forall₂_cons,
      and_iff_right hwritten]
    have hfirst := h₁.refers_first_iff h₂ p.ne
    have hsecond : Refers s₂ g p.second := h₂.refers_self
    exact ⟨fun h ↦ hfirst.mp h.1, fun h ↦ ⟨hfirst.mpr h, hsecond, .nil⟩⟩
  · rename_i hfault
    have hopened : p.second ∈ [p.first, p.second] := List.mem_cons_of_mem _ List.mem_cons_self
    refine iff_of_false (not_right_of_count hopened ?_) fun h ↦ hfault h.1
    intro s' ret h
    obtain ⟨⟨s₃, ret₃⟩, hclose₁, h⟩ := Option.bind_eq_some_iff.mp h
    obtain ⟨⟨s₄, ret₄⟩, hclose₀, h⟩ := Option.bind_eq_some_iff.mp h
    cases h
    have hevents₁ := h₂.fClose hg hclose₁
    obtain ⟨new, hnew⟩ := Sys.fClose_events hclose₀
    refine ⟨by decide, [.closed p.second] ++ (new ++ [.closed p.first] ++ [.closed p.second]), ?_, ?_⟩
    · change s₄.events ++ [.closed p.first] ++ [.closed p.second] = _
      rw [hnew, hevents₁, h₁.events]
      simp only [List.append_assoc]
    · simp only [List.count_append, List.count_singleton_self]
      omega

/-- With a slot for the first file and none for the second. -/
theorem installPair_second_not_right
    (hfirst : create (s.opened [p.first, p.second]) p.first limits₀ = some (s₁, (f : ℤ)))
    (h₁ : (s.opened [p.first, p.second]).Installed ⟨p.first, socket⟩ f s₁) {h : ℕ}
    (hopened : h ∈ [p.first, p.second])
    (hsecond : ∀ s₂ ret, create s₁ p.second limits₁ = some (s₂, ret) → ret < 0 ∧
      ∀ s₃ ret₃, s₂.fClose f limits₁.env = some (s₃, ret₃) →
        ∃ new, s₃.events = s₁.events ++ new ∧ .closed h ∈ new) :
    ¬CallRight s (pairAt addr)
      (installPair create (s.opened [p.first, p.second]) p addr limits₀ limits₁) := by
  refine not_right_of_count hopened fun s' ret hr ↦ ?_
  obtain ⟨hneg, s₂, s₃, ret₃, hcreate, hclose, hevents⟩ :=
    installPair_second_fails hfirst (fun s₂ ret h ↦ (hsecond s₂ ret h).1) hr
  obtain ⟨new, hnew, hmem⟩ := (hsecond s₂ ret hcreate).2 s₃ ret₃ hclose
  refine ⟨hneg, new ++ [p.first, p.second].map .closed, ?_, ?_⟩
  · rw [hevents, hnew, h₁.events, List.append_assoc, List.append_assoc]
    rfl
  · have hpos : 0 < new.count (.closed h) := List.count_pos_iff.mpr hmem
    have hpos' : 0 < ([p.first, p.second].map HostEvent.closed).count (.closed h) :=
      List.count_pos_iff.mpr (List.mem_map_of_mem hopened)
    rw [List.count_append]
    omega

/-- `sys_pipe2` and `sys_socketpair` close what they have installed once more. -/
theorem installPair_right_iff (hbits : s.table.cloexec.length = Util.bitsSize s.table.size)
    (hcreate : ∀ s h limits, create s h limits = s.fdCreate ⟨h, socket⟩ flags limits) :
    CallRight s (pairAt addr)
        (installPair create (s.opened [p.first, p.second]) p addr limits₀ limits₁) ↔
      PairFine s addr limits₀ limits₁ := by
  have hfirst : p.first ∈ [p.first, p.second] := List.mem_cons_self
  have hsecond : p.second ∈ [p.first, p.second] := List.mem_cons_of_mem _ List.mem_cons_self
  obtain ⟨hno, h⟩ | ⟨hfd, f, s₁, htakes, h, h₁⟩ | ⟨hfd, hnone, hfails⟩ :=
    @Sys.fdCreate_cases (s.opened [p.first, p.second]) hbits ⟨p.first, socket⟩ flags limits₀
  · refine iff_of_true ?_ (.inl hno)
    rw [installPair, hcreate, h, Option.bind_eq_bind, Option.bind_some]
    have hnodup : [p.first, p.second].Nodup := by simpa using p.ne
    exact right_of_closed hnodup (by decide) rfl (List.append_assoc ..)
  · rw [← hcreate] at h
    have hno : ¬limits₀.noFd = true := by
      rw [hfd]
      decide
    have honly {f' g : ℕ} (hf' : TakesSlot s.table limits₀.env f')
        (hg : TakesSlot (taken s.table f') limits₁.env g) : f' = f ∧ TakesSlot s₁.table limits₁.env g := by
      obtain rfl := hf'.unique htakes
      exact ⟨rfl, (takesSlot_taken h₁.table).mpr hg⟩
    rw [PairFine, or_iff_right hno]
    obtain ⟨hno₁, h'⟩ | ⟨hfd₁, g, s₂, htakes₁, h', h₂⟩ | ⟨hfd₁, hnone₁, hfails₁⟩ :=
      Sys.fdCreate_cases h₁.table.bits ⟨p.second, socket⟩ flags limits₁
    · refine iff_of_false (installPair_second_not_right h h₁ hfirst fun s₂ ret hret ↦ ?_) ?_
      · rw [hcreate, h'] at hret
        cases hret
        refine ⟨by decide, fun s₃ ret₃ hclose ↦ ⟨_, ?_, List.mem_singleton_self _⟩⟩
        rw [h₁.fClose htakes.1 hclose, h₁.events]
      · rintro ⟨hfd₁, -⟩
        rw [hno₁] at hfd₁
        cases hfd₁
    · rw [← hcreate] at h'
      rw [installPair_both_right_iff htakes.1 htakes₁.1 h h₁ h' h₂, and_iff_right hfd₁]
      have htaken := (takesSlot_taken h₁.table).mp htakes₁
      refine and_congr_right fun _ ↦ ⟨fun hg ↦ ⟨f, g, htakes, htaken, hg⟩, ?_⟩
      rintro ⟨f', g', hf', hg', hne⟩
      obtain ⟨rfl, hg'⟩ := honly hf' hg'
      rwa [hg'.unique htakes₁] at hne
    · refine iff_of_false (installPair_second_not_right h h₁ hsecond fun s₂ ret hret ↦ ?_) ?_
      · rw [hcreate] at hret
        obtain ⟨hneg, hevents⟩ := hfails₁ s₂ ret hret
        refine ⟨hneg, fun s₃ ret₃ hclose ↦ ?_⟩
        obtain ⟨new, hnew⟩ := Sys.fClose_events hclose
        refine ⟨[.closed p.second] ++ new, ?_, List.mem_append_left _ (List.mem_singleton_self _)⟩
        rw [hnew, hevents, List.append_assoc]
      · rintro ⟨-, -, f', g, hf', hg, -⟩
        exact hnone₁ g (honly hf' hg).2
  · refine iff_of_false (not_right_of_count hfirst fun s' ret hr ↦ ?_) ?_
    · rw [installPair, hcreate] at hr
      obtain ⟨⟨s₁, ret₁⟩, hret, hr⟩ := Option.bind_eq_some_iff.mp hr
      obtain ⟨hneg, hevents⟩ := hfails s₁ ret₁ hret
      dsimp only at hr
      rw [if_pos hneg] at hr
      cases hr
      refine ⟨hneg, [.closed p.first] ++ [.closed p.first] ++ [.closed p.second], ?_, ?_⟩
      · change s₁.events ++ [.closed p.first] ++ [.closed p.second] = _
        rw [hevents]
        simp only [List.append_assoc]
      · simp only [List.count_append, List.count_singleton_self]
        omega
    · rintro (hno | ⟨-, -, f, -, hf, -⟩)
      · rw [hfd] at hno
        cases hno
      · exact hnone f hf

theorem sysPipe2_right_iff (hbits : s.table.cloexec.length = Util.bitsSize s.table.size)
    (pipeAddr : Addr) (flags : Dword) (pipe : Option HostPair) (limits₀ limits₁ : Limits) :
    CallRight s (pairAt pipeAddr) (sysPipe2 s pipeAddr flags pipe limits₀ limits₁) ↔
      Pipe2Fine s pipeAddr flags pipe limits₀ limits₁ := by
  unfold sysPipe2 Pipe2Fine
  split
  · rename_i hflags
    exact iff_of_true (right_of_nothing s (by decide)) (.inl hflags)
  rename_i hflags
  rw [or_iff_right hflags]
  cases pipe with
  | none => exact iff_of_true (right_of_nothing s (by decide)) (.inl rfl)
  | some p =>
    have hpipe : some p ≠ none := Option.some_ne_none p
    rw [or_iff_right hpipe]
    exact installPair_right_iff hbits fun _ _ _ ↦ rfl

theorem sysSocketpair_right_iff (hbits : s.table.cloexec.length = Util.bitsSize s.table.size)
    (domain type protocol : Dword) (socketsAddr : Addr)
    (socketpair : Dword → Dword → Dword → Except Errno HostPair) (limits₀ limits₁ : Limits) :
    CallRight s (pairAt socketsAddr)
        (sysSocketpair s domain type protocol socketsAddr socketpair limits₀ limits₁) ↔
      SocketpairFine s domain type protocol socketsAddr socketpair limits₀ limits₁ := by
  unfold sysSocketpair SocketpairFine
  cases hdomain : sockFamilyToReal domain with
  | none => exact iff_of_true (right_of_nothing s (by decide)) (.inl rfl)
  | some realDomain =>
    rw [or_iff_right (Option.some_ne_none realDomain)]
    cases htype : sockTypeToReal type protocol with
    | none => exact iff_of_true (right_of_nothing s (by decide)) (.inl rfl)
    | some realType =>
      rw [or_iff_right (Option.some_ne_none realType)]
      dsimp only
      cases hhost : socketpair domain type protocol with
      | error err =>
        refine iff_of_true (right_of_nothing s err.isErrno.2) (.inl fun p heq ↦ ?_)
        cases heq
      | ok p =>
        have hpair : ¬∀ q, Except.ok (ε := Errno) p ≠ .ok q := fun h ↦ h p rfl
        rw [or_iff_right hpair]
        exact installPair_right_iff hbits fun _ _ _ ↦ rfl

/-! The calls that open one descriptor. -/

theorem installSocket_right_iff {sock : ℕ} {type : Dword}
    (hbits : s.table.cloexec.length = Util.bitsSize s.table.size) (htable : s₁.table = s.table)
    (hevents : s₁.events = (s.opened [sock]).events) :
    CallRight s result (installSocket s₁ sock type limits) ↔ InstallFine s.table limits := by
  rw [← htable] at hbits
  obtain ⟨hno, h⟩ | ⟨hfd, f, s₂, htakes, h, h₂⟩ | ⟨hfd, hnone, hfails⟩ :=
    Sys.fdCreate_cases hbits ⟨sock, true⟩ type limits
  · refine iff_of_true ?_ (.inl hno)
    rw [installSocket, Sys.sockFdCreate, h, Option.bind_eq_bind, Option.bind_some]
    refine right_of_closed (List.nodup_singleton sock) (by decide) htable ?_
    exact congrArg (· ++ [.closed sock]) hevents
  · rw [htable] at htakes
    refine iff_of_true ?_ (.inr ⟨f, htakes⟩)
    rw [installSocket, Sys.sockFdCreate, h, Option.bind_eq_bind, Option.bind_some]
    dsimp only
    have hnonneg : (0 : ℤ) ≤ f := Int.natCast_nonneg f
    rw [if_neg (Int.not_lt.mpr hnonneg), right_success_iff hnonneg (h₂.events.trans hevents), result,
      Int.toNat_natCast]
    exact .cons h₂.refers_self .nil
  · refine iff_of_false (not_right_of_count (List.mem_singleton_self sock) fun s' ret hr ↦ ?_) ?_
    · obtain ⟨⟨s₂, ret₂⟩, hret, hr⟩ := Option.bind_eq_some_iff.mp hr
      obtain ⟨hneg, hclosed⟩ := hfails s₂ ret₂ hret
      dsimp only at hr
      rw [if_pos hneg] at hr
      cases hr
      refine ⟨hneg, [.closed sock] ++ [.closed sock], ?_, ?_⟩
      · change s₂.events ++ [.closed sock] = _
        rw [hclosed, hevents, List.append_assoc]
      · simp only [List.count_append, List.count_singleton_self]
        omega
    · rintro (hno | ⟨f, hf⟩)
      · rw [hfd] at hno
        cases hno
      · exact hnone f (htable ▸ hf)

theorem sysSocket_right_iff (hbits : s.table.cloexec.length = Util.bitsSize s.table.size)
    (domain type protocol : Dword) (socket : ℕ → ℕ → Dword → Except Errno ℕ) (limits : Limits) :
    CallRight s result (sysSocket s domain type protocol socket limits) ↔
      SocketFine s domain type protocol socket limits := by
  unfold sysSocket SocketFine
  cases hdomain : sockFamilyToReal domain with
  | none =>
    refine iff_of_true (right_of_nothing s (by decide)) ?_
    rintro realDomain realType sock ⟨⟩
  | some realDomain =>
    cases htype : sockTypeToReal type protocol with
    | none =>
      refine iff_of_true (right_of_nothing s (by decide)) ?_
      rintro realDomain realType sock - ⟨⟩
    | some realType =>
      dsimp only
      cases hhost : socket realDomain realType
          (if type = 3 ∧ protocol = ipprotoRaw then ipprotoIcmp else protocol) with
      | error err =>
        refine iff_of_true (right_of_nothing s err.isErrno.2) ?_
        rintro _ _ sock ⟨⟩ ⟨⟩ hsock
        rw [hhost] at hsock
        cases hsock
      | ok sock =>
        have hinstall : CallRight s result (installSocket (s.opened [sock]) sock type limits) ↔
            InstallFine s.table limits := installSocket_right_iff hbits rfl rfl
        refine hinstall.trans ⟨?_, fun h ↦ ?_⟩
        · intro h _ _ sock' _ _ _
          exact h
        · exact h realDomain realType sock rfl rfl hhost

/-- What `sockaddr_write` returns, and that it leaves the pages of the guest. -/
theorem sockaddrWrite_spec (mem : GuestMem) (addr : Addr) (got : Accepted) :
    ((sockaddrWrite mem addr got.sockaddr got.sockaddrLen).2.toInt < 0 ↔ ¬AddressFine mem addr got) ∧
      (sockaddrWrite mem addr got.sockaddr got.sockaddrLen).1.perm = mem.perm := by
  unfold sockaddrWrite AddressFine
  generalize hreal : Layout.leNat [got.sockaddr 0, got.sockaddr 1] = real
  by_cases hinet : real = 2 ∨ real = 10
  · have hfamily : sockFamilyFromReal real = 2 ∨ sockFamilyFromReal real = 10 := by
      obtain rfl | rfl := hinet
      · exact .inl rfl
      · exact .inr rfl
    have hlocal : sockFamilyFromReal real ≠ 1 := by
      obtain rfl | rfl := hinet <;> decide
    dsimp only
    rw [if_neg hlocal, if_pos hfamily, and_iff_right hinet]
    generalize hfake : List.take got.sockaddrLen.toNat _ = fake
    have hlen : fake.length = got.sockaddrLen.toNat := by
      rw [← hfake, List.length_take, List.length_append, Layout.leBytes_length, List.length_map,
        List.length_range]
      omega
    refine ⟨?_, GuestMem.perm_userWrite mem addr fake⟩
    rw [← hlen, ← GuestMem.userWrite_ok_iff]
    have hfault : (Errno.fault.toBits 32).toInt < 0 := by decide
    split
    · rename_i hok
      exact iff_of_false (Int.lt_irrefl 0) (not_not.mpr hok)
    · rename_i herr
      exact iff_of_true hfault herr
  · have hother : ¬(sockFamilyFromReal real = 2 ∨ sockFamilyFromReal real = 10) := by
      unfold sockFamilyFromReal
      split
      · rename_i hknown
        obtain rfl | h := hknown
        · decide
        · exact absurd h hinet
      · decide
    have hnot : ¬((real = 2 ∨ real = 10) ∧ mem.writable addr got.sockaddrLen.toNat) := fun h ↦ hinet h.1
    dsimp only
    rw [if_neg hother]
    have hnoent : (Errno.noent.toBits 32).toInt < 0 := by decide
    have hinval : (Errno.inval.toBits 32).toInt < 0 := by decide
    split
    · exact ⟨iff_of_true hnoent hnot, rfl⟩
    · exact ⟨iff_of_true hinval hnot, rfl⟩

/-- What `sys_accept` does with a descriptor that the host has given out. -/
theorem accepted_right_iff (hbits : s.table.cloexec.length = Util.bitsSize s.table.size)
    (sockaddrAddr sockaddrLenAddr : Addr) (got : Accepted) (limits : Limits) :
    CallRight s result
        (let r := sockaddrWrite s.mem sockaddrAddr got.sockaddr got.sockaddrLen
        let s := { s.opened [got.client] with mem := r.1 }
        if r.2.toInt < 0 then some (s, got.client)
        else
          let w := r.1.userWrite sockaddrLenAddr (Layout.leBytes 4 got.sockaddrLen.toNat)
          let s := { s with mem := w.1 }
          if w.2 ≠ 0 then some (s, eFault) else installSocket s got.client 0 limits) ↔
      (¬AddressFine s.mem sockaddrAddr got → Refers s got.client got.client) ∧
        (AddressFine s.mem sockaddrAddr got →
          s.mem.writable sockaddrLenAddr 4 ∧ InstallFine s.table limits) := by
  dsimp only
  obtain ⟨haddress, hperm⟩ := sockaddrWrite_spec s.mem sockaddrAddr got
  generalize sockaddrWrite s.mem sockaddrAddr got.sockaddr got.sockaddrLen = r at haddress hperm ⊢
  split
  · rename_i herr
    have hnot := haddress.mp herr
    have hsuccess := @right_success_iff s { s.opened [got.client] with mem := r.1 } got.client _
      result (Int.natCast_nonneg _) rfl
    rw [hsuccess, result, Int.toNat_natCast, List.forall₂_cons]
    exact ⟨fun h ↦ ⟨fun _ ↦ h.1, fun h ↦ absurd h hnot⟩, fun h ↦ ⟨h.1 hnot, .nil⟩⟩
  · rename_i hsent
    have hfine : AddressFine s.mem sockaddrAddr got := by
      by_contra hnot
      exact hsent (haddress.mpr hnot)
    have hwritable : (r.1.userWrite sockaddrLenAddr
        (Layout.leBytes 4 got.sockaddrLen.toNat)).2 = 0 ↔ s.mem.writable sockaddrLenAddr 4 := by
      rw [GuestMem.userWrite_ok_iff, Layout.leBytes_length, GuestMem.writable, hperm]
      rfl
    rw [← hwritable]
    split
    · rename_i hfault
      -- the descriptor stays open
      refine iff_of_false ?_ fun h ↦ hfault (h.2 hfine).1
      refine not_right_of_count (List.mem_singleton_self got.client) fun s' ret h ↦ ?_
      cases h
      refine ⟨by decide, [], (List.append_nil _).symm, ?_⟩
      rw [List.count_nil]
      decide
    · rename_i hok
      refine Iff.trans (@installSocket_right_iff s limits _ got.client 0 hbits rfl rfl) ?_
      exact ⟨fun h ↦ ⟨fun hnot ↦ absurd hfine hnot, fun _ ↦ ⟨not_not.mp hok, h⟩⟩,
        fun h ↦ (h.2 hfine).2⟩

theorem sysAccept_right_iff (hbits : s.table.cloexec.length = Util.bitsSize s.table.size)
    (sockFd : Dword) (sockaddrAddr sockaddrLenAddr : Addr)
    (accept : ℕ → Dword → Except Errno Accepted) (limits : Limits) :
    CallRight s result (sysAccept s sockFd sockaddrAddr sockaddrLenAddr accept limits) ↔
      AcceptFine s sockFd sockaddrAddr sockaddrLenAddr accept limits := by
  unfold sysAccept AcceptFine
  cases hget : s.table.fGet sockFd with
  | none =>
    refine iff_of_false ?_ ?_
    · rintro ⟨s', ret, new, h, -⟩
      cases h
    · rintro ⟨o, h, -⟩
      cases h
  | some o =>
    have hexists {P : Option FdId → Prop} : (∃ o', some o = some o' ∧ P o') ↔ P o := by
      simp only [Option.some.injEq, exists_eq_left']
    rw [hexists, Option.bind_eq_bind, Option.bind_some]
    cases o with
    | none =>
      refine iff_of_true (right_of_nothing s (by decide)) ?_
      rintro d sockaddrLen got ⟨⟩
    | some d =>
      dsimp only
      split
      · rename_i hsocket
        refine iff_of_true (right_of_nothing s (by decide)) ?_
        rintro _ sockaddrLen got ⟨⟩ hsocket'
        rw [hsocket] at hsocket'
        cases hsocket'
      rename_i hsocket
      cases hlen : userGet s.mem sockaddrLenAddr with
      | none =>
        refine iff_of_true (right_of_nothing s (by decide)) ?_
        rintro _ sockaddrLen got ⟨⟩ - ⟨⟩
      | some sockaddrLen =>
        dsimp only
        cases haccept : accept (s.fds.val d).realFd sockaddrLen with
        | error err =>
          refine iff_of_true (right_of_nothing s err.isErrno.2) ?_
          rintro _ _ got ⟨⟩ - ⟨⟩ hgot
          rw [haccept] at hgot
          cases hgot
        | ok got =>
          have hsocket : (s.fds.val d).isSocket = true := by simpa using hsocket
          have honly {P : Accepted → Prop} : (∀ d' sockaddrLen' got', some d = some d' →
              (s.fds.val d').isSocket = true → some sockaddrLen = some sockaddrLen' →
              accept (s.fds.val d').realFd sockaddrLen' = .ok got' → P got') ↔ P got := by
            refine ⟨fun h ↦ h d sockaddrLen got rfl hsocket rfl haccept, ?_⟩
            rintro h _ _ got' ⟨⟩ - ⟨⟩ hgot
            rw [haccept] at hgot
            cases hgot
            exact h
          rw [honly]
          exact accepted_right_iff hbits sockaddrAddr sockaddrLenAddr got limits

/-- The calls own the descriptors of the host exactly where no file fails to get a slot
and the guest can be written; `sys_accept` may also return a number of the host. -/
theorem callsRight_iff (s : Sys) (hbits : s.table.cloexec.length = Util.bitsSize s.table.size) :
    (∀ pipeAddr flags pipe limits₀ limits₁,
      CallRight s (pairAt pipeAddr) (sysPipe2 s pipeAddr flags pipe limits₀ limits₁) ↔
        Pipe2Fine s pipeAddr flags pipe limits₀ limits₁) ∧
    (∀ domain type protocol socketsAddr socketpair limits₀ limits₁,
      CallRight s (pairAt socketsAddr)
          (sysSocketpair s domain type protocol socketsAddr socketpair limits₀ limits₁) ↔
        SocketpairFine s domain type protocol socketsAddr socketpair limits₀ limits₁) ∧
    (∀ domain type protocol socket limits,
      CallRight s result (sysSocket s domain type protocol socket limits) ↔
        SocketFine s domain type protocol socket limits) ∧
    (∀ sockFd sockaddrAddr sockaddrLenAddr accept limits,
      CallRight s result (sysAccept s sockFd sockaddrAddr sockaddrLenAddr accept limits) ↔
        AcceptFine s sockFd sockaddrAddr sockaddrLenAddr accept limits) :=
  ⟨sysPipe2_right_iff hbits, sysSocketpair_right_iff hbits, sysSocket_right_iff hbits,
    sysAccept_right_iff hbits⟩

/-- A task with one slot and no memory. -/
def noFiles : Sys :=
  ⟨Pool.ofCounts [] fun _ ↦ ⟨0, false⟩, ⟨[none], [0], []⟩, ⟨fun _ ↦ .unmapped, fun _ ↦ 0⟩, []⟩

def eightFiles : Limits := ⟨⟨8, false, 0⟩, false⟩

theorem callRight_socket : CallRight noFiles result
    (sysSocket noFiles 2 1 0 (fun _ _ _ ↦ .ok 3) eightFiles) := by
  refine ((callsRight_iff noFiles rfl).2.2.1 2 1 0 (fun _ _ _ ↦ .ok 3) eightFiles).mpr ?_
  intro _ _ _ _ _ _
  refine .inr ⟨0, by decide, fun g hg ↦ absurd hg (Nat.not_lt_zero g), .inl ⟨?_, rfl⟩⟩
  decide

def threeFour : HostPair := ⟨3, 4, by decide⟩

/-- The guest cannot be written, and both descriptors of the host are closed twice. -/
theorem not_callRight_pipe2 :
    (sysPipe2 noFiles 4096 0 (some threeFour) eightFiles eightFiles).map
        (fun r ↦ (r.1.events, r.2)) =
      some ([.opened 3, .opened 4, .closed 4, .closed 3, .closed 3, .closed 4], -14) ∧
    ¬CallRight noFiles (pairAt 4096)
      (sysPipe2 noFiles 4096 0 (some threeFour) eightFiles eightFiles) := by
  have hrun : (sysPipe2 noFiles 4096 0 (some threeFour) eightFiles eightFiles).map
        (fun r ↦ (r.1.events, r.2)) =
      some ([.opened 3, .opened 4, .closed 4, .closed 3, .closed 3, .closed 4], -14) := by
    decide
  refine ⟨hrun, ?_⟩
  rintro ⟨s', ret, new, hr, hevents, hneg, -⟩
  rw [hr] at hrun
  obtain ⟨hs', hret⟩ := Prod.ext_iff.mp (Option.some.inj hrun)
  dsimp only at hs' hret
  rw [hs'] at hevents
  change _ = [] ++ new at hevents
  rw [List.nil_append] at hevents
  have honce := (hneg (hret ▸ by decide)).1 3 (by rw [← hevents]; decide)
  rw [← hevents] at honce
  exact absurd honce (by decide)

end Isl.Fs.Sock
