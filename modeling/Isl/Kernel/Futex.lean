import Isl.Lib.Links
import Isl.Lib.Owners
import Isl.Lib.Pool
import Isl.Lib.Run
import Mathlib.Data.BitVec
import Mathlib.Data.Int.Notation

/-!
Futexes of `kernel/futex.c`. A call holds `futex_lock` from `futex_get` to
`futex_put`, and gives it up only while it sleeps in `wait_for`.
-/

namespace Isl.Kernel.Futexes

open Isl.Lib Isl.Lib.Run

abbrev Dword := BitVec 32
abbrev Addr := BitVec 32
/-- The address of a `struct mem` of the host. -/
abbrev MemPtr := BitVec 64
abbrev ThreadId := ℕ

def eAgain : ℤ := -11
def eFault : ℤ := -14
def intMax : Dword := 0x7fffffff

structure Futex where
  mem : MemPtr
  addr : Addr
deriving DecidableEq

def futexHashSize : ℕ := 1 <<< 12

def hash (key : Futex) : ℕ := (key.addr.setWidth 64 ^^^ key.mem).toNat % futexHashSize

/-- The futexes in use and `futex_hash`. -/
structure Table where
  futexes : Pool Futex
  futexHash : ℕ → List ℕ

namespace Table

def find (T : Table) (key : Futex) : Option ℕ :=
  (T.futexHash (hash key)).find? fun f ↦ T.futexes.val f = key

def futexGet (T : Table) (key : Futex) : Option (ℕ × Table) :=
  match T.find key with
  | some f => (T.futexes.retain f).map fun p ↦ (f, { T with futexes := p })
  | none =>
    let r := T.futexes.alloc key
    some (r.1, ⟨r.2, Links.add T.futexHash (hash key) r.1⟩)

def futexPut (T : Table) (f : ℕ) : Option Table :=
  (T.futexes.release f).map fun p ↦
    if p.refcount f = 0 then ⟨p, Links.remove T.futexHash f⟩ else { T with futexes := p }

end Table

/-- Where a thread is in `futex_wait` or `futex_wake`, with the futex that it got. -/
inductive Place
  | out (result : ℤ)
  | load (f : ℕ) (val : Dword)
  | loaded (f : ℕ) (val : Dword) (tmp : Option Dword)
  | blocked (f : ℕ) (val : Dword)
  | awake (f : ℕ) (val : Dword)
  | wake (f : ℕ) (val : Dword)
  | done (f : ℕ) (result : ℤ)
deriving DecidableEq

namespace Place

def futex : Place → Option ℕ
  | .out _ => none
  | .load f _ | .loaded f _ _ | .blocked f _ | .awake f _ | .wake f _ | .done f _ => some f

/-- Between taking the lock and giving it up. -/
def inside : Place → Bool
  | .out _ | .blocked _ _ | .awake _ _ => false
  | .load _ _ | .loaded _ _ _ | .wake _ _ | .done _ _ => true

/-- Woken by a broadcast on the condition of `f`. -/
def notified (f : ℕ) : Place → Place
  | .blocked g val => if g = f then .awake g val else .blocked g val
  | p => p

end Place

structure State where
  word : MemPtr → Addr → Option Dword
  table : Table
  lock : Option ThreadId
  mem : ThreadId → MemPtr
  place : ThreadId → Place
  died : Bool

namespace State

def init (mem : ThreadId → MemPtr) (word : MemPtr → Addr → Option Dword) : State :=
  { word := word
    table := ⟨.ofCounts [] fun _ ↦ ⟨0, 0⟩, fun _ ↦ []⟩
    lock := none
    mem := mem
    place := fun _ ↦ .out 0
    died := false }

/-- A store changes any words of an address space. The condition of a futex may
wake a thread by itself, and `notify_once` wakes the thread it likes. -/
inductive Event
  | store (mem : MemPtr) (word : Addr → Option Dword)
  | wait (t : ThreadId) (addr : Addr) (val : Dword)
  | load (t : ThreadId)
  | check (t : ThreadId)
  | spurious (t : ThreadId)
  | relock (t : ThreadId)
  | wake (t : ThreadId) (addr : Addr) (val : Dword)
  | notify (t : ThreadId) (chosen : Option ThreadId)
  | put (t : ThreadId)

def moveTo (s : State) (t : ThreadId) (p : Place) : State :=
  { s with place := Function.update s.place t p }

/-- Take the lock and get the futex. -/
def enter (s : State) (t : ThreadId) (addr : Addr) (next : ℕ → Place) : Option State :=
  match s.lock, s.place t with
  | none, .out _ => do
    let (f, table) ← s.table.futexGet ⟨s.mem t, addr⟩
    some ({ s with table := table, lock := some t }.moveTo t (next f))
  | _, _ => none

def wakeOne (s : State) (f : ℕ) : Option ThreadId → Option State
  | none => some s
  | some u =>
    match s.place u with
    | .blocked g val => if g = f then some (s.moveTo u (.awake g val)) else none
    | _ => none

def stepAlive (s : State) : Event → Option State
  | .store mem word => some { s with word := Function.update s.word mem word }
  | .wait t addr val => s.enter t addr (.load · val)
  | .load t =>
    match s.place t with
    | .load f val =>
      (s.table.futexes.get f).map fun futex ↦
        s.moveTo t (.loaded f val (s.word (s.mem t) futex.addr))
    | _ => none
  | .check t =>
    match s.place t with
    | .loaded f _ none => some (s.moveTo t (.done f eFault))
    | .loaded f val (some tmp) =>
      if tmp ≠ val then some (s.moveTo t (.done f eAgain))
      else some ({ s with lock := none }.moveTo t (.blocked f val))
    | _ => none
  | .spurious t =>
    match s.place t with
    | .blocked f val => some (s.moveTo t (.awake f val))
    | _ => none
  | .relock t =>
    match s.lock, s.place t with
    | none, .awake f _ => some ({ s with lock := some t }.moveTo t (.done f 0))
    | _, _ => none
  | .wake t addr val => s.enter t addr (.wake · val)
  | .notify t chosen =>
    match s.place t with
    | .wake f val =>
      if val = 1 then (s.wakeOne f chosen).map fun s ↦ s.moveTo t (.done f val.toInt)
      else if val = intMax then
        some ({ s with place := fun u ↦ (s.place u).notified f }.moveTo t (.done f val.toInt))
      else some { s with died := true }
    | _ => none
  | .put t =>
    match s.place t with
    | .done f result =>
      (s.table.futexPut f).map fun table ↦
        { s with table := table, lock := none }.moveTo t (.out result)
    | _ => none

def step (s : State) (e : Event) : Option State := if s.died then none else s.stepAlive e

end State

namespace Table

variable {T T' : Table} {key : Futex} {f g i : ℕ}

/-- The table holds the futexes in use, each in the bucket of its hash, and one of
a kind. -/
structure Wf (T : Table) : Prop where
  listed : ∀ i f, f ∈ T.futexHash i ↔ T.futexes.live f ∧ i = hash (T.futexes.val f)
  nodup : Links.Nodup T.futexHash
  unique : ∀ f g, T.futexes.live f → T.futexes.live g → T.futexes.val f = T.futexes.val g → f = g

/-- What `futex_get` leaves: one more reference to a futex of the key. -/
structure Got (T : Table) (key : Futex) (f : ℕ) (T' : Table) : Prop where
  wf : T'.Wf
  val : T'.futexes.val f = key
  kept : ∀ g, T.futexes.live g → T'.futexes.val g = T.futexes.val g
  count : ∀ g, T'.futexes.refcount g = T.futexes.refcount g + if g = f then 1 else 0

theorem find_eq_some (h : T.Wf) (hf : T.find key = some f) :
    T.futexes.live f ∧ T.futexes.val f = key := by
  have hmem := List.mem_of_find?_eq_some hf
  have hkey := List.find?_some hf
  exact ⟨((h.listed _ f).mp hmem).1, of_decide_eq_true hkey⟩

theorem find_eq_none (h : T.Wf) (hf : T.find key = none) (hg : T.futexes.live g) :
    T.futexes.val g ≠ key := by
  intro hval
  have hmem := (h.listed (hash key) g).mpr ⟨hg, by rw [hval]⟩
  have hne := List.find?_eq_none.mp hf g hmem
  exact hne (decide_eq_true hval)

theorem Wf.futexGet (h : T.Wf) (key : Futex) :
    ∃ f T', T.futexGet key = some (f, T') ∧ Got T key f T' := by
  unfold Table.futexGet
  cases hf : T.find key with
  | some f =>
    obtain ⟨hlive, hval⟩ := find_eq_some h hf
    obtain ⟨p, hp, hr⟩ := Pool.retain_of_live hlive
    have hl (g : ℕ) : p.live g ↔ T.futexes.live g := by
      rw [Pool.live, Pool.live, hr.refcount g]
      by_cases hg : g = f
      · subst hg
        simp only [if_true, ne_eq, Nat.add_eq_zero_iff, one_ne_zero, and_false, not_false_eq_true,
          true_iff]
        exact hlive
      · simp [hg]
    simp only [hp, Option.map_some]
    refine ⟨f, _, rfl, ⟨?_, h.nodup, ?_⟩, ?_, ?_, hr.refcount⟩
    · intro i g
      simp only [hr.val, hl]
      exact h.listed i g
    · simp only [hr.val, hl]
      exact h.unique
    · simp only [hr.val, hval]
    · simp only [hr.val, implies_true]
  | none =>
    have hfresh : ¬T.futexes.live T.futexes.next := fun hl ↦ Nat.lt_irrefl _ hl.lt
    have hl (g : ℕ) : (T.futexes.alloc key).2.live g ↔ T.futexes.live g ∨ g = T.futexes.next := by
      rw [Pool.live, Pool.live, Pool.refcount_alloc]
      by_cases hg : g = T.futexes.next
      · simp [hg]
      · simp [hg]
    have hold {g : ℕ} (hg : T.futexes.live g) :
        (T.futexes.alloc key).2.val g = T.futexes.val g := by
      rw [Pool.val_alloc, if_neg (Nat.ne_of_lt hg.lt)]
    have hnew : (T.futexes.alloc key).2.val T.futexes.next = key := by
      rw [Pool.val_alloc, if_pos rfl]
    refine ⟨T.futexes.next, _, rfl, ⟨?_, ?_, ?_⟩, hnew, fun g hg ↦ hold hg,
      Pool.refcount_alloc T.futexes key⟩
    · intro i g
      dsimp only
      rw [Links.mem_add, hl, h.listed i g]
      constructor
      · rintro (⟨rfl, rfl⟩ | ⟨hg, rfl⟩)
        · exact ⟨.inr rfl, congrArg hash hnew.symm⟩
        · exact ⟨.inl hg, by rw [hold hg]⟩
      · rintro ⟨hg | rfl, rfl⟩
        · exact .inr ⟨hg, by rw [hold hg]⟩
        · exact .inl ⟨rfl, by rw [hnew]⟩
    · refine h.nodup.add (fun k hk ↦ hfresh ((h.listed k _).mp hk).1) _
    · intro g g' hg hg' hval
      rcases (hl g).mp hg with hg | rfl
      · rcases (hl g').mp hg' with hg' | rfl
        · rw [hold hg, hold hg'] at hval
          exact h.unique g g' hg hg' hval
        · rw [hold hg, hnew] at hval
          exact absurd hval (find_eq_none h hf hg)
      · rcases (hl g').mp hg' with hg' | rfl
        · rw [hnew, hold hg'] at hval
          exact absurd hval.symm (find_eq_none h hf hg')
        · rfl

/-- What `futex_put` leaves: one reference less, and no futex without any. -/
structure Dropped (T : Table) (f : ℕ) (T' : Table) : Prop where
  wf : T'.Wf
  val : T'.futexes.val = T.futexes.val
  count : ∀ g, T.futexes.refcount g = T'.futexes.refcount g + if g = f then 1 else 0

theorem Wf.futexPut (h : T.Wf) (hf : T.futexes.live f) :
    ∃ T', T.futexPut f = some T' ∧ Dropped T f T' := by
  obtain ⟨p, hp, hr⟩ := Pool.release_of_live hf
  have hval : p.val = T.futexes.val := hr.val.symm
  have hother {g : ℕ} (hg : g ≠ f) : p.live g ↔ T.futexes.live g := by
    rw [Pool.live, Pool.live, hr.refcount g, if_neg hg, Nat.add_zero]
  have hunique (g g' : ℕ) (hg : p.live g) (hg' : p.live g') (hv : p.val g = p.val g') : g = g' := by
    rw [hval] at hv
    exact h.unique g g' (hr.live_of_live hg) (hr.live_of_live hg') hv
  unfold Table.futexPut
  simp only [hp, Option.map_some]
  refine ⟨_, rfl, ?_, ?_, ?_⟩
  · split
    · rename_i hz
      refine ⟨fun i g ↦ ?_, h.nodup.remove f, hunique⟩
      dsimp only
      rw [Links.mem_remove, h.listed i g, hval]
      by_cases hg : g = f
      · subst hg
        simp [Pool.live, hz]
      · rw [hother hg]
        simp [hg]
    · rename_i hz
      refine ⟨fun i g ↦ ?_, h.nodup, hunique⟩
      dsimp only
      rw [h.listed i g, hval]
      by_cases hg : g = f
      · subst hg
        have hl : p.live g := hz
        simp only [hf, hl, true_and]
      · rw [hother hg]
  · split <;> exact hval
  · intro g
    split <;> exact hr.refcount g

end Table

namespace State

variable {s s' : State} {t u : ThreadId} {f g : ℕ} {p : Place} {addr : Addr} {old val : Dword}

def held (s : State) (t : ThreadId) : Option ℕ := (s.place t).futex

/-- In every reachable state: the count of a futex is the number of calls that got
it, they got the one of their address space, and a call that is not asleep has
the lock. -/
structure Inv (s : State) : Prop where
  table : s.table.Wf
  owned : Owned s.table.futexes.refcount s.held
  own : ∀ t f, s.held t = some f → (s.table.futexes.val f).mem = s.mem t
  lock : ∀ t, (s.place t).inside → s.lock = some t

theorem place_moveTo_self (s : State) (t : ThreadId) (p : Place) : (s.moveTo t p).place t = p := by
  simp [moveTo]

theorem place_moveTo_of_ne (s : State) (p : Place) (hu : u ≠ t) :
    (s.moveTo t p).place u = s.place u := by
  simp [moveTo, hu]

theorem held_moveTo (s : State) (t : ThreadId) (p : Place) :
    (s.moveTo t p).held = Function.update s.held t p.futex := by
  funext u
  by_cases hu : u = t
  · subst hu
    simp [held, moveTo]
  · simp [held, moveTo, hu]

theorem Inv.live (h : s.Inv) (hf : s.held t = some f) : s.table.futexes.live f := h.owned.pos hf

/-- A move within a call, with the same futex. -/
theorem Inv.moveTo (h : s.Inv) (hp : p.futex = (s.place t).futex)
    (hin : p.inside → s.lock = some t) : (s.moveTo t p).Inv := by
  have hheld : (s.moveTo t p).held = s.held := by
    rw [held_moveTo, hp]
    exact Function.update_eq_self t s.held
  refine ⟨h.table, ?_, ?_, ?_⟩
  · rw [hheld]
    exact h.owned
  · intro u g hu
    rw [hheld] at hu
    exact h.own u g hu
  · intro u hu
    by_cases hut : u = t
    · subst hut
      exact hin (by simpa [State.moveTo] using hu)
    · exact h.lock u (by simpa [State.moveTo, hut] using hu)

theorem place_of_enter {next : ℕ → Place} (hs : s.enter t addr next = some s') :
    ∃ r, s.place t = .out r := by
  unfold State.enter at hs
  split at hs
  · exact ⟨_, ‹_›⟩
  · cases hs

theorem place_enter_of_ne {next : ℕ → Place} (hs : s.enter t addr next = some s') (hu : u ≠ t) :
    s'.place u = s.place u := by
  unfold State.enter at hs
  split at hs
  · obtain ⟨⟨f, T⟩, -, hs⟩ := Option.bind_eq_some_iff.mp hs
    cases hs
    exact place_moveTo_of_ne _ _ hu
  · cases hs

theorem Inv.enter {next : ℕ → Place} (h : s.Inv) (hf : ∀ f, (next f).futex = some f)
    (hs : s.enter t addr next = some s') :
    s'.Inv ∧ s.lock = none ∧ s'.lock = some t ∧ s'.mem = s.mem ∧ s'.word = s.word ∧
    (∃ f, s'.place = Function.update s.place t (next f) ∧
      s'.table.futexes.val f = ⟨s.mem t, addr⟩) ∧
    ∀ u g, s.held u = some g → s'.table.futexes.val g = s.table.futexes.val g := by
  unfold State.enter at hs
  split at hs
  · rename_i r hlock hplace
    obtain ⟨f, T, hT, hg⟩ := h.table.futexGet ⟨s.mem t, addr⟩
    simp only [hT, Option.bind_eq_bind, Option.bind_some, Option.some.injEq] at hs
    subst hs
    have hout : s.held t = none := by rw [held, hplace]; rfl
    have hkept (u : ThreadId) (g : ℕ) (hu : s.held u = some g) :
        T.futexes.val g = s.table.futexes.val g := hg.kept g (h.live hu)
    refine ⟨⟨hg.wf, ?_, ?_, ?_⟩, hlock, rfl, rfl, rfl, ⟨f, rfl, hg.val⟩, hkept⟩
    · rw [held_moveTo, hf]
      exact h.owned.add hout hg.count
    · intro u g hu
      rw [held_moveTo, hf] at hu
      change (T.futexes.val g).mem = s.mem u
      by_cases hut : u = t
      · subst hut
        rw [Function.update_self, Option.some.injEq] at hu
        rw [← hu, hg.val]
      · rw [Function.update_of_ne hut] at hu
        have hu' : s.held u = some g := hu
        rw [hkept u g hu', h.own u g hu']
    · intro u hu
      by_cases hut : u = t
      · rw [hut]
        rfl
      · have hin : (s.place u).inside := by simpa [State.moveTo, hut] using hu
        rw [h.lock u hin] at hlock
        cases hlock
  · cases hs

/-- How a thread comes to a place. -/
def Comes (s : State) (u : ThreadId) : Place → Prop
  | .out _ => ∃ f r, s.place u = .done f r
  | .load _ _ | .wake _ _ => ∃ r, s.place u = .out r
  | .loaded f val tmp =>
    s.place u = .load f val ∧ tmp = s.word (s.mem u) (s.table.futexes.val f).addr
  | .blocked f val => s.place u = .loaded f val (some val)
  | .awake f val => s.place u = .blocked f val
  | .done f _ => s.held u = some f

/-- What a step keeps: the address spaces and the futexes that calls have, and every
thread stays where it is or goes on in its call. -/
structure Follows (s s' : State) : Prop where
  inv : s'.Inv
  mem : s'.mem = s.mem
  val : ∀ u f, s.held u = some f → s'.table.futexes.val f = s.table.futexes.val f
  place : ∀ u, s'.place u = s.place u ∨ s.Comes u (s'.place u)

theorem Inv.follows_moveTo (h : s.Inv) (hp : p.futex = (s.place t).futex)
    (hin : p.inside → s.lock = some t) (hc : s.Comes t p) : Follows s (s.moveTo t p) := by
  refine ⟨h.moveTo hp hin, rfl, fun _ _ _ ↦ rfl, fun u ↦ ?_⟩
  by_cases hu : u = t
  · subst hu
    rw [place_moveTo_self]
    exact .inr hc
  · exact .inl (place_moveTo_of_ne s p hu)

/-- The lock of a thread that is not in a call, or is asleep, is of no use to it. -/
theorem Inv.setLock (h : s.Inv) {l : Option ThreadId} (hl : ∀ u, (s.place u).inside → l = some u) :
    { s with lock := l }.Inv := ⟨h.table, h.owned, h.own, hl⟩

theorem Follows.setLock {l : Option ThreadId} (h : Follows { s with lock := l } s') : Follows s s' :=
  ⟨h.inv, h.mem, h.val, h.place⟩

theorem Inv.follows_enter (next : ℕ → Place) (h : s.Inv) (hf : ∀ f, (next f).futex = some f)
    (hc : ∀ f r, s.place t = .out r → s.Comes t (next f)) (hs : s.enter t addr next = some s') :
    Follows s s' := by
  obtain ⟨r, hout⟩ := place_of_enter hs
  obtain ⟨hinv, -, -, hmem, -, ⟨f, hplace, -⟩, hval⟩ := h.enter hf hs
  refine ⟨hinv, hmem, hval, fun u ↦ ?_⟩
  rw [hplace]
  by_cases hu : u = t
  · subst hu
    rw [Function.update_self]
    exact .inr (hc f r hout)
  · exact .inl (Function.update_of_ne hu _ _)

theorem Inv.follows_put {r : ℤ} {T : Table} (h : s.Inv) (hplace : s.place t = .done f r)
    (hT : s.table.futexPut f = some T) :
    Follows s ({ s with table := T, lock := none }.moveTo t (.out r)) := by
  have hheld : s.held t = some f := by rw [held, hplace]; rfl
  obtain ⟨T', hT', hd⟩ := h.table.futexPut (h.live hheld)
  obtain rfl : T = T' := Option.some.inj (hT.symm.trans hT')
  have hlock : s.lock = some t := h.lock t (by rw [hplace]; rfl)
  refine ⟨⟨hd.wf, ?_, ?_, ?_⟩, rfl, fun _ _ _ ↦ congrFun hd.val _, fun u ↦ ?_⟩
  · rw [held_moveTo]
    exact h.owned.drop hheld hd.count
  · intro u g hu
    rw [held_moveTo] at hu
    have hu' : s.held u = some g := by
      by_cases hut : u = t
      · subst hut
        rw [Function.update_self] at hu
        cases hu
      · rwa [Function.update_of_ne hut] at hu
    change (T.futexes.val g).mem = s.mem u
    rw [hd.val]
    exact h.own u g hu'
  · intro u hu
    by_cases hut : u = t
    · subst hut
      simp [State.moveTo, Place.inside] at hu
    · have hin : (s.place u).inside := by simpa [State.moveTo, hut] using hu
      have hl := h.lock u hin
      rw [hlock, Option.some.injEq] at hl
      exact absurd hl.symm hut
  · by_cases hu : u = t
    · subst hu
      rw [place_moveTo_self]
      exact .inr ⟨f, r, hplace⟩
    · exact .inl (place_moveTo_of_ne _ _ hu)

theorem Place.futex_notified (f : ℕ) (p : Place) : (p.notified f).futex = p.futex := by
  cases p with
  | blocked g val =>
    unfold Place.notified
    dsimp only
    split <;> rfl
  | _ => rfl

theorem Place.inside_notified (f : ℕ) (p : Place) : (p.notified f).inside = p.inside := by
  cases p with
  | blocked g val =>
    unfold Place.notified
    dsimp only
    split <;> rfl
  | _ => rfl

theorem Inv.follows_broadcast (h : s.Inv) (f : ℕ) :
    Follows s { s with place := fun u ↦ (s.place u).notified f } := by
  have hheld : { s with place := fun u ↦ (s.place u).notified f : State }.held = s.held :=
    funext fun u ↦ Place.futex_notified f _
  refine ⟨⟨h.table, ?_, ?_, ?_⟩, rfl, fun _ _ _ ↦ rfl, fun u ↦ ?_⟩
  · rw [hheld]
    exact h.owned
  · rw [hheld]
    exact h.own
  · intro u hu
    rw [Place.inside_notified] at hu
    exact h.lock u hu
  · dsimp only
    cases hp : s.place u with
    | blocked g val =>
      unfold Place.notified
      dsimp only
      split
      · exact .inr hp
      · exact .inl rfl
    | _ => exact .inl rfl

/-- `wait_for` gives the lock back and sleeps in one step. -/
theorem Inv.follows_sleep (h : s.Inv) (hp : s.place t = .loaded f val (some val)) :
    Follows s ({ s with lock := none }.moveTo t (.blocked f val)) := by
  have hlock : s.lock = some t := h.lock t (by rw [hp]; rfl)
  have hm := h.follows_moveTo (p := .blocked f val) (by rw [hp]; rfl) (by simp [Place.inside]) hp
  refine ⟨hm.inv.setLock fun u hu ↦ ?_, hm.mem, hm.val, hm.place⟩
  by_cases hut : u = t
  · rw [hut, place_moveTo_self] at hu
    cases hu
  · rw [place_moveTo_of_ne _ _ hut] at hu
    have hl := h.lock u hu
    rw [hlock, Option.some.injEq] at hl
    exact absurd hl.symm hut

theorem Place.notified_of_ne {p : Place} (f : ℕ) (h : ∀ g val, p ≠ .blocked g val) :
    p.notified f = p := by
  cases p with
  | blocked g val => exact absurd rfl (h g val)
  | _ => rfl

/-- `notify_once` moves nobody but a thread that is asleep. -/
theorem place_wakeOne {chosen : Option ThreadId} (hs : s.wakeOne f chosen = some s')
    (hp : ∀ g val, s.place t ≠ .blocked g val) : s'.place t = s.place t := by
  unfold wakeOne at hs
  split at hs
  · cases hs
    rfl
  · split at hs
    · rename_i g val hu
      split at hs
      · cases hs
        apply place_moveTo_of_ne
        rintro rfl
        exact hp g val hu
      · cases hs
    · cases hs

theorem Inv.follows_wakeOne {chosen : Option ThreadId} (h : s.Inv) (hp : s.place t = .wake f val)
    (hs : s.wakeOne f chosen = some s') : Follows s s' ∧ s'.place t = s.place t := by
  refine ⟨?_, place_wakeOne hs (by simp [hp])⟩
  unfold wakeOne at hs
  split at hs
  · cases hs
    exact ⟨h, rfl, fun _ _ _ ↦ rfl, fun _ ↦ .inl rfl⟩
  · split at hs
    · rename_i hu
      split at hs
      · cases hs
        exact h.follows_moveTo (by rw [hu]; rfl) (by simp [Place.inside]) hu
      · cases hs
    · cases hs

/-- After the threads are woken the caller still has to give the futex back. -/
theorem Follows.done {r : ℤ} (h : Follows s s') (hp : s.place t = .wake f val)
    (hplace : s'.place t = s.place t) : Follows s (s'.moveTo t (.done f r)) := by
  have hp' : s'.place t = .wake f val := hplace.trans hp
  refine ⟨h.inv.moveTo (by rw [hp']; rfl) fun _ ↦ h.inv.lock t (by rw [hp']; rfl), h.mem, h.val,
    fun u ↦ ?_⟩
  by_cases hu : u = t
  · rw [hu, place_moveTo_self]
    exact .inr (by rw [Comes, held, hp]; rfl)
  · rw [place_moveTo_of_ne _ _ hu]
    exact h.place u

theorem Inv.follows {e : Event} (h : s.Inv) (hs : s.step e = some s') : Follows s s' := by
  unfold step at hs
  split at hs
  · cases hs
  cases e with
  | store mem word =>
    cases hs
    exact ⟨⟨h.table, h.owned, h.own, h.lock⟩, rfl, fun _ _ _ ↦ rfl, fun _ ↦ .inl rfl⟩
  | wait t addr val => exact h.follows_enter (.load · val) (fun _ ↦ rfl) (fun _ r hr ↦ ⟨r, hr⟩) hs
  | wake t addr val => exact h.follows_enter (.wake · val) (fun _ ↦ rfl) (fun _ r hr ↦ ⟨r, hr⟩) hs
  | load t =>
    simp only [stepAlive] at hs
    split at hs
    · rename_i f val hp
      obtain ⟨futex, hf, rfl⟩ := Option.map_eq_some_iff.mp hs
      obtain ⟨-, rfl⟩ := Pool.get_eq_some.mp hf
      refine h.follows_moveTo (by rw [hp]; rfl) (fun _ ↦ h.lock t (by rw [hp]; rfl)) ⟨hp, rfl⟩
    · cases hs
  | check t =>
    simp only [stepAlive] at hs
    split at hs
    · rename_i f val hp
      cases hs
      exact h.follows_moveTo (by rw [hp]; rfl) (fun _ ↦ h.lock t (by rw [hp]; rfl))
        (by rw [Comes, held, hp]; rfl)
    · rename_i f val tmp hp
      split at hs
      · cases hs
        exact h.follows_moveTo (by rw [hp]; rfl) (fun _ ↦ h.lock t (by rw [hp]; rfl))
          (by rw [Comes, held, hp]; rfl)
      · rename_i htmp
        obtain rfl := not_not.mp htmp
        cases hs
        exact h.follows_sleep hp
    · cases hs
  | spurious t =>
    simp only [stepAlive] at hs
    split at hs
    · rename_i f val hp
      cases hs
      exact h.follows_moveTo (by rw [hp]; rfl) (by simp [Place.inside]) hp
    · cases hs
  | relock t =>
    simp only [stepAlive] at hs
    split at hs
    · rename_i f val hlock hp
      cases hs
      have hl : { s with lock := some t }.Inv := h.setLock fun u hu ↦ by
        rw [h.lock u hu] at hlock
        cases hlock
      exact (hl.follows_moveTo (by rw [hp]; rfl) (fun _ ↦ rfl) (by rw [Comes, held, hp]; rfl)).setLock
    · cases hs
  | notify t chosen =>
    simp only [stepAlive] at hs
    split at hs
    · rename_i f val hp
      split at hs
      · obtain ⟨s₁, h₁, rfl⟩ := Option.map_eq_some_iff.mp hs
        obtain ⟨hf, hplace⟩ := h.follows_wakeOne hp h₁
        exact hf.done hp hplace
      split at hs
      · cases hs
        exact (h.follows_broadcast f).done hp ((congrArg (Place.notified f) hp).trans hp.symm)
      · cases hs
        exact ⟨⟨h.table, h.owned, h.own, h.lock⟩, rfl, fun _ _ _ ↦ rfl, fun _ ↦ .inl rfl⟩
    · cases hs
  | put t =>
    simp only [stepAlive] at hs
    split at hs
    · rename_i f r hp
      obtain ⟨T, hT, rfl⟩ := Option.map_eq_some_iff.mp hs
      exact h.follows_put hp hT
    · cases hs

theorem init_inv (mem : ThreadId → MemPtr) (word : MemPtr → Addr → Option Dword) :
    (init mem word).Inv := by
  have hnone (f : ℕ) : ¬(init mem word).table.futexes.live f := fun h ↦ Nat.not_lt_zero f h.lt
  refine ⟨⟨fun i f ↦ ⟨fun h ↦ absurd h List.not_mem_nil, fun h ↦ absurd h.1 (hnone f)⟩,
    fun _ ↦ List.nodup_nil, fun f g hf ↦ absurd hf (hnone f)⟩, ⟨?_, fun f ↦ ?_⟩, ?_, ?_⟩
  · simp [held, init, Place.futex]
  · have hempty : {t | (init mem word).held t = some f} = ∅ := by
      ext t
      simp [held, init, Place.futex]
    rw [hempty, Set.ncard_empty]
    exact not_not.mp (hnone f)
  · intro t f h
    cases h
  · intro t h
    cases h

theorem inv_of_reaches {mem : ThreadId → MemPtr} {word : MemPtr → Addr → Option Dword}
    (h : Reaches step (fun _ _ ↦ True) (init mem word) s) : s.Inv :=
  h.invariant (init_inv mem word) fun _ _ _ hi _ hs ↦ (hi.follows hs).inv

end State

end Isl.Kernel.Futexes
