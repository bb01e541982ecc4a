import Mathlib.Data.BitVec
import Mathlib.Data.Int.Notation

/-!
The user and group ids of a task, and the calls of `kernel/getset.c` that set them. A task
that has given up the privileges of the superuser cannot get them back.
-/

namespace Isl.Kernel.Ids

abbrev Id := BitVec 32

def eperm : ℤ := -1

/-- `uid`, `euid` and `suid` of a task, or `gid`, `egid` and `sgid`. -/
structure Triple where
  id : Id
  eid : Id
  sid : Id
deriving DecidableEq

structure Task where
  user : Triple
  group : Triple
deriving DecidableEq

def superuser (current : Task) : Bool := current.user.eid == 0

namespace Triple

variable (t : Triple)

/-- `sys_setuid` and `sys_setgid` -/
def set (superuser : Bool) (id : Id) : ℤ × Triple :=
  if superuser then (0, ⟨id, id, id⟩)
  else if id ≠ t.id ∧ id ≠ t.sid then (eperm, t)
  else (0, { t with eid := id })

/-- The test that `sys_setresuid` and `sys_setresgid` make of each argument. -/
def refuses (id : Id) : Bool := id != -1 && id != t.id && id != t.eid && id != t.sid

/-- `sys_setresuid` and `sys_setresgid` -/
def setRes (superuser : Bool) (rid eid sid : Id) : ℤ × Triple :=
  if !superuser && t.refuses rid then (eperm, t)
  else if !superuser && t.refuses eid then (eperm, t)
  else if !superuser && t.refuses sid then (eperm, t)
  else
    (0, { id := if rid != -1 then rid else t.id
          eid := if eid != -1 then eid else t.eid
          sid := if sid != -1 then sid else t.sid })

end Triple

section

variable (current : Task)

def sysSetuid (uid : Id) : ℤ × Task :=
  let r := current.user.set (superuser current) uid
  (r.1, { current with user := r.2 })

def sysSetresuid (ruid euid suid : Id) : ℤ × Task :=
  let r := current.user.setRes (superuser current) ruid euid suid
  (r.1, { current with user := r.2 })

def sysSetgid (gid : Id) : ℤ × Task :=
  let r := current.group.set (superuser current) gid
  (r.1, { current with group := r.2 })

def sysSetresgid (rgid egid sgid : Id) : ℤ × Task :=
  let r := current.group.setRes (superuser current) rgid egid sgid
  (r.1, { current with group := r.2 })

end

inductive Call
  | setuid (uid : Id)
  | setresuid (ruid euid suid : Id)
  | setgid (gid : Id)
  | setresgid (rgid egid sgid : Id)

def Call.run (current : Task) : Call → ℤ × Task
  | .setuid uid => sysSetuid current uid
  | .setresuid ruid euid suid => sysSetresuid current ruid euid suid
  | .setgid gid => sysSetgid current gid
  | .setresgid rgid egid sgid => sysSetresgid current rgid egid sgid

/-- The task after some calls. -/
def after (current : Task) (calls : List Call) : Task :=
  calls.foldl (fun t c ↦ (c.run t).2) current

namespace Triple

variable {t t₀ : Triple} {x : Id} {b : Bool}

/-- One of the three ids. -/
def Has (t : Triple) (x : Id) : Prop := x = t.id ∨ x = t.eid ∨ x = t.sid

/-- No id but those of `t₀`. -/
structure Within (t t₀ : Triple) : Prop where
  id : t₀.Has t.id
  eid : t₀.Has t.eid
  sid : t₀.Has t.sid

theorem Within.refl (t : Triple) : t.Within t := ⟨.inl rfl, .inr (.inl rfl), .inr (.inr rfl)⟩

theorem Within.has (h : t.Within t₀) (hx : t.Has x) : t₀.Has x := by
  rcases hx with rfl | rfl | rfl
  · exact h.id
  · exact h.eid
  · exact h.sid

theorem set_error (h : (t.set b x).1 ≠ 0) : (t.set b x).2 = t := by
  unfold set at h ⊢
  split at h
  · exact absurd rfl h
  · split at h
    · rw [if_neg ‹_›, if_pos ‹_›]
    · exact absurd rfl h

theorem setRes_error {r e s : Id} (h : (t.setRes b r e s).1 ≠ 0) : (t.setRes b r e s).2 = t := by
  unfold setRes at h ⊢
  split
  · rfl
  · split
    · rfl
    · split
      · rfl
      · simp_all

/-- Without the privilege, `set` only takes an id that is there. -/
theorem Within.set (h : t.Within t₀) : (t.set false x).2.Within t₀ := by
  unfold Triple.set
  rw [if_neg Bool.false_ne_true]
  split
  · exact h
  · rename_i hx
    have hhas : t.Has x := by
      by_cases hid : x = t.id
      · exact .inl hid
      · exact .inr (.inr (by_contra fun hsid ↦ hx ⟨hid, hsid⟩))
    exact ⟨h.id, h.has hhas, h.sid⟩

theorem has_of_not_refuses (hr : t.refuses x = false) (hx : (x != -1) = true) : t.Has x := by
  unfold refuses at hr
  simp only [hx, Bool.true_and, Bool.and_eq_false_iff, bne_eq_false_iff_eq] at hr
  rcases hr with (h | h) | h
  · exact .inl h
  · exact .inr (.inl h)
  · exact .inr (.inr h)

theorem Within.setRes (h : t.Within t₀) {r e s : Id} : (t.setRes false r e s).2.Within t₀ := by
  have hnew {x y : Id} (hr : ¬(!false && t.refuses x) = true) (hy : t.Has y) :
      t₀.Has (if x != -1 then x else y) := by
    split
    · exact h.has (has_of_not_refuses (by simpa using hr) ‹_›)
    · exact h.has hy
  unfold Triple.setRes
  split
  · exact h
  · split
    · exact h
    · split
      · exact h
      · exact ⟨hnew ‹_› (.inl rfl), hnew ‹_› (.inr (.inl rfl)), hnew ‹_› (.inr (.inr rfl))⟩

end Triple

/-- Neither the user ids nor the group ids have one that was not there in the beginning. -/
structure Within (t t₀ : Task) : Prop where
  user : t.user.Within t₀.user
  group : t.group.Within t₀.group

section

variable {t t₀ : Task} {c : Call}

theorem Call.run_error (h : (c.run t).1 ≠ 0) : (c.run t).2 = t := by
  cases c with
  | setuid uid => exact congrArg (fun user ↦ { t with user := user }) (Triple.set_error h)
  | setresuid r e s => exact congrArg (fun user ↦ { t with user := user }) (Triple.setRes_error h)
  | setgid gid => exact congrArg (fun group ↦ { t with group := group }) (Triple.set_error h)
  | setresgid r e s => exact congrArg (fun group ↦ { t with group := group }) (Triple.setRes_error h)

theorem Within.not_superuser (h : Within t t₀) (h₀ : ¬t₀.user.Has 0) : superuser t = false := by
  have hne : t.user.eid ≠ 0 := fun he ↦ h₀ (he ▸ h.user.eid)
  exact beq_eq_false_iff_ne.mpr hne

theorem Within.run (h : Within t t₀) (h₀ : ¬t₀.user.Has 0) : Within (c.run t).2 t₀ := by
  have hsuper := h.not_superuser h₀
  cases c with
  | setuid uid =>
    refine ⟨?_, h.group⟩
    simp only [Call.run, sysSetuid, hsuper]
    exact h.user.set
  | setresuid r e s =>
    refine ⟨?_, h.group⟩
    simp only [Call.run, sysSetresuid, hsuper]
    exact h.user.setRes
  | setgid gid =>
    refine ⟨h.user, ?_⟩
    simp only [Call.run, sysSetgid, hsuper]
    exact h.group.set
  | setresgid r e s =>
    refine ⟨h.user, ?_⟩
    simp only [Call.run, sysSetresgid, hsuper]
    exact h.group.setRes

theorem Within.after (h : Within t t₀) (h₀ : ¬t₀.user.Has 0) (calls : List Call) :
    Within (after t calls) t₀ := by
  induction calls generalizing t with
  | nil => exact h
  | cons c calls ih => exact ih (h.run h₀)

/-- A task without the superuser among its ids keeps to the ids it has, whatever calls
it makes, and a call that fails changes none of them. -/
theorem ids_never_grow (t : Task) (h₀ : ¬t.user.Has 0) (calls : List Call) :
    Within (after t calls) t ∧
      ∀ c : Call, (c.run (after t calls)).1 ≠ 0 → (c.run (after t calls)).2 = after t calls :=
  ⟨Within.after ⟨.refl _, .refl _⟩ h₀ calls, fun _ ↦ Call.run_error⟩

end

theorem ids_never_grow_two : ¬(Triple.mk 1000 1000 1000).Has 0 ∧
    Within (after ⟨⟨1000, 1000, 1000⟩, ⟨0, 0, 0⟩⟩ [.setuid 0, .setgid 0])
      ⟨⟨1000, 1000, 1000⟩, ⟨0, 0, 0⟩⟩ := by
  have h₀ : ¬(Triple.mk 1000 1000 1000).Has 0 := by
    unfold Triple.Has
    decide
  exact ⟨h₀, (ids_never_grow ⟨⟨1000, 1000, 1000⟩, ⟨0, 0, 0⟩⟩ h₀ _).1⟩

end Isl.Kernel.Ids
