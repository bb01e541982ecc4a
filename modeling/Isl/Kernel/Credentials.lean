import Isl.Emu.MemWrite
import Isl.Kernel.Ids

/-!
The calls of `kernel/getset.c` that give a task its ids and its groups back, and the one that
sets the groups, with the copies to and from the guest.
-/

namespace Isl.Kernel.Credentials

open Isl.Emu Isl.Lib Isl.Kernel.Ids
open Isl.Emu.GuestMem (dist)

abbrev Dword := BitVec 32
abbrev Addr := BitVec 32
abbrev Byte := BitVec 8

def eFault : ℤ := -14
def eInval : ℤ := -22
def maxGroups : ℕ := 32

def idBytes (id : Id) : List Byte := Layout.leBytes 4 id.toNat

/-- The ids, and the bytes of the array of the groups. -/
structure Creds extends Ids.Task where
  ngroups : ℕ
  groups : List Byte
  ngroups_le : ngroups ≤ maxGroups
  length_groups : groups.length = 4 * maxGroups

theorem length_userRead (g : GuestMem) (a : Addr) (buf : List Byte) :
    (g.userRead a buf).1.length = buf.length := by
  induction buf generalizing a with
  | nil => rfl
  | cons b buf ih =>
    unfold GuestMem.userRead
    cases g.load a with
    | none => rfl
    | some v => rw [List.length_cons, List.length_cons, ih]

namespace Creds

variable (c : Creds)

def groupList : List Byte := c.groups.take (4 * c.ngroups)

/-- `sys_getresuid` and `sys_getresgid` -/
def getRes (t : Triple) (g : GuestMem) (ridAddr eidAddr _sidAddr : Addr) : ℤ × GuestMem :=
  let (g, failed) := g.userWrite ridAddr (idBytes t.id)
  if failed ≠ 0 then (eFault, g)
  else
    let (g, failed) := g.userWrite eidAddr (idBytes t.eid)
    if failed ≠ 0 then (eFault, g)
    else
      -- the third address is not used
      let (g, failed) := g.userWrite eidAddr (idBytes t.sid)
      if failed ≠ 0 then (eFault, g) else (0, g)

def sysGetresuid (g : GuestMem) (ruidAddr euidAddr suidAddr : Addr) : ℤ × GuestMem :=
  getRes c.user g ruidAddr euidAddr suidAddr

def sysGetresgid (g : GuestMem) (rgidAddr egidAddr sgidAddr : Addr) : ℤ × GuestMem :=
  getRes c.group g rgidAddr egidAddr sgidAddr

/-- `sys_getgroups`. A copy that goes on behind the array ends in `none`. -/
def sysGetgroups (g : GuestMem) (size : Dword) (list : Addr) : Option (ℤ × GuestMem) :=
  if size = 0 then some (c.ngroups, g)
  else if size.toNat < c.ngroups then some (eInval, g)
  else
    let (g, failed) := g.userWrite list (c.groups.take (4 * size.toNat))
    if failed ≠ 0 then some (eFault, g)
    else if maxGroups < size.toNat then none
    else some (0, g)

/-- The groups after `user_read`, which may have failed on the way. -/
def readGroups (g : GuestMem) (size : Dword) (list : Addr) : Creds :=
  { c with
    groups := (g.userRead list (c.groups.take (4 * size.toNat))).1 ++ c.groups.drop (4 * size.toNat)
    length_groups := by
      rw [List.length_append, length_userRead, ← List.length_append, List.take_append_drop]
      exact c.length_groups }

def sysSetgroups (g : GuestMem) (size : Dword) (list : Addr) : ℤ × Creds :=
  if h : maxGroups < size.toNat then (eInval, c)
  else if (g.userRead list (c.groups.take (4 * size.toNat))).2 ≠ 0 then
    (eFault, c.readGroups g size list)
  else (0, { c.readGroups g size list with ngroups := size.toNat, ngroups_le := Nat.not_lt.mp h })

end Creds

/-! What the calls should do. -/

/-- Two ids have room. -/
def Apart (a b : Addr) : Prop := 4 ≤ dist a b ∧ 4 ≤ dist b a

instance (a b : Addr) : Decidable (Apart a b) :=
  inferInstanceAs (Decidable (4 ≤ dist a b ∧ 4 ≤ dist b a))

inductive Use
  | getresuid (g : GuestMem) (ruidAddr euidAddr suidAddr : Addr)
  | getresgid (g : GuestMem) (rgidAddr egidAddr sgidAddr : Addr)
  | setgroups (g : GuestMem) (size : Dword) (list : Addr)
  | getgroups (old : GuestMem) (n : Dword) (at' : Addr) (g : GuestMem) (size : Dword) (list : Addr)

/-- Three places for an id in the memory. -/
def Places (g : GuestMem) (ridAddr eidAddr sidAddr : Addr) : Prop :=
  (Apart ridAddr eidAddr ∧ Apart ridAddr sidAddr ∧ Apart eidAddr sidAddr) ∧
    g.writable ridAddr 4 ∧ g.writable eidAddr 4 ∧ g.writable sidAddr 4

def Stored (t : Triple) (ridAddr eidAddr sidAddr : Addr) (r : ℤ × GuestMem) : Prop :=
  r.1 = 0 ∧ r.2.Holds ridAddr (idBytes t.id) ∧ r.2.Holds eidAddr (idBytes t.eid) ∧
    r.2.Holds sidAddr (idBytes t.sid)

namespace Use

variable (c : Creds)

/-- The groups are set, and then asked for with room for them. Or setting them fails. -/
def Allowed : Use → Prop
  | getresuid g ruidAddr euidAddr suidAddr => Places g ruidAddr euidAddr suidAddr
  | getresgid g rgidAddr egidAddr sgidAddr => Places g rgidAddr egidAddr sgidAddr
  | setgroups g size list => (c.sysSetgroups g size list).1 ≠ 0
  | getgroups old n at' g size list =>
    (c.sysSetgroups old n at').1 = 0 ∧ n ≤ size ∧ g.writable list (4 * n.toNat)

/-- The ids are stored, the groups are those that were set, and setting them changes nothing
when it fails. -/
def ReadsBack : Use → Prop
  | getresuid g ruidAddr euidAddr suidAddr =>
    Stored c.user ruidAddr euidAddr suidAddr (c.sysGetresuid g ruidAddr euidAddr suidAddr)
  | getresgid g rgidAddr egidAddr sgidAddr =>
    Stored c.group rgidAddr egidAddr sgidAddr (c.sysGetresgid g rgidAddr egidAddr sgidAddr)
  | setgroups g size list => (c.sysSetgroups g size list).2.groupList = c.groupList
  | getgroups old n at' g size list =>
    ∃ ids, ids.length = 4 * n.toNat ∧ old.Holds at' ids ∧
      (c.sysSetgroups old n at').2.sysGetgroups g size list
        = some ((n.toNat : ℤ), (g.userWrite list ids).1)

/-- The second and the third id are the same, and the third is there already. An empty list is
set, and the guest has what the array has. What is read before the failure is in the list
already. -/
def Guard : Use → Prop
  | getresuid g _ _ suidAddr => c.user.eid = c.user.sid ∧ g.Holds suidAddr (idBytes c.user.sid)
  | getresgid g _ _ sgidAddr => c.group.eid = c.group.sid ∧ g.Holds sgidAddr (idBytes c.group.sid)
  | setgroups g size list => maxGroups < size.toNat ∨
    ∀ i < 4 * min c.ngroups size.toNat,
      (∀ j ≤ i, (g.load (list + BitVec.ofNat 32 j)).isSome = true) →
        g.load (list + BitVec.ofNat 32 i) = c.groups[i]?
  | getgroups _ n _ g size list => n = 0 ∧
    (size = 0 ∨ size.toNat ≤ maxGroups ∧ g.writable list (4 * size.toNat) ∧
      g.Holds list (c.groups.take (4 * size.toNat)))

end Use

section

variable {g g' : GuestMem} {a b x : Addr} {bs buf : List Byte} {c : Creds} {size n : Dword}
  {list : Addr}

/-! Copies. -/

@[simp] theorem length_idBytes (id : Id) : (idBytes id).length = 4 := Layout.leBytes_length 4 _

theorem idBytes_inj {id id' : Id} : idBytes id = idBytes id' ↔ id = id' := by
  refine ⟨fun h ↦ ?_, fun h ↦ h ▸ rfl⟩
  have hnat := congrArg Layout.leNat h
  have hpow : 256 ^ 4 = 2 ^ 32 := by norm_num
  rw [idBytes, idBytes, Layout.leNat_leBytes, Layout.leNat_leBytes, hpow,
    Nat.mod_eq_of_lt id.isLt, Nat.mod_eq_of_lt id'.isLt] at hnat
  exact BitVec.eq_of_toNat_eq hnat

theorem writable_userWrite {m : ℕ} (h : g.writable b m) : (g.userWrite a bs).1.writable b m := by
  rwa [GuestMem.writable, GuestMem.perm_userWrite]

theorem holds_userWrite (hw : g.writable a bs.length) (hlen : bs.length ≤ 2 ^ 32) :
    (g.userWrite a bs).1.Holds a bs :=
  fun _ hi ↦ GuestMem.load_userWrite (GuestMem.userWrite_ok hw) hlen hi

theorem holds_userWrite_apart {ids : List Byte} (hab : Apart a b) (hbs : bs.length = 4)
    (hids : ids.length = 4) : (g.userWrite a bs).1.Holds b ids ↔ g.Holds b ids := by
  refine forall_congr' fun i ↦ forall_congr' fun hi ↦ ?_
  rw [GuestMem.load_userWrite_of_outside]
  obtain ⟨hab, hba⟩ := hab
  have hi' : i < 4 := hids ▸ hi
  have hlt := a.isLt
  have hlt' := b.isLt
  simp only [GuestMem.dist, BitVec.toNat_sub, BitVec.toNat_add, BitVec.toNat_ofNat] at hab hba ⊢
  omega

/-- Only one list of bytes of a length lies at an address. -/
theorem holds_inj {bs' : List Byte} (h : g.Holds a bs) (h' : g.Holds a bs')
    (hlen : bs.length = bs'.length) : bs = bs' := by
  refine List.ext_getElem hlen fun i hi hi' ↦ ?_
  exact Option.some.inj ((h i hi).symm.trans (h' i hi'))

theorem getRes_eq (t : Triple) {r e s : Addr} (hr : g.writable r 4) (he : g.writable e 4) :
    Creds.getRes t g r e s = (0, (((g.userWrite r (idBytes t.id)).1.userWrite e
      (idBytes t.eid)).1.userWrite e (idBytes t.sid)).1) := by
  have hok : (g.userWrite r (idBytes t.id)).2 = 0 := GuestMem.userWrite_ok (by simpa using hr)
  have hok' : ((g.userWrite r (idBytes t.id)).1.userWrite e (idBytes t.eid)).2 = 0 :=
    GuestMem.userWrite_ok (by simpa using writable_userWrite he)
  have hok'' : (((g.userWrite r (idBytes t.id)).1.userWrite e
      (idBytes t.eid)).1.userWrite e (idBytes t.sid)).2 = 0 :=
    GuestMem.userWrite_ok (by simpa using writable_userWrite (writable_userWrite he))
  simp only [Creds.getRes, hok, hok', hok'', ne_eq, not_true, if_false]

/-- The third id is where the second should be, and its own place is not written. -/
theorem stored_iff (t : Triple) {r e s : Addr} (h : Places g r e s) :
    Stored t r e s (Creds.getRes t g r e s) ↔ t.eid = t.sid ∧ g.Holds s (idBytes t.sid) := by
  obtain ⟨⟨hre, hrs, hes⟩, hr, he, -⟩ := h
  have her : Apart e r := hre.symm
  rw [getRes_eq t hr he, Stored]
  have hfirst : (((g.userWrite r (idBytes t.id)).1.userWrite e (idBytes t.eid)).1.userWrite e
      (idBytes t.sid)).1.Holds r (idBytes t.id) := by
    rw [holds_userWrite_apart her (length_idBytes _) (length_idBytes _),
      holds_userWrite_apart her (length_idBytes _) (length_idBytes _)]
    exact holds_userWrite (by simpa using hr) (by simp)
  have hsecond : (((g.userWrite r (idBytes t.id)).1.userWrite e (idBytes t.eid)).1.userWrite e
      (idBytes t.sid)).1.Holds e (idBytes t.sid) :=
    holds_userWrite (by simpa using writable_userWrite (writable_userWrite he)) (by simp)
  rw [holds_userWrite_apart hes (length_idBytes _) (length_idBytes _),
    holds_userWrite_apart hes (length_idBytes _) (length_idBytes _),
    holds_userWrite_apart hrs (length_idBytes _) (length_idBytes _)]
  constructor
  · rintro ⟨-, -, heid, hsid⟩
    exact ⟨idBytes_inj.mp (holds_inj heid hsecond (by simp)), hsid⟩
  · rintro ⟨hsame, hsid⟩
    exact ⟨rfl, hfirst, hsame ▸ hsecond, hsid⟩

/-- A copy changes nothing if and only if the bytes are there. -/
theorem userWrite_eq_self_iff (hlen : bs.length ≤ 2 ^ 32) :
    g.userWrite a bs = (g, 0) ↔ g.writable a bs.length ∧ g.Holds a bs := by
  constructor
  · intro h
    have hok : (g.userWrite a bs).2 = 0 := by rw [h]
    have hholds : (g.userWrite a bs).1.Holds a bs := fun _ hi ↦ GuestMem.load_userWrite hok hlen hi
    rw [h] at hholds
    exact ⟨GuestMem.userWrite_ok_iff.mp hok, hholds⟩
  · rintro ⟨hw, hholds⟩
    induction bs generalizing a with
    | nil => rfl
    | cons b bs ih =>
      obtain ⟨hload, hrest⟩ := GuestMem.holds_cons.mp hholds
      have hp : g.perm (Memory.page a) = .readWrite := by simpa using hw 0 (Nat.succ_pos _)
      have hb : g.byte a = b := by simpa [GuestMem.load, hp] using hload
      have hsame : { g with byte := Function.update g.byte a b } = g := by
        rw [← hb, Function.update_eq_self]
      have hs : g.store a b = some g := GuestMem.store_eq_some.mpr ⟨hp, hsame.symm⟩
      rw [List.length_cons] at hlen
      unfold GuestMem.userWrite
      simp only [hs]
      refine ih (by omega) (fun i hi ↦ ?_) hrest
      rw [GuestMem.add_one_add]
      exact hw (i + 1) (Nat.succ_lt_succ hi)

/-- The bytes in front of the first one that cannot be read are read. -/
theorem getElem?_userRead {i : ℕ} (hi : i < buf.length) :
    (g.userRead a buf).1[i]? =
      if ∀ j ≤ i, (g.load (a + BitVec.ofNat 32 j)).isSome = true then
        g.load (a + BitVec.ofNat 32 i)
      else buf[i]? := by
  induction buf generalizing a i with
  | nil => exact absurd hi (Nat.not_lt_zero i)
  | cons b buf ih =>
    unfold GuestMem.userRead
    cases hload : g.load a with
    | none =>
      rw [if_neg]
      intro h
      have hfirst := h 0 (Nat.zero_le i)
      rw [BitVec.add_zero, hload] at hfirst
      cases hfirst
    | some v =>
      cases i with
      | zero =>
        rw [if_pos]
        · simp [hload]
        · intro j hj
          obtain rfl := Nat.le_zero.mp hj
          simp [hload]
      | succ i =>
        have hiff : (∀ j ≤ i + 1, (g.load (a + BitVec.ofNat 32 j)).isSome = true) ↔
            ∀ j ≤ i, (g.load (a + 1 + BitVec.ofNat 32 j)).isSome = true := by
          simp only [GuestMem.add_one_add]
          constructor
          · exact fun h j hj ↦ h (j + 1) (Nat.succ_le_succ hj)
          · intro h j hj
            cases j with
            | zero => simp [hload]
            | succ j => exact h j (Nat.le_of_succ_le_succ hj)
        simp only [List.getElem?_cons_succ, ih (Nat.lt_of_succ_lt_succ hi), hiff,
          GuestMem.add_one_add]

/-! The groups. -/

theorem length_take_groups (h : n.toNat ≤ maxGroups) :
    (c.groups.take (4 * n.toNat)).length = 4 * n.toNat := by
  rw [List.length_take, c.length_groups]
  omega

theorem setgroups_ok (h : (c.sysSetgroups g n list).1 = 0) :
    n.toNat ≤ maxGroups ∧ (g.userRead list (c.groups.take (4 * n.toNat))).2 = 0 ∧
      (c.sysSetgroups g n list).2.ngroups = n.toNat ∧
      (c.sysSetgroups g n list).2.groups = (c.readGroups g n list).groups := by
  unfold Creds.sysSetgroups at h ⊢
  split_ifs at h ⊢ with hlarge hfault
  · cases h
  · cases h
  · exact ⟨Nat.not_lt.mp hlarge, not_not.mp hfault, rfl, rfl⟩

/-- Setting the groups fails without a change where there are too many. -/
theorem setgroups_failed (h : (c.sysSetgroups g n list).1 ≠ 0) :
    (maxGroups < n.toNat ∧ (c.sysSetgroups g n list).2 = c) ∨
      (n.toNat ≤ maxGroups ∧ (c.sysSetgroups g n list).2 = c.readGroups g n list) := by
  unfold Creds.sysSetgroups at h ⊢
  split_ifs at h ⊢ with hlarge hfault
  · exact .inl ⟨hlarge, rfl⟩
  · exact .inr ⟨Nat.not_lt.mp hlarge, rfl⟩
  · exact absurd rfl h

theorem getElem?_readGroups (hn : n.toNat ≤ maxGroups) {i : ℕ} :
    (c.readGroups g n list).groups[i]? =
      if i < 4 * n.toNat ∧ ∀ j ≤ i, (g.load (list + BitVec.ofNat 32 j)).isSome = true then
        g.load (list + BitVec.ofNat 32 i)
      else c.groups[i]? := by
  have hlen := length_take_groups (c := c) hn
  have hread := length_userRead g list (c.groups.take (4 * n.toNat))
  rw [Creds.readGroups]
  by_cases hi : i < 4 * n.toNat
  · rw [List.getElem?_append_left (by omega), getElem?_userRead (by omega), List.getElem?_take,
      if_pos hi]
    simp only [hi, true_and]
  · rw [List.getElem?_append_right (by omega), List.getElem?_drop, hread, hlen]
    simp only [hi, false_and, if_false]
    congr 1
    omega

theorem setgroups_iff (h : (c.sysSetgroups g n list).1 ≠ 0) :
    (c.sysSetgroups g n list).2.groupList = c.groupList ↔ Use.Guard c (.setgroups g n list) := by
  rw [Use.Guard]
  obtain ⟨hlarge, hsame⟩ | ⟨hn, hread⟩ := setgroups_failed h
  · rw [hsame]
    exact iff_of_true rfl (.inl hlarge)
  · have hnot : ¬ maxGroups < n.toNat := Nat.not_lt.mpr hn
    rw [hread, Creds.groupList, Creds.groupList, List.ext_getElem?_iff]
    simp only [List.getElem?_take, getElem?_readGroups hn, hnot, false_or]
    have hngroups : (c.readGroups g n list).ngroups = c.ngroups := rfl
    rw [hngroups]
    constructor
    · intro hall i hi hloads
      have hi' := hall i
      rwa [if_pos (by omega), if_pos ⟨by omega, hloads⟩, if_pos (by omega)] at hi'
    · intro hall i
      by_cases hi : i < 4 * c.ngroups
      · rw [if_pos hi, if_pos hi]
        split_ifs with hin
        · exact hall i (by omega) hin.2
        · rfl
      · rw [if_neg hi, if_neg hi]

/-- The copy of as many groups as the guest has room for. -/
theorem getgroups_copy_iff :
    (if (g.userWrite list (c.groups.take (4 * size.toNat))).2 ≠ 0 then
        some (eFault, (g.userWrite list (c.groups.take (4 * size.toNat))).1)
      else if maxGroups < size.toNat then none
      else some (0, (g.userWrite list (c.groups.take (4 * size.toNat))).1)) = some (0, g) ↔
      size.toNat ≤ maxGroups ∧ g.writable list (4 * size.toNat) ∧
        g.Holds list (c.groups.take (4 * size.toNat)) := by
  have hlen : (c.groups.take (4 * size.toNat)).length ≤ 2 ^ 32 := by
    have hgroups := c.length_groups
    have hmax : maxGroups = 32 := rfl
    rw [List.length_take]
    omega
  have hself := @userWrite_eq_self_iff g list _ hlen
  constructor
  · intro hr
    split_ifs at hr with hfailed hlarge
    · have hfault : eFault = 0 := (Prod.mk.inj (Option.some.inj hr)).1
      exact absurd hfault (by decide)
    · have hsize := Nat.not_lt.mp hlarge
      have hsame : (g.userWrite list (c.groups.take (4 * size.toNat))).1 = g :=
        (Prod.mk.inj (Option.some.inj hr)).2
      obtain ⟨hw, hholds⟩ := hself.mp (Prod.ext hsame (not_not.mp hfailed))
      rw [length_take_groups hsize] at hw
      exact ⟨hsize, hw, hholds⟩
  · rintro ⟨hsize, hw, hholds⟩
    have hcopy := hself.mpr ⟨by rwa [length_take_groups hsize], hholds⟩
    rw [hcopy, if_neg (not_not.mpr rfl), if_neg (Nat.not_lt.mpr hsize)]

theorem getgroups_iff {old : GuestMem} {at' : Addr} (h : (c.sysSetgroups old n at').1 = 0)
    (hsize : n ≤ size) (hw : g.writable list (4 * n.toNat)) :
    Use.ReadsBack c (.getgroups old n at' g size list) ↔
      Use.Guard c (.getgroups old n at' g size list) := by
  obtain ⟨hn, hread, hngroups, hgroups⟩ := setgroups_ok h
  have hle : n.toNat ≤ size.toNat := BitVec.le_def.mp hsize
  rw [Use.ReadsBack, Use.Guard]
  generalize hc : (c.sysSetgroups old n at').2 = c' at hngroups hgroups ⊢
  by_cases hempty : n = 0
  · subst hempty
    have hlist : c'.groups = c.groups := by
      rw [hgroups]
      exact List.nil_append _
    have hzero : (0 : Dword).toNat = 0 := rfl
    have hids : (∃ ids : List Byte, ids.length = 4 * (0 : Dword).toNat ∧ old.Holds at' ids ∧
        c'.sysGetgroups g size list = some (((0 : Dword).toNat : ℤ), (g.userWrite list ids).1)) ↔
        c'.sysGetgroups g size list = some (0, g) := by
      constructor
      · rintro ⟨ids, hlen, -, hr⟩
        obtain rfl := List.length_eq_zero_iff.mp hlen
        exact hr
      · intro hr
        exact ⟨[], rfl, fun i hi ↦ absurd hi (Nat.not_lt_zero i), hr⟩
    rw [hids, Creds.sysGetgroups, hngroups, hlist]
    by_cases hz : size = 0
    · simp [hz]
    · have hsmall : ¬ size.toNat < (0 : Dword).toNat := Nat.not_lt_zero _
      simp only [hz, hsmall, if_false, true_and, false_or]
      exact getgroups_copy_iff
  · have hpos : n.toNat ≠ 0 := fun hzero ↦ hempty (BitVec.eq_of_toNat_eq hzero)
    have hz : size ≠ 0 := by
      rintro rfl
      exact hpos (Nat.le_zero.mp hle)
    have hroom : ¬ size.toNat < c'.ngroups := by omega
    refine iff_of_false ?_ fun h ↦ hempty h.1
    rintro ⟨ids, -, -, hr⟩
    rw [Creds.sysGetgroups, if_neg hz, if_neg hroom] at hr
    dsimp only at hr
    split_ifs at hr
    · have hfault : eFault = n.toNat := (Prod.mk.inj (Option.some.inj hr)).1
      have hneg : eFault < 0 := by decide
      omega
    · have hcount : (0 : ℤ) = n.toNat := (Prod.mk.inj (Option.some.inj hr)).1
      omega

/-- The call is right if and only if the guard holds. -/
theorem readsBack_iff (c : Creds) {u : Use} (h : u.Allowed c) : u.ReadsBack c ↔ u.Guard c := by
  cases u with
  | getresuid g ruidAddr euidAddr suidAddr => exact stored_iff c.user h
  | getresgid g rgidAddr egidAddr sgidAddr => exact stored_iff c.group h
  | setgroups g size list => exact setgroups_iff h
  | getgroups old n at' g size list => exact getgroups_iff h.1 h.2.1 h.2.2

end

/-- A task of three user ids, and the memory of a guest that can write everywhere. -/
def someone : Creds :=
  ⟨⟨⟨1, 2, 3⟩, ⟨0, 0, 0⟩⟩, 0, List.replicate (4 * maxGroups) 0, Nat.zero_le _,
    List.length_replicate⟩

def blank : GuestMem := ⟨fun _ ↦ .readWrite, fun _ ↦ 0⟩

theorem places_blank : Places blank 0 4 8 :=
  ⟨⟨by decide, by decide, by decide⟩, fun _ _ ↦ rfl, fun _ _ ↦ rfl, fun _ _ ↦ rfl⟩

theorem readsBack_iff_someone : (Use.getresuid blank 0 4 8).Allowed someone ∧
    ((Use.getresuid blank 0 4 8).ReadsBack someone ↔ (Use.getresuid blank 0 4 8).Guard someone) :=
  ⟨places_blank, readsBack_iff someone (u := .getresuid blank 0 4 8) places_blank⟩

theorem not_readsBack_someone : ¬ ∀ (c : Creds) (u : Use), u.Allowed c → u.ReadsBack c := by
  intro h
  have hstored := h someone (.getresuid blank 0 4 8) places_blank
  exact absurd ((stored_iff someone.user places_blank).mp hstored).1 (by decide)

end Isl.Kernel.Credentials
