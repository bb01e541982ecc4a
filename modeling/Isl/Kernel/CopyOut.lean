import Isl.Emu.MemWrite
import Isl.Kernel.FileCalls
import Isl.Kernel.UserString

/-!
Calls that copy the result of an operation to the guest: `sys_readlinkat` of
`kernel/fs.c`, `sys_recvfrom` of `fs/sock.c`, and the reads. What they copy comes from
buffers of the host that hold more than the operation has put there.
-/

namespace Isl.Kernel.FileCalls

open Isl.Lib Isl.Emu Isl.Emu.Memory Isl.Emu.GuestMem Isl.Fs

/-- `user_write_string` of what is in the memory of the host. A walk that leaves it has no
result. -/
def writeString (g : GuestMem) (addr : Addr) : List Byte → Option (GuestMem × ℕ)
  | [] => none
  | b :: buf =>
    match g.store addr b with
    | none => some (g, 1)
    | some g => if b = 0 then some (g, 0) else writeString g (addr + 1) buf

def userWriteString (g : GuestMem) (addr : Addr) (buf : List Byte) : Option (GuestMem × ℕ) :=
  if addr = 0 then some (g, 1) else writeString g addr buf

/-- `generic_readlinkat` with a path and the size of a buffer. -/
abbrev ReadlinkOp (σ : Type) := σ → List Byte → ℕ → σ × Except Errno (List Byte)

variable {σ : Type}

/-- `path` is what the buffer of the path holds, and `beyond` is the stack behind the bytes
that the operation has put into `buf`. -/
def sysReadlinkat (readlink : Option (ReadlinkOp σ)) (path beyond : List Byte) (t : Guest σ)
    (pathAddr bufAddr : Addr) (bufsize : Dword) : Option (Guest σ × Dword) :=
  let r := User.userReadString t.mem pathAddr path
  if r.2 ≠ 0 then some (t, Errno.fault.toBits 32)
  else
    match readlink with
    | none => some (t, Errno.badf.toBits 32)
    | some readlink =>
      match readlink t.desc r.1 bufsize.toNat with
      | (s, .error err) => some ({ t with desc := s }, err.toBits 32)
      | (s, .ok bytes) =>
        let err := BitVec.ofNat 32 bytes.length
        if err.toInt < 0 then some ({ t with desc := s }, err)
        else
          (userWriteString t.mem bufAddr (bytes ++ beyond)).map fun r ↦
            (⟨s, r.1, t.lost⟩, if r.2 = 0 then err else Errno.fault.toBits 32)

/-! Sockets. -/

def sockFlagsToReal (fake : Dword) : Dword := fake &&& 0x1eb

/-- The numbers of the families are those of the host, and `-1` is for all others. -/
def sockFamilyFromReal (real : ℕ) : BitVec 16 :=
  if real = 1 ∨ real = 2 ∨ real = 10 then BitVec.ofNat 16 real else -1

/-- What `recvfrom(2)` gives: the result counts the bytes of `data`, of which the buffer
has those that fit, and from `sockaddr` on the stack is as in the third field. -/
structure Received where
  data : List Byte
  sockaddrLen : Dword
  sockaddr : ℕ → Byte

/-- The size of the buffer, the flags, and what there is for the address. -/
abbrev RecvOp (σ : Type) := σ → ℕ → Dword → Bool → Option Dword → σ × Except Errno Received

def userGet (g : GuestMem) (addr : Addr) : Option Dword :=
  let r := g.userRead addr (List.replicate 4 0)
  if r.2 ≠ 0 then none else some (BitVec.ofNat 32 (Layout.leNat r.1))

def sockaddrWrite (g : GuestMem) (addr : Addr) (sockaddr : ℕ → Byte) (len : Dword) :
    GuestMem × Dword :=
  let family := sockFamilyFromReal (Layout.leNat [sockaddr 0, sockaddr 1])
  if family = 1 then (g, Errno.noent.toBits 32)
  else if family = 2 ∨ family = 10 then
    let fake := (Layout.leBytes 2 family.toNat ++
      (List.range (len.toNat - 2)).map fun i ↦ sockaddr (i + 2)).take len.toNat
    let r := g.userWrite addr fake
    (r.1, if r.2 = 0 then 0 else Errno.fault.toBits 32)
  else (g, Errno.inval.toBits 32)

/-- The buffer that was on the stack with `old` in it, after `recvfrom(2)`. -/
def received (old : ℕ → Byte) (data : List Byte) (len : ℕ) : List Byte :=
  (List.range len).map fun i ↦ data[i]?.getD (old i)

/-- The length of the address that the guest has room for. -/
def roomFor (g : GuestMem) (sockaddrLenAddr : Addr) : Option Dword :=
  if sockaddrLenAddr = 0 then some 0 else userGet g sockaddrLenAddr

/-- The address and its length, once the data was copied. -/
def writeAddress (g : GuestMem) (got : Received) (sockaddrAddr sockaddrLenAddr : Addr) :
    GuestMem × Dword :=
  let len := if sockaddrLenAddr = 0 then 0 else got.sockaddrLen
  let r := if sockaddrAddr = 0 then (g, 0) else sockaddrWrite g sockaddrAddr got.sockaddr len
  if r.2.toInt < 0 then r
  else if sockaddrLenAddr = 0 then (r.1, BitVec.ofNat 32 got.data.length)
  else
    let w := r.1.userWrite sockaddrLenAddr (Layout.leBytes 4 len.toNat)
    (w.1, if w.2 = 0 then BitVec.ofNat 32 got.data.length else Errno.fault.toBits 32)

def sysRecvfrom (recv : Option (RecvOp σ)) (old : ℕ → Byte) (t : Guest σ) (bufferAddr : Addr)
    (len flags : Dword) (sockaddrAddr sockaddrLenAddr : Addr) : Guest σ × Dword :=
  match recv with
  | none => (t, Errno.badf.toBits 32)
  | some recv =>
    match roomFor t.mem sockaddrLenAddr with
    | none => (t, Errno.fault.toBits 32)
    | some sockaddrLen =>
      match recv t.desc len.toNat (sockFlagsToReal flags) (sockaddrAddr ≠ 0)
          (if sockaddrLenAddr = 0 then none else some sockaddrLen) with
      | (s, .error err) => ({ t with desc := s }, err.toBits 32)
      | (s, .ok got) =>
        let r := t.mem.userWrite bufferAddr (received old got.data len.toNat)
        if r.2 ≠ 0 then (⟨s, r.1, t.lost⟩, Errno.fault.toBits 32)
        else
          let a := writeAddress r.1 got sockaddrAddr sockaddrLenAddr
          (⟨s, a.1, t.lost⟩, a.2)

/-! What copying out is. -/

/-- The bytes from `addr` on become those of `data`, as far as the guest can write there,
and no other byte changes, but for those that `out` allows. -/
structure CopiedOut (g g' : GuestMem) (addr : Addr) (data : List Byte) (out : Addr → Prop) :
    Prop where
  fits : data.length < 2 ^ 32
  outside : ∀ x, data.length ≤ dist addr x → ¬out x → g'.load x = g.load x
  inside : ∀ x, dist addr x < data.length → ¬out x → g'.load x = data[dist addr x]? ∨
    ¬g.writable addr data.length ∧ g'.load x = g.load x

/-- For an operation that gives `data`, on every guest. -/
def ReadExact (bufAddr : Addr) (size : Dword) (data : List Byte) : Prop :=
  ∀ (σ : Type) (read : ReadOp σ) (t : Guest σ), t.lost = false →
    (read t.desc size.toNat).2 = .ok data →
    (sysRead (some read) t bufAddr size).1.lost = false ∧
      CopiedOut t.mem (sysRead (some read) t bufAddr size).1.mem bufAddr data fun _ ↦ False

/-- The same when the seek lets the call read. -/
def PreadExact (bufAddr : Addr) (size : Dword) (off : Off) (data : List Byte) : Prop :=
  ∀ (σ : Type) (lseek : LseekOp σ) (read : ReadOp σ) (t : Guest σ), t.lost = false →
    0 ≤ ((lseek t.desc off lseekSet).2.setWidth 32).toInt →
    (read (lseek t.desc off lseekSet).1 size.toNat).2 = .ok data →
    (sysPread lseek read t bufAddr size off).1.lost = false ∧
      CopiedOut t.mem (sysPread lseek read t bufAddr size off).1.mem bufAddr data fun _ ↦ False

def ReadlinkatExact (path beyond : List Byte) (bufAddr : Addr) (bufsize : Dword)
    (data : List Byte) : Prop :=
  ∀ (σ : Type) (readlink : ReadlinkOp σ) (t : Guest σ) (pathAddr : Addr),
    (User.userReadString t.mem pathAddr path).2 = 0 →
    (readlink t.desc (User.userReadString t.mem pathAddr path).1 bufsize.toNat).2 = .ok data →
    ∃ r, sysReadlinkat (some readlink) path beyond t pathAddr bufAddr bufsize = some r ∧
      CopiedOut t.mem r.1.mem bufAddr data fun _ ↦ False

/-- The bytes of the guest that the address and its length may go to. -/
def AddressOutput (got : Received) (sockaddrAddr sockaddrLenAddr x : Addr) : Prop :=
  sockaddrLenAddr ≠ 0 ∧ (sockaddrAddr ≠ 0 ∧ dist sockaddrAddr x < got.sockaddrLen.toNat ∨
    dist sockaddrLenAddr x < 4)

def RecvfromExact (old : ℕ → Byte) (bufferAddr : Addr) (len flags : Dword)
    (sockaddrAddr sockaddrLenAddr : Addr) (got : Received) : Prop :=
  ∀ (σ : Type) (recv : RecvOp σ) (t : Guest σ) (sockaddrLen : Dword),
    roomFor t.mem sockaddrLenAddr = some sockaddrLen →
    (recv t.desc len.toNat (sockFlagsToReal flags) (sockaddrAddr ≠ 0)
      (if sockaddrLenAddr = 0 then none else some sockaddrLen)).2 = .ok got →
    CopiedOut t.mem
      (sysRecvfrom (some recv) old t bufferAddr len flags sockaddrAddr sockaddrLenAddr).1.mem
      bufferAddr got.data (AddressOutput got sockaddrAddr sockaddrLenAddr)

section

variable {g g' g₁ g₂ : GuestMem} {a addr x : Addr} {w data buf : List Byte} {b v : Byte} {n i : ℕ}
  {out : Addr → Prop}

/-- A memory that the guest can write to everywhere. -/
def Open (g : GuestMem) : Prop := ∀ p, g.perm p = .readWrite

theorem Open.writable (h : Open g) (a : Addr) (n : ℕ) : g.writable a n := fun _ _ ↦ h _

theorem Open.load (h : Open g) (x : Addr) : g.load x = some (g.byte x) := by
  rw [GuestMem.load, h, if_neg (by decide)]

theorem Open.store (h : Open g) (a : Addr) (b : Byte) :
    ∃ g', g.store a b = some g' ∧ Open g' ∧ g'.byte = Function.update g.byte a b :=
  ⟨_, if_pos (h _), h, rfl⟩

/-- A byte that is written does not depend on what was there before. -/
theorem load_userWrite_open (h₁ : Open g₁) (h₂ : Open g₂)
    (hx : g₁.byte x = g₂.byte x ∨ dist a x < w.length) :
    (g₁.userWrite a w).1.load x = (g₂.userWrite a w).1.load x := by
  induction w generalizing g₁ g₂ a with
  | nil =>
    have hbyte := hx.resolve_right (Nat.not_lt_zero _)
    rw [userWrite, userWrite, h₁.load, h₂.load, hbyte]
  | cons b w ih =>
    obtain ⟨g₁', hs₁, h₁', hb₁⟩ := h₁.store a b
    obtain ⟨g₂', hs₂, h₂', hb₂⟩ := h₂.store a b
    rw [userWrite, userWrite, hs₁, hs₂]
    dsimp only
    apply ih h₁' h₂'
    rw [hb₁, hb₂]
    by_cases hxa : x = a
    · rw [hxa, Function.update_self, Function.update_self]
      exact .inl rfl
    · rw [Function.update_of_ne hxa, Function.update_of_ne hxa]
      have hd := dist_succ hxa
      refine hx.imp_right fun hlt ↦ ?_
      rw [List.length_cons] at hlt
      omega

/-- What is written is the data, up to where the shorter of the two ends. -/
def Agrees (w data : List Byte) : Prop := ∀ i < w.length, i < data.length → w[i]? = data[i]?

/-- As many bytes are written as there are of the data, where it matters. -/
def SameLength (addr : Addr) (w data : List Byte) (out : Addr → Prop) : Prop :=
  ∀ x, ¬out x → (dist addr x < w.length ↔ dist addr x < data.length)

theorem copiedOut_of_sameLength (hfits : data.length < 2 ^ 32) (hw : w.length ≤ 2 ^ 32)
    (hagrees : Agrees w data) (hsame : SameLength addr w data out)
    (hframe : ∀ x, ¬out x → g'.load x = (g.userWrite addr w).1.load x) :
    CopiedOut g g' addr data out := by
  refine ⟨hfits, ?_, ?_⟩
  · intro x hx hout
    rw [hframe x hout]
    apply load_userWrite_of_outside
    exact Nat.not_lt.mp ((hsame x hout).not.mpr (Nat.not_lt.mpr hx))
  · intro x hx hout
    rw [hframe x hout]
    have hxw := (hsame x hout).mpr hx
    rw [← hagrees _ hxw hx]
    refine (load_userWrite_cases hw hxw).imp_right ?_
    rintro ⟨hnot, h⟩
    exact ⟨fun hwr ↦ hnot fun i hi ↦ hwr i (Nat.lt_of_lt_of_le hi hx), h⟩

theorem copiedOut_self (hlen : data.length < 2 ^ 31) :
    CopiedOut g (g.userWrite addr data).1 addr data fun _ ↦ False :=
  copiedOut_of_sameLength (by omega) (by omega) (fun _ _ _ ↦ rfl) (fun _ _ ↦ Iff.rfl) fun _ _ ↦ rfl

/-- A guest that can write everywhere sees every byte that is written and should not be,
and every byte that is not written and should be. -/
theorem sameLength_of_copiedOut
    (h : ∀ x v, ¬out x → ∃ g g', Open g ∧ g.byte x = v ∧ CopiedOut g g' addr data out ∧
      g'.load x = (g.userWrite addr w).1.load x) :
    SameLength addr w data out := by
  intro x hout
  obtain ⟨g₁, g₁', hg₁, hv₁, hc₁, hf₁⟩ := h x 0 hout
  by_cases hdata : dist addr x < data.length
  · refine iff_of_true (by_contra fun hw ↦ ?_) hdata
    obtain ⟨g₂, g₂', hg₂, hv₂, hc₂, hf₂⟩ := h x (data[dist addr x] + 1) hout
    rcases hc₂.inside x hdata hout with hin | ⟨hnot, -⟩
    · rw [hf₂, load_userWrite_of_outside w (Nat.not_lt.mp hw), hg₂.load, hv₂,
        List.getElem?_eq_getElem hdata, Option.some.injEq] at hin
      exact absurd (add_eq_left.mp hin) (by decide)
    · exact hnot (hg₂.writable _ _)
  · refine iff_of_false (fun hw ↦ ?_) hdata
    obtain ⟨g₂, g₂', hg₂, hv₂, hc₂, hf₂⟩ := h x 1 hout
    have hout₁ := hc₁.outside x (Nat.not_lt.mp hdata) hout
    have hout₂ := hc₂.outside x (Nat.not_lt.mp hdata) hout
    rw [hf₁, load_userWrite_open hg₁ hg₂ (.inr hw), ← hf₂, hout₂, hg₂.load, hg₁.load, hv₁, hv₂,
      Option.some.injEq] at hout₁
    exact absurd hout₁ (by decide)

/-- An open memory with a given byte. -/
def openWith (x : Addr) (v : Byte) : GuestMem := ⟨fun _ ↦ .readWrite, Function.update (fun _ ↦ 0) x v⟩

theorem open_openWith (x : Addr) (v : Byte) : Open (openWith x v) := fun _ ↦ rfl

theorem byte_openWith (x : Addr) (v : Byte) : (openWith x v).byte x = v := by
  show Function.update (fun _ ↦ (0 : Byte)) x v x = v
  exact Function.update_self ..

/-- With nothing left out the two have one length. -/
theorem length_eq_of_sameLength (hfits : data.length < 2 ^ 32)
    (h : SameLength addr w data fun _ ↦ False) : w.length = data.length := by
  have hle : w.length ≤ data.length := by
    have hx := h (addr + BitVec.ofNat 32 data.length) id
    rw [dist_add addr hfits] at hx
    exact Nat.not_lt.mp (hx.not.mpr (Nat.lt_irrefl _))
  have hx := h (addr + BitVec.ofNat 32 w.length) id
  rw [dist_add addr (by omega)] at hx
  exact Nat.le_antisymm hle (Nat.not_lt.mp (hx.not.mp (Nat.lt_irrefl _)))

/-- A write that is always exact is as long as the data. -/
theorem length_eq_of_copiedOut (h : ∀ x v, CopiedOut (openWith x v)
    ((openWith x v).userWrite addr w).1 addr data fun _ ↦ False) : w.length = data.length :=
  length_eq_of_sameLength (h 0 0).fits (sameLength_of_copiedOut fun x v _ ↦
    ⟨_, _, open_openWith x v, byte_openWith x v, h x v, rfl⟩)

end

/-! The reads. -/

/-- What `copyRead` writes to the guest. -/
def counted (data : List Byte) : List Byte :=
  if (BitVec.ofNat 32 data.length).toInt < 0 then []
  else data.take (BitVec.ofNat 32 data.length).toNat

section

variable {data : List Byte} {size : Dword} {bufAddr : Addr} {read : ReadOp σ} {t : Guest σ}

theorem length_counted_lt (data : List Byte) : (counted data).length < 2 ^ 31 := by
  rw [counted]
  split
  · exact Nat.two_pow_pos 31
  · rename_i hpos
    rw [BitVec.toInt_eq_toNat_cond] at hpos
    rw [List.length_take]
    split at hpos <;> omega

theorem counted_eq (h : data.length < 2 ^ 31) : counted data = data := by
  have hnat : (BitVec.ofNat 32 data.length).toNat = data.length := by
    rw [BitVec.toNat_ofNat, Nat.mod_eq_of_lt (by omega)]
  have hpos : ¬(BitVec.ofNat 32 data.length).toInt < 0 := by
    rw [BitVec.toInt_eq_toNat_cond, hnat]
    omega
  rw [counted, if_neg hpos, hnat, List.take_length]

theorem copyRead_ok (bufAddr : Addr) (h : (read t.desc size.toNat).2 = .ok data) (ht : t.lost = false) :
    ((copyRead read t bufAddr size).1.lost = false ↔ data.length ≤ (size + 1).toNat) ∧
      (copyRead read t bufAddr size).1.mem = (t.mem.userWrite bufAddr (counted data)).1 := by
  obtain ⟨s, r, hr⟩ : ∃ s r, read t.desc size.toNat = (s, r) := ⟨_, _, rfl⟩
  rw [hr] at h
  obtain rfl : r = .ok data := h
  rw [copyRead, counted, hr, ht]
  dsimp only
  split
  · exact ⟨by simp, rfl⟩
  · exact ⟨by simp, rfl⟩

/-- Copying is exact for results that the call counts and that the buffer has room for. -/
def Counts (size : Dword) (data : List Byte) : Prop :=
  data.length < 2 ^ 31 ∧ data.length ≤ (size + 1).toNat

theorem copyRead_exact (hcounts : Counts size data) (h : (read t.desc size.toNat).2 = .ok data)
    (ht : t.lost = false) :
    (copyRead read t bufAddr size).1.lost = false ∧
      CopiedOut t.mem (copyRead read t bufAddr size).1.mem bufAddr data fun _ ↦ False := by
  obtain ⟨hlost, hmem⟩ := copyRead_ok bufAddr h ht
  refine ⟨hlost.mpr hcounts.2, ?_⟩
  rw [hmem, counted_eq hcounts.1]
  exact copiedOut_self hcounts.1

/-- On every open memory a read that copies exactly counts its bytes. -/
theorem counts_of_exact (h : ∀ x v, (copyRead (fun (s : Unit) _ ↦ (s, .ok data))
      ⟨(), openWith x v, false⟩ bufAddr size).1.lost = false ∧ CopiedOut (openWith x v)
    (copyRead (fun (s : Unit) _ ↦ (s, .ok data)) ⟨(), openWith x v, false⟩ bufAddr size).1.mem
      bufAddr data fun _ ↦ False) : Counts size data := by
  have hok (x : Addr) (v : Byte) := @copyRead_ok Unit data size (fun s _ ↦ (s, .ok data))
    ⟨(), openWith x v, false⟩ bufAddr rfl rfl
  refine ⟨?_, (hok 0 0).1.mp (h 0 0).1⟩
  have hlen : (counted data).length = data.length := by
    apply length_eq_of_copiedOut
    intro x v
    have hcopied := (h x v).2
    rw [(hok x v).2] at hcopied
    exact hcopied
  rw [← hlen]
  exact length_counted_lt data

theorem readExact_iff : ReadExact bufAddr size data ↔ Counts size data := by
  constructor
  · intro h
    apply counts_of_exact
    intro x v
    exact h Unit (fun s _ ↦ (s, .ok data)) ⟨(), openWith x v, false⟩ rfl rfl
  · exact fun hcounts σ read t ht h ↦ copyRead_exact hcounts h ht

theorem sysPread_read {lseek : LseekOp σ} {off : Off}
    (h : 0 ≤ ((lseek t.desc off lseekSet).2.setWidth 32).toInt) :
    sysPread lseek read t bufAddr size off =
      copyRead read { t with desc := (lseek t.desc off lseekSet).1 } bufAddr size :=
  if_neg (Int.not_lt.mpr h)

theorem preadExact_iff {off : Off} : PreadExact bufAddr size off data ↔ Counts size data := by
  constructor
  · intro h
    apply counts_of_exact
    intro x v
    exact h Unit (fun s _ _ ↦ (s, 0)) (fun s _ ↦ (s, .ok data)) ⟨(), openWith x v, false⟩ rfl le_rfl rfl
  · intro hcounts σ lseek read t ht hseek h
    rw [sysPread_read hseek]
    exact copyRead_exact hcounts h ht

end

/-! The link. -/

section

variable {data beyond path str rest buf : List Byte} {bufsize : Dword} {bufAddr addr : Addr}
  {g : GuestMem}

theorem writeString_eq (g : GuestMem) (addr : Addr) (hstr : 0 ∉ str) :
    writeString g addr (str ++ 0 :: rest) = some (g.userWrite addr (str ++ [0])) := by
  induction str generalizing g addr with
  | nil =>
    rw [List.nil_append, List.nil_append, writeString, userWrite]
    cases g.store addr 0 with
    | none => rfl
    | some g => rfl
  | cons b str ih =>
    obtain ⟨hb, hrest⟩ := not_or.mp (List.mem_cons.not.mp hstr)
    rw [List.cons_append, List.cons_append, writeString, userWrite]
    cases g.store addr b with
    | none => rfl
    | some g =>
      dsimp only
      rw [if_neg (Ne.symm hb)]
      exact ih g (addr + 1) hrest

/-- With no null byte the walk does not end. -/
theorem writeString_none (hg : Open g) (hbuf : 0 ∉ buf) : writeString g addr buf = none := by
  induction buf generalizing g addr with
  | nil => rfl
  | cons b buf ih =>
    obtain ⟨hb, hrest⟩ := not_or.mp (List.mem_cons.not.mp hbuf)
    obtain ⟨g', hs, hg', -⟩ := hg.store addr b
    rw [writeString, hs]
    dsimp only
    rw [if_neg (Ne.symm hb)]
    exact ih hg' hrest

/-- Copying is exact for a text that ends with its only null byte, and for nothing at the
address zero. -/
def EndsWithNull (bufAddr : Addr) (data : List Byte) : Prop :=
  bufAddr = 0 ∧ data = [] ∨
    bufAddr ≠ 0 ∧ data.length < 2 ^ 31 ∧ ∃ str : List Byte, 0 ∉ str ∧ data = str ++ [0]

theorem userGet_open (hg : Open g) (addr : Addr) : ∃ v, userGet g addr = some v := by
  have hread (buf : List Byte) : (g.userRead addr buf).2 = 0 := by
    induction buf generalizing addr with
    | nil => rfl
    | cons b buf ih =>
      rw [userRead, hg.load]
      exact ih (addr + 1)
  exact ⟨_, if_neg (not_not.mpr (hread _))⟩

theorem userReadString_open (hg : Open g) (path : List Byte) :
    (User.userReadString g 1 path).2 = 0 := by
  have hloop (addr : Addr) : (User.readString g addr path).2 = 0 := by
    induction path generalizing addr with
    | nil => rfl
    | cons b path ih =>
      rw [User.readString, hg.load]
      dsimp only
      split
      · rfl
      · exact ih (addr + 1)
  exact hloop 1

/-- The memory of the guest after `readlinkat`. -/
def linked (g : GuestMem) (bufAddr : Addr) (data beyond : List Byte) : Option GuestMem :=
  if (BitVec.ofNat 32 data.length).toInt < 0 then some g
  else (userWriteString g bufAddr (data ++ beyond)).map Prod.fst

theorem sysReadlinkat_mem {readlink : ReadlinkOp σ} {t : Guest σ} {pathAddr : Addr}
    (beyond : List Byte) (bufAddr : Addr)
    (hpath : (User.userReadString t.mem pathAddr path).2 = 0)
    (h : (readlink t.desc (User.userReadString t.mem pathAddr path).1 bufsize.toNat).2 = .ok data) :
    (sysReadlinkat (some readlink) path beyond t pathAddr bufAddr bufsize).map (fun r ↦ r.1.mem) =
      linked t.mem bufAddr data beyond := by
  obtain ⟨s, r, hr⟩ : ∃ s r, readlink t.desc (User.userReadString t.mem pathAddr path).1
      bufsize.toNat = (s, r) := ⟨_, _, rfl⟩
  rw [hr] at h
  obtain rfl : r = .ok data := h
  rw [sysReadlinkat, linked, if_neg (not_not.mpr hpath)]
  dsimp only
  rw [hr]
  dsimp only
  split
  · rfl
  · rw [Option.map_map]
    rfl

theorem EndsWithNull.length_lt (hdata : EndsWithNull bufAddr data) : data.length < 2 ^ 31 := by
  rcases hdata with ⟨-, rfl⟩ | ⟨-, hlen, -⟩
  · exact Nat.two_pow_pos 31
  · exact hlen

theorem linked_open (hdata : EndsWithNull bufAddr data) (g : GuestMem) (beyond : List Byte) :
    linked g bufAddr data beyond = some (g.userWrite bufAddr data).1 := by
  rcases hdata with ⟨rfl, rfl⟩ | ⟨haddr, hlen, str, hstr, rfl⟩
  · rfl
  · have hpos : ¬(BitVec.ofNat 32 (str ++ [0]).length).toInt < 0 := by
      rw [BitVec.toInt_eq_toNat_cond, BitVec.toNat_ofNat, Nat.mod_eq_of_lt (by omega)]
      omega
    rw [linked, if_neg hpos, userWriteString, if_neg haddr, List.append_assoc, List.singleton_append,
      writeString_eq g bufAddr hstr]
    rfl

/-- The bytes that the call writes on an open memory. -/
theorem linked_cases (bufAddr : Addr) (data beyond : List Byte) :
    (∃ w, (∀ g, linked g bufAddr data beyond = some (g.userWrite bufAddr w).1) ∧
      (data.length < 2 ^ 32 → w.length = data.length → EndsWithNull bufAddr data)) ∨
    ∀ g, Open g → linked g bufAddr data beyond = none := by
  by_cases hneg : (BitVec.ofNat 32 data.length).toInt < 0
  · refine .inl ⟨[], fun g ↦ if_pos hneg, fun _ hlen ↦ ?_⟩
    rw [← hlen] at hneg
    exact absurd hneg (by decide)
  by_cases haddr : bufAddr = 0
  · refine .inl ⟨[], fun g ↦ ?_, fun _ hlen ↦ .inl ⟨haddr, List.length_eq_zero_iff.mp hlen.symm⟩⟩
    rw [linked, if_neg hneg, userWriteString, if_pos haddr]
    rfl
  have hlinked (g : GuestMem) : linked g bufAddr data beyond =
      (writeString g bufAddr (data ++ beyond)).map Prod.fst := by
    rw [linked, if_neg hneg, userWriteString, if_neg haddr]
  by_cases hnull : 0 ∈ data ++ beyond
  · obtain ⟨str, rest, hbuf, hstr⟩ := List.eq_append_cons_of_mem hnull
    refine .inl ⟨str ++ [0], fun g ↦ ?_, fun hfits hlen ↦ .inr ⟨haddr, ?_, str, hstr, ?_⟩⟩
    · rw [hlinked, hbuf, writeString_eq g bufAddr hstr]
      rfl
    · rw [BitVec.toInt_eq_toNat_cond, BitVec.toNat_ofNat, Nat.mod_eq_of_lt hfits] at hneg
      split at hneg <;> omega
    · rw [List.append_cons] at hbuf
      exact (List.append_inj hbuf hlen.symm).1
  · refine .inr fun g hg ↦ ?_
    rw [hlinked, writeString_none hg hnull]
    rfl

theorem readlinkatExact_iff :
    ReadlinkatExact path beyond bufAddr bufsize data ↔ EndsWithNull bufAddr data := by
  constructor
  · intro h
    have hopen (x : Addr) (v : Byte) : ∃ m, linked (openWith x v) bufAddr data beyond = some m ∧
        CopiedOut (openWith x v) m bufAddr data fun _ ↦ False := by
      have hpath := userReadString_open (open_openWith x v) path
      obtain ⟨r, hr, hcopied⟩ := h Unit (fun s _ _ ↦ (s, .ok data)) ⟨(), openWith x v, false⟩ 1 hpath rfl
      refine ⟨_, ?_, hcopied⟩
      have hmem := @sysReadlinkat_mem Unit data path bufsize (fun s _ _ ↦ (s, .ok data))
        ⟨(), openWith x v, false⟩ 1 beyond bufAddr hpath rfl
      rw [← hmem, hr]
      rfl
    rcases linked_cases bufAddr data beyond with ⟨w, hlinked, hends⟩ | hnone
    · have hcopied (x : Addr) (v : Byte) : CopiedOut (openWith x v)
          ((openWith x v).userWrite bufAddr w).1 bufAddr data fun _ ↦ False := by
        obtain ⟨m, hm, hcopied⟩ := hopen x v
        rw [hlinked, Option.some.injEq] at hm
        rw [hm]
        exact hcopied
      exact hends (hcopied 0 0).fits (length_eq_of_copiedOut hcopied)
    · obtain ⟨m, hm, -⟩ := hopen 0 0
      rw [hnone _ (open_openWith 0 0)] at hm
      cases hm
  · intro hdata σ readlink t pathAddr hpath h
    have hmem := sysReadlinkat_mem beyond bufAddr hpath h
    rw [linked_open hdata, Option.map_eq_some_iff] at hmem
    obtain ⟨r, hr, hmem⟩ := hmem
    refine ⟨r, hr, ?_⟩
    rw [hmem]
    exact copiedOut_self hdata.length_lt

end

/-! The socket. -/

section

variable {g : GuestMem} {old : ℕ → Byte} {len flags sockaddrLen : Dword} {got : Received}
  {bufferAddr sockaddrAddr sockaddrLenAddr x : Addr}

/-- The result is the size of the buffer, but for bytes that the address may go to. -/
def Fills (bufferAddr : Addr) (len : Dword) (sockaddrAddr sockaddrLenAddr : Addr)
    (got : Received) : Prop :=
  got.data.length < 2 ^ 32 ∧ ∀ x, ¬AddressOutput got sockaddrAddr sockaddrLenAddr x →
    (dist bufferAddr x < len.toNat ↔ dist bufferAddr x < got.data.length)

theorem length_received (old : ℕ → Byte) (data : List Byte) (n : ℕ) :
    (received old data n).length = n := by
  rw [received, List.length_map, List.length_range]

theorem agrees_received (old : ℕ → Byte) (data : List Byte) (n : ℕ) :
    Agrees (received old data n) data := by
  intro i hi hdata
  rw [length_received] at hi
  rw [received, List.getElem?_map, List.getElem?_range hi, Option.map_some,
    List.getElem?_eq_getElem hdata, Option.getD_some]

theorem roomFor_open (hg : Open g) (sockaddrLenAddr : Addr) :
    ∃ v, roomFor g sockaddrLenAddr = some v := by
  rw [roomFor]
  split
  · exact ⟨0, rfl⟩
  · exact userGet_open hg sockaddrLenAddr

theorem load_sockaddrWrite (f : ℕ → Byte) (hx : len.toNat ≤ dist sockaddrAddr x) :
    (sockaddrWrite g sockaddrAddr f len).1.load x = g.load x := by
  rw [sockaddrWrite]
  dsimp only
  split
  · rfl
  · split
    · apply load_userWrite_of_outside
      exact (List.length_take_le _ _).trans hx
    · rfl

theorem load_writeAddress (hx : ¬AddressOutput got sockaddrAddr sockaddrLenAddr x) :
    (writeAddress g got sockaddrAddr sockaddrLenAddr).1.load x = g.load x := by
  rw [AddressOutput, not_and, not_or] at hx
  obtain ⟨len, hlen⟩ : ∃ n : Dword, (if sockaddrLenAddr = 0 then 0 else got.sockaddrLen) = n :=
    ⟨_, rfl⟩
  obtain ⟨r, hr⟩ : ∃ r : GuestMem × Dword, (if sockaddrAddr = 0 then (g, 0)
      else sockaddrWrite g sockaddrAddr got.sockaddr len) = r := ⟨_, rfl⟩
  have haddress : r.1.load x = g.load x := by
    rw [← hr]
    split
    · rfl
    · rename_i hnonzero
      apply load_sockaddrWrite
      rw [← hlen]
      split
      · exact Nat.zero_le _
      · rename_i hroom
        exact Nat.not_lt.mp fun h ↦ (hx hroom).1 ⟨hnonzero, h⟩
  rw [writeAddress, hlen]
  dsimp only
  rw [hr]
  split
  · exact haddress
  · split
    · exact haddress
    · rename_i hroom
      rw [← haddress]
      apply load_userWrite_of_outside
      rw [Layout.leBytes_length]
      exact Nat.not_lt.mp (hx hroom).2

/-- Outside of the address the call leaves what the copy of the buffer has left. -/
theorem load_sysRecvfrom {recv : RecvOp σ} {t : Guest σ}
    (hroom : roomFor t.mem sockaddrLenAddr = some sockaddrLen)
    (h : (recv t.desc len.toNat (sockFlagsToReal flags) (sockaddrAddr ≠ 0)
      (if sockaddrLenAddr = 0 then none else some sockaddrLen)).2 = .ok got)
    (hx : ¬AddressOutput got sockaddrAddr sockaddrLenAddr x) :
    (sysRecvfrom (some recv) old t bufferAddr len flags sockaddrAddr sockaddrLenAddr).1.mem.load x =
      (t.mem.userWrite bufferAddr (received old got.data len.toNat)).1.load x := by
  obtain ⟨s, r, hr⟩ : ∃ s r, recv t.desc len.toNat (sockFlagsToReal flags) (sockaddrAddr ≠ 0)
      (if sockaddrLenAddr = 0 then none else some sockaddrLen) = (s, r) := ⟨_, _, rfl⟩
  rw [hr] at h
  obtain rfl : r = .ok got := h
  rw [sysRecvfrom]
  dsimp only
  rw [hroom]
  dsimp only
  rw [hr]
  dsimp only
  split
  · rfl
  · exact load_writeAddress hx

theorem recvfromExact_iff :
    RecvfromExact old bufferAddr len flags sockaddrAddr sockaddrLenAddr got ↔
      Fills bufferAddr len sockaddrAddr sockaddrLenAddr got := by
  have hsame : SameLength bufferAddr (received old got.data len.toNat) got.data
      (AddressOutput got sockaddrAddr sockaddrLenAddr) ↔ ∀ x,
        ¬AddressOutput got sockaddrAddr sockaddrLenAddr x →
          (dist bufferAddr x < len.toNat ↔ dist bufferAddr x < got.data.length) := by
    rw [SameLength, length_received]
  constructor
  · intro h
    have hopen (x : Addr) (v : Byte) : ∃ g', CopiedOut (openWith x v) g' bufferAddr got.data
        (AddressOutput got sockaddrAddr sockaddrLenAddr) ∧
        ∀ y, ¬AddressOutput got sockaddrAddr sockaddrLenAddr y → g'.load y =
          ((openWith x v).userWrite bufferAddr (received old got.data len.toNat)).1.load y := by
      obtain ⟨room, hroom⟩ := roomFor_open (open_openWith x v) sockaddrLenAddr
      have hframe (y : Addr) := @load_sysRecvfrom Unit old len flags room got bufferAddr sockaddrAddr
        sockaddrLenAddr y (fun s _ _ _ _ ↦ (s, .ok got)) ⟨(), openWith x v, false⟩
      exact ⟨_, h Unit (fun s _ _ _ _ ↦ (s, .ok got)) ⟨(), openWith x v, false⟩ room hroom rfl,
        fun y hy ↦ hframe y hroom rfl hy⟩
    obtain ⟨g', hcopied, -⟩ := hopen 0 0
    refine ⟨hcopied.fits, hsame.mp (sameLength_of_copiedOut fun x v hx ↦ ?_)⟩
    obtain ⟨g', hcopied, hframe⟩ := hopen x v
    exact ⟨_, g', open_openWith x v, byte_openWith x v, hcopied, hframe x hx⟩
  · rintro ⟨hfits, hfills⟩ σ recv t room hroom h
    refine copiedOut_of_sameLength hfits ?_ (agrees_received old got.data len.toNat)
      (hsame.mpr hfills) fun x hx ↦ load_sysRecvfrom hroom h hx
    rw [length_received]
    exact len.isLt.le

end

/-- Copying out is exact if and only if `read` and `pread` count the bytes, the link ends
with its only null byte, and the socket fills the buffer. -/
theorem copiesOut_iff (bufAddr : Addr) (size : Dword) (off : Off) (data path beyond : List Byte)
    (old : ℕ → Byte) (flags : Dword) (sockaddrAddr sockaddrLenAddr : Addr) (got : Received) :
    (ReadExact bufAddr size data ↔ Counts size data) ∧
      (PreadExact bufAddr size off data ↔ Counts size data) ∧
      (ReadlinkatExact path beyond bufAddr size data ↔ EndsWithNull bufAddr data) ∧
      (RecvfromExact old bufAddr size flags sockaddrAddr sockaddrLenAddr got ↔
        Fills bufAddr size sockaddrAddr sockaddrLenAddr got) :=
  ⟨readExact_iff, preadExact_iff, readlinkatExact_iff, recvfromExact_iff⟩

/-- A datagram of one byte, with no address. -/
def oneByte : Received := ⟨[7], 0, fun _ ↦ 0⟩

/-- A byte of the stack behind the datagram goes to the guest, and a link of two bytes
overwrites the one behind them. -/
theorem not_copiesOut_stack :
    (sysRecvfrom (some fun (s : Unit) _ _ _ _ ↦ (s, .ok oneByte)) (fun _ ↦ 0xaa)
        ⟨(), openWith 0 0, false⟩ 4096 2 0 0 0).1.mem.load 4097 = some 0xaa ∧
      ¬RecvfromExact (fun _ ↦ 0xaa) 4096 2 0 0 0 oneByte ∧
      ¬ReadlinkatExact (List.replicate 4096 0) [0] 4096 2 [97, 98] := by
  have hleak : (sysRecvfrom (some fun (s : Unit) _ _ _ _ ↦ (s, .ok oneByte)) (fun _ ↦ 0xaa)
      ⟨(), openWith 0 0, false⟩ 4096 2 0 0 0).1.mem.load 4097 = some 0xaa := by decide
  refine ⟨hleak, fun h ↦ ?_, fun h ↦ ?_⟩
  · have hcopied := h Unit (fun s _ _ _ _ ↦ (s, .ok oneByte)) ⟨(), openWith 0 0, false⟩ 0 rfl rfl
    have hkept := hcopied.outside 4097 (by decide) fun hout ↦ absurd rfl hout.1
    rw [hleak] at hkept
    exact absurd hkept (by decide)
  · rcases readlinkatExact_iff.mp h with ⟨haddr, -⟩ | ⟨-, -, str, hstr, hdata⟩
    · exact absurd haddr (by decide)
    · have hlast := congrArg List.getLast? hdata
      rw [List.getLast?_concat] at hlast
      exact absurd hlast (by decide)

end Isl.Kernel.FileCalls
