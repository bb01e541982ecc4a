import Isl.Emu.MemWrite
import Isl.Fs.FdOps
import Isl.Lib.Run

/-! `sys_getdents64` of `fs/dir.c`, over the operations that read a directory. -/

namespace Isl.Fs.Dents

open Isl.Lib Isl.Lib.Run Isl.Emu Isl.Emu.Memory Isl.Emu.GuestMem

abbrev Dword := BitVec 32

def nameMax : ℕ := 255

/-- A `struct dir_entry`, with the name up to its null byte. -/
structure DirEntry where
  inode : BitVec 64
  name : List Byte
  noNull : 0 ∉ name
  length_le : name.length ≤ nameMax

/-- `telldir`, `readdir` and `seekdir` of an operation table: `readdir` fails, comes to
the end, or gives an entry. -/
structure DirOps (σ : Type) where
  telldir : σ → BitVec 64
  readdir : σ → σ × Except Errno (Option DirEntry)
  seekdir : σ → BitVec 64 → σ

/-- The offset of `name` in a `struct linux_dirent64`. -/
def offsetofName : ℕ := 19

/-- `strlen`, the null byte and three bytes more. -/
def recordLength (entry : DirEntry) : Dword := BitVec.ofNat 32 (offsetofName + entry.name.length + 4)

/-- The array of `reclen` bytes that had `old` in it. -/
def direntData (entry : DirEntry) (offset : BitVec 64) (old : ℕ → Byte) : List Byte :=
  Layout.leBytes 8 entry.inode.toNat ++ Layout.leBytes 8 offset.toNat ++
    Layout.leBytes 2 (recordLength entry).toNat ++ [0] ++ entry.name ++ [0] ++
    (List.range 3).map fun i ↦ old (offsetofName + entry.name.length + 1 + i)

/-- What the call works on. -/
structure Progress (σ : Type) where
  desc : σ
  mem : GuestMem
  dirents : Addr
  count : Dword

variable {σ : Type}

/-- The loop with its exits: a result, or a place to seek back to. It is `none` after `n`
entries. -/
def getdentsLoop (ops : DirOps σ) (old : σ → ℕ → Byte) :
    ℕ → Progress σ → Option (Progress σ × Except Errno (BitVec 64))
  | 0, _ => none
  | n + 1, t =>
    let ptr := ops.telldir t.desc
    match ops.readdir t.desc with
    | (s, .error err) => some ({ t with desc := s }, .error err)
    | (s, .ok none) => some ({ t with desc := s }, .ok ptr)
    | (s, .ok (some entry)) =>
      let reclen := recordLength entry
      let data := direntData entry (ops.telldir s) (old s)
      if t.count < reclen then some ({ t with desc := s }, .ok ptr)
      else
        let r := t.mem.userWrite t.dirents data
        if r.2 ≠ 0 then some ({ t with desc := s, mem := r.1 }, .error .fault)
        else getdentsLoop ops old n ⟨s, r.1, t.dirents + reclen, t.count - reclen⟩

/-- There may be no descriptor, or it cannot read directories. Every entry takes some of
`count`, and so the loop ends. -/
def sysGetdents64 (fd : Option (Option (DirOps σ))) (old : σ → ℕ → Byte) (s : σ) (mem : GuestMem)
    (dirents : Addr) (count : Dword) : Option (σ × GuestMem × Dword) :=
  match fd with
  | none => some (s, mem, Errno.badf.toBits 32)
  | some none => some (s, mem, Errno.notdir.toBits 32)
  | some (some ops) =>
    (getdentsLoop ops old (count.toNat + 1) ⟨s, mem, dirents, count⟩).map fun
      | (t, .error err) => (t.desc, t.mem, err.toBits 32)
      | (t, .ok ptr) => (ops.seekdir t.desc ptr, t.mem, count - t.count)

/-- A directory whose operations are a stable cursor: a position in its entries that
`readdir` moves on, and that `seekdir` takes back to where `telldir` was asked. -/
structure Directory (σ : Type) where
  ops : DirOps σ
  entries : List DirEntry
  pos : σ → ℕ
  opened : σ
  pos_opened : pos opened = 0
  readdir_entry : ∀ s, (ops.readdir s).2 = .ok entries[pos s]?
  readdir_pos : ∀ s, pos (ops.readdir s).1 = if pos s < entries.length then pos s + 1 else pos s
  seekdir_pos : ∀ s s', pos (ops.seekdir s (ops.telldir s')) = pos s'

/-- A buffer that the guest can write to, in the memory that it has when it calls. -/
structure Buffer where
  mem : GuestMem
  addr : Addr
  size : Dword
  writable : mem.writable addr size.toNat

/-- What a call has left: the entries that were to come are those before it. -/
structure Reply where
  buffer : Buffer
  left : List DirEntry
  mem : GuestMem
  ret : Dword

def Reply.bytes (r : Reply) : List Byte := (r.mem.loads r.buffer.addr r.ret.toNat).getD []

/-- An open directory and the calls on it so far. -/
structure Session (σ : Type) where
  desc : σ
  replies : List Reply

variable (d : Directory σ) (old : σ → ℕ → Byte)

def step (s : Session σ) (buffer : Buffer) : Option (Session σ) :=
  (sysGetdents64 (some (some d.ops)) old s.desc buffer.mem buffer.addr buffer.size).map fun (desc, mem, ret) ↦
    ⟨desc, s.replies ++ [⟨buffer, d.entries.drop (d.pos s.desc), mem, ret⟩]⟩

/-- How a guest goes through records, each of which says how long it is. -/
def parse : ℕ → List Byte → Option (List (BitVec 64 × List Byte))
  | _, [] => some []
  | 0, _ :: _ => none
  | n + 1, b :: bs =>
    let reclen := Layout.leNat (((b :: bs).drop 16).take 2)
    if reclen ≤ offsetofName ∨ bs.length + 1 < reclen then none
    else
      let record := (b :: bs).take reclen
      (parse n ((b :: bs).drop reclen)).map fun rest ↦
        (BitVec.ofNat 64 (Layout.leNat (record.take 8)),
          (record.drop offsetofName).takeWhile (· ≠ 0)) :: rest

def DirEntry.fields (e : DirEntry) : BitVec 64 × List Byte := (e.inode, e.name)

/-- A reply that is no longer than its buffer, and empty only at the end. -/
structure Reply.Right (r : Reply) : Prop where
  fits : r.ret.toNat ≤ r.buffer.size.toNat
  frame : ∀ x, r.buffer.size.toNat ≤ dist r.buffer.addr x → r.mem.load x = r.buffer.mem.load x
  ends : r.ret = 0 → r.left = []

/-- The records of all calls list the entries up to the position once and in order. -/
def Lists (s : Session σ) : Prop :=
  parse (s.replies.flatMap Reply.bytes).length (s.replies.flatMap Reply.bytes) =
    some ((d.entries.take (d.pos s.desc)).map DirEntry.fields)

def Session.Right (s : Session σ) : Prop := Lists d s ∧ ∀ r ∈ s.replies, r.Right

/-- The buffer holds the next entry, or there is none. -/
def HoldsNext (s : Session σ) (buffer : Buffer) : Prop :=
  ∀ e, d.entries[d.pos s.desc]? = some e → (recordLength e).toNat ≤ buffer.size.toNat

section

variable {d : Directory σ} {old : σ → ℕ → Byte} {a : Addr} {xs : List Byte}
  {e : DirEntry} {n : ℕ} {t : Progress σ}

theorem length_direntData (e : DirEntry) (offset : BitVec 64) (old : ℕ → Byte) :
    (direntData e offset old).length = offsetofName + e.name.length + 4 := by
  simp [direntData, offsetofName]
  omega

theorem toNat_recordLength (e : DirEntry) :
    (recordLength e).toNat = offsetofName + e.name.length + 4 := by
  have hlen : e.name.length ≤ 255 := e.length_le
  have hname : offsetofName = 19 := rfl
  rw [recordLength, BitVec.toNat_ofNat, Nat.mod_eq_of_lt (by omega)]

/-- An entry that was copied, and where its record and the next one lie. -/
structure Copied where
  entry : DirEntry
  offset : BitVec 64
  old : ℕ → Byte

def Copied.data (c : Copied) : List Byte := direntData c.entry c.offset c.old

def records (cs : List Copied) : List Byte := cs.flatMap Copied.data

theorem records_cons (c : Copied) (cs : List Copied) : records (c :: cs) = c.data ++ records cs :=
  List.flatMap_cons

/-- What the loop does to a buffer that can be written: it copies entries in order, and
seeks back to the first that it does not copy, which is the end or does not fit. -/
theorem getdentsLoop_spec (d : Directory σ) (old : σ → ℕ → Byte) (hn : t.count.toNat < n)
    (hw : t.mem.writable t.dirents t.count.toNat) :
    ∃ (cs : List Copied) (t' : Progress σ) (ptr : BitVec 64),
      getdentsLoop d.ops old n t = some (t', .ok ptr) ∧
      t'.mem = (t.mem.userWrite t.dirents (records cs)).1 ∧
      t'.count = t.count - BitVec.ofNat 32 (records cs).length ∧
      (records cs).length ≤ t.count.toNat ∧
      d.pos (d.ops.seekdir t'.desc ptr) = d.pos t.desc + cs.length ∧
      cs.map Copied.entry = (d.entries.drop (d.pos t.desc)).take cs.length ∧
      ∀ e, d.entries[d.pos t.desc + cs.length]? = some e →
        t.count.toNat < (records cs).length + (recordLength e).toNat := by
  induction n generalizing t with
  | zero => exact absurd hn (Nat.not_lt_zero _)
  | succ n ih =>
    obtain ⟨s, r, hr⟩ : ∃ s r, d.ops.readdir t.desc = (s, r) := ⟨_, _, rfl⟩
    have hentry := d.readdir_entry t.desc
    have hpos := d.readdir_pos t.desc
    rw [hr] at hentry hpos
    dsimp only at hentry hpos
    have hstay (s' : σ) : d.pos (d.ops.seekdir s' (d.ops.telldir t.desc)) = d.pos t.desc :=
      d.seekdir_pos s' t.desc
    rw [getdentsLoop, hr, hentry]
    cases hnext : d.entries[d.pos t.desc]? with
    | none =>
      refine ⟨[], { t with desc := s }, _, rfl, rfl, (BitVec.sub_zero _).symm, Nat.zero_le _, hstay s,
        rfl, fun e he ↦ ?_⟩
      rw [List.length_nil, Nat.add_zero, hnext] at he
      cases he
    | some e =>
      dsimp only
      split
      · rename_i hlt
        refine ⟨[], { t with desc := s }, _, rfl, rfl, (BitVec.sub_zero _).symm, Nat.zero_le _, hstay s,
          rfl, fun e' he ↦ ?_⟩
        rw [List.length_nil, Nat.add_zero, hnext, Option.some.injEq] at he
        rw [← he]
        exact (Nat.zero_add _).symm ▸ BitVec.lt_def.mp hlt
      · rename_i hle
        obtain ⟨len, hlen⟩ : ∃ len, offsetofName + e.name.length + 4 = len := ⟨_, rfl⟩
        have hreclen : (recordLength e).toNat = len := (toNat_recordLength e).trans hlen
        have hpositive : 0 < len := by omega
        have hroom : len ≤ t.count.toNat := hreclen ▸ Nat.not_lt.mp fun h ↦ hle (BitVec.lt_def.mpr h)
        have hbits : recordLength e = BitVec.ofNat 32 len := by rw [recordLength, hlen]
        obtain ⟨c, hc⟩ : ∃ c : Copied, c = ⟨e, d.ops.telldir s, old s⟩ := ⟨_, rfl⟩
        have hdata : direntData e (d.ops.telldir s) (old s) = c.data := by rw [hc, Copied.data]
        have hlength : c.data.length = len := by rw [← hdata, length_direntData, hlen]
        have hok : (t.mem.userWrite t.dirents c.data).2 = 0 :=
          userWrite_ok (hlength.symm ▸ writable_mono hw hroom)
        have hcount : (t.count - recordLength e).toNat = t.count.toNat - len := by
          rw [BitVec.toNat_sub_of_le (BitVec.le_def.mpr (hreclen ▸ hroom)), hreclen]
        have hlt : d.pos t.desc < d.entries.length := (List.getElem?_eq_some_iff.mp hnext).1
        rw [if_pos hlt] at hpos
        have hwritable : (t.mem.userWrite t.dirents c.data).1.writable (t.dirents + recordLength e)
            (t.count - recordLength e).toNat := by
          rw [hcount, hbits]
          exact writable_rest hw hroom (perm_userWrite t.mem t.dirents c.data)
        obtain ⟨cs, t', ptr, hloop, hmem, hcount', hfits, hseek, hentries, hstop⟩ :=
          ih (t := ⟨s, (t.mem.userWrite t.dirents c.data).1, t.dirents + recordLength e,
            t.count - recordLength e⟩) (by dsimp only; omega) hwritable
        dsimp only at hmem hcount' hfits hseek hentries hstop
        have hrecordsLength : (records (c :: cs)).length = len + (records cs).length := by
          rw [records_cons, List.length_append, hlength]
        refine ⟨c :: cs, t', ptr, ?_, ?_, ?_, ?_, ?_, ?_, fun e' he ↦ ?_⟩
        · rw [hdata, if_neg (not_not.mpr hok)]
          exact hloop
        · rw [records_cons, userWrite_append hok, hmem, hlength, hbits]
        · rw [hcount', hrecordsLength, BitVec.ofNat_add, ← sub_sub, hbits]
        · omega
        · rw [hseek, hpos, List.length_cons]
          omega
        · rw [List.map_cons, hentries, hpos, List.length_cons, List.drop_eq_getElem_cons hlt,
            List.take_succ_cons, (List.getElem?_eq_some_iff.mp hnext).2, hc]
        · have hindex : d.pos t.desc + (c :: cs).length = d.pos s + cs.length := by
            rw [hpos, List.length_cons]
            omega
          rw [hindex] at he
          have h := hstop e' he
          omega

theorem takeWhile_name (e : DirEntry) (rest : List Byte) :
    (e.name ++ 0 :: rest).takeWhile (· ≠ 0) = e.name := by
  have hname : ∀ b ∈ e.name, decide (b ≠ 0) = true := fun b hb ↦
    decide_eq_true fun h ↦ e.noNull (h ▸ hb)
  rw [List.takeWhile_append_of_pos hname, List.takeWhile_cons, if_neg (by simp), List.append_nil]

/-- A record gives its entry, and the rest is found behind it. -/
theorem parse_data (c : Copied) (n : ℕ) (rest : List Byte) :
    parse (n + 1) (c.data ++ rest) = (parse n rest).map (c.entry.fields :: ·) := by
  obtain ⟨e, offset, old⟩ := c
  obtain ⟨len, hlen⟩ : ∃ len, (direntData e offset old).length = len := ⟨_, rfl⟩
  have hreclen : (recordLength e).toNat = len := by
    rw [toNat_recordLength, ← hlen, length_direntData]
  have hbound : offsetofName < len ∧ len < 256 ^ 2 := by
    have hname : e.name.length ≤ 255 := e.length_le
    have hoffset : offsetofName = 19 := rfl
    rw [← hlen, length_direntData]
    omega
  obtain ⟨pad, hpad⟩ : ∃ pad, (List.range 3).map (fun i ↦ old (offsetofName + e.name.length + 1 + i)) =
      pad := ⟨_, rfl⟩
  have hdata : direntData e offset old = Layout.leBytes 8 e.inode.toNat ++
      (Layout.leBytes 8 offset.toNat ++ (Layout.leBytes 2 len ++ (0 :: (e.name ++ 0 :: pad)))) := by
    rw [direntData, hreclen, hpad]
    simp
  have hfield : Layout.leNat (((direntData e offset old ++ rest).drop 16).take 2) = len := by
    rw [hdata, List.append_assoc, ← List.drop_drop (i := 8) (j := 8), List.drop_left' (by simp),
      List.append_assoc, List.drop_left' (by simp), List.append_assoc, List.take_left' (by simp),
      Layout.leNat_leBytes, Nat.mod_eq_of_lt hbound.2]
  have hinode : BitVec.ofNat 64 (Layout.leNat ((direntData e offset old).take 8)) = e.inode := by
    rw [hdata, List.take_left' (by simp), Layout.leNat_leBytes]
    have hmod : e.inode.toNat % 256 ^ 8 = e.inode.toNat := Nat.mod_eq_of_lt e.inode.isLt
    rw [hmod, BitVec.ofNat_toNat, BitVec.setWidth_eq]
  have hname : ((direntData e offset old).drop offsetofName).takeWhile (· ≠ 0) = e.name := by
    have hsplit : direntData e offset old = Layout.leBytes 8 e.inode.toNat ++
        Layout.leBytes 8 offset.toNat ++ Layout.leBytes 2 len ++ [0] ++ (e.name ++ 0 :: pad) := by
      rw [hdata]
      simp
    rw [hsplit, List.drop_left' (by simp [offsetofName]), takeWhile_name]
  obtain ⟨b, bs, hbytes⟩ : ∃ b bs, direntData e offset old ++ rest = b :: bs := by
    apply List.exists_cons_of_length_pos
    rw [List.length_append]
    omega
  have hall : bs.length + 1 = len + rest.length := by
    rw [← hlen, ← List.length_append, hbytes, List.length_cons]
  show parse (n + 1) (direntData e offset old ++ rest) = _
  rw [hbytes, parse, ← hbytes, hfield, if_neg (by omega), List.take_left' hlen, List.drop_left' hlen]
  dsimp only
  rw [hinode, hname]
  rfl

theorem parse_records (cs : List Copied) (n : ℕ) (hn : (records cs).length ≤ n) :
    parse n (records cs) = some (cs.map fun c ↦ c.entry.fields) := by
  induction cs generalizing n with
  | nil =>
    cases n <;> rfl
  | cons c cs ih =>
    have hlength : c.data.length = offsetofName + c.entry.name.length + 4 :=
      length_direntData c.entry c.offset c.old
    rw [records_cons, List.length_append] at hn
    obtain ⟨n, rfl⟩ : ∃ m, n = m + 1 := ⟨n - 1, by omega⟩
    rw [records_cons, parse_data, ih n (by omega)]
    rfl

theorem length_data_pos (c : Copied) : 0 < c.data.length := by
  have hlength : c.data.length = offsetofName + c.entry.name.length + 4 :=
    length_direntData c.entry c.offset c.old
  omega

/-- What the call does: the records that it copies are all that it writes. -/
theorem sysGetdents64_spec (d : Directory σ) (old : σ → ℕ → Byte) (s : σ) (buffer : Buffer) :
    ∃ (cs : List Copied) (s' : σ),
      sysGetdents64 (some (some d.ops)) old s buffer.mem buffer.addr buffer.size =
        some (s', (buffer.mem.userWrite buffer.addr (records cs)).1,
          BitVec.ofNat 32 (records cs).length) ∧
      (records cs).length ≤ buffer.size.toNat ∧ d.pos s' = d.pos s + cs.length ∧
      cs.map Copied.entry = (d.entries.drop (d.pos s)).take cs.length ∧
      ∀ e, d.entries[d.pos s + cs.length]? = some e →
        buffer.size.toNat < (records cs).length + (recordLength e).toNat := by
  obtain ⟨cs, t, ptr, hloop, hmem, hcount, hfits, hseek, hentries, hstop⟩ :=
    @getdentsLoop_spec σ _ ⟨s, buffer.mem, buffer.addr, buffer.size⟩ d old (Nat.lt_succ_self _)
      buffer.writable
  refine ⟨cs, d.ops.seekdir t.desc ptr, ?_, hfits, hseek, hentries, hstop⟩
  dsimp only at hloop hmem hcount
  rw [sysGetdents64, hloop, Option.map_some]
  dsimp only
  rw [hmem, hcount, sub_sub_cancel]

/-- The bytes of the replies are records of the entries so far. -/
def Kept (d : Directory σ) (s : Session σ) : Prop :=
  (∃ cs : List Copied, s.replies.flatMap Reply.bytes = records cs ∧
    cs.map Copied.entry = d.entries.take (d.pos s.desc)) ∧
  ∀ r ∈ s.replies, r.ret.toNat ≤ r.buffer.size.toNat ∧
    ∀ x, r.buffer.size.toNat ≤ dist r.buffer.addr x → r.mem.load x = r.buffer.mem.load x

def Ends (s : Session σ) : Prop := ∀ r ∈ s.replies, r.ret = 0 → r.left = []

theorem right_iff (s : Session σ) (h : Kept d s) : s.Right d ↔ Ends s := by
  obtain ⟨⟨cs, hbytes, hentries⟩, hreplies⟩ := h
  have hlists : Lists d s := by
    rw [Lists, hbytes, parse_records cs _ le_rfl, ← hentries, List.map_map]
    rfl
  constructor
  · exact fun hright r hr ↦ (hright.2 r hr).ends
  · exact fun hends ↦ ⟨hlists, fun r hr ↦ ⟨(hreplies r hr).1, (hreplies r hr).2, hends r hr⟩⟩

/-- What one call adds: it keeps the records in order, and it is empty with entries left
exactly when the next one does not fit. -/
theorem step_spec (d : Directory σ) (old : σ → ℕ → Byte) (s : Session σ) (buffer : Buffer) :
    ∃ t, step d old s buffer = some t ∧
      (Kept d s → Kept d t) ∧ (Ends t ↔ Ends s ∧ HoldsNext d s buffer) := by
  obtain ⟨cs, s', hcall, hfits, hpos, hentries, hstop⟩ :=
    sysGetdents64_spec d old s.desc buffer
  obtain ⟨r, hr⟩ : ∃ r : Reply, r = ⟨buffer, d.entries.drop (d.pos s.desc),
    (buffer.mem.userWrite buffer.addr (records cs)).1, BitVec.ofNat 32 (records cs).length⟩ := ⟨_, rfl⟩
  have hstep : step d old s buffer = some ⟨s', s.replies ++ [r]⟩ := by
    rw [step, hcall, hr]
    rfl
  have hsize := buffer.size.isLt
  have hret : r.ret.toNat = (records cs).length := by
    rw [hr]
    exact (BitVec.toNat_ofNat _ _).trans (Nat.mod_eq_of_lt (by omega))
  have hforall (P : Reply → Prop) : (∀ r' ∈ s.replies ++ [r], P r') ↔ (∀ r' ∈ s.replies, P r') ∧ P r := by
    simp [or_imp, forall_and]
  refine ⟨_, hstep, ?_, ?_⟩
  · rintro ⟨⟨cs₀, hbytes, hentries₀⟩, hreplies⟩
    refine ⟨⟨cs₀ ++ cs, ?_, ?_⟩, (hforall _).mpr ⟨hreplies, ?_, fun x hx ↦ ?_⟩⟩
    · have hnew : r.bytes = records cs := by
        have hholds : r.mem.Holds r.buffer.addr (records cs) := by
          rw [hr]
          intro i hi
          exact load_userWrite (userWrite_ok (writable_mono buffer.writable hfits)) (by omega) hi
        rw [Reply.bytes, hret, loads_of_holds hholds, Option.getD_some]
      rw [List.flatMap_append, hbytes, List.flatMap_singleton, hnew, records, records, records,
        List.flatMap_append]
    · rw [List.map_append, hentries₀, hentries, hpos, List.take_add]
    · rw [hret, hr]
      exact hfits
    · rw [hr] at hx ⊢
      exact load_userWrite_of_outside _ (hfits.trans hx)
  · refine (hforall fun r' ↦ r'.ret = 0 → r'.left = []).trans (and_congr_right fun _ ↦ ?_)
    have hzero : r.ret = 0 ↔ cs = [] := by
      have hnat : r.ret = 0 ↔ (records cs).length = 0 := by
        rw [← hret]
        exact ⟨fun h ↦ congrArg BitVec.toNat h, fun h ↦ BitVec.eq_of_toNat_eq h⟩
      rw [hnat]
      cases cs with
      | nil => exact iff_of_true rfl rfl
      | cons c cs =>
        have hpositive := length_data_pos c
        refine iff_of_false ?_ (List.cons_ne_nil c cs)
        rw [records_cons, List.length_append]
        omega
    have hleft : r.left = d.entries.drop (d.pos s.desc) := by rw [hr]
    rw [hzero, hleft, List.drop_eq_nil_iff]
    constructor
    · intro hends e he
      by_contra hlong
      cases cs with
      | nil =>
        have hlt := (List.getElem?_eq_some_iff.mp he).1
        exact absurd (hends rfl) (Nat.not_le.mpr hlt)
      | cons c cs =>
        have hhead := congrArg List.head? hentries
        rw [List.map_cons, List.head?_cons, List.length_cons, List.head?_take, if_neg (Nat.succ_ne_zero _),
          List.head?_drop, he, Option.some.injEq] at hhead
        have hlength : c.data.length = (recordLength e).toNat := by
          rw [← hhead, toNat_recordLength]
          exact length_direntData c.entry c.offset c.old
        rw [records_cons, List.length_append] at hfits
        omega
    · rintro hholds rfl
      by_contra hlt
      have he : d.entries[d.pos s.desc]? = some d.entries[d.pos s.desc] :=
        List.getElem?_eq_getElem (Nat.not_le.mp hlt)
      have hlong := hstop _ he
      have hle := hholds _ he
      have hnil : (records []).length = 0 := rfl
      omega

/-- Every sequence of calls with buffers that can be written lists each entry once and in
order, and comes to the end only there, if and only if each buffer holds the next entry
or there is none. -/
theorem right_iff_holdsNext (d : Directory σ) (old : σ → ℕ → Byte) (buffers : List Buffer) :
    ∃ t, exec (step d old) ⟨d.opened, []⟩ buffers = some t ∧
      (t.Right d ↔ Guarded (step d old) (HoldsNext d) ⟨d.opened, []⟩ buffers) := by
  have hopened : Kept d ⟨d.opened, []⟩ := by
    refine ⟨⟨[], rfl, ?_⟩, fun r hr ↦ absurd hr List.not_mem_nil⟩
    rw [d.pos_opened]
    rfl
  obtain ⟨t, ht, -⟩ : ∃ t, exec (step d old) ⟨d.opened, []⟩ buffers = some t ∧ True :=
    exec_invariant (P := fun _ _ ↦ True)
      (fun _ buffer s _ _ ↦ (step_spec d old s buffer).imp fun _ h ↦ ⟨h.1, trivial⟩) trivial
  have hstep (s : Session σ) (buffer : Buffer) (t : Session σ) (hs : Kept d s) (_ : True)
      (ht : step d old s buffer = some t) : Kept d t ∧ (Ends t ↔ Ends s ∧ HoldsNext d s buffer) := by
    obtain ⟨t', ht', hkept, hends⟩ := step_spec d old s buffer
    obtain rfl : t' = t := Option.some.inj (ht'.symm.trans ht)
    exact ⟨hkept hs, hends⟩
  obtain ⟨hkept, hiff⟩ := exec_iff_guarded hstep hopened (fun _ _ ↦ trivial) ht
  refine ⟨t, ht, ?_⟩
  rw [right_iff t hkept, hiff, and_iff_right]
  intro r hr
  cases hr

end

end Isl.Fs.Dents
