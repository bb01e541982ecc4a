import Isl.Fs.FdOps
import Isl.Lib.Run

/-!
Files of `proc`: `proc_read` and `proc_seek` of `fs/proc.c`, and the calls on an open
file one after another.
-/

namespace Isl.Fs.Proc

open Isl.Lib.Run

abbrev Byte := BitVec 8

/-- What the calls use of a `struct proc_entry`: whether it is a regular file, and what
its `show` gives. -/
structure ProcEntry where
  isReg : Bool
  shown : Except Errno (List Byte)

structure ProcFd where
  offset : Off
  procData : List Byte
  procSize : BitVec 64

def procRefreshData (entry : ProcEntry) (fd : ProcFd) : Except Errno ProcFd :=
  match entry.shown with
  | .error err => .error err
  | .ok text => .ok { fd with procData := text, procSize := BitVec.ofNat 64 text.length }

def procRead (entry : ProcEntry) (fd : ProcFd) (bufsize : BitVec 64) :
    ProcFd × Except Errno (List Byte) :=
  if !entry.isReg then (fd, .error .isdir)
  else
    match procRefreshData entry fd with
    | .error err => (fd, .error err)
    | .ok fd =>
      let remaining := fd.procSize - fd.offset
      let remaining := if fd.procSize < fd.offset then 0 else remaining
      let n := if remaining < bufsize then remaining else bufsize
      ({ fd with offset := fd.offset + n }, .ok (fd.procData.take n.toNat))

def procSeek (entry : ProcEntry) (fd : ProcFd) (off : Off) (whence : BitVec 32) : ProcFd × Off :=
  if !entry.isReg then (fd, Errno.isdir.toBits 64)
  else
    match procRefreshData entry fd with
    | .error err => (fd, err.toBits 64)
    | .ok fd =>
      let new :=
        if whence = lseekSet then some off
        else if whence = lseekCur then some (fd.offset + off)
        else if whence = lseekEnd then some (fd.procSize + off)
        else none
      match new with
      | none => (fd, Errno.inval.toBits 64)
      | some new =>
        if new.toInt < 0 then (fd, Errno.inval.toBits 64)
        else ({ fd with offset := new }, new)

/-- A regular file whose `show` always gives the same text, of a size that it can return. -/
structure ProcFile where
  text : List Byte
  length_lt : text.length < 2 ^ 63

def ProcFile.entry (file : ProcFile) : ProcEntry := ⟨true, .ok file.text⟩

/-- A call that was made, with the offset before and after it. -/
inductive Call
  | read (before : Off) (size : BitVec 64) (result : Except Errno (List Byte)) (after : Off)
  | seek (before : Off) (result : Off) (after : Off)

/-- An open file and the calls on it so far. -/
structure Session where
  fd : ProcFd
  calls : List Call

inductive Event
  | read (size : BitVec 64)
  | seek (off : Off) (whence : BitVec 32)

def step (entry : ProcEntry) (s : Session) : Event → Option Session
  | .read size =>
    let r := procRead entry s.fd size
    some ⟨r.1, s.calls ++ [.read s.fd.offset size r.2 r.1.offset]⟩
  | .seek off whence =>
    let r := procSeek entry s.fd off whence
    some ⟨r.1, s.calls ++ [.seek s.fd.offset r.2 r.1.offset]⟩

/-- The descriptor of `proc_open`. -/
def opened : Session := ⟨⟨0, [], 0⟩, []⟩

/-- A read gives the text from the offset on and moves past it, and a seek that fails
does not move. -/
def Call.Right (text : List Byte) : Call → Prop
  | .read before size result after =>
    result = .ok ((text.drop before.toNat).take size.toNat) ∧
      after.toNat = before.toNat + ((text.drop before.toNat).take size.toNat).length
  | .seek before result after => result.toInt < 0 → after = before

def Call.bytes : Call → List Byte
  | .read _ _ (.ok bs) _ => bs
  | _ => []

def Call.IsRead : Call → Prop
  | .read .. => True
  | .seek .. => False

/-- The pieces of reads alone make up the text up to the offset. -/
def Session.Pieces (text : List Byte) (s : Session) : Prop :=
  (∀ c ∈ s.calls, c.IsRead) → s.calls.flatMap Call.bytes = text.take s.fd.offset.toNat

def Session.Right (text : List Byte) (s : Session) : Prop :=
  (∀ c ∈ s.calls, c.Right text) ∧ s.Pieces text

/-- The bytes that a read takes from an offset on are those at the start of the text. -/
def ReadsStart (text : List Byte) (o size : ℕ) : Prop :=
  (text.drop o).take size = text.take (min size (text.length - o))

/-- Reads start at the front, at the end, or where the text repeats its start. -/
def AtStart (text : List Byte) (s : Session) : Event → Prop
  | .read size => ReadsStart text s.fd.offset.toNat size.toNat
  | .seek _ _ => True

section

variable {file : ProcFile} {entry : ProcEntry} {fd : ProcFd} {s t : Session} {text : List Byte}
  {size : BitVec 64} {off : Off} {whence : BitVec 32} {evs : List Event} {o n : ℕ}

theorem readsStart_zero (text : List Byte) (size : ℕ) : ReadsStart text 0 size := by
  rw [ReadsStart, List.drop_zero, Nat.sub_zero, ← List.take_eq_take_min]

theorem toInt_nonneg {x : BitVec 64} : 0 ≤ x.toInt ↔ x.toNat < 2 ^ 63 := by
  rw [BitVec.toInt_eq_toNat_cond]
  have hlt := x.isLt
  split <;> omega

/-- `proc_read` returns as many bytes as there are, but from the start of the text. -/
theorem procRead_eq (file : ProcFile) (fd : ProcFd) (h : 0 ≤ fd.offset.toInt) (size : BitVec 64)
    (hn : min size.toNat (file.text.length - fd.offset.toNat) = n) :
    ∃ fd', procRead file.entry fd size = (fd', .ok (file.text.take n)) ∧
      fd'.offset.toNat = fd.offset.toNat + n ∧ 0 ≤ fd'.offset.toInt := by
  have hlen := file.length_lt
  have hoff := toInt_nonneg.mp h
  have hsize : (BitVec.ofNat 64 file.text.length).toNat = file.text.length := by
    rw [BitVec.toNat_ofNat, Nat.mod_eq_of_lt (by omega)]
  obtain ⟨remaining, hr⟩ : ∃ r, (if BitVec.ofNat 64 file.text.length < fd.offset then 0
      else BitVec.ofNat 64 file.text.length - fd.offset) = r := ⟨_, rfl⟩
  have hremaining : remaining.toNat = file.text.length - fd.offset.toNat := by
    rw [← hr]
    split
    · rename_i hlt
      rw [BitVec.lt_def, hsize] at hlt
      exact (Nat.sub_eq_zero_of_le hlt.le).symm
    · rename_i hle
      rw [BitVec.lt_def, hsize, Nat.not_lt] at hle
      rw [BitVec.toNat_sub_of_le (BitVec.le_def.mpr (hsize.symm ▸ hle)), hsize]
  obtain ⟨m, hm⟩ : ∃ m, (if remaining < size then remaining else size) = m := ⟨_, rfl⟩
  have hmn : m.toNat = n := by
    rw [← hm, ← hn, ← hremaining]
    split
    · rename_i hlt
      exact (Nat.min_eq_right (BitVec.lt_def.mp hlt).le).symm
    · rename_i hle
      exact (Nat.min_eq_left (Nat.not_lt.mp fun h ↦ hle (BitVec.lt_def.mpr h))).symm
  have hafter : (fd.offset + m).toNat = fd.offset.toNat + n := by
    rw [BitVec.toNat_add, hmn, Nat.mod_eq_of_lt (by omega)]
  refine ⟨⟨fd.offset + m, file.text, BitVec.ofNat 64 file.text.length⟩, ?_, hafter, ?_⟩
  · rw [procRead]
    simp only [ProcFile.entry, procRefreshData, Bool.not_true, Bool.false_eq_true, if_false]
    rw [hr, hm, hmn]
  · rw [toInt_nonneg, hafter]
    omega

/-- A seek that fails leaves the offset, and no seek makes it negative. -/
theorem procSeek_offset (entry : ProcEntry) (fd : ProcFd) (h : 0 ≤ fd.offset.toInt) (off : Off)
    (whence : BitVec 32) : 0 ≤ (procSeek entry fd off whence).1.offset.toInt ∧
      ((procSeek entry fd off whence).2.toInt < 0 →
        (procSeek entry fd off whence).1.offset = fd.offset) ∧
      (0 ≤ (procSeek entry fd off whence).2.toInt →
        (procSeek entry fd off whence).1.offset = (procSeek entry fd off whence).2) := by
  have hfail (fd' : ProcFd) (hfd : fd'.offset = fd.offset) (e : Errno) :
      0 ≤ fd'.offset.toInt ∧ ((e.toBits 64).toInt < 0 → fd'.offset = fd.offset) ∧
        (0 ≤ (e.toBits 64).toInt → fd'.offset = e.toBits 64) := by
    refine ⟨hfd ▸ h, fun _ ↦ hfd, fun hpos ↦ ?_⟩
    rw [Errno.toInt_toBits (by decide)] at hpos
    exact absurd e.isErrno.2 (Int.not_lt.mpr hpos)
  rw [procSeek]
  split
  · exact hfail fd rfl .isdir
  · cases hdata : procRefreshData entry fd with
    | error err => exact hfail fd rfl err
    | ok fd' =>
      have hfd : fd'.offset = fd.offset := by
        rw [procRefreshData] at hdata
        split at hdata
        · cases hdata
        · cases hdata
          rfl
      dsimp only
      split
      · exact hfail fd' hfd .inval
      · split
        · exact hfail fd' hfd .inval
        · rename_i hpos
          exact ⟨Int.not_lt.mp hpos, fun hneg ↦ absurd hneg hpos, fun _ ↦ rfl⟩

theorem step_right (hs : 0 ≤ s.fd.offset.toInt ∧ ((∀ c ∈ s.calls, c.Right file.text) →
      s.Pieces file.text)) {ev : Event} (ht : step file.entry s ev = some t) :
    (0 ≤ t.fd.offset.toInt ∧ ((∀ c ∈ t.calls, c.Right file.text) → t.Pieces file.text)) ∧
      ((∀ c ∈ t.calls, c.Right file.text) ↔
        (∀ c ∈ s.calls, c.Right file.text) ∧ AtStart file.text s ev) := by
  obtain ⟨hoff, hpieces⟩ := hs
  have happend (c : Call) (P : Call → Prop) :
      (∀ c' ∈ s.calls ++ [c], P c') ↔ (∀ c' ∈ s.calls, P c') ∧ P c := by
    simp [List.mem_append, or_imp, forall_and]
  cases ev with
  | read size =>
    obtain ⟨n, hn⟩ : ∃ n, min size.toNat (file.text.length - s.fd.offset.toNat) = n := ⟨_, rfl⟩
    obtain ⟨fd', hread, hafter, hnonneg⟩ := procRead_eq file s.fd hoff size hn
    cases ht
    rw [hread]
    have hsize : ((file.text.drop s.fd.offset.toNat).take size.toNat).length = n := by
      rw [List.length_take, List.length_drop, hn]
    have hright : (Call.read s.fd.offset size (.ok (file.text.take n)) fd'.offset).Right file.text ↔
        AtStart file.text s (.read size) := by
      rw [Call.Right, AtStart, ReadsStart, hsize, hn, and_iff_left hafter, Except.ok.injEq, eq_comm]
    refine ⟨⟨hnonneg, fun hall ↦ ?_⟩, ?_⟩
    · obtain ⟨hold, hnew⟩ := (happend _ _).mp hall
      intro hreads
      have heq := hpieces hold ((happend _ _).mp hreads).1
      have hbytes : file.text.take n = (file.text.drop s.fd.offset.toNat).take n := by
        have hnew := hnew.1
        rw [Except.ok.injEq] at hnew
        rw [hnew, List.take_eq_take_min, List.length_drop, hn]
      show (s.calls ++ [_]).flatMap Call.bytes = file.text.take fd'.offset.toNat
      rw [List.flatMap_append, heq, List.flatMap_singleton, Call.bytes, hafter, List.take_add,
        hbytes]
    · exact (happend _ _).trans (and_congr_right fun _ ↦ hright)
  | seek off whence =>
    obtain ⟨hnonneg, hfail, -⟩ := procSeek_offset file.entry s.fd hoff off whence
    cases ht
    refine ⟨⟨hnonneg, fun _ hreads ↦ ?_⟩, (happend _ _).trans (and_congr_right fun _ ↦ ?_)⟩
    · exact ((happend _ _).mp hreads).2.elim
    · exact iff_of_true hfail trivial

/-- In a run of calls on an open file every call does what it should, and reads alone
give the text in pieces, if and only if each read starts at the front, at the end, or
where the text repeats its start. -/
theorem right_iff_guarded (file : ProcFile) (he : exec (step file.entry) opened evs = some t) :
    t.Right file.text ↔ Guarded (step file.entry) (AtStart file.text) opened evs := by
  have hstep (s : Session) (ev : Event) (t : Session) (hs : 0 ≤ s.fd.offset.toInt ∧
      ((∀ c ∈ s.calls, c.Right file.text) → s.Pieces file.text)) (_ : True)
      (ht : step file.entry s ev = some t) := step_right hs ht
  have hopened : 0 ≤ opened.fd.offset.toInt ∧
      ((∀ c ∈ opened.calls, c.Right file.text) → opened.Pieces file.text) :=
    ⟨le_rfl, fun _ _ ↦ List.take_zero.symm⟩
  obtain ⟨⟨-, hpieces⟩, hiff⟩ := exec_iff_guarded hstep hopened (fun _ _ ↦ trivial) he
  rw [Session.Right, and_iff_left_of_imp hpieces, hiff, and_iff_right]
  intro c hc
  cases hc

def abc : ProcFile := ⟨[97, 98, 99], by decide⟩

theorem right_first : ∃ t, exec (step abc.entry) opened [.read 2, .seek 0 lseekSet, .read 3] = some t ∧
    t.Right abc.text := by
  obtain ⟨t, ht⟩ : ∃ t, exec (step abc.entry) opened [.read 2, .seek 0 lseekSet, .read 3] = some t :=
    ⟨_, rfl⟩
  refine ⟨t, ht, (right_iff_guarded abc ht).mpr ⟨readsStart_zero _ _, fun u hu ↦ ?_⟩⟩
  cases hu
  refine ⟨trivial, fun v hv ↦ ?_⟩
  cases hv
  exact ⟨readsStart_zero abc.text 3, fun _ _ ↦ trivial⟩

/-- The second read gives the first byte again. -/
theorem not_right_second : ∃ t, exec (step abc.entry) opened [.read 2, .read 2] = some t ∧
    t.calls.map Call.bytes = [[97, 98], [97]] ∧ ¬t.Right abc.text := by
  refine ⟨_, rfl, rfl, fun h ↦ ?_⟩
  have hread := h.1 _ (List.mem_append_right _ List.mem_cons_self)
  cases hread.1

/-! An open file is a descriptor that can seek. -/

/-- What a call leaves of an open file: an offset that is not negative. -/
structure OpenFile where
  fd : ProcFd
  nonneg : 0 ≤ fd.offset.toInt

theorem procRead_nonneg (file : ProcFile) (s : OpenFile) (size : BitVec 64) :
    0 ≤ (procRead file.entry s.fd size).1.offset.toInt := by
  obtain ⟨fd', hread, -, hnonneg⟩ := procRead_eq file s.fd s.nonneg size rfl
  rw [hread]
  exact hnonneg

theorem procSeek_nonneg (file : ProcFile) (s : OpenFile) (off : Off) (whence : BitVec 32) :
    0 ≤ (procSeek file.entry s.fd off whence).1.offset.toInt :=
  (procSeek_offset file.entry s.fd s.nonneg off whence).1

def OpenFile.read (file : ProcFile) (s : OpenFile) (size : ℕ) :
    OpenFile × Except Errno (List Byte) :=
  (⟨(procRead file.entry s.fd (BitVec.ofNat 64 size)).1, procRead_nonneg file s _⟩,
    (procRead file.entry s.fd (BitVec.ofNat 64 size)).2)

def OpenFile.seek (file : ProcFile) (s : OpenFile) (off : Off) (whence : BitVec 32) :
    OpenFile × Off :=
  (⟨(procSeek file.entry s.fd off whence).1, procSeek_nonneg file s off whence⟩,
    (procSeek file.entry s.fd off whence).2)

def OpenFile.pos (s : OpenFile) : ℕ := s.fd.offset.toNat

def OpenFile.base (file : ProcFile) (s : OpenFile) (whence : BitVec 32) : ℕ :=
  if whence = lseekSet then 0
  else if whence = lseekCur then s.pos
  else file.text.length

/-- The new offset of a seek that succeeds is exact: what wraps around is negative. -/
theorem toInt_add_of_nonneg {a b : BitVec 64} (ha : 0 ≤ a.toInt) (h : 0 ≤ (a + b).toInt) :
    (a + b).toInt = a.toNat + b.toInt := by
  rw [BitVec.toInt_eq_toNat_cond] at ha h ⊢
  rw [BitVec.toInt_eq_toNat_cond]
  rw [BitVec.toNat_add] at h ⊢
  have ha' := a.isLt
  have hb := b.isLt
  split at ha <;> split at h <;> split <;> omega

theorem procSeek_cases (file : ProcFile) (fd : ProcFd) (off : Off) (whence : BitVec 32) :
    (procSeek file.entry fd off whence).2 = Errno.inval.toBits 64 ∨
    0 ≤ (procSeek file.entry fd off whence).2.toInt ∧
      (procSeek file.entry fd off whence).2 =
        if whence = lseekSet then off
        else if whence = lseekCur then fd.offset + off
        else BitVec.ofNat 64 file.text.length + off := by
  rw [procSeek]
  simp only [ProcFile.entry, procRefreshData, Bool.not_true, Bool.false_eq_true, if_false]
  split
  · exact .inl rfl
  · rename_i new hnew
    split
    · exact .inl rfl
    · rename_i hpos
      refine .inr ⟨Int.not_lt.mp hpos, ?_⟩
      dsimp only
      by_cases hset : whence = lseekSet
      · rw [if_pos hset] at hnew ⊢
        exact (Option.some.inj hnew).symm
      · rw [if_neg hset] at hnew ⊢
        by_cases hcur : whence = lseekCur
        · rw [if_pos hcur] at hnew ⊢
          exact (Option.some.inj hnew).symm
        · rw [if_neg hcur] at hnew ⊢
          exact (Option.some.inj (Option.ite_none_right_eq_some.mp hnew).2).symm

theorem procSeek_result (file : ProcFile) (s : OpenFile) (off : Off) (whence : BitVec 32)
    (h : 0 ≤ (procSeek file.entry s.fd off whence).2.toInt) :
    (procSeek file.entry s.fd off whence).2.toInt = s.base file whence + off.toInt := by
  have hlen := file.length_lt
  have hsize : (BitVec.ofNat 64 file.text.length).toNat = file.text.length := by
    rw [BitVec.toNat_ofNat, Nat.mod_eq_of_lt (by omega)]
  have hsize' : 0 ≤ (BitVec.ofNat 64 file.text.length).toInt := by
    rw [toInt_nonneg, hsize]
    exact hlen
  obtain hres | ⟨-, hres⟩ := procSeek_cases file s.fd off whence
  · rw [hres] at h
    exact absurd h (by decide)
  · rw [hres] at h ⊢
    rw [OpenFile.base]
    split at h
    · rename_i hset
      rw [if_pos hset, if_pos hset]
      exact (Int.zero_add _).symm
    · rename_i hset
      rw [if_neg hset, if_neg hset]
      split at h
      · rename_i hcur
        rw [if_pos hcur, if_pos hcur]
        exact toInt_add_of_nonneg s.nonneg h
      · rename_i hcur
        rw [if_neg hcur, if_neg hcur, toInt_add_of_nonneg hsize' h, hsize]

theorem procSeek_ok (file : ProcFile) (s : OpenFile) (off : Off) (whence : BitVec 32)
    (h : 0 ≤ (s.seek file off whence).2.toInt) :
    ((s.seek file off whence).1.pos : ℤ) = (s.seek file off whence).2.toInt ∧
      (s.seek file off whence).2.toInt = s.base file whence + off.toInt := by
  refine ⟨?_, procSeek_result file s off whence h⟩
  have hoffset := (procSeek_offset file.entry s.fd s.nonneg off whence).2.2 h
  have hnonneg := toInt_nonneg.mp h
  rw [OpenFile.pos, show (s.seek file off whence).1.fd.offset = _ from hoffset,
    BitVec.toInt_eq_toNat_cond, if_pos]
  · rfl
  · show 2 * (s.seek file off whence).2.toNat < 2 ^ 64
    omega

theorem procSeek_err (file : ProcFile) (s : OpenFile) (off : Off) (whence : BitVec 32)
    (h : (s.seek file off whence).2.toInt < 0) : (s.seek file off whence).1.pos = s.pos ∧
      IsErrno (s.seek file off whence).2.toInt := by
  have hoffset := (procSeek_offset file.entry s.fd s.nonneg off whence).2.1 h
  refine ⟨congrArg BitVec.toNat hoffset, ?_⟩
  obtain hres | ⟨hpos, -⟩ := procSeek_cases file s.fd off whence
  · have hcode : (Errno.inval.toBits 64).toInt = -22 := rfl
    rw [show (s.seek file off whence).2 = _ from hres, hcode]
    exact Errno.isErrno_inval
  · exact absurd h (Int.not_lt.mpr hpos)

theorem procRead_ok (file : ProcFile) (s : OpenFile) (size : ℕ) (bs : List Byte)
    (h : (s.read file size).2 = .ok bs) :
    bs.length ≤ size ∧ (s.read file size).1.pos = s.pos + bs.length := by
  obtain ⟨fd', hread, hoffset, -⟩ := procRead_eq file s.fd s.nonneg (BitVec.ofNat 64 size) rfl
  have hlt := (BitVec.ofNat 64 size).isLt
  have hmod : (BitVec.ofNat 64 size).toNat ≤ size := by
    rw [BitVec.toNat_ofNat]
    exact Nat.mod_le _ _
  have hres : (procRead file.entry s.fd (BitVec.ofNat 64 size)).2 = .ok bs := h
  have hpos : (s.read file size).1.pos = fd'.offset.toNat := by
    rw [show (s.read file size).1.pos =
      (procRead file.entry s.fd (BitVec.ofNat 64 size)).1.offset.toNat from rfl, hread]
  rw [hread] at hres
  obtain rfl := Except.ok.inj hres
  rw [List.length_take, Nat.min_eq_left (by omega), hpos]
  exact ⟨(Nat.min_le_left _ _).trans hmod, hoffset⟩

theorem procRead_err (file : ProcFile) (s : OpenFile) (size : ℕ) (e : Errno)
    (h : (s.read file size).2 = .error e) : (s.read file size).1.pos = s.pos := by
  obtain ⟨fd', hread, -, -⟩ := procRead_eq file s.fd s.nonneg (BitVec.ofNat 64 size) rfl
  have hres : (procRead file.entry s.fd (BitVec.ofNat 64 size)).2 = .error e := h
  rw [hread] at hres
  cases hres

/-- A file of `proc` as a descriptor that can seek. -/
def seekable (file : ProcFile) : Seekable OpenFile where
  pos := OpenFile.pos
  base := OpenFile.base file
  lseek := OpenFile.seek file
  read := OpenFile.read file
  base_set _ := if_pos rfl
  seek_ok := procSeek_ok file
  seek_err := procSeek_err file
  read_ok := procRead_ok file
  read_err := procRead_err file

end

end Isl.Fs.Proc
