import Isl.Fs.Proc
import Isl.Kernel.FileCalls

/-! Seeks of a guest: the two seek calls beside each other, and `pread`. -/

namespace Isl.Kernel.FileCalls

open Isl.Lib Isl.Emu Isl.Emu.Memory Isl.Fs

variable {σ : Type}

/-- The high word of an offset of 32 bits that is extended with its sign. -/
def signHigh (off : Dword) : Dword := (off.signExtend 64).extractLsb' 32 32

/-- The first call moves like the second one and returns its error, or the new position
where that fits. -/
structure SeeksAlike (f : Seekable σ) (u v : Guest σ × Dword) : Prop where
  pos : f.pos u.1.desc = f.pos v.1.desc
  error : v.2 ≠ 0 → u.2 = v.2
  result : v.2 = 0 → f.pos v.1.desc < 2 ^ 32 → u.2.toNat = f.pos v.1.desc

/-- What the descriptor answers to a seek. -/
def answer (f : Seekable σ) (s : σ) (off : Off) (whence : Dword) : ℤ :=
  (f.lseek s off whence).2.toInt

/-- A seek that the two calls make with the same offset, which succeeds or fails with the
one error that `sys_lseek` knows. -/
def SameSeek (f : Seekable σ) (s : σ) (off whence : Dword) : Prop :=
  0 ≤ off.toInt ∧ (0 ≤ answer f s (off.signExtend 64) whence ∨
    answer f s (off.signExtend 64) whence = Errno.overflow.code)

/-- With a negative offset `sys_lseek` seeks `2 ^ 32` too far, and that is not seen: the
seek fails where the right one stays at a position that does not fit or has the number of
the error, or it stays at the position that has the number of the error of the right one. -/
def UnseenSeek (f : Seekable σ) (s : σ) (off whence : Dword) : Prop :=
  let right := answer f s (off.signExtend 64) whence
  let wrong := answer f s (off.setWidth 64) whence
  off.toInt < 0 ∧
    ((0 ≤ right ∧ wrong < 0 ∧ f.pos s = right ∧
        (2 ^ 32 ≤ right ∨ right = 2 ^ 32 + Errno.overflow.code)) ∨
      (right < 0 ∧ 0 ≤ wrong ∧ f.pos s = wrong ∧
        (wrong = 2 ^ 32 + right ∨ 2 ^ 32 ≤ wrong ∧ right = Errno.overflow.code)) ∨
      (right = Errno.overflow.code ∧ wrong < 0))

section

variable {f : Seekable σ} {s : σ} {t : Guest σ} {off whence size : Dword} {resAddr bufAddr : Addr}
  {x : Off}

theorem signHigh_append (off : Dword) :
    ((signHigh off).setWidth 64 <<< 32 ||| off.setWidth 64 : Off) = off.signExtend 64 := by
  apply BitVec.eq_of_getLsbD_eq
  intro i hi
  simp only [signHigh, BitVec.getLsbD_or, BitVec.getLsbD_shiftLeft, BitVec.getLsbD_setWidth,
    BitVec.getLsbD_extractLsb', BitVec.getLsbD_signExtend]
  by_cases h : i < 32
  · simp [h, hi]
  · have heq : 32 + (i - 32) = i := by omega
    have hlt : i - 32 < 64 := by omega
    have hge : off.getLsbD i = false := BitVec.getLsbD_of_ge off i (by omega)
    have hsmall : i - 32 < 32 := by omega
    simp [h, hi, heq, hlt, hge, hsmall]

theorem toInt_zeroExtend (off : Dword) :
    (off.setWidth 64).toInt = if off.toInt < 0 then off.toInt + 2 ^ 32 else off.toInt := by
  have hlt := off.isLt
  rw [BitVec.toInt_eq_toNat_cond, BitVec.toNat_setWidth, BitVec.toInt_eq_toNat_cond]
  omega

theorem zeroExtend_of_nonneg (h : 0 ≤ off.toInt) : off.setWidth 64 = off.signExtend 64 := by
  apply BitVec.eq_of_toInt_eq
  rw [toInt_zeroExtend, if_neg (Int.not_lt.mpr h), BitVec.toInt_signExtend_of_le (by decide)]

/-- The low half of an error. -/
theorem toNat_setWidth_errno (h : IsErrno x.toInt) :
    ((x.setWidth 32).toNat : ℤ) = 2 ^ 32 + x.toInt := by
  obtain ⟨hlow, hneg⟩ := h
  rw [BitVec.toInt_eq_toNat_cond] at hlow hneg ⊢
  rw [BitVec.toNat_setWidth]
  have hlt := x.isLt
  omega

theorem toNat_overflow : ((Errno.overflow.toBits 32).toNat : ℤ) = 2 ^ 32 + Errno.overflow.code := by
  rfl

/-- What `sys_lseek` returns for an answer of the descriptor. -/
theorem sysLseek_eq (f : Seekable σ) (t : Guest σ) (off whence : Dword) :
    ∃ r, sysLseek f.lseek t off whence =
        ({ t with desc := (f.lseek t.desc (off.setWidth 64) whence).1 }, r) ∧
      (r.toNat : ℤ) = if 0 ≤ answer f t.desc (off.setWidth 64) whence ∧
          answer f t.desc (off.setWidth 64) whence < 2 ^ 32 then
        answer f t.desc (off.setWidth 64) whence else 2 ^ 32 + Errno.overflow.code := by
  obtain ⟨s', res, hl⟩ : ∃ s' res, f.lseek t.desc (off.setWidth 64) whence = (s', res) :=
    ⟨_, _, rfl⟩
  have hlt := res.isLt
  have hfits : (res.setWidth 32).setWidth 64 = res ↔ 0 ≤ res.toInt ∧ res.toInt < 2 ^ 32 := by
    rw [← BitVec.toNat_inj, BitVec.toNat_setWidth, BitVec.toNat_setWidth,
      BitVec.toInt_eq_toNat_cond]
    omega
  rw [sysLseek, answer, hl]
  dsimp only
  by_cases h : 0 ≤ res.toInt ∧ res.toInt < 2 ^ 32
  · refine ⟨res.setWidth 32, if_neg (not_not.mpr (hfits.mpr h)), ?_⟩
    rw [if_pos h, BitVec.toNat_setWidth, BitVec.toInt_eq_toNat_cond]
    rw [BitVec.toInt_eq_toNat_cond] at h
    omega
  · refine ⟨Errno.overflow.toBits 32, if_pos (mt hfits.mp h), ?_⟩
    rw [if_neg h, toNat_overflow]

/-- `sys__llseek` with an address that can be written returns 0, or the error. -/
theorem sysLlseek_eq (f : Seekable σ) (t : Guest σ) (off whence : Dword)
    (hw : t.mem.writable resAddr 8) :
    ∃ g r, sysLlseek f.lseek t (signHigh off) off resAddr whence =
        (⟨(f.lseek t.desc (off.signExtend 64) whence).1, g, t.lost⟩, r) ∧
      (r.toNat : ℤ) = if 0 ≤ answer f t.desc (off.signExtend 64) whence then 0
        else 2 ^ 32 + answer f t.desc (off.signExtend 64) whence := by
  have herr := f.seek_err t.desc (off.signExtend 64) whence
  obtain ⟨s', res, hl⟩ : ∃ s' res, f.lseek t.desc (off.signExtend 64) whence = (s', res) :=
    ⟨_, _, rfl⟩
  have hok : (t.mem.userWrite resAddr (Layout.leBytes 8 res.toNat)).2 = 0 :=
    GuestMem.userWrite_ok (by rwa [Layout.leBytes_length])
  rw [hl] at herr
  rw [sysLlseek, signHigh_append, answer, hl]
  dsimp only
  split
  · rename_i hneg
    refine ⟨_, _, rfl, ?_⟩
    rw [if_neg (Int.not_le.mpr hneg)]
    exact toNat_setWidth_errno (herr hneg).2
  · rename_i hpos
    refine ⟨_, _, rfl, ?_⟩
    rw [if_pos (Int.not_lt.mp hpos)]
    rfl

/-- The two outcomes beside each other, with their results as numbers. -/
theorem seeksAlike_iff_toNat {u v : Guest σ × Dword} : SeeksAlike f u v ↔
    f.pos u.1.desc = f.pos v.1.desc ∧ (v.2.toNat ≠ 0 → u.2.toNat = v.2.toNat) ∧
      (v.2.toNat = 0 → f.pos v.1.desc < 2 ^ 32 → u.2.toNat = f.pos v.1.desc) := by
  have hzero : v.2 = 0 ↔ v.2.toNat = 0 := BitVec.toNat_inj.symm
  constructor
  · intro h
    exact ⟨h.pos, fun hne ↦ congrArg _ (h.error (mt hzero.mp hne)),
      fun h0 ↦ h.result (hzero.mpr h0)⟩
  · intro h
    exact ⟨h.1, fun hne ↦ BitVec.eq_of_toNat_eq (h.2.1 (mt hzero.mpr hne)),
      fun h0 ↦ h.2.2 (hzero.mp h0)⟩

/-- The two seek calls agree if and only if the offset is not negative and the seek
succeeds, or the difference is not seen. -/
theorem seeksAlike_iff (f : Seekable σ) (t : Guest σ) (off whence : Dword)
    (hw : t.mem.writable resAddr 8) :
    SeeksAlike f (sysLseek f.lseek t off whence)
        (sysLlseek f.lseek t (signHigh off) off resAddr whence) ↔
      SameSeek f t.desc off whence ∨ UnseenSeek f t.desc off whence := by
  obtain ⟨r, hr, hrnat⟩ := sysLseek_eq f t off whence
  obtain ⟨g, q, hq, hqnat⟩ := sysLlseek_eq f t off whence hw
  have hok (x : Off) (h : 0 ≤ answer f t.desc x whence) :
      (f.pos (f.lseek t.desc x whence).1 : ℤ) = answer f t.desc x whence ∧
        answer f t.desc x whence = f.base t.desc whence + x.toInt := f.seek_ok t.desc x whence h
  have herr (x : Off) (h : answer f t.desc x whence < 0) :
      f.pos (f.lseek t.desc x whence).1 = f.pos t.desc ∧ -4096 < answer f t.desc x whence ∧
        answer f t.desc x whence < 0 := f.seek_err t.desc x whence h
  have hext : (off.signExtend 64).toInt = off.toInt := BitVec.toInt_signExtend_of_le (by decide)
  have hover : Errno.overflow.code = -75 := rfl
  rw [seeksAlike_iff_toNat, hr, hq, SameSeek, UnseenSeek]
  dsimp only
  rw [hover] at hrnat ⊢
  have hright := hok (off.signExtend 64)
  have hright' := herr (off.signExtend 64)
  have hwrong := hok (off.setWidth 64)
  have hwrong' := herr (off.setWidth 64)
  clear hok herr hr hq hover
  rw [hext] at hright
  rw [toInt_zeroExtend] at hwrong
  by_cases hoff : 0 ≤ off.toInt
  · rw [zeroExtend_of_nonneg hoff] at hrnat ⊢
    clear hwrong hwrong'
    have hnot : ¬off.toInt < 0 := Int.not_lt.mpr hoff
    generalize answer f t.desc (off.signExtend 64) whence = right at *
    generalize f.pos (f.lseek t.desc (off.signExtend 64) whence).1 = p at *
    simp only [hoff, hnot, true_and, false_and, or_false]
    by_cases h : 0 ≤ right
    · obtain ⟨hpos, -⟩ := hright h
      simp only [h, true_and, if_true, true_or, iff_true] at hrnat hqnat ⊢
      split at hrnat <;> omega
    · have hlow := (hright' (Int.not_le.mp h)).2
      simp only [h, false_and, if_false, false_or] at hrnat hqnat ⊢
      omega
  · rw [if_pos (Int.not_le.mp hoff)] at hwrong
    have hneg : off.toInt < 0 := Int.not_le.mp hoff
    generalize answer f t.desc (off.signExtend 64) whence = right at *
    generalize answer f t.desc (off.setWidth 64) whence = wrong at *
    generalize f.pos (f.lseek t.desc (off.signExtend 64) whence).1 = p at *
    generalize f.pos (f.lseek t.desc (off.setWidth 64) whence).1 = p' at *
    simp only [hoff, hneg, true_and, false_and, false_or]
    by_cases h : 0 ≤ right
    · obtain ⟨hpos, hsum⟩ := hright h
      simp only [h, if_true] at hqnat
      by_cases h' : 0 ≤ wrong
      · obtain ⟨hpos', hsum'⟩ := hwrong h'
        -- the two calls end at different positions
        have hne : p' ≠ p := by omega
        exact iff_of_false (fun hall ↦ hne hall.1) (by omega)
      · obtain ⟨hpos', hlow'⟩ := hwrong' (Int.not_le.mp h')
        simp only [h', false_and, if_false] at hrnat
        omega
    · obtain ⟨hpos, hlow⟩ := hright' (Int.not_le.mp h)
      simp only [h, if_false] at hqnat
      by_cases h' : 0 ≤ wrong
      · obtain ⟨hpos', hsum'⟩ := hwrong h'
        simp only [h', true_and] at hrnat
        split at hrnat <;> omega
      · obtain ⟨hpos', hlow'⟩ := hwrong' (Int.not_le.mp h')
        simp only [h', false_and, if_false] at hrnat
        omega

/-- An empty address space, and one that can be written. -/
def blank (perm : Perm) : GuestMem := ⟨fun _ ↦ perm, fun _ ↦ 0⟩

/-- The text `abc`, just opened. -/
def abcOpen : Guest Proc.OpenFile := ⟨⟨⟨0, [], 0⟩, le_rfl⟩, blank .readWrite, false⟩

theorem seeksAlike_forward : SeeksAlike (Proc.seekable Proc.abc)
    (sysLseek (Proc.seekable Proc.abc).lseek abcOpen 2 lseekSet)
    (sysLlseek (Proc.seekable Proc.abc).lseek abcOpen (signHigh 2) 2 4096 lseekSet) :=
  (seeksAlike_iff (Proc.seekable Proc.abc) abcOpen 2 lseekSet fun _ _ ↦ rfl).mpr
    (.inl ⟨by decide, .inl (by decide)⟩)

/-- One byte back from the start: an error of `sys__llseek`, and `2 ^ 32 - 1` bytes
forward with `sys_lseek`. -/
theorem not_seeksAlike_back : ¬SeeksAlike (Proc.seekable Proc.abc)
    (sysLseek (Proc.seekable Proc.abc).lseek abcOpen (-1) lseekSet)
    (sysLlseek (Proc.seekable Proc.abc).lseek abcOpen (signHigh (-1)) (-1) 4096 lseekSet) := by
  intro h
  exact absurd h.pos (by decide)

/-! `pread` -/

/-- A seek to the offset, and a read there. -/
def seekRead (f : Seekable σ) (t : Guest σ) (bufAddr : Addr) (size : Dword) (off : Off) :
    Guest σ × Dword :=
  let (s, res) := f.lseek t.desc off lseekSet
  let t := { t with desc := s }
  if res.toInt < 0 then (t, res.setWidth 32) else copyRead f.read t bufAddr size

/-- The call reads what a seek and a read would, and the position is as before. -/
structure PreadRight (f : Seekable σ) (t : Guest σ) (bufAddr : Addr) (size : Dword) (off : Off) :
    Prop where
  inside : (sysPread f.lseek f.read t bufAddr size off).1.lost = false
  result : (sysPread f.lseek f.read t bufAddr size off).2 = (seekRead f t bufAddr size off).2
  mem : (sysPread f.lseek f.read t bufAddr size off).1.mem = (seekRead f t bufAddr size off).1.mem
  pos : f.pos (sysPread f.lseek f.read t bufAddr size off).1.desc = f.pos t.desc

/-- The bytes that a read at an offset takes. -/
def taken (f : Seekable σ) (s : σ) (size : Dword) (off : Off) : ℕ :=
  match (f.read (f.lseek s off lseekSet).1 size.toNat).2 with
  | .ok bytes => bytes.length
  | .error _ => 0

/-- Before the call the position is where the seek and the read end. An offset whose low
half is negative is not read at, and is returned: that is right only where the read fails
with just that number. -/
def EndsThere (f : Seekable σ) (t : Guest σ) (bufAddr : Addr) (size : Dword) (off : Off) : Prop :=
  if 0 ≤ (off.setWidth 32).toInt then
    f.pos t.desc = off.toNat + taken f t.desc size off ∧
      taken f t.desc size off ≤ (size + 1).toNat
  else
    f.pos t.desc = off.toNat ∧ (seekRead f t bufAddr size off).2 = off.setWidth 32 ∧
      (seekRead f t bufAddr size off).1.mem = t.mem

theorem copyRead_pos (f : Seekable σ) (t : Guest σ) (bufAddr : Addr) (size : Dword) :
    f.pos (copyRead f.read t bufAddr size).1.desc = f.pos t.desc +
        (match (f.read t.desc size.toNat).2 with | .ok bytes => bytes.length | .error _ => 0) ∧
      ((copyRead f.read t bufAddr size).1.lost = false ↔ t.lost = false ∧
        (match (f.read t.desc size.toNat).2 with | .ok bytes => bytes.length | .error _ => 0) ≤
          (size + 1).toNat) := by
  have hok := f.read_ok t.desc size.toNat
  have herr := f.read_err t.desc size.toNat
  rw [copyRead]
  obtain ⟨s, r, hr⟩ : ∃ s r, f.read t.desc size.toNat = (s, r) := ⟨_, _, rfl⟩
  rw [hr] at hok herr ⊢
  cases r with
  | error e => exact ⟨herr e rfl, (and_iff_left (Nat.zero_le _)).symm⟩
  | ok bytes =>
    have hpos := (hok bytes rfl).2
    dsimp only
    split
    · exact ⟨hpos, by simp⟩
    · exact ⟨hpos, by simp⟩

/-- A seek to an offset that is not refused ends there. -/
theorem lseek_set (f : Seekable σ) (s : σ) (off : Off) (h : ¬answer f s off lseekSet < 0) :
    ∃ s', f.lseek s off lseekSet = (s', off) ∧ f.pos s' = off.toNat := by
  have hok := f.seek_ok s off lseekSet
  obtain ⟨s', res, hl⟩ : ∃ s' res, f.lseek s off lseekSet = (s', res) := ⟨_, _, rfl⟩
  rw [answer, hl] at h
  rw [hl] at hok
  obtain ⟨hpos, hres⟩ := hok (Int.not_lt.mp h)
  dsimp only at h hpos hres
  have hresoff : res = off := by
    apply BitVec.eq_of_toInt_eq
    rw [hres, f.base_set, Nat.cast_zero, Int.zero_add]
  rw [hresoff] at hl hpos h
  refine ⟨s', hl, ?_⟩
  rw [BitVec.toInt_eq_toNat_cond] at hpos h
  have hlt := off.isLt
  omega

/-- The descriptor refuses, and both do nothing. -/
theorem preadRight_refused (ht : t.lost = false) (h : answer f t.desc x lseekSet < 0) :
    PreadRight f t bufAddr size x := by
  have herr := f.seek_err t.desc x lseekSet
  obtain ⟨s, res, hl⟩ : ∃ s res, f.lseek t.desc x lseekSet = (s, res) := ⟨_, _, rfl⟩
  rw [answer, hl] at h
  rw [hl] at herr
  dsimp only at h herr
  obtain ⟨hpos, herrno⟩ := herr h
  have hlow : (res.setWidth 32).toInt < 0 := by
    have hnat := toNat_setWidth_errno herrno
    rw [BitVec.toInt_eq_toNat_cond]
    obtain ⟨hlow, hneg⟩ := herrno
    omega
  have hpread : sysPread f.lseek f.read t bufAddr size x =
      ({ t with desc := s }, res.setWidth 32) := by
    rw [sysPread, hl]
    exact if_pos hlow
  have hseek : seekRead f t bufAddr size x = ({ t with desc := s }, res.setWidth 32) := by
    rw [seekRead, hl]
    exact if_pos h
  refine ⟨?_, ?_, ?_, ?_⟩
  · rw [hpread]
    exact ht
  · rw [hpread, hseek]
  · rw [hpread, hseek]
  · rw [hpread]
    exact hpos

/-- `pread` reads at the offset and keeps the position, if and only if the descriptor
refuses the seek, or the position was where the seek and the read end anyway. -/
theorem preadRight_iff (f : Seekable σ) (t : Guest σ) (ht : t.lost = false) (bufAddr : Addr)
    (size : Dword) (off : Off) : PreadRight f t bufAddr size off ↔
      answer f t.desc off lseekSet < 0 ∨ EndsThere f t bufAddr size off := by
  by_cases hanswer : answer f t.desc off lseekSet < 0
  · exact iff_of_true (preadRight_refused ht hanswer) (.inl hanswer)
  · obtain ⟨s, hl, hposoff⟩ := lseek_set f t.desc off hanswer
    have hseek : seekRead f t bufAddr size off = copyRead f.read { t with desc := s } bufAddr size := by
      rw [answer, hl] at hanswer
      rw [seekRead, hl]
      exact if_neg hanswer
    obtain ⟨hcopy, hlost⟩ := copyRead_pos f { t with desc := s } bufAddr size
    have htaken : taken f t.desc size off =
        match (f.read s size.toNat).2 with | .ok bytes => bytes.length | .error _ => 0 := by
      rw [taken, hl]
    rw [← htaken] at hcopy hlost
    rw [or_iff_right hanswer, EndsThere]
    split
    · rename_i hlow
      have hpread : sysPread f.lseek f.read t bufAddr size off =
          copyRead f.read { t with desc := s } bufAddr size := by
        rw [sysPread, hl]
        exact if_neg (Int.not_lt.mpr hlow)
      constructor
      · rintro ⟨hinside, -, -, hkeep⟩
        rw [hpread] at hinside hkeep
        rw [hcopy, hposoff] at hkeep
        exact ⟨hkeep.symm, (hlost.mp hinside).2⟩
      · rintro ⟨hkeep, hinside⟩
        refine ⟨?_, ?_, ?_, ?_⟩
        · rw [hpread]
          exact hlost.mpr ⟨ht, hinside⟩
        · rw [hpread, hseek]
        · rw [hpread, hseek]
        · rw [hpread, hcopy, hposoff, hkeep]
    · rename_i hlow
      have hpread : sysPread f.lseek f.read t bufAddr size off =
          ({ t with desc := s }, off.setWidth 32) := by
        rw [sysPread, hl]
        exact if_pos (Int.not_le.mp hlow)
      constructor
      · rintro ⟨-, hresult, hmem, hkeep⟩
        rw [hpread] at hresult hmem hkeep
        exact ⟨hkeep.symm.trans hposoff, hresult.symm, hmem.symm⟩
      · rintro ⟨hkeep, hresult, hmem⟩
        refine ⟨?_, ?_, ?_, ?_⟩
        · rw [hpread]
          exact ht
        · rw [hpread, hresult]
        · rw [hpread, hmem]
        · rw [hpread, hkeep]
          exact hposoff

theorem preadRight_nothing : PreadRight (Proc.seekable Proc.abc) abcOpen 4096 0 0 := by
  refine (preadRight_iff (Proc.seekable Proc.abc) abcOpen rfl 4096 0 0).mpr (.inr ?_)
  rw [EndsThere, if_pos (by decide)]
  exact ⟨by decide, by decide⟩

/-- A `pread` of two bytes leaves the position behind them. -/
theorem not_preadRight_two : (sysPread (Proc.seekable Proc.abc).lseek (Proc.seekable Proc.abc).read
      abcOpen 4096 2 0).2 = 2 ∧ ¬PreadRight (Proc.seekable Proc.abc) abcOpen 4096 2 0 := by
  refine ⟨by decide, fun h ↦ ?_⟩
  exact absurd h.pos (by decide)

end

end Isl.Kernel.FileCalls
