import Isl.Kernel.ExecMemory

/-!
What `elf_exec` writes to the stack of a new image, as the list of the bytes from the
stack pointer up. Strings are pushed from the top, and the tables below them are
written upwards into zeros.
-/

namespace Isl.Kernel.Exec

open Isl.Lib Isl.Emu.Memory
open Isl.Emu (GuestMem Perm)
open Isl.Emu.GuestMem (addrOf addrOf_toNat addrOf_add page_addrOf contains_append)
open Isl.Kernel.Mmap (Dword)

variable {σ : Type} {host : Host σ} {s : σ} {t t₀ : Task} {lo n a : ℕ}
  {bs data pre post mid : List Byte} {string : Str} {strings : List Str}

/-- The end of the page that the stack starts in. -/
def stackEnd : ℕ := 0xffffe000

/-- A task with a stack down to `n`, otherwise as it was. -/
structure At (t₀ : Task) (lo n : ℕ) (bs : List Byte) (t : Task) : Prop extends Sound t where
  stack : (t.world.view t.mem).Stack lo stackEnd n bs
  sameMem : t.mem = t₀.mem
  sameCpu : t.cpu = t₀.cpu
  sameLost : t.lost = t₀.lost

/-- A string with its terminator. -/
def terminated (string : Str) : List Byte := string ++ [0]

def copies (strings : List Str) : List Byte := strings.flatMap terminated

@[simp] theorem terminated_length (string : Str) : (terminated string).length = string.length + 1 := by
  simp [terminated]

theorem addrOf_sub {n k : ℕ} (h : k ≤ n) : addrOf n - BitVec.ofNat 32 k = addrOf (n - k) := by
  symm
  apply eq_sub_of_add_eq
  rw [addrOf_add, Nat.sub_add_cancel h]

theorem addrOf_ne_zero {n : ℕ} (hpos : 0 < n) (hlt : n < 2 ^ 32) : addrOf n ≠ 0 := by
  intro h
  have hn := congrArg BitVec.toNat h
  rw [addrOf_toNat hlt] at hn
  exact hpos.ne' hn

theorem At.low (h : At t₀ lo n bs t) : lo ≤ n := h.stack.low

theorem At.lt (h : At t₀ lo n bs t) : n < 2 ^ 32 := by
  have hlen := h.stack.length
  have hend : stackEnd < 2 ^ 32 := by decide
  omega

/-- The same stack with more of its zeros counted. -/
theorem At.extend {k : ℕ} (h : At t₀ lo n bs t) (hlo : lo ≤ k) (hn : k ≤ n) :
    At t₀ lo k (List.replicate (n - k) 0 ++ bs) t :=
  { h with stack := h.stack.extend hlo hn }

/-- A write through `mem_ptr` is one to the view. -/
theorem At.userWrite {g : GuestMem} {addr : Addr} {n' : ℕ} {bs' : List Byte}
    (h : At t₀ lo n bs t) (hg : (t.world.view t.mem).userWrite addr data = (g, 0))
    (hstack : g.Stack lo stackEnd n' bs') :
    (userWrite t.world t.mem addr data).2 = 0 ∧
      At t₀ lo n' bs' { t with world := (userWrite t.world t.mem addr data).1 } := by
  obtain ⟨hview, hres⟩ := view_userWrite h.wf h.unaliased t.mem addr data
  have ht := touched_userWrite h.wf h.unaliased t.mem addr data
  rw [hg] at hview hres
  refine ⟨hres, ⟨⟨ht.wf, ht.unaliased, h.mem_lt.trans_eq ht.nextMem.symm⟩, ?_, h.sameMem, h.sameCpu,
    h.sameLost⟩⟩
  exact hview.symm ▸ hstack

theorem put_push (data : List Byte) (h : At t₀ lo n bs t) (hroom : lo + data.length ≤ n) :
    Prog.Total host.machine (ElfCall.put (addrOf (n - data.length)) data) (s, t) fun r s' ↦
      r = 0 ∧ At t₀ lo (n - data.length) (data ++ bs) s'.2 := by
  obtain ⟨g, hg, hstack⟩ := h.stack.push hroom
  exact .perform (h.userWrite hg hstack)

theorem put_write (data : List Byte) {old : List Byte} (h : At t₀ lo n (pre ++ old ++ post) t)
    (hlen : data.length = old.length) :
    Prog.Total host.machine (ElfCall.put (addrOf (n + pre.length)) data) (s, t) fun r s' ↦
      r = 0 ∧ At t₀ lo n (pre ++ data ++ post) s'.2 := by
  obtain ⟨g, hg, hstack⟩ := h.stack.write hlen
  exact .perform (h.userWrite hg hstack)

theorem copyString_total (h : At t₀ lo n bs t) (hroom : lo + (string.length + 1) < n) :
    Prog.Total host.machine (copyString (addrOf n) string) (s, t) fun sp s' ↦
      sp = addrOf (n - (string.length + 1)) ∧
        At t₀ lo (n - (string.length + 1)) (terminated string ++ bs) s'.2 := by
  have hn := h.lt
  have haddr : addrOf (n - (string.length + 1)) ≠ 0 := addrOf_ne_zero (by omega) (by omega)
  have hroom' : lo + (terminated string).length ≤ n := by
    rw [terminated_length]
    omega
  obtain ⟨g, hg, hstack⟩ := h.stack.push hroom'
  rw [terminated_length] at hg hstack
  have hwrite := h.userWrite hg hstack
  have hstring : userWriteString t.world t.mem (addrOf (n - (string.length + 1))) string =
      userWrite t.world t.mem (addrOf (n - (string.length + 1))) (terminated string) := if_neg haddr
  rw [← hstring] at hwrite
  unfold copyString
  rw [addrOf_sub (by omega)]
  refine Prog.Total.bind (S := fun r (s' : σ × Task) ↦
    r = 0 ∧ At t₀ lo (n - (string.length + 1)) (terminated string ++ bs) s'.2) (.perform hwrite) ?_
  intro r s' hr
  refine .pure ⟨?_, hr.2⟩
  rw [if_neg (not_not.mpr hr.1)]

theorem copies_cons (string : Str) (strings : List Str) :
    copies (string :: strings) = terminated string ++ copies strings := List.flatMap_cons

theorem copies_append (xs ys : List Str) : copies (xs ++ ys) = copies xs ++ copies ys :=
  List.flatMap_append

/-- The strings are pushed in this order, and so are in memory in the other one. -/
theorem copyStringsLoop_total (h : At t₀ lo n bs t) (hroom : lo + (copies strings).length < n) :
    Prog.Total host.machine (copyStringsLoop strings (addrOf n)) (s, t) fun sp s' ↦
      sp = addrOf (n - (copies strings).length) ∧
        At t₀ lo (n - (copies strings).length) (copies strings.reverse ++ bs) s'.2 := by
  induction strings generalizing s t n bs with
  | nil => exact .pure ⟨rfl, h⟩
  | cons string strings ih =>
    have hn := h.lt
    rw [copies_cons, List.length_append, terminated_length] at hroom ⊢
    refine (copyString_total h (by omega)).bind fun sp s' hs ↦ ?_
    obtain ⟨rfl, hat⟩ := hs
    have haddr : addrOf (n - (string.length + 1)) ≠ 0 := addrOf_ne_zero (by omega) (by omega)
    rw [if_neg haddr]
    refine (ih hat (by omega)).mono fun sp s'' hs ↦ ?_
    rw [Nat.sub_sub] at hs
    refine ⟨hs.1, ?_⟩
    rw [List.reverse_cons, copies_append, copies_cons, List.append_assoc, List.append_assoc]
    exact hs.2

theorem copyStrings_total (h : At t₀ lo n bs t) (hroom : lo + (copies strings).length < n) :
    Prog.Total host.machine (copyStrings (addrOf n) strings) (s, t) fun sp s' ↦
      sp = addrOf (n - (copies strings).length) ∧
        At t₀ lo (n - (copies strings).length) (copies strings ++ bs) s'.2 := by
  have hlen : (copies strings.reverse).length = (copies strings).length := by
    simp [copies, List.length_flatMap]
  refine (copyStringsLoop_total h (hlen.symm ▸ hroom)).mono fun sp s' hs ↦ ?_
  rwa [hlen, List.reverse_reverse] at hs

/-! The tables. -/

/-- The addresses of consecutive strings. -/
def addrsFrom : ℕ → List Str → List Addr
  | _, [] => []
  | a, string :: strings => addrOf a :: addrsFrom (a + (string.length + 1)) strings

def dwords (values : List Dword) : List Byte := values.flatMap dwordBytes

@[simp] theorem dwordBytes_length (value : Dword) : (dwordBytes value).length = 4 :=
  Layout.leBytes_length 4 _

@[simp] theorem addrsFrom_length (a : ℕ) (strings : List Str) :
    (addrsFrom a strings).length = strings.length := by
  induction strings generalizing a with
  | nil => rfl
  | cons string strings ih => rw [addrsFrom, List.length_cons, List.length_cons, ih]

@[simp] theorem dwords_length (values : List Dword) : (dwords values).length = 4 * values.length := by
  induction values with
  | nil => rfl
  | cons value values ih =>
    rw [dwords, List.flatMap_cons, List.length_append, dwordBytes_length, List.length_cons]
    rw [dwords] at ih
    omega

theorem At.perm (h : At t₀ lo n bs t) {a : ℕ} (hlo : lo ≤ a) (ha : a < stackEnd) :
    (t.world.view t.mem).perm (page (addrOf a)) = .readWrite := by
  have hend : stackEnd < 2 ^ 32 := by decide
  rw [page_addrOf (by omega)]
  exact h.stack.perm a hlo ha

theorem strlen_total (h : At t₀ lo n (pre ++ (terminated string ++ post)) t)
    (ha : a = n + pre.length) (hnul : ∀ c ∈ string, c ≠ 0) :
    Prog.Total host.machine (ElfCall.strlen (addrOf a)) (s, t) fun r s' ↦
      r = (string.length : ℤ) ∧ At t₀ lo n (pre ++ (terminated string ++ post)) s'.2 := by
  subst ha
  have hlow := h.low
  have hlen := h.stack.length
  have hend : stackEnd < 2 ^ 32 := by decide
  simp only [List.length_append, terminated_length] at hlen
  have hbytes : (t.world.view t.mem).Contains (n + pre.length) (string ++ [0]) :=
    (contains_append.mp (contains_append.mp h.stack.bytes).2).1
  obtain ⟨hview, hres⟩ := view_userStrlenLoop (i := 0) h.wf h.unaliased hnul (Nat.zero_le _)
    (show string.length - 0 < 2 ^ 32 by omega)
    (fun j hj ↦ by rw [h.perm (by omega) (by omega)]; exact Perm.noConfusion) hbytes
  have ht := touched_userStrlenLoop (m := t.mem) (addrOf (n + pre.length)) (2 ^ 32) h.wf h.unaliased 0
  refine .perform ⟨?_, ⟨⟨ht.wf, ht.unaliased, h.mem_lt.trans_eq ht.nextMem.symm⟩, ?_, h.sameMem,
    h.sameCpu, ?_⟩⟩
  · exact congrArg (Option.getD · 0) hres
  · exact hview.symm ▸ h.stack
  · have hnone : (userStrlen t.world t.mem (addrOf (n + pre.length))).2.isNone = false := by
      rw [userStrlen, hres]
      rfl
    exact (congrArg (t.lost || ·) hnone).trans ((Bool.or_false _).trans h.sameLost)

theorem putPointers_total (hnul : ∀ string ∈ strings, ∀ c ∈ string, c ≠ 0)
    (ha : a = n + pre.length + 4 * strings.length + mid.length)
    (h : At t₀ lo n (pre ++ List.replicate (4 * strings.length) 0 ++ (mid ++ copies strings ++ post))
      t) :
    Prog.Total host.machine (putPointers strings.length (addrOf (n + pre.length)) (addrOf a)) (s, t)
      fun p s' ↦ p = some (addrOf (n + pre.length + 4 * strings.length)) ∧
        At t₀ lo n (pre ++ dwords (addrsFrom a strings) ++ (mid ++ copies strings ++ post)) s'.2 := by
  induction strings generalizing s t a pre mid with
  | nil => exact .pure ⟨rfl, h⟩
  | cons string strings ih =>
    obtain ⟨hstring, hstrings⟩ := List.forall_mem_cons.mp hnul
    rw [List.length_cons] at ha h ⊢
    have hold : pre ++ List.replicate (4 * (strings.length + 1)) (0 : Byte) ++
        (mid ++ copies (string :: strings) ++ post) =
        pre ++ List.replicate 4 0 ++ (List.replicate (4 * strings.length) 0 ++
          (mid ++ copies (string :: strings) ++ post)) := by
      have hfour : 4 * (strings.length + 1) = 4 + 4 * strings.length := by omega
      simp only [hfour, ← List.replicate_append_replicate, List.append_assoc]
    rw [hold] at h
    refine (put_write (dwordBytes (addrOf a)) h (by simp)).bind fun r s₁ h₁ ↦ ?_
    rw [if_neg (not_not.mpr h₁.1)]
    have hwalk : pre ++ dwordBytes (addrOf a) ++ (List.replicate (4 * strings.length) (0 : Byte) ++
        (mid ++ copies (string :: strings) ++ post)) =
        pre ++ dwordBytes (addrOf a) ++ List.replicate (4 * strings.length) 0 ++ mid ++
          (terminated string ++ (copies strings ++ post)) := by
      simp only [copies_cons, List.append_assoc]
    have hat := h₁.2
    rw [hwalk] at hat
    have haddr : a = n + (pre ++ dwordBytes (addrOf a) ++ List.replicate (4 * strings.length) (0 : Byte)
        ++ mid).length := by
      simp only [List.length_append, dwordBytes_length, List.length_replicate]
      omega
    refine (strlen_total hat haddr hstring).bind fun len s₂ h₂ ↦ ?_
    obtain ⟨rfl, hat⟩ := h₂
    have hp : addrOf (n + pre.length) + 4 = addrOf (n + (pre ++ dwordBytes (addrOf a)).length) := by
      rw [List.length_append, dwordBytes_length, ← Nat.add_assoc]
      exact addrOf_add _ 4
    have hnext : addrOf a + (BitVec.ofInt 32 (string.length : ℤ) + 1) =
        addrOf (a + (string.length + 1)) := by
      rw [BitVec.ofInt_natCast, ← addrOf_add, BitVec.ofNat_add]
      rfl
    have hrest : pre ++ dwordBytes (addrOf a) ++ List.replicate (4 * strings.length) (0 : Byte) ++ mid ++
        (terminated string ++ (copies strings ++ post)) =
        pre ++ dwordBytes (addrOf a) ++ List.replicate (4 * strings.length) 0 ++
          (mid ++ terminated string ++ copies strings ++ post) := by
      simp only [List.append_assoc]
    rw [hrest] at hat
    rw [hp, hnext]
    refine (ih hstrings ?_ hat).mono fun p s₃ h₃ ↦ ?_
    · simp only [List.length_append, dwordBytes_length, terminated_length]
      omega
    · obtain ⟨rfl, hat⟩ := h₃
      refine ⟨?_, ?_⟩
      · rw [List.length_append, dwordBytes_length, Nat.mul_succ]
        congr 2
        omega
      · rw [addrsFrom, dwords, List.flatMap_cons, copies_cons]
        simpa only [List.append_assoc, dwords] using hat

/-! The arguments. -/

def roundUp16 (n : ℕ) : ℕ := (n + 15) / 16 * 16

/-- What the strings take from the end of the stack. -/
def stringsSize (file : Str) (argv envp : List Str) : ℕ :=
  8 + (file.length + 1) + (copies envp).length + (copies argv).length

/-- What is taken when the random bytes are copied. -/
def argumentsSize (file : Str) (argv envp : List Str) : ℕ :=
  roundUp16 (stringsSize file argv envp) + 5 + 16

/-- All that is taken. -/
def stackUse (file : Str) (argv envp : List Str) : ℕ :=
  roundUp16 (argumentsSize file argv envp + 4 * (argv.length + envp.length + 3) + sizeofAux)

def copiedAt (file : Str) (argv envp : List Str) : Copied where
  fileAddr := addrOf (stackEnd - (8 + (file.length + 1)))
  envpAddr := addrOf (stackEnd - (8 + (file.length + 1) + (copies envp).length))
  argvAddr := addrOf (stackEnd - stringsSize file argv envp)
  platformAddr := addrOf (stackEnd - (roundUp16 (stringsSize file argv envp) + 5))
  randomAddr := addrOf (stackEnd - argumentsSize file argv envp)

theorem and_align {n : ℕ} (hn : n < 2 ^ 32) : addrOf n &&& ~~~0xf = addrOf (n - n % 16) := by
  have hlow : addrOf n &&& 0xf = BitVec.ofNat 32 (n % 16) := by
    apply BitVec.eq_of_toNat_eq
    rw [BitVec.toNat_and, addrOf_toNat hn]
    refine (Nat.and_two_pow_sub_one_eq_mod n 4).trans ?_
    rw [BitVec.toNat_ofNat]
    exact (Nat.mod_eq_of_lt (by omega)).symm
  rw [GuestMem.sub_and_not, hlow, addrOf_sub (Nat.mod_le n 16)]

/-- The end of the stack is aligned, so that sizes are rounded up. -/
theorem align_end (size : ℕ) (h : size ≤ stackEnd) :
    addrOf (stackEnd - size) &&& ~~~0xf = addrOf (stackEnd - roundUp16 size) := by
  have hend : stackEnd = 0xffffe000 := rfl
  rw [and_align (by omega)]
  congr 1
  unfold roundUp16
  omega

theorem le_roundUp16 (n : ℕ) : n ≤ roundUp16 n := by
  unfold roundUp16
  omega

/-- The copies of the strings, with zeros down to a multiple of sixteen. -/
def stringArea (file : Str) (argv envp : List Str) : List Byte :=
  copies argv ++ copies envp ++ (terminated file ++ List.replicate 8 0)

def argumentArea (random : List Byte) (file : Str) (argv envp : List Str) : List Byte :=
  random ++ terminated platform ++
    List.replicate (roundUp16 (stringsSize file argv envp) - stringsSize file argv envp) 0

theorem copyArguments_total {file : Str} {argv envp : List Str}
    (h : At t₀ lo (stackEnd - 8) (List.replicate 8 0) t)
    (hroom : lo + argumentsSize file argv envp < stackEnd) :
    Prog.Total host.machine (copyArguments file argv envp) (s, t) fun r s' ↦
      r = some (copiedAt file argv envp) ∧ ∃ random : List Byte, random.length = 16 ∧
        At t₀ lo (stackEnd - argumentsSize file argv envp)
          (argumentArea random file argv envp ++ stringArea file argv envp) s'.2 := by
  have hend : stackEnd = 0xffffe000 := rfl
  have hround := le_roundUp16 (stringsSize file argv envp)
  have hargs : argumentsSize file argv envp = roundUp16 (stringsSize file argv envp) + 5 + 16 := rfl
  have hstrings : stringsSize file argv envp =
    8 + (file.length + 1) + (copies envp).length + (copies argv).length := rfl
  have htop : stackTop = addrOf (stackEnd - 8) := by decide
  unfold copyArguments
  rw [htop]
  refine (copyString_total h (by omega)).bind fun fileAddr s₁ h₁ ↦ ?_
  obtain ⟨rfl, h₁⟩ := h₁
  rw [if_neg (addrOf_ne_zero (by omega) (by omega))]
  refine (copyStrings_total h₁ (by omega)).bind fun envpAddr s₂ h₂ ↦ ?_
  obtain ⟨rfl, h₂⟩ := h₂
  rw [if_neg (addrOf_ne_zero (by omega) (by omega))]
  refine (copyStrings_total h₂ (by omega)).bind fun argvAddr s₃ h₃ ↦ ?_
  obtain ⟨rfl, h₃⟩ := h₃
  rw [if_neg (addrOf_ne_zero (by omega) (by omega))]
  have hargv : stackEnd - 8 - (file.length + 1) - (copies envp).length - (copies argv).length =
      stackEnd - stringsSize file argv envp := by omega
  rw [hargv] at h₃ ⊢
  have halign := align_end (stringsSize file argv envp) (by omega)
  rw [alignStack, halign]
  have h₃' := h₃.extend (k := stackEnd - roundUp16 (stringsSize file argv envp)) (by omega) (by omega)
  have hplatform : platform.length = 4 := rfl
  refine (copyString_total h₃' (by omega)).bind fun platformAddr s₄ h₄ ↦ ?_
  obtain ⟨rfl, h₄⟩ := h₄
  rw [hplatform] at h₄ ⊢
  rw [if_neg (addrOf_ne_zero (by omega) (by omega))]
  refine Prog.Total.bind (S := fun _ (s' : σ × Task) ↦ s'.2 = s₄.2) (.perform rfl) fun random s₅ h₅ ↦ ?_
  rw [← h₅] at h₄
  have hrandom : random.1.length = 16 := random.2
  have hput : Prog.Total host.machine (ElfCall.put _ random.1) s₅ _ := put_push random.1 h₄ (by omega)
  rw [hrandom] at hput
  have hrandomAddr : addrOf (stackEnd - roundUp16 (stringsSize file argv envp) - (4 + 1)) - 16 =
      addrOf (stackEnd - roundUp16 (stringsSize file argv envp) - (4 + 1) - 16) :=
    addrOf_sub (k := 16) (by omega)
  rw [hrandomAddr]
  refine hput.bind fun r s₆ h₆ ↦ ?_
  obtain ⟨rfl, h₆⟩ := h₆
  have hn : stackEnd - roundUp16 (stringsSize file argv envp) - (4 + 1) - 16 =
      stackEnd - argumentsSize file argv envp := by omega
  rw [hn] at h₆ ⊢
  refine .pure ⟨?_, random.1, hrandom, ?_⟩
  · have hfile : stackEnd - 8 - (file.length + 1) = stackEnd - (8 + (file.length + 1)) := by omega
    have henvp : stackEnd - (8 + (file.length + 1)) - (copies envp).length =
        stackEnd - (8 + (file.length + 1) + (copies envp).length) := by omega
    have hplat : stackEnd - roundUp16 (stringsSize file argv envp) - (4 + 1) =
        stackEnd - (roundUp16 (stringsSize file argv envp) + 5) := by omega
    rw [hfile, henvp, hplat]
    rfl
  · have hpad : stackEnd - stringsSize file argv envp -
        (stackEnd - roundUp16 (stringsSize file argv envp)) =
        roundUp16 (stringsSize file argv envp) - stringsSize file argv envp := by omega
    rw [hpad] at h₆
    simpa only [argumentArea, stringArea, List.append_assoc] using h₆

/-! The whole stack. -/

theorem auxBytes_length (aux : List (ℕ × Dword)) : (auxBytes aux).length = 8 * aux.length := by
  induction aux with
  | nil => rfl
  | cons ent aux ih =>
    rw [auxBytes, List.flatMap_cons, List.length_append, List.length_append, Layout.leBytes_length,
      Layout.leBytes_length, List.length_cons]
    rw [auxBytes] at ih
    omega

/-- The tables from the stack pointer up. -/
def tables (argv envp : List Str) (argvAddr envpAddr : ℕ) (aux : List (ℕ × Dword)) : List Byte :=
  dwordBytes (countArgs argv) ++ dwords (addrsFrom argvAddr argv) ++ List.replicate 4 0 ++
    dwords (addrsFrom envpAddr envp) ++ List.replicate 4 0 ++ auxBytes aux

theorem putTables_total {argv envp : List Str} {copied : Copied} {aux : List (ℕ × Dword)}
    {low high : List Byte} {argvAddr envpAddr : ℕ}
    (hargv : ∀ string ∈ argv, ∀ c ∈ string, c ≠ 0) (henvp : ∀ string ∈ envp, ∀ c ∈ string, c ≠ 0)
    (haux : aux.length = 21)
    (h : At t₀ lo n (List.replicate (4 * (argv.length + envp.length + 3) + sizeofAux) 0 ++
      (low ++ copies argv ++ copies envp ++ high)) t)
    (hargvAddr : argvAddr = n + (4 * (argv.length + envp.length + 3) + sizeofAux) + low.length)
    (henvpAddr : envpAddr = argvAddr + (copies argv).length)
    (hcopied : copied.argvAddr = addrOf argvAddr ∧ copied.envpAddr = addrOf envpAddr) :
    Prog.Total host.machine (putTables (addrOf n) argv envp copied aux) (s, t) fun r s' ↦
      r = none ∧ At t₀ lo n (tables argv envp argvAddr envpAddr aux ++
        (low ++ copies argv ++ copies envp ++ high)) s'.2 := by
  have hsize : sizeofAux = 168 := rfl
  have hauxLen : (auxBytes aux).length = 168 := by rw [auxBytes_length, haux]
  have hend : stackEnd < 2 ^ 32 := by decide
  have hlen := h.stack.length
  simp only [List.length_append, List.length_replicate] at hlen
  have hcount {args : List Str} (hargs : args.length < 2 ^ 32) : (countArgs args).toNat = args.length := by
    rw [countArgs, BitVec.toNat_ofNat, Nat.mod_eq_of_lt hargs]
  have hzeros : List.replicate (4 * (argv.length + envp.length + 3) + sizeofAux) (0 : Byte) =
      List.replicate 4 0 ++ List.replicate (4 * argv.length) 0 ++ List.replicate 4 0 ++
        List.replicate (4 * envp.length) 0 ++ List.replicate 4 0 ++ List.replicate 168 0 := by
    have hsum : 4 * (argv.length + envp.length + 3) + sizeofAux =
        4 + 4 * argv.length + 4 + 4 * envp.length + 4 + 168 := by omega
    simp only [hsum, List.replicate_append_replicate]
  rw [hzeros] at h
  unfold putTables
  rw [hcopied.1, hcopied.2, hcount (by omega), hcount (by omega)]
  -- argc
  have h₀ : At t₀ lo n ([] ++ List.replicate 4 0 ++ (List.replicate (4 * argv.length) 0 ++
      (List.replicate 4 0 ++ List.replicate (4 * envp.length) 0 ++ List.replicate 4 0 ++
        List.replicate 168 0 ++ low ++ copies argv ++ (copies envp ++ high)))) t := by
    simpa only [List.nil_append, List.append_assoc] using h
  refine (put_write (dwordBytes (countArgs argv)) h₀ (by simp)).bind fun r s₁ h₁ ↦ ?_
  obtain ⟨rfl, h₁⟩ := h₁
  rw [if_neg (not_not.mpr rfl)]
  rw [List.nil_append, ← List.append_assoc] at h₁
  -- the pointers to the arguments
  have hp₁ : addrOf n + 4 = addrOf (n + (dwordBytes (countArgs argv)).length) := by
    rw [dwordBytes_length]
    exact addrOf_add n 4
  rw [hp₁]
  refine (putPointers_total hargv ?_ h₁).bind fun p s₂ h₂ ↦ ?_
  · simp only [List.length_append, List.length_replicate, dwordBytes_length]
    omega
  obtain ⟨rfl, h₂⟩ := h₂
  dsimp only
  -- the pointers to the environment
  have hp₂ : addrOf (n + (dwordBytes (countArgs argv)).length + 4 * argv.length) + 4 =
      addrOf (n + (dwordBytes (countArgs argv) ++ dwords (addrsFrom argvAddr argv) ++
        List.replicate 4 0).length) := by
    simp only [List.length_append, dwords_length, addrsFrom_length, List.length_replicate,
      ← Nat.add_assoc]
    exact addrOf_add _ 4
  have h₂' : At t₀ lo n (dwordBytes (countArgs argv) ++ dwords (addrsFrom argvAddr argv) ++
      List.replicate 4 0 ++ List.replicate (4 * envp.length) 0 ++
        (List.replicate 4 0 ++ List.replicate 168 0 ++ low ++ copies argv ++ copies envp ++ high))
      s₂.2 := by
    simpa only [List.append_assoc] using h₂
  rw [hp₂]
  refine (putPointers_total (a := envpAddr) henvp ?_ h₂').bind fun p s₃ h₃ ↦ ?_
  · simp only [List.length_append, List.length_replicate, dwordBytes_length, dwords_length,
      addrsFrom_length]
    omega
  obtain ⟨rfl, h₃⟩ := h₃
  dsimp only
  -- the auxiliary vector
  have hp₃ : addrOf (n + (dwordBytes (countArgs argv) ++ dwords (addrsFrom argvAddr argv) ++
      List.replicate 4 0).length + 4 * envp.length) + 4 =
      addrOf (n + (dwordBytes (countArgs argv) ++ dwords (addrsFrom argvAddr argv) ++
        List.replicate 4 0 ++ dwords (addrsFrom envpAddr envp) ++ List.replicate 4 0).length) := by
    simp only [List.length_append, dwords_length, addrsFrom_length, List.length_replicate,
      ← Nat.add_assoc]
    exact addrOf_add _ 4
  have h₃' : At t₀ lo n (dwordBytes (countArgs argv) ++ dwords (addrsFrom argvAddr argv) ++
      List.replicate 4 0 ++ dwords (addrsFrom envpAddr envp) ++ List.replicate 4 0 ++
        List.replicate 168 0 ++ (low ++ copies argv ++ copies envp ++ high)) s₃.2 := by
    simpa only [List.append_assoc] using h₃
  rw [hp₃]
  refine (put_write (auxBytes aux) h₃' (by rw [hauxLen, List.length_replicate])).bind
    fun r s₄ h₄ ↦ ?_
  obtain ⟨rfl, h₄⟩ := h₄
  exact .pure ⟨rfl, h₄⟩

theorem auxv_length (header : ElfHeader) (vdsoEntryPoint : Dword) (image : Image) (loadAddr : Addr)
    (copied : Copied) : (auxv header vdsoEntryPoint image loadAddr copied).length = 21 := rfl

/-- What the new image finds from its stack pointer up to the strings. -/
def imageTables (file : Str) (argv envp : List Str) (aux : List (ℕ × Dword)) : List Byte :=
  tables argv envp (stackEnd - stringsSize file argv envp)
    (stackEnd - (8 + (file.length + 1) + (copies envp).length)) aux

theorem tablesStart_eq {file : Str} {argv envp : List Str} (h : stackUse file argv envp ≤ stackEnd) :
    tablesStart (addrOf (stackEnd - argumentsSize file argv envp)) argv envp =
      addrOf (stackEnd - stackUse file argv envp) := by
  have hsize : sizeofAux = 168 := rfl
  have hround := le_roundUp16 (argumentsSize file argv envp + 4 * (argv.length + envp.length + 3) + sizeofAux)
  have huse : stackUse file argv envp =
    roundUp16 (argumentsSize file argv envp + 4 * (argv.length + envp.length + 3) + sizeofAux) := rfl
  have hcounts : ((countArgs argv + 1) + (countArgs envp + 1) + 1) * 4 =
      BitVec.ofNat 32 (4 * (argv.length + envp.length + 3)) := by
    have hsum : 4 * (argv.length + envp.length + 3) =
      (argv.length + 1 + (envp.length + 1) + 1) * 4 := by omega
    rw [hsum, BitVec.ofNat_mul, BitVec.ofNat_add, BitVec.ofNat_add, BitVec.ofNat_add, BitVec.ofNat_add]
    rfl
  unfold tablesStart
  rw [hcounts, addrOf_sub (by omega), addrOf_sub (by omega), Nat.sub_sub, Nat.sub_sub,
    ← Nat.add_assoc, align_end _ (by omega), ← huse]

theorem startImage_total {vdsoEntryPoint : Dword} {file : Str} {argv envp : List Str}
    {header : ElfHeader} {image : Image}
    (hargv : ∀ string ∈ argv, ∀ c ∈ string, c ≠ 0) (henvp : ∀ string ∈ envp, ∀ c ∈ string, c ≠ 0)
    (h : At t₀ lo (stackEnd - 8) (List.replicate 8 0) t)
    (hroom : lo + stackUse file argv envp ≤ stackEnd) :
    Prog.Total host.machine (startImage vdsoEntryPoint file argv envp header image) (s, t)
      fun exit s' ↦ exit = .outFreeInterp 0 ∧ Sound s'.2 ∧ s'.2.mem = t₀.mem ∧ s'.2.lost = t₀.lost ∧
        s'.2.cpu = some (addrOf (stackEnd - stackUse file argv envp), image.entry) ∧
        ∃ loadAddr, ∃ rest : List Byte, (s'.2.world.view s'.2.mem).Stack lo stackEnd
          (stackEnd - stackUse file argv envp)
          (imageTables file argv envp (auxv header vdsoEntryPoint image loadAddr
            (copiedAt file argv envp)) ++ rest ++ stringArea file argv envp) := by
  have hend : stackEnd = 0xffffe000 := rfl
  have hsize : sizeofAux = 168 := rfl
  have hround := le_roundUp16 (argumentsSize file argv envp + 4 * (argv.length + envp.length + 3) + sizeofAux)
  have huse : stackUse file argv envp =
    roundUp16 (argumentsSize file argv envp + 4 * (argv.length + envp.length + 3) + sizeofAux) := rfl
  have hstrings := le_roundUp16 (stringsSize file argv envp)
  have hargs : argumentsSize file argv envp = roundUp16 (stringsSize file argv envp) + 5 + 16 := rfl
  refine (copyArguments_total h (by omega)).bind fun r s₁ h₁ ↦ ?_
  obtain ⟨rfl, random, hrandom, h₁⟩ := h₁
  dsimp only
  refine Prog.Total.bind (S := fun _ (s' : σ × Task) ↦ s'.2 = s₁.2) ?_ fun loadAddr s₂ h₂ ↦ ?_
  · unfold readLoadAddr
    split
    · exact .pure rfl
    · exact .perform rfl
  rw [← h₂] at h₁
  have h₁' := h₁.extend (k := stackEnd - stackUse file argv envp) (by omega) (by omega)
  have hstart : tablesStart (copiedAt file argv envp).randomAddr argv envp =
      addrOf (stackEnd - stackUse file argv envp) := tablesStart_eq (by omega)
  rw [hstart]
  have hzeros : stackEnd - argumentsSize file argv envp - (stackEnd - stackUse file argv envp) =
      (4 * (argv.length + envp.length + 3) + sizeofAux) + (stackUse file argv envp -
        (argumentsSize file argv envp + 4 * (argv.length + envp.length + 3) + sizeofAux)) := by omega
  rw [hzeros, ← List.replicate_append_replicate] at h₁'
  let low := List.replicate (stackUse file argv envp -
    (argumentsSize file argv envp + 4 * (argv.length + envp.length + 3) + sizeofAux)) (0 : Byte) ++
      argumentArea random file argv envp
  have hlow : low.length = stackUse file argv envp -
      (4 * (argv.length + envp.length + 3) + sizeofAux) - stringsSize file argv envp := by
    have hplatform : platform.length = 4 := rfl
    simp only [low, argumentArea, List.length_append, List.length_replicate, terminated_length, hrandom,
      hplatform]
    omega
  have h₂' : At t₀ lo (stackEnd - stackUse file argv envp)
      (List.replicate (4 * (argv.length + envp.length + 3) + sizeofAux) 0 ++
        (low ++ copies argv ++ copies envp ++ (terminated file ++ List.replicate 8 0))) s₂.2 := by
    simpa only [low, stringArea, List.append_assoc] using h₁'
  refine (putTables_total hargv henvp (auxv_length header vdsoEntryPoint image loadAddr
    (copiedAt file argv envp)) h₂' ?_ ?_ ⟨rfl, rfl⟩).bind fun r s₃ h₃ ↦ ?_
  · rw [hlow]
    omega
  · have hdef : stringsSize file argv envp =
      8 + (file.length + 1) + (copies envp).length + (copies argv).length := rfl
    omega
  obtain ⟨rfl, h₃⟩ := h₃
  dsimp only
  refine Prog.Total.bind (S := fun _ (s' : σ × Task) ↦ s'.2 =
    { s₃.2 with cpu := some (addrOf (stackEnd - stackUse file argv envp), image.entry) })
    (.perform rfl) fun _ s₄ h₄ ↦ .pure ?_
  rw [h₄]
  refine ⟨rfl, ⟨h₃.wf, h₃.unaliased, h₃.mem_lt⟩, h₃.sameMem, h₃.sameLost, rfl, loadAddr, low, ?_⟩
  have hstack := h₃.stack
  rw [List.append_assoc low, List.append_assoc low] at hstack
  simpa only [imageTables, stringArea, List.append_assoc] using hstack

end Isl.Kernel.Exec
