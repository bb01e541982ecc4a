import Isl.Kernel.ExecStart
import Isl.Kernel.UserString

/-!
`_sys_execve` of `kernel/exec.c`: the arrays of strings that a program hands to `execve`, up to
those that the new image finds from its stack pointer on.
-/

namespace Isl.Kernel.Exec

open Isl.Lib Isl.Emu.Memory
open Isl.Emu (GuestMem)
open Isl.Kernel.User (readString userReadString userReadStringAt readString_cases
  userReadStringAt_view)
open Isl.Kernel.Mmap (Dword)

def maxPath : ℕ := 4096
def maxArgs : ℕ := 256
def e2big : ℤ := -7

/-- What a buffer of `MAX_PATH` bytes holds before it is written. -/
abbrev Buffer := {bytes : List Byte // bytes.length = maxPath}

/-- `user_read` of `n` bytes, unless one of them cannot be read. -/
def userReadAt (m : ℕ) : ℕ → World → Addr → World × Option (List Byte)
  | 0, w, _ => (w, some [])
  | n + 1, w, addr =>
    let r := w.load m addr
    match r.2 with
    | none => (r.1, none)
    | some c =>
      let rest := userReadAt m n r.1 (addr + 1)
      (rest.1, rest.2.map (c :: ·))

def userGetAt (w : World) (m : ℕ) (addr : Addr) : World × Option Addr :=
  let r := userReadAt m 4 w addr
  (r.1, r.2.map fun bytes ↦ BitVec.ofNat 32 (Layout.leNat bytes))

/-- The loop of `_sys_execve` over an array of strings, with room for that many of them. The
result is an error or the buffers. -/
def copyArray (malloc : ℕ → Buffer) (m : ℕ) : ℕ → World → Addr → World × Except ℤ (List (List Byte))
  | room, w, addr =>
    let r := userGetAt w m addr
    match r.2 with
    | none => (r.1, .error efault)
    | some arg =>
      if arg = 0 then (r.1, .ok [])
      else
        match room with
        | 0 => (r.1, .error e2big)
        | room + 1 =>
          let s := userReadStringAt r.1 m arg (malloc room).1
          if s.2.2 ≠ 0 then (s.1, .error efault)
          else
            let rest := copyArray malloc m room s.1 (addr + 4)
            (rest.1, rest.2.map (s.2.1 :: ·))

def bufferString (buffer : List Byte) : Option Str := CString.text (· = 0) buffer 0

/-- How `_sys_execve` comes to its end: it returns, it writes or reads behind an array, or it
calls `sys_execve`. -/
inductive Entered
  | returns (err : ℤ)
  | overruns
  | calls (file : Str) (argv envp : List Str)
deriving DecidableEq

structure Buffers where
  filename : Buffer
  argv : ℕ → Buffer
  envp : ℕ → Buffer

def enterExecve (buffers : Buffers) (w : World) (m : ℕ) (filenameAddr argvAddr envpAddr : Addr) :
    World × Entered :=
  let r := userReadStringAt w m filenameAddr buffers.filename.1
  if r.2.2 ≠ 0 then (r.1, .returns efault)
  else
    let a := copyArray buffers.argv m maxArgs r.1 argvAddr
    match a.2 with
    | .error err => (a.1, .returns err)
    | .ok argv =>
      -- the null pointer goes behind the last string
      if maxArgs ≤ argv.length then (a.1, .overruns)
      else
        let e := copyArray buffers.envp m maxArgs a.1 envpAddr
        match e.2 with
        | .error err => (e.1, .returns err)
        | .ok envp =>
          if maxArgs ≤ envp.length then (e.1, .overruns)
          else
            match bufferString r.2.1, argv.mapM bufferString, envp.mapM bufferString with
            | some file, some argv, some envp => (e.1, .calls file argv envp)
            | _, _, _ => (e.1, .overruns)

/-- An array of pointers to strings, with a null pointer behind them. -/
structure ArgArray (g : GuestMem) (addr : Addr) (addrs : List Addr) (strings : List Str) : Prop where
  pointers : ∀ (i : ℕ) (hi : i < (addrs ++ [0]).length),
    g.tlbRead (addr + BitVec.ofNat 32 (4 * i)) 32 = some (addrs ++ [0])[i]
  copies : List.Forall₂ (CopyAt g) addrs strings

section

variable {w w' w'' : World} {m room : ℕ} {addr arg : Addr} {g : GuestMem} {addrs : List Addr}
  {string : Str} {strings : List Str} {buffer buffer' : List Byte} {buffers : List (List Byte)}
  {malloc : ℕ → Buffer}

theorem ArgArray.nil (h : g.tlbRead addr 32 = some 0) : ArgArray g addr [] [] where
  pointers i hi := by
    obtain rfl : i = 0 := Nat.lt_one_iff.mp hi
    rwa [Nat.mul_zero, BitVec.add_zero]
  copies := .nil

theorem ArgArray.cons (h : g.tlbRead addr 32 = some arg) (hcopy : CopyAt g arg string)
    (hrest : ArgArray g (addr + 4) addrs strings) :
    ArgArray g addr (arg :: addrs) (string :: strings) where
  pointers i hi := by
    cases i with
    | zero => rwa [Nat.mul_zero, BitVec.add_zero]
    | succ i =>
      have hnext := hrest.pointers i (Nat.lt_of_succ_lt_succ hi)
      have haddr : addr + BitVec.ofNat 32 (4 * (i + 1)) = addr + 4 + BitVec.ofNat 32 (4 * i) := by
        bv_omega
      rw [haddr]
      exact hnext
  copies := .cons hcopy hrest.copies

/-! Reading changes nothing that can be seen. -/

/-- The second address space is as good as the first, and looks the same. -/
structure Seen (m : ℕ) (w w' : World) : Prop where
  wf : w'.Wf
  unaliased : w'.Unaliased
  view : w'.view m = w.view m

theorem Seen.load (h : Seen m w w') (addr : Addr) : Seen m w (w'.load m addr).1 :=
  ⟨h.wf.load m addr, h.unaliased.memPtr h.wf m addr .read,
    (h.wf.view_memPtr m addr .read m).trans h.view⟩

theorem Seen.userReadAt (h : Seen m w w') (n : ℕ) (addr : Addr) :
    Seen m w (userReadAt m n w' addr).1 ∧ (userReadAt m n w' addr).2 = (w.view m).loads addr n := by
  induction n generalizing w' addr with
  | zero => exact ⟨h, rfl⟩
  | succ n ih =>
    have hload := h.wf.load_view m addr
    rw [h.view] at hload
    rw [Exec.userReadAt, GuestMem.loads, ← hload]
    cases hc : (w'.load m addr).2 with
    | none => exact ⟨h.load addr, rfl⟩
    | some c =>
      obtain ⟨hseen, hrest⟩ := ih (h.load addr) (addr + 1)
      refine ⟨hseen, ?_⟩
      simp only [hrest, Option.bind_eq_bind, Option.bind_some]
      cases (w.view m).loads (addr + 1) n <;> rfl

theorem Seen.userGetAt (h : Seen m w w') (addr : Addr) :
    Seen m w (userGetAt w' m addr).1 ∧ (userGetAt w' m addr).2 = (w.view m).tlbRead addr 32 := by
  obtain ⟨hseen, hread⟩ := h.userReadAt 4 addr
  refine ⟨hseen, ?_⟩
  rw [Exec.userGetAt, GuestMem.tlbRead]
  dsimp only
  rw [hread]

theorem Seen.readStringAt (h : Seen m w w') (addr : Addr) (buffer : List Byte) :
    Seen m w (User.readStringAt w' m addr buffer).1 := by
  induction buffer generalizing w' addr with
  | nil => exact h
  | cons b buffer ih =>
    rw [User.readStringAt]
    cases hc : (w'.load m addr).2 with
    | none => exact h.load addr
    | some c =>
      by_cases hzero : c = 0
      · simp only [if_pos hzero]
        exact h.load addr
      · simp only [if_neg hzero]
        exact ih (h.load addr) (addr + 1)

theorem Seen.userReadStringAt (h : Seen m w w') (addr : Addr) (buffer : List Byte) :
    Seen m w (userReadStringAt w' m addr buffer).1 ∧
      (userReadStringAt w' m addr buffer).2 = userReadString (w.view m) addr buffer := by
  have hread := (userReadStringAt_view h.wf m addr buffer).2
  rw [h.view] at hread
  refine ⟨?_, hread⟩
  rw [User.userReadStringAt]
  split
  · exact h
  · exact h.readStringAt addr buffer

/-! Strings. -/

theorem copyAt_of_buffer (h : userReadString g addr buffer = (buffer', 0))
    (hstring : bufferString buffer' = some string) : CopyAt g addr string ∧ ∀ c ∈ string, c ≠ 0 := by
  obtain ⟨b, post, hbuffer, hmid, hb⟩ := CString.text_eq_some hstring
  have hnul : ∀ c ∈ string, c ≠ 0 := fun c hc ↦ of_decide_eq_false (hmid c hc)
  refine ⟨?_, hnul⟩
  by_cases haddr : addr = 0
  · rw [userReadString, if_pos haddr] at h
    cases h
  rw [userReadString, if_neg haddr] at h
  obtain ⟨str, old, rest, heq, hstr, hholds, -, -⟩ | ⟨hone, -⟩ | ⟨-, -, hmem⟩ :=
    readString_cases g addr buffer
  · obtain rfl : str ++ 0 :: rest = buffer' := congrArg Prod.fst (heq.symm.trans h)
    have hstr' : ∀ c ∈ str, decide (c = 0) = false := fun c hc ↦
      decide_eq_false fun hzero ↦ hstr (hzero ▸ hc)
    have htext : bufferString ([] ++ (str ++ 0 :: rest)) = some str :=
      CString.text_append hstr' (decide_eq_true rfl)
    cases htext.symm.trans hstring
    have hloads := GuestMem.loads_of_holds hholds
    rwa [List.length_append, List.length_singleton] at hloads
  · rw [h] at hone
    cases hone
  · rw [h, hbuffer] at hmem
    have hzero : b = 0 := of_decide_eq_true hb
    exact absurd (List.mem_append_right string (hzero ▸ List.mem_cons_self)) hmem

/-- A turn of the loop that comes to its end without an error. -/
theorem copyArray_cases (h : copyArray malloc m room w addr = (w'', .ok buffers)) :
    (userGetAt w m addr = (w'', some 0) ∧ buffers = []) ∨
      ∃ arg w₁ w₂ room' buffer rest, userGetAt w m addr = (w₁, some arg) ∧ arg ≠ 0 ∧
        room = room' + 1 ∧ userReadStringAt w₁ m arg (malloc room').1 = (w₂, buffer, 0) ∧
        copyArray malloc m room' w₂ (addr + 4) = (w'', .ok rest) ∧ buffers = buffer :: rest := by
  unfold copyArray at h
  cases hget : userGetAt w m addr with
  | mk w₁ r =>
    rw [hget] at h
    cases r with
    | none => cases h
    | some arg =>
      dsimp only at h
      by_cases harg : arg = 0
      · rw [if_pos harg] at h
        cases h
        subst harg
        exact .inl ⟨rfl, rfl⟩
      rw [if_neg harg] at h
      cases room with
      | zero => cases h
      | succ room =>
        dsimp only at h
        cases hread : userReadStringAt w₁ m arg (malloc room).1 with
        | mk w₂ s =>
          obtain ⟨buffer, err⟩ := s
          rw [hread] at h
          dsimp only at h
          by_cases herr : err = 0
          · rw [if_neg (not_not_intro herr)] at h
            subst herr
            cases hrest : copyArray malloc m room w₂ (addr + 4) with
            | mk w₃ rest =>
              rw [hrest] at h
              cases rest with
              | error e => cases h
              | ok rest =>
                cases h
                exact .inr ⟨arg, w₁, w₂, room, buffer, rest, rfl, harg, rfl, hread, hrest, rfl⟩
          · rw [if_pos herr] at h
            cases h

theorem Seen.copyArray_end (h : Seen m w w') (hget : Exec.userGetAt w' m addr = (w'', some 0)) :
    Seen m w w'' ∧ ArgArray (w.view m) addr [] [] := by
  obtain ⟨hseen, hview⟩ := h.userGetAt addr
  rw [hget] at hseen hview
  exact ⟨hseen, .nil hview.symm⟩

/-- The strings of an array that the loop copies without an error, with no null pointer before
the last one. -/
theorem Seen.copyArray (h : Seen m w w')
    (hcopy : copyArray malloc m room w' addr = (w'', .ok buffers))
    (hstrings : buffers.mapM bufferString = some strings) :
    Seen m w w'' ∧ (∀ string ∈ strings, ∀ c ∈ string, c ≠ 0) ∧
      ∃ addrs, 0 ∉ addrs ∧ ArgArray (w.view m) addr addrs strings := by
  induction room generalizing w' addr buffers strings with
  | zero =>
    obtain ⟨hget, rfl⟩ | ⟨arg, w₁, w₂, room, buffer, rest, -, -, hroom, -⟩ := copyArray_cases hcopy
    · cases hstrings
      obtain ⟨hseen, harray⟩ := h.copyArray_end hget
      exact ⟨hseen, fun _ hs ↦ absurd hs List.not_mem_nil, [], List.not_mem_nil, harray⟩
    · cases hroom
  | succ room ih =>
    obtain ⟨hget, rfl⟩ | ⟨arg, w₁, w₂, room, buffer, rest, hget, harg, hroom, hread, hrest, rfl⟩ :=
      copyArray_cases hcopy
    · cases hstrings
      obtain ⟨hseen, harray⟩ := h.copyArray_end hget
      exact ⟨hseen, fun _ hs ↦ absurd hs List.not_mem_nil, [], List.not_mem_nil, harray⟩
    · cases hroom
      obtain ⟨hseen₁, hview⟩ := h.userGetAt addr
      rw [hget] at hseen₁ hview
      obtain ⟨hseen₂, hstring⟩ := hseen₁.userReadStringAt arg (malloc room).1
      rw [hread] at hseen₂ hstring
      rw [List.mapM_cons] at hstrings
      obtain ⟨string, hbuffer, hstrings⟩ := Option.bind_eq_some_iff.mp hstrings
      obtain ⟨strings', hstrings', hcons⟩ := Option.bind_eq_some_iff.mp hstrings
      cases hcons
      obtain ⟨hseen, hnul, addrs, hnonzero, harray⟩ := ih hseen₂ hrest hstrings'
      obtain ⟨hcopyAt, hstringNul⟩ := copyAt_of_buffer hstring.symm hbuffer
      refine ⟨hseen, ?_, arg :: addrs, ?_, .cons hview.symm hcopyAt harray⟩
      · intro s hs
        obtain rfl | hs := List.mem_cons.mp hs
        · exact hstringNul
        · exact hnul s hs
      · intro hzero
        obtain hzero | hzero := List.mem_cons.mp hzero
        · exact harg hzero.symm
        · exact hnonzero hzero

/-- What `sys_execve` is called with is what the arrays hold. -/
theorem enterExecve_calls {buffers : Buffers} {filenameAddr argvAddr envpAddr : Addr}
    {file : Str} {argv envp : List Str} (hw : w.Wf) (hu : w.Unaliased)
    (h : enterExecve buffers w m filenameAddr argvAddr envpAddr = (w', .calls file argv envp)) :
    Seen m w w' ∧ CopyAt (w.view m) filenameAddr file ∧
      (∀ string ∈ argv, ∀ c ∈ string, c ≠ 0) ∧ (∀ string ∈ envp, ∀ c ∈ string, c ≠ 0) ∧
      (∃ addrs, 0 ∉ addrs ∧ ArgArray (w.view m) argvAddr addrs argv) ∧
      ∃ addrs, 0 ∉ addrs ∧ ArgArray (w.view m) envpAddr addrs envp := by
  have hsame : Seen m w w := ⟨hw, hu, rfl⟩
  obtain ⟨hseen₁, hfile⟩ := hsame.userReadStringAt filenameAddr buffers.filename.1
  unfold enterExecve at h
  cases hread : userReadStringAt w m filenameAddr buffers.filename.1 with
  | mk w₁ s =>
    obtain ⟨filename, err⟩ := s
    rw [hread] at h hseen₁ hfile
    dsimp only at h hfile
    by_cases herr : err = 0
    · subst herr
      rw [if_neg (not_not_intro rfl)] at h
      cases ha : copyArray buffers.argv m maxArgs w₁ argvAddr with
      | mk w₂ a =>
        rw [ha] at h
        cases a with
        | error e => cases h
        | ok a =>
          dsimp only at h
          by_cases hargc : maxArgs ≤ a.length
          · rw [if_pos hargc] at h
            cases h
          rw [if_neg hargc] at h
          cases he : copyArray buffers.envp m maxArgs w₂ envpAddr with
          | mk w₃ e =>
            rw [he] at h
            cases e with
            | error e => cases h
            | ok e =>
              dsimp only at h
              by_cases henvc : maxArgs ≤ e.length
              · rw [if_pos henvc] at h
                cases h
              rw [if_neg henvc] at h
              split at h
              · rename_i hfilename hargv henvp
                cases h
                obtain ⟨hseen₂, hargvNul, hargvArray⟩ := hseen₁.copyArray ha hargv
                obtain ⟨hseen₃, henvpNul, henvpArray⟩ := hseen₂.copyArray he henvp
                exact ⟨hseen₃, (copyAt_of_buffer hfile.symm hfilename).1, hargvNul, henvpNul,
                  hargvArray, henvpArray⟩
              · cases h
    · rw [if_pos herr] at h
      cases h

end

/-! The stack of the new image. -/

section

variable {g : GuestMem} {esp : Addr} {argv envp : List Str} {aux : List (ℕ × Dword)}
  {argvAddrs envpAddrs : List Addr}

theorem Starts.argc (h : Starts g esp argv envp aux argvAddrs envpAddrs) :
    g.tlbRead esp 32 = some (BitVec.ofNat 32 argv.length) := by
  have hword := h.words 0 (Nat.zero_lt_succ _)
  rwa [Nat.mul_zero, BitVec.add_zero] at hword

theorem Starts.table (h : Starts g esp argv envp aux argvAddrs envpAddrs) {pre xs post : List Dword}
    (hsplit : stackWords argv.length argvAddrs envpAddrs aux = pre ++ (xs ++ post)) {i : ℕ}
    (hi : i < xs.length) :
    g.tlbRead (esp + BitVec.ofNat 32 (4 * pre.length) + BitVec.ofNat 32 (4 * i)) 32 = some xs[i] := by
  have hlt : pre.length + i < (stackWords argv.length argvAddrs envpAddrs aux).length := by
    rw [hsplit, List.length_append, List.length_append]
    omega
  have hword := h.words (pre.length + i) hlt
  rw [← List.getElem?_eq_getElem, hsplit, List.getElem?_append_right (Nat.le_add_right _ i),
    Nat.add_sub_cancel_left, List.getElem?_append_left hi, List.getElem?_eq_getElem hi] at hword
  rwa [BitVec.add_assoc, ← BitVec.ofNat_add, ← Nat.mul_add]

theorem Starts.argvArray (h : Starts g esp argv envp aux argvAddrs envpAddrs) :
    ArgArray g (esp + 4) argvAddrs argv where
  pointers i hi := by
    have hsplit : stackWords argv.length argvAddrs envpAddrs aux =
        [BitVec.ofNat 32 argv.length] ++ ((argvAddrs ++ [0]) ++ (envpAddrs ++ 0 ::
          aux.flatMap fun ent ↦ [BitVec.ofNat 32 ent.1, ent.2])) := by
      simp [stackWords]
    exact h.table hsplit hi
  copies := h.argvCopies

theorem Starts.envpArray (h : Starts g esp argv envp aux argvAddrs envpAddrs) :
    ArgArray g (esp + 4 + BitVec.ofNat 32 (4 * (argv.length + 1))) envpAddrs envp where
  pointers i hi := by
    have hsplit : stackWords argv.length argvAddrs envpAddrs aux =
        (BitVec.ofNat 32 argv.length :: (argvAddrs ++ [0])) ++ ((envpAddrs ++ [0]) ++
          aux.flatMap fun ent ↦ [BitVec.ofNat 32 ent.1, ent.2]) := by
      simp [stackWords]
    have hword := h.table hsplit hi
    have haddr : esp + BitVec.ofNat 32
        (4 * (BitVec.ofNat 32 argv.length :: (argvAddrs ++ [0])).length) =
        esp + 4 + BitVec.ofNat 32 (4 * (argv.length + 1)) := by
      rw [List.length_cons, List.length_append, List.length_singleton, h.argvCopies.length_eq,
        BitVec.add_assoc]
      congr 1
      rw [Nat.mul_succ, Nat.add_comm, BitVec.ofNat_add]
      rfl
    rwa [haddr] at hword
  copies := h.envpCopies

end

/-- The program that `execve` starts finds the strings that the caller's arrays hold, as many of
them and in the same order. -/
theorem execve_passes {σ : Type} {host : Host σ} {s s' : σ} {t t' : Task} {w : World}
    {buffers : Buffers} {filenameAddr argvAddr envpAddr esp eip : Addr} {vdsoEntryPoint : Dword}
    {file : Str} {argv envp : List Str}
    (hreach : Run.Reaches World.step (fun _ op ↦ op.InPlace) World.init t.world)
    (hunset : t.cpu = none)
    (henter : enterExecve buffers t.world t.mem filenameAddr argvAddr envpAddr =
      (w, .calls file argv envp))
    (hrun : (elfExec vdsoEntryPoint file argv envp).run host.machine (s, { t with world := w }) =
      some (0, (s', t')))
    (hset : t'.cpu = some (esp, eip)) (hlost : t'.lost = false)
    (hfits : Fits t'.world t'.mem file argv envp) :
    CopyAt (t.world.view t.mem) filenameAddr file ∧
      (∃ addrs, 0 ∉ addrs ∧ ArgArray (t.world.view t.mem) argvAddr addrs argv) ∧
      (∃ addrs, 0 ∉ addrs ∧ ArgArray (t.world.view t.mem) envpAddr addrs envp) ∧
      (t'.world.view t'.mem).tlbRead esp 32 = some (BitVec.ofNat 32 argv.length) ∧
      (∃ addrs, ArgArray (t'.world.view t'.mem) (esp + 4) addrs argv) ∧
      ∃ addrs, ArgArray (t'.world.view t'.mem)
        (esp + 4 + BitVec.ofNat 32 (4 * (argv.length + 1))) addrs envp := by
  obtain ⟨hseen, hfile, hargvNul, henvpNul, hargv, henvp⟩ := enterExecve_calls
    (World.wf_of_reaches (hreach.mono fun _ _ _ ↦ trivial)) (World.unaliased_of_reaches hreach) henter
  have hidle : Idle { t with world := w } := ⟨hunset, hseen.wf, hseen.unaliased⟩
  have hstarted := elfExec_triple vdsoEntryPoint file hargvNul henvpNul _ hidle 0 (s', t') hrun
  obtain ⟨header, image, loadAddr, copied, argvAddrs, envpAddrs, hstarts⟩ :=
    hstarted hlost hfits esp eip hset
  exact ⟨hfile, hargv, henvp, hstarts.argc, ⟨argvAddrs, hstarts.argvArray⟩,
    ⟨envpAddrs, hstarts.envpArray⟩⟩

/-- A page with the string "a", an array of it, and an array of an empty string. -/
def argPage (i : ℤ) : Byte :=
  if i = 0 then 0x61 else if i = 0x11 ∨ i = 0x21 then 0x10 else if i = 0x20 then 0x30 else 0

def callerTask : Task := { bareTask with world := (bareTask.world.ptMapFresh 0 1 1 argPage 0).1 }

def zeroBuffer : Buffer := ⟨List.replicate maxPath 0, List.length_replicate⟩

def zeroBuffers : Buffers := ⟨zeroBuffer, fun _ ↦ zeroBuffer, fun _ ↦ zeroBuffer⟩

theorem callerTask_reaches :
    Run.Reaches World.step (fun _ op ↦ op.InPlace) World.init callerTask.world :=
  .next (a := .map 0 1 1 argPage 0) bareTask_reaches trivial rfl

theorem callerTask_enters : ∃ w : World,
    enterExecve zeroBuffers callerTask.world callerTask.mem 0x1000 0x1010 0x1020 =
      (w, .calls [0x61] [[0x61]] [[]]) := by
  have hsnd : (enterExecve zeroBuffers callerTask.world callerTask.mem 0x1000 0x1010 0x1020).2 =
      .calls [0x61] [[0x61]] [[]] := by
    decide +kernel
  exact ⟨_, Prod.ext rfl hsnd⟩

theorem execve_passes_bare : ∃ w : World, ∃ esp : Addr, ∃ t : Task,
    enterExecve zeroBuffers callerTask.world callerTask.mem 0x1000 0x1010 0x1020 =
      (w, .calls [0x61] [[0x61]] [[]]) ∧
    (elfExec 0 [0x61] [[0x61]] [[]]).run bareHost.machine ((), { callerTask with world := w }) =
      some (0, ((), t)) ∧
    (t.world.view t.mem).tlbRead esp 32 = some 1 ∧
    (∃ addrs, ArgArray (t.world.view t.mem) (esp + 4) addrs [[0x61]]) ∧
    ∃ addrs, ArgArray (t.world.view t.mem) (esp + 4 + 8) addrs [[]] := by
  obtain ⟨w, henter⟩ := callerTask_enters
  have hseen := (enterExecve_calls (World.wf_of_reaches (callerTask_reaches.mono fun _ _ _ ↦ trivial))
    (World.unaliased_of_reaches callerTask_reaches) henter).1
  have hidle : Idle { callerTask with world := w } := ⟨rfl, hseen.wf, hseen.unaliased⟩
  obtain ⟨r, ⟨⟨⟩, t⟩, hrun, rfl, hlost, hcpu, hfits⟩ := elfExec_idle hidle rfl
  obtain ⟨⟨esp, eip⟩, hset⟩ := Option.isSome_iff_exists.mp hcpu
  obtain ⟨-, -, -, hargc, hargv, henvp⟩ :=
    execve_passes callerTask_reaches rfl henter hrun hset hlost hfits
  exact ⟨w, esp, t, henter, hrun, hargc, hargv, henvp⟩

end Isl.Kernel.Exec
