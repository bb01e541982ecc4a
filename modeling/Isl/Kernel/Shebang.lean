import Isl.Lib.CString
import Isl.Util.Bits

/-!
`shebang_exec` of `kernel/exec.c`, up to its call of `format_exec`. The header is
a buffer of 128 bytes that is cut into strings in place, and an array of arguments
ends with a null pointer.
-/

namespace Isl.Kernel.Shebang

open Isl.Lib.CString Isl.Util

abbrev Byte := BitVec 8
abbrev Str := List Byte

def eio : ℤ := -5
def enoexec : ℤ := -8

def space : Byte := 32
def newline : Byte := 10
def hash : Byte := 35
def bang : Byte := 33

/-- The results of `lseek` and `read`, and of `generic_open`. -/
structure Env (F : Type) where
  lseek : ℤ
  read : ℕ → Except ℤ Str
  genericOpen : Str → Except ℤ F

/-- `format_exec` is called with a file, its name and an array of arguments, and
what it returns is returned. -/
inductive Outcome (F : Type)
  | returned (err : ℤ)
  | executes (fd : F) (file : Str) (argv : List (Option Str))
deriving DecidableEq

abbrev Args := List (Option Str)

/-- `strchr`, null where the terminator comes first. -/
def strchr (buf : List Byte) (p : ℕ) (c : Byte) : Option (Option ℕ) := do
  let q ← scanFrom (fun b ↦ b == c || b == 0) buf p
  let b ← buf[q]?
  some (if b = c then some q else none)

def countArgs (args : Args) : Option ℕ := scanFrom Option.isNone args 0

/-- The strings up to the null pointer. -/
def arguments (args : Args) : Option (List Str) := (text Option.isNone args 0).map List.reduceOption

/-- Where the parts of the first line are, and the buffer with their ends marked. -/
structure Parts where
  interpreter : ℕ
  argument : ℕ
  buf : List Byte

/-- The line from `p` on, after `#!`. Nothing but spaces gives no parts. -/
def splitLine (buf : List Byte) (p : ℕ) : Option (Option Parts) := do
  let p ← scanFrom (· != space) buf p
  if buf[p]? = some 0 then some none
  else
    let interpreter := p
    let p ← scanFrom (fun b ↦ b == space || b == 0) buf p
    let b ← buf[p]?
    let (buf, p) ←
      if b ≠ 0 then
        let buf := buf.set p 0
        (scanFrom (· != space) buf (p + 1)).map (buf, ·)
      else some (buf, p)
    let argument := p
    let q ← scanFrom (· == 0) buf p
    let buf ← replaceBack (· == space) 0 (q - 1) buf
    some (some ⟨interpreter, argument, buf⟩)

/-- The array `real_argv`, of `count_args(argv) + args_extra` elements. -/
def realArgv (interpreter argument file : Str) (argv : Args) : Option Args := do
  let extra := if argument = [] then 2 else 3
  let count ← countArgs argv
  let args : Args := List.replicate (count + extra) none
  let args := args.set 0 (some interpreter)
  let args := if argument = [] then args else args.set 1 (some argument)
  let args := args.set (extra - 1) (some file)
  let rest ← memcpy (args.drop extra) (argv.drop 1) count
  some (args.take extra ++ rest)

/-- The end of the function. The error of `generic_open` is used like a file. -/
def execParts {F : Type} (env : Env F) (parts : Parts) (file : Str) (argv : Args) :
    Option (Outcome F) := do
  let interpreter ← text (· == 0) parts.buf parts.interpreter
  let argument ← text (· == 0) parts.buf parts.argument
  let args ← realArgv interpreter argument file argv
  match env.genericOpen interpreter with
  | .error _ => none
  | .ok fd => some (.executes fd interpreter args)

/-- The function after the header was read. -/
def execHeader {F : Type} (env : Env F) (header : List Byte) (file : Str) (argv : Args) :
    Option (Outcome F) := do
  match ← strchr header 0 newline with
  | none => some (.returned enoexec)
  | some q => do
    let header := header.set q 0
    if header[0]? ≠ some hash ∨ header[1]? ≠ some bang then some (.returned enoexec)
    else
      match ← splitLine header 2 with
      | none => some (.returned enoexec)
      | some parts => execParts env parts file argv

/-- A read or write outside of the arrays, or through the error that stands for a
file, has no result. `header` is the buffer before it is filled. -/
def shebangExec {F : Type} (env : Env F) (header : List Byte) (file : Str) (argv : Args) :
    Option (Outcome F) := do
  if env.lseek ≠ 0 then some (.returned eio)
  else
    match env.read 127 with
    | .error _ => some (.returned eio)
    | .ok bytes => do
      let header ← memcpy header bytes bytes.length
      execHeader env (header.set bytes.length 0) file argv

/-! What the first line says. -/

/-- The first line, in the first 127 bytes and with no zero in it. -/
def firstLine (content : Str) : Option Str :=
  let start := content.take 127
  let line := start.takeWhile (· != newline)
  if line.length < start.length ∧ 0 ∉ line then some line else none

/-- `#![spaces]interpreter[spaces]argument[spaces]` -/
def parseLine (line : Str) : Option (Str × Str) :=
  if line.take 2 = [hash, bang] then
    let body := (line.drop 2).dropWhile (· == space)
    if body = [] then none
    else
      let rest := body.dropWhile (· != space)
      some (body.takeWhile (· != space), (rest.dropWhile (· == space)).rdropWhile (· == space))
  else none

def shebang (content : Str) : Option (Str × Str) := (firstLine content).bind parseLine

/-- The interpreter is executed with the arguments that the line and the caller
give, and every other file is left alone. -/
def Behaves {F : Type} (env : Env F) (content file : Str) (argv : List Str)
    (out : Option (Outcome F)) : Prop :=
  match shebang content with
  | none => out = some (.returned enoexec)
  | some (interpreter, argument) =>
    ∃ fd args, env.genericOpen interpreter = .ok fd ∧
      out = some (.executes fd interpreter args) ∧
      arguments args = some (interpreter :: (if argument = [] then [] else [argument]) ++
        file :: argv.tail)

variable {F : Type} {env : Env F} {content file interpreter argument line body rest header : Str}
  {argv : List Str}

theorem firstLine_eq_some : firstLine content = some line ↔
    ∃ post, content.take 127 = line ++ newline :: post ∧ newline ∉ line ∧ 0 ∉ line := by
  unfold firstLine
  dsimp only
  generalize content.take 127 = start
  rw [Option.ite_none_right_eq_some, Option.some.injEq]
  constructor
  · rintro ⟨⟨hlt, hzero⟩, rfl⟩
    have happ := List.takeWhile_append_dropWhile (p := (· != newline)) (l := start)
    cases hdrop : start.dropWhile (· != newline) with
    | nil =>
      rw [hdrop, List.append_nil] at happ
      rw [happ] at hlt
      exact absurd hlt (Nat.lt_irrefl _)
    | cons b post =>
      have hb : b = newline := by
        have hhead := List.head_dropWhile_not (· != newline) (l := start) (by simp [hdrop])
        simpa [hdrop] using hhead
      refine ⟨post, ?_, fun hmem ↦ ?_, hzero⟩
      · rw [hdrop, hb] at happ
        exact happ.symm
      · simpa using List.mem_takeWhile_imp hmem
  · rintro ⟨post, rfl, hline, hzero⟩
    have htake : (line ++ newline :: post).takeWhile (· != newline) = line := by
      rw [List.takeWhile_append_of_pos fun b hb ↦ by simpa using ne_of_mem_of_not_mem hb hline]
      simp
    rw [htake]
    exact ⟨⟨by simp, hzero⟩, rfl⟩

/-! The header. -/

theorem strchr_append {pre mid post : List Byte} {b c : Byte}
    (hmid : ∀ x ∈ mid, x ≠ c ∧ x ≠ 0) (hb : b = c ∨ b = 0) :
    strchr (pre ++ (mid ++ b :: post)) pre.length c =
      some (if b = c then some (pre.length + mid.length) else none) := by
  have hstop : ∀ x ∈ mid, (x == c || x == 0) = false := fun x hx ↦ by simpa using hmid x hx
  have hget : (pre ++ (mid ++ b :: post))[pre.length + mid.length]? = some b := by
    rw [← List.append_assoc, ← List.length_append]
    exact getElem?_length _ post b
  have hscan : scanFrom (fun x ↦ x == c || x == 0) (pre ++ (mid ++ b :: post)) pre.length =
      some (pre.length + mid.length) := scanFrom_append hstop (by simpa using hb)
  rw [strchr, hscan, Option.bind_eq_bind, Option.bind_some, hget]
  rfl

/-- Where `strchr` finds the end of the first line. -/
theorem strchr_firstLine (h : firstLine content = some line) (post : List Byte) :
    ∃ rest, content.take 127 ++ 0 :: post = line ++ newline :: rest ∧
      strchr (content.take 127 ++ 0 :: post) 0 newline = some (some line.length) := by
  obtain ⟨rest, hstart, hline, hzero⟩ := firstLine_eq_some.mp h
  have hbuf : content.take 127 ++ 0 :: post = line ++ newline :: (rest ++ 0 :: post) := by
    rw [hstart, List.append_assoc, List.cons_append]
  have hstr := @strchr_append [] line (rest ++ 0 :: post) newline newline
    (fun x hx ↦ ⟨ne_of_mem_of_not_mem hx hline, ne_of_mem_of_not_mem hx hzero⟩) (.inl rfl)
  refine ⟨rest ++ 0 :: post, hbuf, ?_⟩
  rw [hbuf]
  simpa using hstr

theorem strchr_none (h : firstLine content = none) (post : List Byte) :
    strchr (content.take 127 ++ 0 :: post) 0 newline = some none := by
  obtain ⟨mid, b, after, hbuf, hmid, hb⟩ :=
    @exists_stop _ (fun b ↦ b == newline || b == 0) (content.take 127 ++ 0 :: post)
      ⟨0, by simp, rfl⟩
  have hmid : ∀ x ∈ mid, x ≠ newline ∧ x ≠ 0 := fun x hx ↦ by simpa using hmid x hx
  have hb : b = newline ∨ b = 0 := by simpa using hb
  have hne : b ≠ newline := by
    rintro rfl
    -- the line would end before the terminator
    have hline : newline ∉ mid := fun hmem ↦ (hmid newline hmem).1 rfl
    have hzero : 0 ∉ mid := fun hmem ↦ (hmid 0 hmem).2 rfl
    obtain ⟨a, rfl, ha⟩ | ⟨c, hc, hafter⟩ := List.append_eq_append_iff.mp hbuf
    · cases a with
      | nil => cases ha
      | cons x a =>
        cases ha
        exact hzero (by simp)
    · cases c with
      | nil => cases hafter
      | cons x c =>
        cases hafter
        have hsome := firstLine_eq_some.mpr ⟨c, hc, hline, hzero⟩
        rw [h] at hsome
        cases hsome
  have hstr := @strchr_append [] mid after b newline hmid hb
  rw [hbuf]
  simpa [hne] using hstr

/-! The parts of the line. -/

/-- A line that has an interpreter: the spaces before it, those after it, the
argument and the spaces after that one. -/
theorem body_cases (body : Str) :
    (∀ x ∈ body, x = space) ∨
    ∃ spaces name, (∀ x ∈ spaces, x = space) ∧ name ≠ [] ∧ space ∉ name ∧
      (body = spaces ++ name ∨
        ∃ spaces₂ text, body = spaces ++ name ++ space :: (spaces₂ ++ text) ∧
          (∀ x ∈ spaces₂, x = space) ∧ ∀ x ∈ text.head?, x ≠ space) := by
  by_cases hblank : ∀ x ∈ body, x = space
  · exact .inl hblank
  have hex : ∃ x ∈ body, (x != space) := by simpa using hblank
  obtain ⟨spaces, c, post, rfl, hspaces, hc⟩ := exists_stop hex
  have hspaces : ∀ x ∈ spaces, x = space := fun x hx ↦ by simpa using hspaces x hx
  by_cases hname : space ∈ c :: post
  · obtain ⟨name, b, after, heq, hname, hb⟩ := @exists_stop _ (· == space) _
      ⟨space, hname, beq_self_eq_true space⟩
    obtain rfl : b = space := by simpa using hb
    have hno : space ∉ name := fun hmem ↦ by simpa using hname space hmem
    have hne : name ≠ [] := by
      rintro rfl
      cases heq
      simp at hc
    refine .inr ⟨spaces, name, hspaces, hne, hno, .inr ⟨after.takeWhile (· == space),
      after.dropWhile (· == space), ?_, fun x hx ↦ ?_, fun x hx ↦ ?_⟩⟩
    · rw [List.takeWhile_append_dropWhile, heq, List.append_assoc]
    · simpa using List.mem_takeWhile_imp hx
    · have hhead := List.head?_dropWhile_not (· == space) after
      rw [Option.mem_def.mp hx] at hhead
      simpa using hhead
  · exact .inr ⟨spaces, c :: post, hspaces, List.cons_ne_nil c post, hname, .inl rfl⟩

variable {pre spaces spaces₂ name post text₂ : Str}

theorem dropWhile_space (hspaces : ∀ x ∈ spaces, x = space) (hpost : ∀ x ∈ post.head?, x ≠ space) :
    (spaces ++ post).dropWhile (· == space) = post := by
  rw [List.dropWhile_append_of_pos fun x hx ↦ by simpa using hspaces x hx]
  cases post with
  | nil => rfl
  | cons b post => exact List.dropWhile_cons_of_neg (by simpa using hpost b rfl)

theorem head?_ne_space (hne : name ≠ []) (hno : space ∉ name) (post : Str) :
    ∀ x ∈ (name ++ post).head?, x ≠ space := by
  cases name with
  | nil => exact absurd rfl hne
  | cons b name =>
    rintro x ⟨⟩
    exact fun h ↦ hno (h ▸ List.mem_cons_self)

theorem parseLine_cons (body : Str) :
    parseLine (hash :: bang :: body) =
      if body.dropWhile (· == space) = [] then none
      else some ((body.dropWhile (· == space)).takeWhile (· != space),
        (((body.dropWhile (· == space)).dropWhile (· != space)).dropWhile (· == space)).rdropWhile
          (· == space)) := if_pos rfl

theorem parse_blank (hbody : ∀ x ∈ body, x = space) : parseLine (hash :: bang :: body) = none := by
  have hdrop := @dropWhile_space body [] hbody nofun
  rw [List.append_nil] at hdrop
  rw [parseLine_cons, if_pos hdrop]

theorem parse_name (hspaces : ∀ x ∈ spaces, x = space) (hne : name ≠ []) (hno : space ∉ name) :
    parseLine (hash :: bang :: (spaces ++ name)) = some (name, []) := by
  have hhead := head?_ne_space hne hno []
  rw [List.append_nil] at hhead
  have hnot : ∀ x ∈ name, (x != space) := fun x hx ↦ by simpa using ne_of_mem_of_not_mem hx hno
  have hdrop := dropWhile_space hspaces hhead
  rw [parseLine_cons, hdrop, if_neg hne, List.takeWhile_eq_self_iff.mpr hnot, List.dropWhile_eq_nil_iff.mpr hnot]
  rfl

theorem parse_argument (hspaces : ∀ x ∈ spaces, x = space) (hne : name ≠ []) (hno : space ∉ name)
    (hspaces₂ : ∀ x ∈ spaces₂, x = space) (htext : ∀ x ∈ text₂.head?, x ≠ space) :
    parseLine (hash :: bang :: (spaces ++ name ++ space :: (spaces₂ ++ text₂))) =
      some (name, text₂.rdropWhile (· == space)) := by
  have hnot : ∀ x ∈ name, (x != space) := fun x hx ↦ by simpa using ne_of_mem_of_not_mem hx hno
  have hdrop := dropWhile_space hspaces (head?_ne_space hne hno (space :: (spaces₂ ++ text₂)))
  have htake : (name ++ space :: (spaces₂ ++ text₂)).takeWhile (· != space) = name := by
    rw [List.takeWhile_append_of_pos hnot]
    simp
  have hrest : (name ++ space :: (spaces₂ ++ text₂)).dropWhile (· != space) =
      space :: (spaces₂ ++ text₂) := by
    rw [List.dropWhile_append_of_pos hnot]
    simp
  have hdrop₂ : (space :: (spaces₂ ++ text₂)).dropWhile (· == space) = text₂ :=
    @dropWhile_space (space :: spaces₂) text₂
      (fun x hx ↦ (List.mem_cons.mp hx).elim id (hspaces₂ x)) htext
  rw [parseLine_cons, List.append_assoc, hdrop, if_neg (by simp [hne]), htake, hrest, hdrop₂]

/-! The same parts in the buffer. -/

/-- The end of `splitLine`, with the walks over the buffer done. -/
def PartsAre (out : Option (Option Parts)) (name argument : Str) : Prop :=
  ∃ parts, out = some (some parts) ∧ text (· == 0) parts.buf parts.interpreter = some name ∧
    text (· == 0) parts.buf parts.argument = some argument

theorem splitLine_blank (hbody : ∀ x ∈ body, x = space) (pre post : Str) :
    splitLine (pre ++ (body ++ 0 :: post)) pre.length = some none := by
  have hscan : scanFrom (· != space) (pre ++ (body ++ 0 :: post)) pre.length =
      some (pre.length + body.length) :=
    scanFrom_append (fun x hx ↦ by simpa using hbody x hx) rfl
  have hget : (pre ++ (body ++ 0 :: post))[pre.length + body.length]? = some 0 := by
    rw [← List.append_assoc, ← List.length_append]
    exact getElem?_length _ post 0
  rw [splitLine, hscan, Option.bind_eq_bind, Option.bind_some, if_pos hget]

/-- The walks over the spaces and over the name of the interpreter. -/
theorem splitLine_scans (hspaces : ∀ x ∈ spaces, x = space) (hne : name ≠ []) (hno : space ∉ name)
    (hzero : 0 ∉ name) {b : Byte} (hb : b = space ∨ b = 0) {buf : List Byte}
    (hbuf : buf = pre ++ spaces ++ (name ++ b :: post)) :
    scanFrom (· != space) buf pre.length = some (pre ++ spaces).length ∧
    buf[(pre ++ spaces).length]? ≠ some 0 ∧
    scanFrom (fun b ↦ b == space || b == 0) buf (pre ++ spaces).length =
      some (pre ++ spaces ++ name).length ∧
    buf[(pre ++ spaces ++ name).length]? = some b := by
  obtain ⟨c, rest, rfl⟩ := List.exists_cons_of_ne_nil hne
  have hc : c ≠ space := fun h ↦ hno (h ▸ List.mem_cons_self)
  subst hbuf
  refine ⟨?_, ?_, ?_, ?_⟩
  · rw [List.append_assoc pre, List.length_append]
    exact scanFrom_append (fun x hx ↦ by simpa using hspaces x hx) (by simpa using hc)
  · rw [List.cons_append, getElem?_length]
    rintro ⟨⟩
    exact hzero List.mem_cons_self
  · have hlen : (pre ++ spaces ++ (c :: rest)).length = (pre ++ spaces).length + (c :: rest).length :=
      List.length_append
    rw [hlen]
    refine scanFrom_append (fun x hx ↦ ?_) (by simpa using hb)
    simpa using ⟨ne_of_mem_of_not_mem hx hno, ne_of_mem_of_not_mem hx hzero⟩
  · rw [← List.append_assoc]
    exact getElem?_length _ post b

theorem splitLine_name (hspaces : ∀ x ∈ spaces, x = space) (hne : name ≠ []) (hno : space ∉ name)
    (hzero : 0 ∉ name) (pre post : Str) :
    PartsAre (splitLine (pre ++ (spaces ++ name ++ 0 :: post)) pre.length) name [] := by
  generalize hbuf : pre ++ (spaces ++ name ++ 0 :: post) = buf
  have hbuf : buf = pre ++ spaces ++ (name ++ 0 :: post) := by
    rw [← hbuf]
    simp only [List.append_assoc]
  have hbuf₂ : buf = pre ++ spaces ++ name ++ ([] ++ 0 :: post) := by
    rw [hbuf]
    simp only [List.append_assoc, List.nil_append]
  obtain ⟨hskip, hfirst, hword, hstop⟩ := splitLine_scans hspaces hne hno hzero (.inr rfl) hbuf
  have hend : scanFrom (· == 0) buf (pre ++ spaces ++ name).length =
      some (pre ++ spaces ++ name).length := by
    rw [hbuf₂]
    exact scanFrom_append nofun rfl
  have hback : replaceBack (· == space) 0 ((pre ++ spaces ++ name).length - 1) buf = some buf := by
    obtain ⟨front, c, rfl⟩ := (List.eq_nil_or_concat' name).resolve_left hne
    have hc : (c == space) = false := by
      simpa using fun h : c = space ↦ hno (h ▸ List.mem_append_right front List.mem_cons_self)
    have hlen : (pre ++ spaces ++ (front ++ [c])).length - 1 = (pre ++ spaces ++ front).length := by
      simp only [List.length_append, List.length_singleton]
      omega
    refine replaceBack_stop ?_ hc
    rw [hlen, hbuf, List.append_assoc front, ← List.append_assoc]
    exact getElem?_length _ _ c
  refine ⟨⟨(pre ++ spaces).length, (pre ++ spaces ++ name).length, buf⟩, ?_, ?_, ?_⟩
  · rw [splitLine, hskip, Option.bind_eq_bind, Option.bind_some, if_neg hfirst, hword]
    dsimp only [Option.bind_eq_bind, Option.bind_some]
    rw [hstop]
    dsimp only [Option.bind_some]
    rw [if_neg (not_not.mpr rfl), hend]
    dsimp only [Option.bind_some]
    rw [hback]
    rfl
  · rw [hbuf]
    exact text_append (fun x hx ↦ by simpa using ne_of_mem_of_not_mem hx hzero) rfl
  · rw [hbuf₂]
    exact text_append nofun rfl

/-- The walk back over the spaces at the end, or over those before it if there is no
argument. -/
theorem strip_argument (hspaces₂ : ∀ x ∈ spaces₂, x = space) (htext : ∀ x ∈ text₂.head?, x ≠ space)
    (pre post : Str) :
    ∃ front back, (pre ++ 0 :: spaces₂).length = (pre ++ 0 :: front).length ∧
      replaceBack (· == space) 0 ((pre ++ 0 :: spaces₂ ++ text₂).length - 1)
        (pre ++ 0 :: spaces₂ ++ (text₂ ++ 0 :: post)) =
        some (pre ++ 0 :: front ++ (text₂.rdropWhile (· == space) ++ 0 :: back)) := by
  by_cases hnil : text₂ = []
  · subst hnil
    have hback := @replaceBack_append _ (· == space) pre spaces₂ (0 :: post) (0 : Byte) 0 rfl
      spaces₂.length rfl fun x hx ↦ by simpa using hspaces₂ x hx
    refine ⟨List.replicate spaces₂.length 0, post, by simp, ?_⟩
    have hlen : (pre ++ 0 :: spaces₂ ++ ([] : Str)).length - 1 = pre.length + spaces₂.length := by
      simp only [List.append_nil, List.length_append, List.length_cons]
      omega
    rw [hlen, List.append_assoc, List.cons_append, List.nil_append, hback, List.rdropWhile_nil,
      List.nil_append, List.append_assoc, List.cons_append]
  · -- the argument ends with another character
    have hsplit := List.rdropWhile_append_rtakeWhile (p := (· == space)) (l := text₂)
    have hkept : text₂.rdropWhile (· == space) ≠ [] := by
      intro hall
      obtain ⟨c, rest, rfl⟩ := List.exists_cons_of_ne_nil hnil
      have hc := List.rdropWhile_eq_nil_iff.mp hall c List.mem_cons_self
      exact htext c rfl (by simpa using hc)
    have hlast := List.rdropWhile_last_not _ _ hkept
    obtain ⟨front, c, heq⟩ := (List.eq_nil_or_concat' (text₂.rdropWhile (· == space))).resolve_left
      hkept
    simp only [heq, List.getLast_append_singleton] at hlast
    have hc : (c == space) = false := Bool.eq_false_iff.mpr hlast
    generalize htail : text₂.rtakeWhile (· == space) = tail at hsplit
    have hspaces : ∀ x ∈ tail, (x == space) := by
      intro x hx
      rw [← htail] at hx
      exact List.mem_rtakeWhile_imp (p := (· == space)) hx
    have hback := @replaceBack_append _ (· == space) (pre ++ 0 :: spaces₂ ++ front) tail (0 :: post)
      0 c hc tail.length rfl hspaces
    have hlen : (pre ++ 0 :: spaces₂ ++ text₂).length - 1 =
        (pre ++ 0 :: spaces₂ ++ front).length + tail.length := by
      rw [← hsplit, heq]
      simp only [List.length_append, List.length_cons, List.length_nil]
      omega
    have hbuf : pre ++ 0 :: spaces₂ ++ (text₂ ++ 0 :: post) =
        pre ++ 0 :: spaces₂ ++ front ++ c :: (tail ++ 0 :: post) := by
      rw [← hsplit, heq]
      simp only [List.append_assoc, List.cons_append, List.nil_append]
    have hzeros : List.replicate tail.length (0 : Byte) ++ 0 :: post =
        0 :: (List.replicate tail.length 0 ++ post) := by
      rw [List.append_cons, ← List.replicate_succ', List.replicate_succ, List.cons_append]
    refine ⟨spaces₂, List.replicate tail.length 0 ++ post, rfl, ?_⟩
    rw [hlen, hbuf, hback, hzeros, heq]
    simp only [List.append_assoc, List.cons_append, List.nil_append]

theorem splitLine_argument (hspaces : ∀ x ∈ spaces, x = space) (hne : name ≠ [])
    (hno : space ∉ name) (hzero : 0 ∉ name) (hspaces₂ : ∀ x ∈ spaces₂, x = space)
    (htext : ∀ x ∈ text₂.head?, x ≠ space) (hzero₂ : 0 ∉ text₂) (pre post : Str) :
    PartsAre (splitLine (pre ++ (spaces ++ name ++ space :: (spaces₂ ++ text₂) ++ 0 :: post))
      pre.length) name (text₂.rdropWhile (· == space)) := by
  generalize hbuf : pre ++ (spaces ++ name ++ space :: (spaces₂ ++ text₂) ++ 0 :: post) = buf
  have hbuf : buf = pre ++ spaces ++ (name ++ space :: (spaces₂ ++ (text₂ ++ 0 :: post))) := by
    rw [← hbuf]
    simp only [List.append_assoc, List.cons_append]
  obtain ⟨hskip, hfirst, hword, hstop⟩ := splitLine_scans hspaces hne hno hzero (.inl rfl) hbuf
  have hset : buf.set (pre ++ spaces ++ name).length 0 =
      pre ++ spaces ++ name ++ 0 :: (spaces₂ ++ (text₂ ++ 0 :: post)) := by
    rw [hbuf, ← List.append_assoc]
    exact set_length _ _ 0 space
  have hassoc (l : Str) : pre ++ spaces ++ name ++ 0 :: (spaces₂ ++ l) =
      pre ++ spaces ++ name ++ 0 :: spaces₂ ++ l := by
    rw [List.append_assoc _ (0 :: spaces₂), List.cons_append]
  have hnext : ∃ c rest, text₂ ++ 0 :: post = c :: rest ∧ c ≠ space := by
    cases text₂ with
    | nil => exact ⟨0, post, rfl, by decide⟩
    | cons c rest => exact ⟨c, rest ++ 0 :: post, rfl, htext c rfl⟩
  have hskip₂ : scanFrom (· != space)
      (pre ++ spaces ++ name ++ 0 :: (spaces₂ ++ (text₂ ++ 0 :: post)))
      ((pre ++ spaces ++ name).length + 1) =
      some (pre ++ spaces ++ name ++ 0 :: spaces₂).length := by
    obtain ⟨c, rest, hcons, hc⟩ := hnext
    have hskip := @scanFrom_append _ (· != space) (pre ++ spaces ++ name ++ [0]) spaces₂ rest c
      (fun x hx ↦ by simpa using hspaces₂ x hx) (by simpa using hc)
    have hstart : (pre ++ spaces ++ name ++ [0]).length = (pre ++ spaces ++ name).length + 1 :=
      List.length_append
    have hstop : (pre ++ spaces ++ name ++ 0 :: spaces₂).length =
        (pre ++ spaces ++ name).length + (spaces₂.length + 1) := List.length_append
    rw [hstart, Nat.add_assoc, Nat.add_comm 1] at hskip
    rw [hcons, List.append_cons _ 0, hskip, hstop]
  have hend : scanFrom (· == 0) (pre ++ spaces ++ name ++ 0 :: (spaces₂ ++ (text₂ ++ 0 :: post)))
      (pre ++ spaces ++ name ++ 0 :: spaces₂).length =
      some (pre ++ spaces ++ name ++ 0 :: spaces₂ ++ text₂).length := by
    have hend := @scanFrom_append _ (· == 0) (pre ++ spaces ++ name ++ 0 :: spaces₂) text₂ post 0
      (fun x hx ↦ by simpa using ne_of_mem_of_not_mem hx hzero₂) rfl
    rw [← List.length_append] at hend
    rw [hassoc]
    exact hend
  obtain ⟨front, back, hfront, hback⟩ := strip_argument hspaces₂ htext (pre ++ spaces ++ name) post
  have hkept : 0 ∉ text₂.rdropWhile (· == space) :=
    fun hmem ↦ hzero₂ ((List.rdropWhile_prefix _ _).subset hmem)
  refine ⟨⟨(pre ++ spaces).length, (pre ++ spaces ++ name ++ 0 :: spaces₂).length,
    pre ++ spaces ++ name ++ 0 :: front ++ (text₂.rdropWhile (· == space) ++ 0 :: back)⟩,
    ?_, ?_, ?_⟩
  · rw [splitLine, hskip, Option.bind_eq_bind, Option.bind_some, if_neg hfirst, hword]
    dsimp only [Option.bind_eq_bind, Option.bind_some]
    rw [hstop]
    dsimp only [Option.bind_some]
    rw [if_pos (by decide), hset, hskip₂]
    dsimp only [Option.map_some, Option.bind_some]
    rw [hend]
    dsimp only [Option.bind_some]
    rw [hassoc, hback]
    rfl
  · dsimp only
    rw [List.append_assoc _ (0 :: front), List.append_assoc _ name]
    exact text_append (fun x hx ↦ by simpa using ne_of_mem_of_not_mem hx hzero) rfl
  · dsimp only
    rw [hfront]
    exact text_append (fun x hx ↦ by simpa using ne_of_mem_of_not_mem hx hkept) rfl

/-! The arguments. -/

theorem arguments_append (args : List Str) (post : Args) :
    arguments (args.map some ++ none :: post) = some args := by
  have htext := @text_append _ Option.isNone [] (args.map some) post none
    (fun x hx ↦ by obtain ⟨s, -, rfl⟩ := List.mem_map.mp hx; rfl) rfl
  rw [List.nil_append] at htext
  rw [arguments, show 0 = ([] : Args).length from rfl, htext, Option.map_some]
  change some ((args.map some).filterMap id) = some args
  simp

theorem arguments_unterminated (args : List Str) : arguments (args.map some) = none := by
  have hscan (p : ℕ) : scan Option.isNone (args.map some) p = none := by
    induction args generalizing p with
    | nil => rfl
    | cons s args ih => exact ih (p + 1)
  rw [arguments, text, scanFrom, List.drop_zero, hscan]
  rfl

theorem countArgs_append (args : List Str) : countArgs (args.map some ++ [none]) = some args.length := by
  have hscan := @scanFrom_append _ Option.isNone [] (args.map some) [] none
    (fun x hx ↦ by obtain ⟨s, -, rfl⟩ := List.mem_map.mp hx; rfl) rfl
  simpa [countArgs] using hscan

/-- The strings that come before those of the caller. -/
def leading (interpreter argument file : Str) : List Str :=
  interpreter :: (if argument = [] then [] else [argument]) ++ [file]

theorem realArgv_eq (interpreter argument file : Str) (argv : List Str) :
    realArgv interpreter argument file (argv.map some ++ [none]) =
      some ((leading interpreter argument file).map some ++ (argv.map some ++ [none]).tail) := by
  have hlen : ((argv.map some ++ [none]).drop 1).length = argv.length := by simp
  have hcopy : memcpy (List.replicate argv.length none) ((argv.map some ++ [none]).drop 1)
      argv.length = some (argv.map some ++ [none]).tail := by
    have hdst : (List.replicate argv.length (none : Option Str)).length = argv.length :=
      List.length_replicate
    have hall : (List.replicate argv.length (none : Option Str)).drop argv.length = [] :=
      List.drop_of_length_le hdst.le
    rw [memcpy, if_pos ⟨hdst.ge, hlen.ge⟩, List.take_of_length_le hlen.le, hall, List.append_nil,
      List.drop_one]
  rw [realArgv, countArgs_append, leading]
  dsimp only [Option.bind_eq_bind, Option.bind_some]
  by_cases hnil : argument = []
  · simp only [if_pos hnil, List.replicate_succ, List.set_cons_zero, List.set_cons_succ,
      List.drop_succ_cons, List.drop_zero, hcopy, Option.bind_some]
    rfl
  · simp only [if_neg hnil, List.replicate_succ, List.set_cons_zero, List.set_cons_succ,
      List.drop_succ_cons, List.drop_zero, hcopy, Option.bind_some]
    rfl

theorem arguments_realArgv {args : Args} (interpreter argument file : Str) (argv : List Str)
    (h : realArgv interpreter argument file (argv.map some ++ [none]) = some args) :
    arguments args = if argv = [] then none
      else some (leading interpreter argument file ++ argv.tail) := by
  rw [realArgv_eq] at h
  cases h
  cases argv with
  | nil =>
    rw [if_pos rfl, List.map_nil, List.nil_append, List.tail_cons, List.append_nil]
    exact arguments_unterminated _
  | cons first argv =>
    rw [if_neg (List.cons_ne_nil first argv), List.map_cons, List.cons_append, List.tail_cons,
      List.tail_cons, ← List.append_assoc, ← List.map_append]
    exact arguments_append _ []

/-! The call. -/

/-- The file can be read. -/
def Env.reads (env : Env F) (content : Str) : Prop :=
  env.lseek = 0 ∧ ∀ n, env.read n = .ok (content.take n)

theorem shebangExec_eq (hread : env.reads content) (hlen : header.length = 128) (args : Args) :
    ∃ post, shebangExec env header file args =
      execHeader env (content.take 127 ++ 0 :: post) file args := by
  have hle : (content.take 127).length < header.length := by
    rw [hlen, List.length_take]
    omega
  refine ⟨header.drop ((content.take 127).length + 1), ?_⟩
  rw [shebangExec, if_neg (not_not.mpr hread.1), hread.2]
  dsimp only
  rw [memcpy, if_pos ⟨hle.le, le_rfl⟩, List.take_length, List.drop_eq_getElem_cons hle,
    Option.bind_eq_bind, Option.bind_some, set_length]

theorem splitLine_parse (hzero : 0 ∉ body) (post : Str) :
    match parseLine (hash :: bang :: body) with
    | none => splitLine (hash :: bang :: (body ++ 0 :: post)) 2 = some none
    | some (name, argument) =>
      PartsAre (splitLine (hash :: bang :: (body ++ 0 :: post)) 2) name argument := by
  obtain hblank | ⟨spaces, name, hspaces, hne, hno, rfl | ⟨spaces₂, text₂, rfl, hspaces₂, htext⟩⟩ :=
    body_cases body
  · rw [parse_blank hblank]
    exact splitLine_blank hblank [hash, bang] post
  · rw [parse_name hspaces hne hno]
    exact splitLine_name hspaces hne hno (fun h ↦ hzero (List.mem_append_right _ h))
      [hash, bang] post
  · rw [parse_argument hspaces hne hno hspaces₂ htext]
    have hname : 0 ∉ name :=
      fun h ↦ hzero (List.mem_append_left _ (List.mem_append_right spaces h))
    have htext₂ : 0 ∉ text₂ := fun h ↦
      hzero (List.mem_append_right _ (List.mem_cons_of_mem _ (List.mem_append_right spaces₂ h)))
    exact splitLine_argument hspaces hne hno hname hspaces₂ htext htext₂ [hash, bang] post

/-- The first two bytes of the header, where the line has been cut off. -/
theorem starts_iff (line post : Str) :
    ¬((line ++ 0 :: post)[0]? ≠ some hash ∨ (line ++ 0 :: post)[1]? ≠ some bang) ↔
      line.take 2 = [hash, bang] := by
  rw [not_or, not_not, not_not]
  match line with
  | [] => simp [hash]
  | [c] => simp [bang]
  | c :: d :: body => simp

theorem execParts_iff {parts : Parts}
    (hname : text (· == 0) parts.buf parts.interpreter = some interpreter)
    (hargument : text (· == 0) parts.buf parts.argument = some argument) :
    (∃ fd args, env.genericOpen interpreter = .ok fd ∧
      execParts env parts file (argv.map some ++ [none]) = some (.executes fd interpreter args) ∧
      arguments args = some (interpreter :: (if argument = [] then [] else [argument]) ++
        file :: argv.tail)) ↔
      argv ≠ [] ∧ ∃ fd, env.genericOpen interpreter = .ok fd := by
  have hargs := realArgv_eq interpreter argument file argv
  have hlist := arguments_realArgv interpreter argument file argv hargs
  have hlead : leading interpreter argument file ++ argv.tail =
      interpreter :: (if argument = [] then [] else [argument]) ++ file :: argv.tail := by
    rw [leading, List.append_assoc, List.singleton_append]
  rw [execParts, hname, Option.bind_eq_bind, Option.bind_some, hargument, Option.bind_eq_bind,
    Option.bind_some, hargs, ← hlead]
  simp only [Option.bind_some]
  cases hopen : env.genericOpen interpreter with
  | error err =>
    refine iff_of_false ?_ ?_
    · rintro ⟨fd, args, hfd, -⟩
      cases hfd
    · rintro ⟨-, fd, hfd⟩
      cases hfd
  | ok fd =>
    constructor
    · rintro ⟨fd', args, -, hexec, hterm⟩
      cases hexec
      rw [hlist] at hterm
      refine ⟨fun hnil ↦ ?_, fd, rfl⟩
      rw [if_pos hnil] at hterm
      cases hterm
    · rintro ⟨hne, -⟩
      exact ⟨fd, _, rfl, rfl, hlist.trans (if_neg hne)⟩

/-- The exact condition: a script needs a first argument from the caller and an
interpreter that can be opened. -/
theorem shebangExec_iff (hread : env.reads content) (hlen : header.length = 128) :
    Behaves env content file argv (shebangExec env header file (argv.map some ++ [none])) ↔
      ∀ interpreter argument, shebang content = some (interpreter, argument) →
        argv ≠ [] ∧ ∃ fd, env.genericOpen interpreter = .ok fd := by
  obtain ⟨post, hexec⟩ := @shebangExec_eq F env content file header hread hlen (argv.map some ++ [none])
  rw [hexec, execHeader]
  unfold Behaves shebang
  cases hline : firstLine content with
  | none =>
    rw [strchr_none hline]
    exact iff_of_true rfl nofun
  | some line =>
    obtain ⟨rest, hbuf, hstr⟩ := strchr_firstLine hline post
    obtain ⟨-, -, -, hzero⟩ := firstLine_eq_some.mp hline
    rw [hstr, Option.bind_eq_bind, Option.bind_some, hbuf, Option.bind_some]
    dsimp only
    rw [set_length]
    by_cases hstart : line.take 2 = [hash, bang]
    · rw [if_neg ((starts_iff line rest).mpr hstart)]
      obtain ⟨body, rfl⟩ : ∃ body, line = hash :: bang :: body := by
        refine ⟨line.drop 2, ?_⟩
        have happ := List.take_append_drop 2 line
        rw [hstart] at happ
        exact happ.symm
      have hbody : 0 ∉ body :=
        fun h ↦ hzero (List.mem_cons_of_mem _ (List.mem_cons_of_mem _ h))
      have hsplit := splitLine_parse hbody rest
      cases hparse : parseLine (hash :: bang :: body) with
      | none =>
        rw [hparse] at hsplit
        dsimp only at hsplit
        rw [List.cons_append, List.cons_append, hsplit]
        exact iff_of_true rfl nofun
      | some parsed =>
        obtain ⟨interpreter, argument⟩ := parsed
        rw [hparse] at hsplit
        obtain ⟨parts, hparts, hname, hargument⟩ := hsplit
        rw [List.cons_append, List.cons_append, hparts]
        refine (execParts_iff hname hargument).trans ⟨fun h interpreter' argument' heq ↦ ?_, fun h ↦ ?_⟩
        · cases heq
          exact h
        · exact h interpreter argument rfl
    · rw [if_pos (not_not.mp fun h ↦ hstart ((starts_iff line rest).mp h)), parseLine, if_neg hstart]
      exact iff_of_true rfl nofun

/-- The file name `/i`. -/
def sampleName : Str := [47, 105]

/-- The script `#! /i  -e ` with a line end. -/
def sampleScript : Str := [35, 33, 32] ++ sampleName ++ [32, 32, 45, 101, 32, 10]

def sampleEnv (found : Except ℤ Unit) : Env Unit :=
  ⟨0, fun n ↦ .ok (sampleScript.take n), fun _ ↦ found⟩

theorem shebangExec_script :
    Behaves (sampleEnv (.ok ())) sampleScript [115] [[120], [121]]
      (shebangExec (sampleEnv (.ok ())) (List.replicate 128 0xcc) [115]
        ([[120], [121]].map some ++ [none])) :=
  (shebangExec_iff ⟨rfl, fun _ ↦ rfl⟩ List.length_replicate).mpr
    fun _ _ _ ↦ ⟨List.cons_ne_nil _ _, (), rfl⟩

/-- Without arguments the array has no null pointer, and an interpreter that is
not found is used as if it were. -/
theorem shebangExec_fails :
    shebang sampleScript = some (sampleName, [45, 101]) ∧
    shebangExec (sampleEnv (.ok ())) (List.replicate 128 0xcc) [115] [none] =
      some (.executes () sampleName [some sampleName, some [45, 101], some [115]]) ∧
    arguments [some sampleName, some [45, 101], some [115]] = none ∧
    ¬Behaves (sampleEnv (.ok ())) sampleScript [115] []
      (shebangExec (sampleEnv (.ok ())) (List.replicate 128 0xcc) [115] [none]) ∧
    shebangExec (sampleEnv (.error (-2))) (List.replicate 128 0xcc) [115] [some [120], none] =
      none := by
  have hparsed : shebang sampleScript = some (sampleName, [45, 101]) := by decide
  have hrun : shebangExec (sampleEnv (.ok ())) (List.replicate 128 0xcc) [115] [none] =
      some (.executes () sampleName [some sampleName, some [45, 101], some [115]]) := by
    decide +kernel
  have hargs : arguments [some sampleName, some [45, 101], some [115]] = none := by decide
  refine ⟨hparsed, hrun, hargs, ?_, by decide +kernel⟩
  unfold Behaves
  rw [hparsed]
  rintro ⟨fd, args, -, hout, hterm⟩
  rw [hrun] at hout
  cases hout
  rw [hargs] at hterm
  cases hterm

end Isl.Kernel.Shebang
