import Isl.Lib.Loop
import Isl.Lib.Components
import Mathlib.Data.Int.Notation

/-!
`path_normalize` of `fs/path.c`. A C string is the list of its characters
before the null. The output cursor `o` is kept as the characters below it, the
last one first, and an access outside a buffer is a `fault`.
-/

namespace Isl.Fs

open Isl.Lib.Loop

abbrev Str := List Char

def maxPath : ℕ := 4096
def eNametoolong : ℤ := -36

inductive Outcome
  | path (out : Str)
  | error (err : ℤ)
  | fault
deriving DecidableEq

/-- The target of the symlink at a path, `none` where `readlink` fails. -/
abbrev Links := Str → Option Str

/-- The paths `generic_getpath` gives for the two directories. -/
structure FsInfo where
  root : Option Str
  pwd : Option Str

inductive At
  | noAt
  | pwd
  | fd (path : Str)

def eatSlashes (p : Str) : Str := p.dropWhile (· = '/')

/-- A single dot component. -/
def isDot : Str → Bool
  | '.' :: p => p.isEmpty || p.head? = some '/'
  | _ => false

/-- A double dot component. -/
def isDotDot : Str → Bool
  | '.' :: '.' :: p => p.isEmpty || p.head? = some '/'
  | _ => false

/-- `do { o--; n++; } while (*o != '/')`. -/
def backUp : Str → ℤ → Option (Str × ℤ)
  | [], _ => none
  | c :: o, n => if c = '/' then some (o, n + 1) else backUp o (n + 1)

/-- `while (*p != '/' && *p != '\0' && --n > 0) *o++ = *p++;` -/
def copyComponent : Str → Str → ℤ → Option (Str × Str × ℤ)
  | [], o, n => some ([], o, n)
  | c :: p, o, n =>
    if c = '/' then some (c :: p, o, n)
    else if n - 1 > 0 then
      if o.length < maxPath then copyComponent p (c :: o) (n - 1) else none
    else some (c :: p, o, n - 1)

/-- The path to go on with after a symlink: `dir` is the output up to the link's
name and `p` the rest of the input. The link is read into what is left of the
output, and the two strings are appended to a copy of it. -/
def expandLink (dir target p : Str) : Option Str :=
  let link := target.take (maxPath - dir.length)
  if dir.length + link.length < maxPath then
    let out := if link.head? = some '/' then link else dir ++ link
    let expanded := out ++ '/' :: p
    if expanded.length < maxPath then some expanded else none
  else none

structure Cursor where
  p : Str
  o : Str
  n : ℤ
deriving DecidableEq

/-- `path_normalize(__NO_AT, path, out)` up to its loop. -/
def restart (path : Str) : Cursor := ⟨eatSlashes path, [], maxPath - 1⟩

def normalizeStep (links : Links) (followLinks : Bool) (s : Cursor) : Cursor ⊕ Outcome :=
  if s.p = [] then .inr (if s.o.length < maxPath then .path s.o.reverse else .fault)
  else if isDot s.p then .inl { s with p := eatSlashes (s.p.drop 1) }
  else if isDotDot s.p then
    match backUp s.o s.n with
    | none => .inr .fault
    | some (o, n) => .inl ⟨eatSlashes (s.p.drop 2), o, n⟩
  else if maxPath ≤ s.o.length then .inr .fault
  else
    match copyComponent s.p ('/' :: s.o) (s.n - 1) with
    | none => .inr .fault
    | some (p, o, n) =>
      let p := eatSlashes p
      if n = 0 then .inr (.error eNametoolong)
      else if followLinks ∨ p ≠ [] then
        if maxPath ≤ o.length then .inr .fault
        else
          match links o.reverse with
          | none => .inl ⟨p, o, n⟩
          | some target =>
            match expandLink ('/' :: s.o).reverse target p with
            | none => .inr .fault
            | some expanded => .inl (restart expanded)
      else .inl ⟨p, o, n⟩

/-- Start with root or cwd, depending on whether the path starts with a slash. -/
def normalizeBase (fs : FsInfo) (at_ : At) (path : Str) : Option Str :=
  match at_ with
  | .noAt => none
  | .pwd => if path.head? = some '/' then fs.root else fs.pwd
  | .fd base => if path.head? = some '/' then fs.root else some base

/-- The cursor before the loop. -/
def normalizeStart (fs : FsInfo) (at_ : At) (path : Str) : Cursor :=
  match normalizeBase fs at_ path with
  | none => restart path
  | some atPath =>
    if atPath = ['/'] then restart path
    else ⟨eatSlashes path, atPath.reverse, maxPath - 1 - atPath.length⟩

def pathNormalize (links : Links) (fs : FsInfo) (at_ : At) (path : Str) (followLinks : Bool)
    (fuel : ℕ) : Option Outcome :=
  run (normalizeStep links followLinks) fuel (normalizeStart fs at_ path)

/-- The rest of the path; right after a slash there must not be another one. -/
def pathIsNormalizedFrom : Bool → Str → Bool
  | _, [] => true
  | afterSlash, c :: p =>
    if c = '/' then !afterSlash && pathIsNormalizedFrom true p else pathIsNormalizedFrom false p

def pathIsNormalized : Str → Bool
  | [] => true
  | c :: p => c = '/' && pathIsNormalizedFrom true p

end Isl.Fs
