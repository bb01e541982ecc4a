import Mathlib.Data.List.Nodup
import Mathlib.Logic.Function.Basic

/-! Tables with a primary key, and prepared statements with the values bound to them. -/

namespace Isl.Lib.Sql

/-- What a column holds or a parameter is bound to. -/
inductive Value (β : Type*)
  | null
  | int (n : BitVec 64)
  | blob (b : β)
deriving DecidableEq

abbrev Row (κ β : Type*) := κ → Value β

structure Table (κ β : Type*) (key : κ) where
  rows : List (Row κ β)
  nodup : (rows.map (· key)).Nodup

inductive Stmt (τ κ : Type*)
  | select (column : κ) (table : τ) (cond : κ)
  | replace (table : τ) (columns : List κ)
  | delete (table : τ) (cond : κ)
  | begin
  | commit
  | rollback

/-- The text of a statement. -/
def Stmt.sql {τ κ : Type*} (table : τ → String) (column : κ → String) : Stmt τ κ → String
  | .select c t cond =>
    "select " ++ column c ++ " from " ++ table t ++ " where " ++ column cond ++ " = ?"
  | .replace t cs =>
    let names := ", ".intercalate (cs.map column)
    let params := ", ".intercalate (cs.map fun _ ↦ "?")
    "replace into " ++ table t ++ " (" ++ names ++ ") values (" ++ params ++ ")"
  | .delete t cond => "delete from " ++ table t ++ " where " ++ column cond ++ " = ?"
  | .begin => "begin"
  | .commit => "commit"
  | .rollback => "rollback"

/-- The row of the values for these columns. -/
def bindRow {κ β : Type*} [DecidableEq κ] (columns : List κ) (values : List (Value β)) : Row κ β :=
  fun c ↦ ((columns.zip values).lookup c).getD .null

variable {τ κ β : Type*} [DecidableEq β]

/-- `column = ?`, which is not true of null. -/
def Value.eq (v w : Value β) : Bool := decide (v = w ∧ w ≠ .null)

namespace Table

variable {key : κ}

/-- The row with this key. -/
def get (t : Table κ β key) (k : Value β) : Option (Row κ β) := t.rows.find? (· key = k)

def select (t : Table κ β key) (column cond : κ) (v : Value β) : Option (Value β) :=
  (t.rows.find? fun r ↦ (r cond).eq v).map (· column)

def delete (t : Table κ β key) (cond : κ) (v : Value β) : Table κ β key :=
  ⟨t.rows.filter fun r ↦ !(r cond).eq v, t.nodup.sublist (List.filter_sublist.map _)⟩

def replace (t : Table κ β key) (r : Row κ β) : Table κ β key where
  rows := t.rows.filter (· key ≠ r key) ++ [r]
  nodup := by
    rw [List.map_append, List.map_singleton, ← List.concat_eq_append]
    refine (t.nodup.sublist (List.filter_sublist.map _)).concat fun hmem ↦ ?_
    obtain ⟨s, hs, hkey⟩ := List.mem_map.mp hmem
    exact of_decide_eq_true (List.mem_filter.mp hs).2 hkey

/-- `insert`, which fails for a key that is there. -/
def insert (t : Table κ β key) (r : Row κ β) : Option (Table κ β key) :=
  if (t.get (r key)).isNone then some (t.replace r) else none

theorem get_eq_some {t : Table κ β key} {k : Value β} {r : Row κ β} :
    t.get k = some r ↔ r ∈ t.rows ∧ r key = k := by
  constructor
  · intro h
    have hkey := List.find?_some h
    exact ⟨List.mem_of_find?_eq_some h, of_decide_eq_true hkey⟩
  · intro h
    cases hfind : t.rows.find? (· key = k) with
    | none => exact absurd h.2 (of_decide_eq_false (Bool.eq_false_iff.mpr
        (List.find?_eq_none.mp hfind r h.1)))
    | some s =>
      have hkey := List.find?_some hfind
      have hs : s key = k := of_decide_eq_true hkey
      rw [List.inj_on_of_nodup_map t.nodup (List.mem_of_find?_eq_some hfind) h.1 (hs.trans h.2.symm)]
        at hfind
      exact hfind

theorem get_replace (t : Table κ β key) (r : Row κ β) (k : Value β) :
    (t.replace r).get k = if k = r key then some r else t.get k := by
  rw [get, replace, List.find?_append, List.find?_filter]
  split
  · rename_i hk
    have hnone : t.rows.find? (fun _ ↦ false) = none := List.find?_eq_none.mpr (by simp)
    simp [hk, hnone]
  · rename_i hk
    have hcond (s : Row κ β) : decide (s key ≠ r key ∧ s key = k) = decide (s key = k) := by
      apply decide_eq_decide.mpr
      constructor
      · exact And.right
      · intro hs
        exact ⟨fun hr ↦ hk (hs.symm.trans hr), hs⟩
    simp [hcond, get, Ne.symm hk]

theorem select_key {t : Table κ β key} {k : Value β} (hk : k ≠ .null) (column : κ) :
    t.select column key k = (t.get k).map (· column) := by
  simp [select, get, Value.eq, hk]

theorem get_delete_key {t : Table κ β key} {v : Value β} (hv : v ≠ .null) (k : Value β) :
    (t.delete key v).get k = if k = v then none else t.get k := by
  rw [get, delete, List.find?_filter]
  split
  · rename_i hk
    simp [Value.eq, hk, hv]
  · rename_i hk
    have hcond (s : Row κ β) : ((!(s key).eq v) && decide (s key = k)) = decide (s key = k) := by
      by_cases hs : s key = k
      · simp [Value.eq, hs, hk]
      · simp [hs]
    simp [hcond, get]

/-- A delete whose condition is true of no row. -/
theorem delete_eq_self {t : Table κ β key} {cond : κ} {v : Value β}
    (h : ∀ r ∈ t.rows, r cond ≠ v) : t.delete cond v = t := by
  obtain ⟨rows, nodup⟩ := t
  rw [delete, Table.mk.injEq]
  refine List.filter_eq_self.mpr fun r hr ↦ ?_
  simp [Value.eq, h r hr]

end Table

/-- The tables, and what they were before the transaction that is open. -/
structure Db (τ κ β : Type*) (key : τ → κ) where
  tables : ∀ t, Table κ β (key t)
  saved : Option (∀ t, Table κ β (key t))

namespace Db

variable [DecidableEq τ] [DecidableEq κ] {key : τ → κ}

def update (db : Db τ κ β key) (t : τ) (table : Table κ β (key t)) : Db τ κ β key :=
  { db with tables := Function.update db.tables t table }

/-- What the statement does when it is stepped. -/
def exec (db : Db τ κ β key) (stmt : Stmt τ κ) (values : List (Value β)) : Db τ κ β key :=
  match stmt with
  | .select _ _ _ => db
  | .replace t columns => db.update t ((db.tables t).replace (bindRow columns values))
  | .delete t cond => db.update t ((db.tables t).delete cond (values.headD .null))
  | .begin => { db with saved := some db.tables }
  | .commit => { db with saved := none }
  | .rollback => ⟨db.saved.getD db.tables, none⟩

/-- The column of the first row that the statement gives. -/
def query (db : Db τ κ β key) (stmt : Stmt τ κ) (values : List (Value β)) : Option (Value β) :=
  match stmt with
  | .select column t cond => (db.tables t).select column cond (values.headD .null)
  | _ => none

end Db

end Isl.Lib.Sql
