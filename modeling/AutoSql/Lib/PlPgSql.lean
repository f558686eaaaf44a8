/-
AutoSql/Lib/PlPgSql.lean

The part of PL/pgSQL that row triggers are written in: chains of `if`, assignments to
`NEW`, `raise` and `return NEW`.

`render` writes a function body as text, `exec` runs it.  An expression is analysed
when it is first evaluated: if a comparison has no operator for the types of its two
sides, the statement fails, whatever the values are (`Cond.resolves`).  What a database
knows about types, functions and operators is `System`.
-/
import AutoSql.Lib.GoString

namespace AutoSql.PlPgSql

variable {F Ty V : Type}

/-- The columns of a row; `none` is null. -/
abbrev Row (V : Type) := GoString → Option V

/-- What the expressions of a trigger function depend on, for a table. -/
structure System (F Ty V : Type) where
  columnType : GoString → Ty
  /-- The type of the result of a function, if there is one for the type. -/
  resultType : F → Ty → Option Ty
  /-- A call; `none` is an error. -/
  call : F → Ty → Option V → Option (Option V)
  /-- There is an operator `=` for the types. -/
  comparable : Ty → Ty → Bool
  same : Ty → Ty → V → V → Bool
  /-- The assignment of a value of one type to a column of another; `none` is an error. -/
  coerce : Ty → Ty → Option V → Option (Option V)

/-- What a trigger function sees. -/
structure Frame (V : Type) where
  /-- `pg_trigger_depth()`. -/
  depth : Nat
  /-- `TG_OP` is `INSERT`. -/
  inserting : Bool
  /-- `current_setting`. -/
  setting : GoString → GoString
  old : Row V
  new : Row V

/-! ### Programs -/

inductive Expr (F : Type)
  | new (column : GoString)
  | old (column : GoString)
  | app (f : F) (e : Expr F)

inductive Cond (F : Type)
  | deeperThan (n : Nat)
  | settingIs (name value : GoString)
  | inserting
  | isNull (e : Expr F)
  | notNull (e : Expr F)
  | distinct (a b : Expr F)
  | notDistinct (a b : Expr F)
  | and (a b : Cond F)

inductive Action (F : Type)
  | assign (column : GoString) (e : Expr F)
  | raise (message : GoString)
  | returnNew

/-- `if ... then ... elsif ... then ... end if;`. -/
abbrev Chain (F : Type) := List (Cond F × Action F)

inductive Stmt (F : Type)
  | chain (c : Chain F)
  | ifElse (cond : Cond F) (c d : Chain F)

/-! ### Text -/

section Render

-- how a call is written, and the name of a column
variable (call : F → GoString → GoString) (quote : GoString → GoString)

def Expr.render : Expr F → GoString
  | .new c => str "NEW." ++ quote c
  | .old c => str "OLD." ++ quote c
  | .app f e => call f (e.render)

def Cond.render : Cond F → GoString
  | .deeperThan n => str "pg_trigger_depth() > " ++ GoString.decimal n
  | .settingIs name value => str "pg_catalog.current_setting('" ++ name ++ str "', true) = '" ++ value ++ str "'"
  | .inserting => str "TG_OP='INSERT'"
  | .isNull e => e.render call quote ++ str " is null"
  | .notNull e => e.render call quote ++ str " is not null"
  | .distinct a b => a.render call quote ++ str " is distinct from " ++ b.render call quote
  | .notDistinct a b => a.render call quote ++ str " is not distinct from " ++ b.render call quote
  | .and a b => a.render ++ str " and " ++ b.render

def Action.render : Action F → GoString
  | .assign c e => (Expr.new c).render call quote ++ str " := " ++ e.render call quote ++ str ";"
  | .raise message => str "raise exception '" ++ message ++ str "';"
  | .returnNew => str "return NEW;"

def renderBranch (b : Cond F × Action F) : GoString := b.1.render call quote ++ str " then " ++ b.2.render call quote

def renderChain (c : Chain F) : GoString := str "if " ++ GoString.join (str " elsif ") (c.map (renderBranch call quote)) ++ str " end if;\n"

def Stmt.render : Stmt F → GoString
  | .chain c => renderChain call quote c
  | .ifElse cond c d =>
    str "if " ++ cond.render call quote ++ str " then\n " ++ renderChain call quote c ++ str "else\n " ++ renderChain call quote d ++ str "end if;\n"

/-- A function body that ends with `return NEW`. -/
def renderBody (l : List (Stmt F)) : GoString := str "begin\n" ++ (l.map (Stmt.render call quote)).flatten ++ str "return NEW;\nend"

end Render

/-! ### Runs -/

section Run

variable (S : System F Ty V)

def Expr.type : Expr F → Option Ty
  | .new c | .old c => some (S.columnType c)
  | .app f e => e.type.bind (S.resultType f)

def Expr.eval (fr : Frame V) : Expr F → Option (Option V)
  | .new c => some (fr.new c)
  | .old c => some (fr.old c)
  | .app f e => (e.type S).bind fun t => (e.eval fr).bind (S.call f t)

/-- The sides of a comparison. -/
def comparableExprs (a b : Expr F) : Bool := (a.type S).any fun t => (b.type S).any fun u => S.comparable t u

/-- The expression can be analysed. -/
def Cond.resolves : Cond F → Bool
  | .isNull e | .notNull e => (e.type S).isSome
  | .distinct a b | .notDistinct a b => comparableExprs S a b
  | .and a b => a.resolves && b.resolves
  | _ => true

/-- `is distinct from`: null is not distinct from null. -/
def distinctValues (t u : Ty) : Option V → Option V → Bool
  | none, none => false
  | some x, some y => !S.same t u x y
  | _, _ => true

def distinctExprs (fr : Frame V) (a b : Expr F) : Option Bool := do
  let t ← a.type S
  let u ← b.type S
  let x ← a.eval S fr
  let y ← b.eval S fr
  some (distinctValues S t u x y)

/-- The value of a condition that can be analysed. -/
def Cond.holds (fr : Frame V) : Cond F → Option Bool
  | .deeperThan n => some (n < fr.depth)
  | .settingIs name value => some (fr.setting name = value)
  | .inserting => some fr.inserting
  | .isNull e => (e.eval S fr).map Option.isNone
  | .notNull e => (e.eval S fr).map Option.isSome
  | .distinct a b => distinctExprs S fr a b
  | .notDistinct a b => (distinctExprs S fr a b).map not
  | .and a b => (a.holds fr).bind fun x => if x then b.holds fr else some false

def Cond.eval (fr : Frame V) (c : Cond F) : Option Bool := if c.resolves S then c.holds S fr else none

/-- `return NEW` ends the function. -/
inductive Outcome (V : Type)
  | next (new : Row V)
  | returned (new : Row V)
  | failed

def Action.exec (fr : Frame V) : Action F → Outcome V
  | .assign c e =>
    match (e.type S).bind fun t => (e.eval S fr).bind (S.coerce t (S.columnType c)) with
    | some v => .next (Function.update fr.new c v)
    | none => .failed
  | .raise _ => .failed
  | .returnNew => .returned fr.new

def execChain (fr : Frame V) : Chain F → Outcome V
  | [] => .next fr.new
  | b :: c =>
    match b.1.eval S fr with
    | none => .failed
    | some true => b.2.exec S fr
    | some false => execChain fr c

def Stmt.exec (fr : Frame V) : Stmt F → Outcome V
  | .chain c => execChain S fr c
  | .ifElse cond c d =>
    match cond.eval S fr with
    | none => .failed
    | some true => execChain S fr c
    | some false => execChain S fr d

/-- The row that a function with the given body returns; `none` if it fails. -/
def exec (fr : Frame V) : List (Stmt F) → Option (Row V)
  | [] => some fr.new
  | s :: l =>
    match s.exec S fr with
    | .next new => exec { fr with new } l
    | .returned new => some new
    | .failed => none

end Run

/-! ### Rules -/

variable {S : System F Ty V} {fr : Frame V} {b : Cond F × Action F}

/-- A column before and after. -/
@[simp] theorem comparableExprs_new_old (c : GoString) :
    comparableExprs S (.new c : Expr F) (.old c) = S.comparable (S.columnType c) (S.columnType c) := rfl

@[simp] theorem distinctExprs_new_old (c : GoString) :
    distinctExprs S fr (.new c : Expr F) (.old c) = some (distinctValues S (S.columnType c) (S.columnType c) (fr.new c) (fr.old c)) := rfl

theorem execChain_cons_true {c : Chain F} (h : b.1.eval S fr = some true) : execChain S fr (b :: c) = b.2.exec S fr := by
  simp only [execChain, h]

theorem execChain_cons_false {c : Chain F} (h : b.1.eval S fr = some false) : execChain S fr (b :: c) = execChain S fr c := by
  simp only [execChain, h]

theorem execChain_cons_none {c : Chain F} (h : b.1.eval S fr = none) : execChain S fr (b :: c) = .failed := by
  simp only [execChain, h]

end AutoSql.PlPgSql
