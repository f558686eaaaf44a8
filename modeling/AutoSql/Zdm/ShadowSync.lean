/-
AutoSql/Zdm/ShadowSync.lean

Package `shadowsync`: the trigger that keeps the old and the new columns of a table in
step, and what it does to the writes of an application that does not know the new
columns.

`program` is the trigger function as a program and `triggerBody` its text.  A write of
the old application assigns no new column; `oldWrite_iff` says when it succeeds with
the trigger if it does without it.  It fails inside another trigger or a foreign-key
action, as the trigger takes any nesting for a recursion of its own.  It also fails if
PostgreSQL finds no operator to compare the values with: an update always compares the
new column with itself, and, if the old column has not changed, with its transform.
-/
import AutoSql.Lib.Fallible
import AutoSql.Lib.GoJson
import AutoSql.Lib.PlPgSql
import AutoSql.Lib.Sha256

namespace AutoSql.ShadowSync

open Fallible PlPgSql List Function Option

/-! ### Specifications -/

structure Pair where
  id : GoString
  oldColumn : GoString
  newColumn : GoString
  forward : GoString
  reverse : GoString := []
  lossy : Bool := false
  deriving DecidableEq

structure Table where
  name : GoString
  pairs : List Pair
  deriving DecidableEq

structure Spec where
  version : GoString
  artifactDigest : GoString
  physicalSchema : GoString
  digest : GoString := []
  tables : List Table
  deriving DecidableEq

structure Policy where
  allowLossy : Bool
  allowNonReversible : Bool

inductive Err
  | header
  | tables
  | pairs
  | forward (id : GoString)
  | undeclaredLossy (id : GoString)
  | reverse (id : GoString)
  | lossy (id : GoString)
  | nonReversible (id : GoString)
  | digest
  deriving DecidableEq

def version : GoString := str "autosql.zdm.shadow-sync/v1"

def isLower (c : UInt8) : Bool := 0x61 ≤ c && c ≤ 0x7A

/-- `[a-z_][a-z0-9_]*`. -/
def matchesName : GoString → Bool
  | [] => false
  | c :: s => (isLower c || c = 0x5F) && s.all fun c => isLower c || isDigit c || c = 0x5F

/-- `^[a-z_][a-z0-9_]{0,62}$`. -/
def ident (s : GoString) : Bool := matchesName s && s.length ≤ 63

/-- `^[0-9a-f]{64}$`. -/
def hexDigest (s : GoString) : Bool := s.length = 64 && s.all fun c => isDigit c || (0x61 ≤ c && c ≤ 0x66)

/-- The functions of a transformation. -/
inductive Fn
  | lower
  | upper
  | btrim
  | cast (type : GoString)
  deriving DecidableEq

/-- `renderTransform`, as an expression. -/
def transform (expr : GoString) (value : Expr Fn) : Option (Expr Fn) :=
  if expr = str "value" then some value
  else if expr = str "lower(value)" then some (.app .lower value)
  else if expr = str "upper(value)" then some (.app .upper value)
  else if expr = str "btrim(value)" then some (.app .btrim value)
  else if GoString.hasPrefix expr (str "value::") && matchesName (expr.drop 7) then some (.app (.cast (expr.drop 7)) value)
  else none

def transformMayBeLossy (expr : GoString) : Bool := expr ≠ str "value"

def Pair.json (x : Pair) : Json :=
  .obj ([(str "id", .str x.id), (str "old_column", .str x.oldColumn), (str "new_column", .str x.newColumn), (str "forward", .str x.forward)] ++
    GoJson.omitEmpty (str "reverse") x.reverse ++ [(str "lossy", .bool x.lossy)])

def Spec.json (s : Spec) : Json :=
  .obj [(str "version", .str s.version), (str "artifact_digest", .str s.artifactDigest), (str "physical_schema", .str s.physicalSchema),
    (str "digest", .str s.digest),
    (str "tables", .arr (s.tables.map fun t => .obj [(str "name", .str t.name), (str "pairs", .arr (t.pairs.map Pair.json))]))]

def digest (s : Spec) : GoString := GoString.hexEncode (Sha256.sum256 (Spec.json { s with digest := [] }).encode)

/-- The checks on one pair, after the pair `last`, pairs of the ids `ids` and the columns `cols`. -/
def Pair.validate (p : Policy) (last : GoString) (ids cols : List GoString) (x : Pair) : Except Err Unit := do
  failIf (¬ (ident x.id = true ∧ GoString.lt last x.id = true ∧ ident x.oldColumn = true ∧ ident x.newColumn = true ∧ x.oldColumn ≠ x.newColumn ∧
    x.id ∉ ids ∧ x.oldColumn ∉ cols ∧ x.newColumn ∉ cols)) .pairs
  failIf ((transform x.forward (.new [])).isSome = false) (.forward x.id)
  failIf ((transformMayBeLossy x.forward = true ∨ x.reverse ≠ [] ∧ transformMayBeLossy x.reverse = true) ∧ x.lossy = false) (.undeclaredLossy x.id)
  failIf (x.reverse ≠ [] ∧ (transform x.reverse (.new [])).isSome = false) (.reverse x.id)
  failIf (x.lossy = true ∧ p.allowLossy = false) (.lossy x.id)
  failIf (x.reverse = [] ∧ p.allowNonReversible = false) (.nonReversible x.id)

def validatePairs (p : Policy) : GoString → List GoString → List GoString → List Pair → Except Err (List GoString)
  | _, ids, _, [] => .ok ids
  | last, ids, cols, x :: xs => do
    x.validate p last ids cols
    validatePairs p x.id (x.id :: ids) (x.oldColumn :: x.newColumn :: cols) xs

def validateTables (p : Policy) : GoString → List GoString → List Table → Except Err Unit
  | _, _, [] => .ok ()
  | last, ids, t :: ts => do
    failIf (¬ (ident t.name = true ∧ GoString.lt last t.name = true ∧ t.pairs ≠ [])) .tables
    let ids ← validatePairs p [] ids [] t.pairs
    validateTables p t.name ids ts

def Spec.validate (p : Policy) (s : Spec) : Except Err Unit := do
  failIf (¬ (s.version = ShadowSync.version ∧ hexDigest s.artifactDigest = true ∧ ident s.physicalSchema = true ∧ s.tables ≠ [])) .header
  validateTables p [] [] s.tables
  failIf (digest s ≠ s.digest) .digest

/-! ### The trigger function -/

/-- `pgx.Identifier.Sanitize` of one name. -/
def quoteIdent (s : GoString) : GoString := 0x22 :: ((s.filter (· ≠ 0)).flatMap fun c => if c = 0x22 then [0x22, 0x22] else [c]) ++ [0x22]

def renderCall : Fn → GoString → GoString
  | .lower, v => str "pg_catalog.lower(" ++ v ++ str ")"
  | .upper, v => str "pg_catalog.upper(" ++ v ++ str ")"
  | .btrim, v => str "pg_catalog.btrim(" ++ v ++ str ")"
  | .cast type, v => str "(" ++ v ++ str ")::" ++ quoteIdent type

namespace Pair

variable (x : Pair)

def forwardExpr : Expr Fn := (transform x.forward (.new x.oldColumn)).getD (.new x.oldColumn)

/-- What a write to the new column alone does. -/
def reverseAction : Action Fn :=
  match if x.reverse = [] then none else transform x.reverse (.new x.newColumn) with
  | some rev => .assign x.oldColumn rev
  | none => .raise (str "reverse write refused for non-reversible pair " ++ x.id)

def insertChain : Chain Fn :=
  [(.and (.notNull (.new x.oldColumn)) (.isNull (.new x.newColumn)), .assign x.newColumn x.forwardExpr),
    (.and (.notNull (.new x.newColumn)) (.isNull (.new x.oldColumn)), x.reverseAction),
    (.and (.and (.notNull (.new x.oldColumn)) (.notNull (.new x.newColumn))) (.distinct (.new x.newColumn) x.forwardExpr),
      .raise (str "conflicting values for pair " ++ x.id))]

def oldChanged : Cond Fn := .distinct (.new x.oldColumn) (.old x.oldColumn)

def newChanged : Cond Fn := .distinct (.new x.newColumn) (.old x.newColumn)

def updateChain : Chain Fn :=
  [(.and x.oldChanged (.notDistinct (.new x.newColumn) (.old x.newColumn)), .assign x.newColumn x.forwardExpr),
    (.and x.newChanged (.notDistinct (.new x.oldColumn) (.old x.oldColumn)), x.reverseAction),
    (.and (.and x.oldChanged x.newChanged) (.distinct (.new x.newColumn) x.forwardExpr), .raise (str "conflicting concurrent values for pair " ++ x.id))]

def stmt : Stmt Fn := .ifElse .inserting x.insertChain x.updateChain

end Pair

def backfillSetting : GoString := str "autosql.zdm.backfill"

def program (t : Table) : List (Stmt Fn) :=
  .chain [(.deeperThan 1, .raise (str "recursive AutoSQL synchronization"))] :: .chain [(.settingIs backfillSetting (str "on"), .returnNew)] ::
    t.pairs.map Pair.stmt

def triggerBody (t : Table) : GoString := renderBody renderCall quoteIdent (program t)

/-! ### Writes of the old application -/

variable {Ty V : Type} (S : PlPgSql.System Fn Ty V)

/-- The write assigns no new column; new columns have no default. -/
def Unassigned (t : Table) (fr : Frame V) : Prop := ∀ x ∈ t.pairs, fr.new x.newColumn = if fr.inserting then none else fr.old x.newColumn

/-- What the trigger assigns to the new column; `none` is an error. -/
def Pair.assigned (x : Pair) (fr : Frame V) : Option (Option V) :=
  (x.forwardExpr.type S).bind fun t => (x.forwardExpr.eval S fr).bind (S.coerce t (S.columnType x.newColumn))

/-- The forward transform has a result for every value, and the new column takes it. -/
def Pair.Total (x : Pair) : Prop := ∀ fr, (x.assigned S fr).isSome = true

/-- The write gives the old column a value, or another one. -/
def Pair.changed (x : Pair) (fr : Frame V) : Bool :=
  if fr.inserting then (fr.new x.oldColumn).isSome
  else distinctValues S (S.columnType x.oldColumn) (S.columnType x.oldColumn) (fr.new x.oldColumn) (fr.old x.oldColumn)

/-- The comparisons that the trigger comes to have operators. -/
def Pair.resolves (x : Pair) (fr : Frame V) : Bool :=
  (fr.inserting || (S.comparable (S.columnType x.oldColumn) (S.columnType x.oldColumn) && S.comparable (S.columnType x.newColumn) (S.columnType x.newColumn))) &&
    (x.changed S fr || comparableExprs S (.new x.newColumn) x.forwardExpr)

/-- The row with the new columns that the trigger fills in. -/
def filled (t : Table) (fr : Frame V) : Row V := fun c =>
  match t.pairs.find? fun x => x.newColumn = c with
  | some x => if x.changed S fr then (x.assigned S fr).getD none else fr.new c
  | none => fr.new c

/-- The row that a write stores with the trigger; `accepts` are the constraints of the table. -/
def withTrigger (accepts : Row V → Bool) (t : Table) (fr : Frame V) : Option (Row V) := (exec S fr (program t)).filter accepts

/-- `=` holds of a value and itself, for the types of columns. -/
def Reflexive : Prop := ∀ c v, S.same (S.columnType c) (S.columnType c) v v = true

/-! ### The columns of a valid specification -/

theorem nodup_validatePairs {p : Policy} {last : GoString} {ids cols : List GoString} {xs : List Pair} {out : List GoString}
    (h : validatePairs p last ids cols xs = .ok out) :
    (xs.flatMap fun x => [x.oldColumn, x.newColumn]).Nodup ∧ ∀ c ∈ xs.flatMap fun x => [x.oldColumn, x.newColumn], c ∉ cols := by
  induction xs generalizing last ids cols with
  | nil => exact ⟨nodup_nil, by simp⟩
  | cons x xs ih =>
    obtain ⟨⟨⟩, hx, h⟩ := bind_ok.mp h
    obtain ⟨hnodup, hfresh⟩ := ih h
    obtain ⟨hx, -⟩ := failIf_bind_ok.mp hx
    obtain ⟨-, -, -, -, hne, -, hold, hnew⟩ := not_not.mp hx
    simp only [mem_cons, not_or] at hfresh
    simp only [flatMap_cons, cons_append, nil_append, nodup_cons, mem_cons, not_or, forall_eq_or_imp]
    exact ⟨⟨⟨hne, fun hmem => (hfresh _ hmem).1 rfl⟩, fun hmem => (hfresh _ hmem).2.1 rfl, hnodup⟩, hold, hnew, fun c hc => (hfresh c hc).2.2⟩

theorem nodup_columns {p : Policy} {s : Spec} (h : s.validate p = .ok ()) {t : Table} (ht : t ∈ s.tables) :
    (t.pairs.flatMap fun x => [x.oldColumn, x.newColumn]).Nodup := by
  obtain ⟨-, h⟩ := failIf_bind_ok.mp h
  obtain ⟨⟨⟩, h, -⟩ := bind_ok.mp h
  suffices loop : ∀ (last : GoString) (ids : List GoString) (ts : List Table), validateTables p last ids ts = .ok () → t ∈ ts →
      (t.pairs.flatMap fun x => [x.oldColumn, x.newColumn]).Nodup from loop _ _ _ h ht
  intro last ids ts h ht
  induction ts generalizing last ids with
  | nil => cases ht
  | cons t' ts ih =>
    obtain ⟨-, h⟩ := failIf_bind_ok.mp h
    obtain ⟨ids', hpairs, h⟩ := bind_ok.mp h
    rcases mem_cons.mp ht with rfl | ht
    · exact (nodup_validatePairs hpairs).1
    · exact ih _ _ h ht

/-! ### One pair -/

variable {S} {x : Pair} {fr fr' : Frame V}

/-- The forward transform reads the old column. -/
theorem forwardExpr_cases (x : Pair) : x.forwardExpr = .new x.oldColumn ∨ ∃ f, x.forwardExpr = .app f (.new x.oldColumn) := by
  unfold Pair.forwardExpr transform
  split_ifs <;> simp

theorem assigned_congr (h : fr'.new x.oldColumn = fr.new x.oldColumn) : x.assigned S fr' = x.assigned S fr := by
  unfold Pair.assigned
  rcases forwardExpr_cases x with he | ⟨f, he⟩ <;> simp only [he, Expr.eval, h]

theorem distinctValues_self (hrefl : Reflexive S) (c : GoString) (v : Option V) : distinctValues S (S.columnType c) (S.columnType c) v v = false := by
  cases v with
  | none => rfl
  | some v => simp [distinctValues, hrefl c v]

/-- The assignment of the forward transform. -/
theorem exec_assign (htotal : x.Total S) :
    (Action.assign x.newColumn x.forwardExpr).exec S fr = .next (update fr.new x.newColumn ((x.assigned S fr).getD none)) := by
  obtain ⟨v, hv⟩ := isSome_iff_exists.mp (htotal fr)
  have hv' := hv
  unfold Pair.assigned at hv'
  simp only [Action.exec, hv', hv, getD_some]

theorem exec_insertChain (htotal : x.Total S) (hins : fr.inserting = true) (hnew : fr.new x.newColumn = none) :
    execChain S fr x.insertChain =
      if x.resolves S fr then .next (if x.changed S fr then update fr.new x.newColumn ((x.assigned S fr).getD none) else fr.new) else .failed := by
  unfold Pair.insertChain
  cases hold : fr.new x.oldColumn with
  | some v =>
    have hchanged : x.changed S fr = true := by simp [Pair.changed, hins, hold]
    rw [execChain_cons_true (by simp [Cond.eval, Cond.resolves, Cond.holds, Expr.type, Expr.eval, hold, hnew]), exec_assign htotal]
    simp [Pair.resolves, hins, hchanged]
  | none =>
    have hchanged : x.changed S fr = false := by simp [Pair.changed, hins, hold]
    rw [execChain_cons_false (by simp [Cond.eval, Cond.resolves, Cond.holds, Expr.type, Expr.eval, hold]),
      execChain_cons_false (by simp [Cond.eval, Cond.resolves, Cond.holds, Expr.type, Expr.eval, hnew])]
    by_cases hcmp : comparableExprs S (.new x.newColumn) x.forwardExpr = true
    · rw [execChain_cons_false (by simp [Cond.eval, Cond.resolves, Cond.holds, Expr.type, Expr.eval, hold, hcmp])]
      simp [Pair.resolves, hins, hchanged, hcmp, execChain]
    · rw [execChain_cons_none (by simp [Cond.eval, Cond.resolves, hcmp])]
      simp [Pair.resolves, hchanged, hcmp]

theorem exec_updateChain (hrefl : Reflexive S) (htotal : x.Total S) (hins : fr.inserting = false) (hnew : fr.new x.newColumn = fr.old x.newColumn) :
    execChain S fr x.updateChain =
      if x.resolves S fr then .next (if x.changed S fr then update fr.new x.newColumn ((x.assigned S fr).getD none) else fr.new) else .failed := by
  unfold Pair.updateChain
  have hsame := distinctValues_self hrefl x.newColumn (fr.old x.newColumn)
  by_cases hcmp : S.comparable (S.columnType x.oldColumn) (S.columnType x.oldColumn) = true ∧ S.comparable (S.columnType x.newColumn) (S.columnType x.newColumn) = true
  · obtain ⟨hcold, hcnew⟩ := hcmp
    cases hchanged : x.changed S fr with
    | true =>
      have hd : distinctValues S (S.columnType x.oldColumn) (S.columnType x.oldColumn) (fr.new x.oldColumn) (fr.old x.oldColumn) = true := by
        simpa [Pair.changed, hins] using hchanged
      rw [execChain_cons_true (by simp [Cond.eval, Cond.resolves, Cond.holds, Pair.oldChanged, hnew, hcold, hcnew, hd, hsame]), exec_assign htotal]
      simp [Pair.resolves, hcold, hcnew, hchanged]
    | false =>
      have hd : distinctValues S (S.columnType x.oldColumn) (S.columnType x.oldColumn) (fr.new x.oldColumn) (fr.old x.oldColumn) = false := by
        simpa [Pair.changed, hins] using hchanged
      rw [execChain_cons_false (by simp [Cond.eval, Cond.resolves, Cond.holds, Pair.oldChanged, hcold, hcnew, hd]),
        execChain_cons_false (by simp [Cond.eval, Cond.resolves, Cond.holds, Pair.newChanged, hnew, hcold, hcnew, hsame])]
      by_cases hf : comparableExprs S (.new x.newColumn) x.forwardExpr = true
      · rw [execChain_cons_false (by simp [Cond.eval, Cond.resolves, Cond.holds, Pair.oldChanged, Pair.newChanged, hcold, hcnew, hf, hd])]
        simp [Pair.resolves, hcold, hcnew, hchanged, hf, execChain]
      · rw [execChain_cons_none (by simp [Cond.eval, Cond.resolves, hf])]
        simp [Pair.resolves, hchanged, hf]
  · have hno : ¬ x.resolves S fr = true := by
      intro h
      simp only [Pair.resolves, hins, Bool.false_or, Bool.and_eq_true] at h
      exact hcmp h.1
    rw [execChain_cons_none, if_neg hno]
    simp only [Cond.eval, Cond.resolves, Pair.oldChanged, comparableExprs_new_old]
    rw [if_neg (by simpa using hcmp)]

/-- What the trigger does for one pair. -/
theorem exec_pair (hrefl : Reflexive S) (htotal : x.Total S) (hun : fr.new x.newColumn = if fr.inserting then none else fr.old x.newColumn) :
    x.stmt.exec S fr =
      if x.resolves S fr then .next (if x.changed S fr then update fr.new x.newColumn ((x.assigned S fr).getD none) else fr.new) else .failed := by
  cases hins : fr.inserting with
  | true =>
    rw [hins] at hun
    rw [← exec_insertChain htotal hins hun]
    simp [Pair.stmt, Stmt.exec, Cond.eval, Cond.resolves, Cond.holds, hins]
  | false =>
    rw [hins] at hun
    rw [← exec_updateChain hrefl htotal hins hun]
    simp [Pair.stmt, Stmt.exec, Cond.eval, Cond.resolves, Cond.holds, hins]

/-! ### All pairs -/

/-- The trigger fills in the pairs one after the other; none of them reads what another one has assigned. -/
theorem exec_pairs (hrefl : Reflexive S) {xs : List Pair} (hnodup : (xs.flatMap fun x => [x.oldColumn, x.newColumn]).Nodup)
    (htotal : ∀ x ∈ xs, x.Total S) (hun : ∀ x ∈ xs, fr.new x.newColumn = if fr.inserting then none else fr.old x.newColumn) :
    exec S fr (xs.map Pair.stmt) = if ∀ x ∈ xs, x.resolves S fr = true then some (filled S ⟨[], xs⟩ fr) else none := by
  induction xs generalizing fr with
  | nil => rfl
  | cons x xs ih =>
    simp only [flatMap_cons, cons_append, nil_append, nodup_cons, mem_cons, not_or] at hnodup
    obtain ⟨⟨hne, hold⟩, hnew, hnodup⟩ := hnodup
    have hcols : ∀ y ∈ xs, y.oldColumn ≠ x.newColumn ∧ y.newColumn ≠ x.newColumn := by
      intro y hy
      constructor <;> exact fun heq => hnew (mem_flatMap.mpr ⟨y, hy, by simp [heq]⟩)
    rw [map_cons, exec, exec_pair hrefl (htotal x mem_cons_self) (hun x mem_cons_self)]
    by_cases hx : x.resolves S fr = true
    · -- the frame for the other pairs differs in the new column of this one only
      let new := if x.changed S fr then update fr.new x.newColumn ((x.assigned S fr).getD none) else fr.new
      have hsame : ∀ c, c ≠ x.newColumn → new c = fr.new c := by
        intro c hc
        simp only [new]
        split_ifs
        · exact update_of_ne hc _ _
        · rfl
      have hchanged : ∀ y ∈ xs, y.changed S { fr with new } = y.changed S fr := fun y hy => by
        simp only [Pair.changed, hsame _ (hcols y hy).1]
      have hresolves : ∀ y ∈ xs, y.resolves S { fr with new } = y.resolves S fr := fun y hy => by
        simp only [Pair.resolves, hchanged y hy]
      simp only [hx, if_true, forall_mem_cons, true_and]
      show exec S { fr with new } (xs.map Pair.stmt) = _
      rw [ih hnodup (fun y hy => htotal y (mem_cons_of_mem _ hy)) fun y hy => (hsame _ (hcols y hy).2).trans (hun y (mem_cons_of_mem _ hy))]
      have hiff : (∀ y ∈ xs, y.resolves S { fr with new } = true) ↔ ∀ y ∈ xs, y.resolves S fr = true :=
        forall_congr' fun y => forall_congr' fun hy => by rw [hresolves y hy]
      simp only [hiff]
      have hfilled : filled S ⟨[], xs⟩ { fr with new } = filled S ⟨[], x :: xs⟩ fr := by
        funext c
        unfold filled
        by_cases hc : c = x.newColumn
        · subst hc
          have hnone : (xs.find? fun y => y.newColumn = x.newColumn) = none := find?_eq_none.mpr fun y hy => by simpa using (hcols y hy).2
          simp only [hnone, find?_cons, decide_true]
          simp only [new]
          split_ifs
          · exact update_self _ _ _
          · rfl
        · simp only [find?_cons, decide_eq_false (fun h : x.newColumn = c => hc h.symm)]
          cases hfind : xs.find? fun y => y.newColumn = c with
          | none => exact hsame c hc
          | some y =>
            have hy := mem_of_find?_eq_some hfind
            have hassigned : y.assigned S { fr with new } = y.assigned S fr := assigned_congr (hsame _ (hcols y hy).1)
            simp only [hchanged y hy, hassigned, hsame c hc]
      rw [hfilled]
    · simp [hx]

theorem filled_of_not_new {t : Table} {c : GoString} (hc : ∀ x ∈ t.pairs, c ≠ x.newColumn) : filled S t fr c = fr.new c := by
  have hnone : (t.pairs.find? fun x => x.newColumn = c) = none := find?_eq_none.mpr fun x hx => by simpa using (hc x hx).symm
  simp only [filled, hnone]

/-- The whole trigger. -/
theorem exec_program (hrefl : Reflexive S) {t : Table} (hnodup : (t.pairs.flatMap fun x => [x.oldColumn, x.newColumn]).Nodup)
    (htotal : ∀ x ∈ t.pairs, x.Total S) (hun : Unassigned t fr) : exec S fr (program t) = if 1 < fr.depth then none
      else if fr.setting backfillSetting = str "on" then some fr.new
      else if ∀ x ∈ t.pairs, x.resolves S fr = true then some (filled S t fr) else none := by
  unfold program
  by_cases hdepth : 1 < fr.depth
  · simp [exec, Stmt.exec, execChain, Cond.eval, Cond.resolves, Cond.holds, Action.exec, hdepth]
  · by_cases hback : fr.setting backfillSetting = str "on"
    · simp [exec, Stmt.exec, execChain, Cond.eval, Cond.resolves, Cond.holds, Action.exec, hdepth, hback]
    · simp only [exec, Stmt.exec, execChain, Cond.eval, Cond.resolves, Cond.holds, if_true, hdepth, hback, decide_false, if_false]
      exact exec_pairs hrefl hnodup htotal hun

/-- A write that assigns no new column and succeeds without the trigger succeeds with it, and stores the same values in the
other columns, if and only if it is not issued inside a trigger, and the backfill writes it, or the comparisons of the
trigger have operators and the constraints accept the row with its new columns. -/
theorem oldWrite_iff {p : Policy} {s : Spec} (hvalid : s.validate p = .ok ()) {t : Table} (ht : t ∈ s.tables) (hrefl : Reflexive S)
    (htotal : ∀ x ∈ t.pairs, x.Total S) (hun : Unassigned t fr) {accepts : Row V → Bool} (hok : accepts fr.new = true) :
    (∃ r, withTrigger S accepts t fr = some r ∧ ∀ c, (∀ x ∈ t.pairs, c ≠ x.newColumn) → r c = fr.new c) ↔
      fr.depth ≤ 1 ∧ (fr.setting backfillSetting = str "on" ∨ (∀ x ∈ t.pairs, x.resolves S fr = true) ∧ accepts (filled S t fr) = true) := by
  unfold withTrigger
  rw [exec_program hrefl (nodup_columns hvalid ht) htotal hun]
  split_ifs with hdepth hback hres
  · simp [Nat.not_le.mpr hdepth]
  · simp [hback, hok, Nat.le_of_not_lt hdepth]
  · constructor
    · rintro ⟨r, hr, -⟩
      obtain ⟨hfilled, hacc⟩ := filter_eq_some_iff.mp hr
      cases hfilled
      exact ⟨Nat.le_of_not_lt hdepth, .inr ⟨hres, hacc⟩⟩
    · rintro ⟨-, hback' | ⟨-, hacc⟩⟩
      · exact absurd hback' hback
      · exact ⟨filled S t fr, filter_eq_some_iff.mpr ⟨rfl, hacc⟩, fun c hc => filled_of_not_new hc⟩
  · simp [hback, hres]

/-! ### One pair of columns -/

def samplePair : Pair := { id := str "p", oldColumn := str "a", newColumn := str "b", forward := str "value", reverse := str "value" }

def sampleTable : Table := { name := str "t", pairs := [samplePair] }

example : samplePair.updateChain.head?.map (renderBranch renderCall quoteIdent) =
    some (str "NEW.\"a\" is distinct from OLD.\"a\" and NEW.\"b\" is not distinct from OLD.\"b\" then NEW.\"b\" := NEW.\"a\";") := by decide +kernel

def sampleSpec : Spec :=
  let s : Spec := { version := ShadowSync.version, artifactDigest := List.replicate 64 0x30, physicalSchema := str "public", tables := [sampleTable] }
  { s with digest := ShadowSync.digest s }

/-- All columns are text; `comparable` says whether there is an operator `=` for their types. -/
def textSystem (comparable : Bool) : PlPgSql.System Fn Unit GoString :=
  { columnType := fun _ => (), resultType := fun _ _ => some (), call := fun _ _ v => some v, comparable := fun _ _ => comparable
    same := fun _ _ x y => x = y, coerce := fun _ _ v => some v }

/-- The old application writes the column `a`. -/
def sampleWrite (depth : Nat) (inserting : Bool) : Frame GoString :=
  { depth, inserting, setting := fun _ => [], old := fun _ => none, new := fun c => if c = str "a" then some (str "x") else none }

theorem oldWrite_iff_sample : (∃ r, withTrigger (textSystem true) (fun _ => true) sampleTable (sampleWrite 1 true) = some r ∧
      ∀ c, (∀ x ∈ sampleTable.pairs, c ≠ x.newColumn) → r c = (sampleWrite 1 true).new c) ↔
    (sampleWrite 1 true).depth ≤ 1 ∧ ((sampleWrite 1 true).setting backfillSetting = str "on" ∨
      (∀ x ∈ sampleTable.pairs, x.resolves (textSystem true) (sampleWrite 1 true) = true) ∧ (fun _ : Row GoString => true) (filled (textSystem true) sampleTable (sampleWrite 1 true)) = true) :=
  oldWrite_iff (p := ⟨false, false⟩) (s := sampleSpec) (by decide +kernel) mem_cons_self (fun _ _ => by simp [textSystem])
    (fun x hx fr => by rw [mem_singleton.mp hx]; rfl) (fun x hx => by rw [mem_singleton.mp hx]; rfl) rfl

/-- A write inside another trigger fails; and so does an update of columns whose type has no operator `=`. -/
theorem oldWrite_refused : sampleSpec.validate ⟨false, false⟩ = .ok () ∧ Unassigned sampleTable (sampleWrite 2 true) ∧ Unassigned sampleTable (sampleWrite 1 false) ∧
    (∀ comparable, ∀ x ∈ sampleTable.pairs, x.Total (textSystem comparable)) ∧
    withTrigger (textSystem true) (fun _ => true) sampleTable (sampleWrite 2 true) = none ∧
    withTrigger (textSystem false) (fun _ => true) sampleTable (sampleWrite 1 false) = none := by
  refine ⟨by decide +kernel, fun x hx => ?_, fun x hx => ?_, fun comparable x hx fr => ?_, rfl, rfl⟩
  all_goals
    rw [mem_singleton.mp hx]
    rfl

end AutoSql.ShadowSync
