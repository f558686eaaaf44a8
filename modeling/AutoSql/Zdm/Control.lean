/-
AutoSql/Zdm/Control.lean

What the zero-downtime packages have in common: their configuration, the scope of a
target and environment, the keys of their advisory locks, and the control schema that
each of them creates for itself.

The packages repeat this code.  It is written here once, with the package's own version,
schema, markers and messages as parameters, and each package applies it to its values.
-/
import AutoSql.Lib.Json
import AutoSql.Lib.Sha256
import AutoSql.Zdm.World

namespace AutoSql.Zdm

/-- The errors of the packages.  `invalid` and `refused` wrap the package's `ErrInvalid` and
`ErrRefused`; `database` and `caller` are errors that come from outside. -/
inductive Error
  | invalid (detail : GoString)
  | refused (detail : GoString)
  | busy
  | database
  | caller
  | wrapped (text : GoString)
  deriving DecidableEq

/-- A function that returns a status and an error; the status is `Status{}` where it is not set. -/
abbrev Program (σ α : Type) : Type := Prog Statement World (σ × Error) α

section Programs

variable {σ α : Type} [Inhabited σ]

/-- `return Status{}, err` -/
def giveUp (e : Error) : Program σ α := Prog.fail (default, e)

/-- The value of a pure function, or its error. -/
def lift : Except Error α → Program σ α
  | .ok a => pure a
  | .error e => giveUp e

/-- A statement whose failure is returned as it is. -/
def sql (c : Statement) : Program σ World := Prog.stmt c (default, .database)

/-- A call of one of the caller's functions in a phase.  When it reports a failure it may still be
at work: its statement may have been given up and not have ended. -/
def act (a : Action) (version : GoString) : Program σ Unit := do
  let _ ← Prog.always (.enter a version)
  let _ ← Prog.stmt .leave (default, .caller)
  pure ()

/-- `st, _ := …` -/
def orZero (p : Program σ σ) : Program σ σ := p.onError fun _ => pure default

end Programs

/-! ### Texts -/

def isLowerOrUnderscore (b : UInt8) : Bool := (0x61 ≤ b && b ≤ 0x7A) || b == 0x5F

/-- `^[a-z_][a-z0-9_]{0,62}$` -/
def ident : GoString → Bool
  | [] => false
  | b :: s => isLowerOrUnderscore b && s.all (fun c => isLowerOrUnderscore c || isDigit c) && s.length ≤ 62

/-- `^[0-9a-f]{64}$` -/
def hex64 (s : GoString) : Bool := s.length == 64 && s.all fun b => isDigit b || (0x61 ≤ b && b ≤ 0x66)

/-- `hex.EncodeToString` of the SHA-256 sum of a JSON text. -/
def jsonDigest (j : Json) : GoString := GoString.hexEncode (Sha256.sum256 j.encode)

/-! ### Configuration -/

/-- The configuration of `start`, `contract` and `rollback`. -/
structure Config where
  url : GoString
  schema : GoString
  target : GoString
  environment : GoString
  lockTimeoutMS : Int
  deriving DecidableEq

def Config.withSchema (defaultSchema : GoString) (c : Config) : Config :=
  if c.schema = [] then { c with schema := defaultSchema } else c

/-- The configuration with its default schema. -/
def defaults (defaultSchema detail : GoString) (c : Config) : Except Error Config :=
  let c := c.withSchema defaultSchema
  if c.url = [] ∨ c.target = [] ∨ c.environment = [] ∨ ident c.schema = false ∨ c.lockTimeoutMS ≤ 0 then .error (.invalid detail)
  else .ok c

theorem defaults_ok {d detail : GoString} {c c' : Config} (h : defaults d detail c = .ok c') : c' = c.withSchema d := by
  simp only [defaults] at h
  split_ifs at h
  cases h
  rfl

/-- A configuration that has passed stays as it is. -/
theorem defaults_again {d detail : GoString} {c c' : Config} (h : defaults d detail c = .ok c') : defaults d detail c' = .ok c' := by
  obtain rfl := defaults_ok h
  have hschema : (c.withSchema d).schema ≠ [] := by
    intro hnil
    simp [defaults, hnil, ident] at h
  have hsame : (c.withSchema d).withSchema d = c.withSchema d := if_neg hschema
  rw [← h]
  simp only [defaults, hsame]

/-- The name of a target and environment in the tables and lock keys. -/
def scope (c : Config) : GoString := jsonDigest (.arr [.str c.target, .str c.environment])

def Config.key (c : Config) : Key := (c.schema, scope c)

/-- The advisory lock of a target and environment. -/
def domain (version : GoString) (c : Config) : GoString := version ++ str "/" ++ c.schema ++ str "/" ++ scope c

/-- The advisory lock of the control schema. -/
def initDomain (version : GoString) (c : Config) : GoString := version ++ str "/" ++ c.schema ++ str "/init"

theorem length_scope (c : Config) : (scope c).length = 64 := by
  unfold scope jsonDigest
  rw [GoString.length_hexEncode, Sha256.length_sum256]

/-- The two locks of a package are different. -/
theorem initDomain_ne_domain (version : GoString) (c : Config) : initDomain version c ≠ domain version c := by
  intro h
  have hlen := congrArg List.length h
  have hinit : (str "/init").length = 5 := by decide +kernel
  have hslash : (str "/").length = 1 := by decide +kernel
  simp only [initDomain, domain, List.length_append, length_scope, hinit, hslash] at hlen
  omega

/-! ### The control schema -/

variable {σ : Type} [Inhabited σ]

/-- Where `schema` is not there it is created and marked; where it is there it must carry the mark. -/
def ensureSchema (schema marker : GoString) : Program σ Unit := do
  let w ← sql (.catalog id)
  match w.catalog.schemas schema with
  | some comment => if comment ≠ some marker then giveUp (.invalid (str "control schema collision")) else pure ()
  | none => do
    let _ ← sql (.catalog (·.setSchema schema none))
    let _ ← sql (.catalog (·.setSchema schema (some marker)))
    pure ()

/-- The same for a table of the schema. -/
def ensureTable (schema table marker detail : GoString) : Program σ Unit := do
  let w ← sql (.catalog id)
  match w.catalog.tables (schema, table) with
  | some comment => if comment ≠ some marker then giveUp (.invalid detail) else pure ()
  | none => do
    let _ ← sql (.catalog (·.setTable (schema, table) none))
    let _ ← sql (.catalog (·.setTable (schema, table) (some marker)))
    pure ()

/-- `ensure` of `start`, `contract` and `backfill`. -/
def ensure (marker table detail schema : GoString) : Program σ Unit := do
  ensureSchema schema marker
  ensureTable schema table (marker ++ str ":" ++ table) detail

/-- `create table if not exists` -/
def createTable (schema table : GoString) : Program σ Unit := do
  let _ ← sql (.catalog (·.createTable (schema, table)))
  pure ()

/-- Take the lock of the target, then initialize the control schema behind its own lock.  `taken`
is the error if the target is locked. -/
def acquire (me : Nat) (version : GoString) (taken : Error) (init : Program σ Unit) (c : Config) : Program σ Unit := do
  let w ← sql (.tryLock (domain version c))
  if w.locks (domain version c) ≠ some me then giveUp taken
  else do
    let _ ← sql (.lock (initDomain version c))
    init.onError fun e => do
      Prog.attempt (.unlock (initDomain version c))
      Prog.fail e
    let _ ← sql (.unlock (initDomain version c))
    pure ()

/-! ### What these programs do -/

section Only

variable {P : Statement → Prop}

theorem only_lift {α : Type} (r : Except Error α) : (lift r : Program σ α).Only P := by
  cases r <;> trivial

theorem only_sql {c : Statement} (h : P c) : (sql c : Program σ World).Only P := Prog.Only.stmt h

theorem only_act {a : Action} {v : GoString} (henter : P (.enter a v)) (hleave : P .leave) : (act a v : Program σ Unit).Only P :=
  (Prog.Only.always henter).bind fun _ => (Prog.Only.stmt hleave).bind fun _ => trivial

theorem only_orZero {p : Program σ σ} (h : p.Only P) : (orZero p).Only P := h.onError fun _ => trivial

theorem only_ensureSchema (h : ∀ f, P (.catalog f)) (schema marker : GoString) : (ensureSchema schema marker : Program σ Unit).Only P := by
  refine (only_sql (h _)).bind fun w => ?_
  cases w.catalog.schemas schema with
  | some comment =>
    show (if _ then _ else _ : Program σ Unit).Only P
    split_ifs <;> trivial
  | none => exact (only_sql (h _)).bind fun _ => (only_sql (h _)).bind fun _ => trivial

theorem only_ensureTable (h : ∀ f, P (.catalog f)) (schema table marker detail : GoString) :
    (ensureTable schema table marker detail : Program σ Unit).Only P := by
  refine (only_sql (h _)).bind fun w => ?_
  cases w.catalog.tables (schema, table) with
  | some comment =>
    show (if _ then _ else _ : Program σ Unit).Only P
    split_ifs <;> trivial
  | none => exact (only_sql (h _)).bind fun _ => (only_sql (h _)).bind fun _ => trivial

theorem only_createTable (h : ∀ f, P (.catalog f)) (schema table : GoString) : (createTable schema table : Program σ Unit).Only P :=
  (only_sql (h _)).bind fun _ => trivial

/-- `ensure` works on the catalog only. -/
theorem only_ensure (h : ∀ f, P (.catalog f)) (marker table detail schema : GoString) :
    (ensure marker table detail schema : Program σ Unit).Only P :=
  (only_ensureSchema h _ _).bind fun _ => only_ensureTable h _ _ _ _

end Only

section Lift

variable {α β : Type} {P : Type} {Y : System Statement World P Env} {D : Discipline Y} {me : Nat} {w : World}

/-- A pure function, and what follows it if it succeeds. -/
theorem meets_lift {r : Except Error α} {f : α → Program σ β} {Q : Except (σ × Error) β → World → Prop}
    (herror : ∀ e, Q (.error e) w) (h : ∀ a, r = .ok a → D.Meets me (f a) w Q) : D.Meets me (lift r >>= f) w Q := by
  cases r with
  | ok a => exact h a rfl
  | error e => exact herror _

theorem meets_checked {r : Except Error α} {f : α → Program σ β} {Q : β → World → Prop}
    (h : ∀ a, r = .ok a → D.Meets me (f a) w (Discipline.Returns Q)) : D.Meets me (lift r >>= f) w (Discipline.Returns Q) :=
  meets_lift (fun _ => Discipline.Returns.error) h

end Lift

section Acquire

variable {P : Type} {Y : System Statement World P Env} {D : Discipline Y} {me : Nat} {w : World} {v : GoString} {taken : Error}
  {init : Program σ Unit} {c : Config} {K : World → Prop}

/-- The statements by which the control schema is initialized, with `key` the lock around it. -/
def initializes (key : GoString) : Statement → Prop
  | .lock k => k = key
  | .unlock k => k = key
  | .catalog _ => True
  | _ => False

/-- A session that returns from `acquire` has the lock, and what it knows from having it. -/
theorem meets_acquire (hinit : init.Only (initializes (initDomain v c)))
    (hlock : ∀ {w₁ w₂}, D.Inv w₁ → D.Rely me w w₁ → D.Assumes me (.tryLock (domain v c)) w₁ →
      Y.exec me (.tryLock (domain v c)) w₁ = some w₂ →
        D.Inv w₂ ∧ D.Guar me (.tryLock (domain v c)) w₁ w₂ ∧ (w₂.locks (domain v c) = some me → K w₂))
    (hK : ∀ {w w'}, K w → D.Rely me w w' → K w')
    (hcall : ∀ {a w₁ w₂}, initializes (initDomain v c) a → D.Inv w₁ → K w₁ → Y.exec me a w₁ = some w₂ →
      D.Inv w₂ ∧ D.Guar me a w₁ w₂ ∧ K w₂) :
    D.Meets me (acquire me v taken init c) w fun r w' => ∀ u, r = .ok u → K w' := by
  refine Discipline.Meets.stmt fun w₁ hI hR hA => ⟨nofun, fun w₂ hw₂ => ?_⟩
  obtain ⟨hI₂, hG, hwon⟩ := hlock hI hR hA hw₂
  refine ⟨hI₂, hG, nofun, ?_⟩
  split_ifs with hown
  · exact nofun
  · have honly : Prog.Only (initializes (initDomain v c)) (do
        let _ ← sql (.lock (initDomain v c))
        init.onError fun e => do
          Prog.attempt (.unlock (initDomain v c))
          Prog.fail e
        let _ ← sql (.unlock (initDomain v c))
        pure () : Program σ Unit) := by
      have hl : initializes (initDomain v c) (.lock (initDomain v c)) := rfl
      have hu : initializes (initDomain v c) (.unlock (initDomain v c)) := rfl
      refine (only_sql hl).bind fun _ => (hinit.onError fun _ => ?_).bind fun _ => (only_sql hu).bind fun _ => trivial
      exact (Prog.Only.attempt hu).bind fun _ => trivial
    exact (Discipline.Meets.of_only hK (fun ha hI h _ he => hcall ha hI h he) honly (hwon (not_not.mp hown))).mono fun r w' h _ _ => h

end Acquire

end AutoSql.Zdm
