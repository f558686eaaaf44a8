/-
AutoSql/Plan/Edit.lean

Controlled edits of a plan, and the two places that check their provenance.

An edit replaces the SQL of a plan by other SQL with the same syntax trees and
adds a record to the provenance: who edited, when and why, the digest of the SQL,
and the digest of what was edited.  `EditedArtifact.validate` checks the records
of a draft, `validateEditProvenance` those of the artifact made from it.  Both
expect the first record to name the original plan and every other record to name
the record before it.  `edit` writes the first; for every later record it writes
the digest of the draft instead, which is a digest of another text under another
prefix.  So a draft passes after one edit and never after two.

The outside world: PostgreSQL's parser (`PgQuery`), the artifact package's reading
and writing of artifacts (`Codec`), and the text of an instant (`rfc3339`).
Attestations are what a validation pipeline says; the checks on them do not depend
on the records except for the digest of the last one.

Main result: `edits_valid_iff`.
-/
import AutoSql.Lib.Base64
import AutoSql.Plan.Model
import AutoSql.Source.Split

namespace AutoSql.PlanEdit

open GoJson Plans Fallible List

/-! ### The outside world -/

/-- A statement as PostgreSQL's parser sees it: whether it is a session, transaction, role, lock or COPY statement, whether
it is one of the supported DDL statements, and its tree as JSON. -/
structure Node where
  control : Bool
  declarative : Bool
  json : GoString

structure PgQuery where
  parse : GoString → Option (List Node)
  fingerprint : GoString → Option GoString
  indexConcurrent : GoString → Bool

/-- What this package reads of an artifact; `signature` is the signature as JSON. -/
structure Original where
  plan : Plan
  digest : GoString
  signature : GoString

/-- `MarshalCanonical` and `Parse` of artifacts. -/
structure Codec where
  marshal : Original → Option GoString
  parse : GoString → Option Original

/-- An instant, in nanoseconds after the zero time, and whether its location is UTC. -/
structure Time where
  instant : Int
  utc : Bool
  deriving DecidableEq

variable (pg : PgQuery) (codec : Codec) (rfc3339 : Time → Option GoString)

/-! ### Records -/

structure EditRecord where
  digest : GoString
  parentDigest : GoString
  sqlDigest : GoString
  editorIdentity : GoString
  editedAt : Time
  reason : GoString
  source : GoString

structure Editor where
  identity : GoString
  time : Time
  reason : GoString

structure EditedArtifact where
  version : GoString
  original : GoString
  originalPlan : Plan
  candidatePlan : Plan
  editedSQL : GoString
  provenance : List EditRecord
  digest : GoString

def editVersion : GoString := str "autosql.planedit/v1"

def hashText (package domain b : GoString) : GoString := str "autosql." ++ package ++ str "." ++ domain ++ str "/v1" ++ 0 :: b

/-- `"sha256:" + hex(sha256(text))`. -/
def hashOf (text : GoString) : GoString := str "sha256:" ++ GoString.hexEncode (Sha256.sum256 text)

/-- `hash`, of package planedit. -/
def hash (domain b : GoString) : GoString := hashOf (hashText (str "planedit") domain b)

/-- `provHash` of package planedit and `editHash` of package artifact. -/
def provHash (domain b : GoString) : GoString := hashOf (hashText (str "edit-provenance") domain b)

/-- A value as text; nothing if it cannot be written. -/
def js (v : Option Json) : GoString := (v.map Json.encode).getD []

def EditRecord.json (r : EditRecord) : Option Json :=
  (rfc3339 r.editedAt).map fun t =>
    .obj [(str "digest", .str r.digest), (str "parent_digest", .str r.parentDigest), (str "sql_digest", .str r.sqlDigest),
      (str "editor_identity", .str r.editorIdentity), (str "edited_at", .str t), (str "reason", .str r.reason),
      (str "source", .str r.source)]

/-- The digest of a record. -/
def EditRecord.hash (r : EditRecord) : GoString := provHash (str "record") (js (EditRecord.json rfc3339 { r with digest := [] }))

/-- What the digest of a draft is taken from. -/
def draftJSON (original : GoString) (plan : Plan) (records : List EditRecord) : Option Json := do
  let plan ← plan.json
  let records ← records.mapM (EditRecord.json rfc3339)
  some (.obj [(str "Original", .str (Base64.encode original)), (str "Plan", plan), (str "Records", .arr records)])

def draftHash (original : GoString) (plan : Plan) (records : List EditRecord) : GoString :=
  hash (str "draft") (js (draftJSON rfc3339 original plan records))

/-! ### Editing -/

inductive Error
  | invalid
  | original
  | editor
  | time
  | parser
  | coverage
  | control
  | declarative
  | guarded
  | plan (why : Plans.Error)
  | cardinality
  | binding
  | fingerprint
  deriving DecidableEq

def protectedWords : List GoString :=
  [str "pg_advisory", str "autosql_migration_history", str "search_path", str "session_authorization", str "autosql_audit"]

def checkNode (n : Node) (sql : GoString) : Except Error Unit := do
  if n.control then .error .control
  if !n.declarative then .error .declarative
  if protectedWords.any (Text.contains (Text.toLower (n.json ++ str " " ++ sql))) then .error .guarded

/-- The statements of an edited text. -/
def parse (file sql : GoString) : Except Error (List GoString) :=
  match pg.parse sql, Source.splitSQL file sql with
  | none, _ => .error .parser
  | some _, .error _ => .error .coverage
  | some tree, .ok ss => do
    let parts := ss.map Source.Statement.sql
    if parts = [] ∨ tree.length ≠ parts.length then .error .coverage
    (tree.zip parts).forM fun p => checkNode p.1 p.2
    .ok parts

def executable (p : Plan) : List Step := p.stepList.filter fun s => s.kind = .executable

/-- The edited steps have the syntax trees of the original ones. -/
def bindDDL (e : EditedArtifact) : Except Error Unit := do
  let original := executable e.originalPlan
  let candidate := executable e.candidatePlan
  if original.length ≠ candidate.length then .error .cardinality
  (original.zip candidate).forM fun p => do
    if p.1.changeID ≠ p.2.changeID then .error .binding
    if pg.fingerprint p.1.sql = none ∨ pg.fingerprint p.2.sql ≠ pg.fingerprint p.1.sql then .error .fingerprint

/-- The checks on the editor; `now` is the time of the call. -/
def checkEditor (now : Int) (file : GoString) (editor : Editor) : Bool :=
  editor.identity ≠ [] && editor.reason.length ≤ 4096 && Text.trimSpace editor.reason ≠ [] &&
    editor.reason.all (fun b => 32 ≤ b || b == 0x0A || b == 0x09) && editor.time.instant ≠ 0 && editor.time.utc &&
    editor.time.instant ≤ now + 60000000000 && file ≠ []

def edit (e : EditedArtifact) (now : Int) (sql file : GoString) (editor : Editor) : Except Error EditedArtifact := do
  if !checkEditor now file editor then .error .editor
  if e.provenance.getLast?.any fun r => editor.time.instant ≤ r.editedAt.instant then .error .time
  let parts ← parse pg file sql
  let candidate ← (editSQL pg.indexConcurrent e.candidatePlan parts).mapError .plan
  let parent := if e.digest ≠ [] then e.digest else e.originalPlan.digest
  let r : EditRecord := ⟨[], parent, hash (str "sql") sql, editor.identity, editor.time, editor.reason, file⟩
  let r := { r with digest := r.hash rfc3339 }
  let e := { e with candidatePlan := candidate, editedSQL := sql }
  bindDDL pg e
  let records := e.provenance ++ [r]
  .ok { e with provenance := records, digest := draftHash rfc3339 e.original e.candidatePlan records }

def new (now : Int) (raw : GoString) (a : Original) (sql file : GoString) (editor : Editor) : Except Error EditedArtifact := do
  if raw = [] then .error .invalid
  if codec.marshal a ≠ some raw then .error .original
  edit pg rfc3339 ⟨editVersion, raw, a.plan, a.plan, [], [], []⟩ now sql file editor

/-- An edit: when it is made, the SQL and its file, and the editor. -/
structure Request where
  now : Int
  sql : GoString
  file : GoString
  editor : Editor

def editAll (e : EditedArtifact) (rs : List Request) : Except Error EditedArtifact :=
  rs.foldlM (fun e r => edit pg rfc3339 e r.now r.sql r.file r.editor) e

/-! ### Checking -/

/-- The loop over the records: the digest each has to name is the one of the record before it. -/
def checkRecords (ok : EditRecord → Bool) : GoString → List EditRecord → Option GoString
  | parent, [] => some parent
  | parent, r :: rs =>
    if r.parentDigest = parent ∧ r.digest = r.hash rfc3339 ∧ ok r = true then checkRecords ok r.digest rs else none

def EditedArtifact.validate (e : EditedArtifact) : Except Error Unit := do
  if e.version ≠ editVersion ∨ e.digest = [] ∨ e.original = [] ∨ e.provenance = [] then .error .invalid
  match codec.parse e.original with
  | none => .error .invalid
  | some a =>
    if a.plan.digest ≠ e.originalPlan.digest then .error .invalid
    match checkRecords rfc3339 (fun _ => true) e.originalPlan.digest e.provenance with
    | none => .error .invalid
    | some parent =>
      if draftHash rfc3339 e.original e.candidatePlan e.provenance ≠ e.digest ∨
          some parent ≠ e.provenance.getLast?.map EditRecord.digest then .error .invalid
      if e.provenance.getLast?.map EditRecord.sqlDigest ≠ some (hash (str "sql") e.editedSQL) then .error .invalid
      let _ ← parse pg (str "edited.sql") e.editedSQL
      bindDDL pg e

structure SimulationAttestation where
  targetIdentity : GoString
  developmentIdentity : GoString
  fromFingerprint : GoString
  toFingerprint : GoString
  configDigest : GoString

structure SafetyAttestation where
  analyzers : List GoString
  threshold : GoString
  configDigest : GoString

structure PrecheckAttestation where
  checksDigest : GoString
  guardrailDigest : GoString
  configDigest : GoString

structure EditorAttestation where
  identity : GoString
  reasonDigest : GoString
  chainDigest : GoString
  configDigest : GoString

/-- What a stage of the validation pipeline says; of a policy only the digest of its configuration is read. -/
structure ValidationAttestation where
  stage : GoString
  implementation : GoString
  version : GoString
  configDigest : GoString
  resultDigest : GoString
  time : Time
  expiresAt : Time
  simulation : Option SimulationAttestation
  safety : Option SafetyAttestation
  policy : Option GoString
  precheck : Option PrecheckAttestation
  editor : Option EditorAttestation

structure EditProvenance where
  version : GoString
  originalArtifact : GoString
  originalLength : Nat
  originalBytesDigest : GoString
  originalArtifactDigest : GoString
  originalPlanDigest : GoString
  originalSignatureDigest : GoString
  candidatePlanDigest : GoString
  candidateBytesDigest : GoString
  chainDigest : GoString
  records : List EditRecord
  attestations : List ValidationAttestation

def provenanceVersion : GoString := str "autosql.edit-provenance/v1"

/-- `Plan.MarshalCanonical`; nothing of an invalid plan. -/
def canonicalPlan (p : Plan) : GoString :=
  match p.validate pg.indexConcurrent with
  | .ok _ => p.canonical.getD []
  | .error _ => []

/-- The provenance that `FreshArtifact` writes for the draft `e`; `original` is the artifact its bytes are read as. -/
def freshProvenance (e : EditedArtifact) (original : Original) (attestations : List ValidationAttestation) : EditProvenance :=
  { version := provenanceVersion, originalArtifact := e.original, originalLength := e.original.length
    originalBytesDigest := provHash (str "original-bytes") e.original, originalArtifactDigest := original.digest
    originalPlanDigest := original.plan.digest
    originalSignatureDigest := provHash (str "signature") original.signature
    candidatePlanDigest := e.candidatePlan.digest
    candidateBytesDigest := provHash (str "candidate") (canonicalPlan pg e.candidatePlan)
    chainDigest := (e.provenance.getLast?.map EditRecord.digest).getD [], records := e.provenance
    attestations := attestations }

/-- A record by itself, as the artifact package checks it. -/
def recordComplete (r : EditRecord) : Bool :=
  r.editorIdentity ≠ [] && r.reason ≠ [] && r.source ≠ [] && r.editedAt.instant ≠ 0 && r.editedAt.utc

/-- `rawDigestPattern`. -/
def isRawDigest (s : GoString) : Bool := s.length == 64 && s.all fun b => isDigit b || (0x61 ≤ b && b ≤ 0x66)

/-- `digestPattern`. -/
def isDigest (s : GoString) : Bool := GoString.hasPrefix s (str "sha256:") && isRawDigest (s.drop 7)

/-- The evidence of the stage of an attestation. -/
def ValidationAttestation.evidence (chainDigest : GoString) (v : ValidationAttestation) : Bool :=
  if v.stage = str "parse_rebind" then
    v.editor.any fun a => a.identity ≠ [] && isDigest a.reasonDigest && a.chainDigest = chainDigest &&
      a.configDigest = v.configDigest
  else if v.stage = str "simulation" then
    v.simulation.any fun a => a.targetIdentity ≠ [] && a.developmentIdentity ≠ [] &&
      a.targetIdentity ≠ a.developmentIdentity && a.fromFingerprint ≠ [] && a.toFingerprint ≠ [] &&
      a.configDigest = v.configDigest
  else if v.stage = str "safety" then
    v.safety.any fun a => a.analyzers ≠ [] && a.threshold ≠ [] && a.configDigest = v.configDigest
  else if v.stage = str "policy_precheck_guardrail" then
    v.policy = some v.configDigest && v.precheck.any fun a => a.configDigest = v.configDigest &&
      (isDigest a.checksDigest || isRawDigest a.checksDigest) && isDigest a.guardrailDigest
  else false

def ValidationAttestation.accepted (chainDigest : GoString) (v : ValidationAttestation) : Bool :=
  v.implementation ≠ [] && v.version ≠ [] && isDigest v.configDigest && isDigest v.resultDigest &&
    v.time.instant ≠ 0 && v.time.utc && v.time.instant < v.expiresAt.instant && v.expiresAt.utc && v.evidence chainDigest

/-- `validateEditProvenance`, for an artifact with the plan `plan`. -/
def validateEditProvenance (plan : Plan) (p : EditProvenance) : Bool :=
  p.version = provenanceVersion && p.originalLength = p.originalArtifact.length &&
    p.originalBytesDigest = provHash (str "original-bytes") p.originalArtifact && p.candidatePlanDigest = plan.digest &&
    (match codec.parse p.originalArtifact with
      | none => false
      | some original =>
        original.digest = p.originalArtifactDigest && original.plan.digest = p.originalPlanDigest &&
          p.originalSignatureDigest = provHash (str "signature") original.signature) &&
    p.candidateBytesDigest = provHash (str "candidate") (canonicalPlan pg plan) &&
    p.records ≠ [] && checkRecords rfc3339 recordComplete p.originalPlanDigest p.records = some p.chainDigest &&
    p.attestations.all (ValidationAttestation.accepted p.chainDigest)

/-! ### One edit -/

variable {pg codec rfc3339}

/-- What a successful edit does. -/
structure Edited (pg : PgQuery) (rfc3339 : Time → Option GoString) (e : EditedArtifact) (r : EditRecord) (e' : EditedArtifact) :
    Prop where
  version : e'.version = e.version
  original : e'.original = e.original
  originalPlan : e'.originalPlan = e.originalPlan
  provenance : e'.provenance = e.provenance ++ [r]
  parent : r.parentDigest = if e.digest ≠ [] then e.digest else e.originalPlan.digest
  record : r.digest = r.hash rfc3339
  complete : recordComplete r = true
  sql : r.sqlDigest = hash (str "sql") e'.editedSQL
  digest : e'.digest = draftHash rfc3339 e'.original e'.candidatePlan e'.provenance
  parses : ∃ file parts, parse pg file e'.editedSQL = .ok parts
  binds : bindDDL pg e' = .ok ()

variable {e : EditedArtifact} {file raw sql : GoString} {r : EditRecord}

theorem edit_ok {e' : EditedArtifact} {now : Int} {editor : Editor}
    (h : edit pg rfc3339 e now sql file editor = .ok e') : ∃ r, Edited pg rfc3339 e r e' := by
  unfold edit at h
  simp only [bind_ok, error_bind, guard_ok, mapError_ok, Bool.not_eq_true, Bool.not_eq_false'] at h
  obtain ⟨heditor, -, parts, hparse, candidate, -, u, hbind, h⟩ := h
  cases h
  simp only [checkEditor, Bool.and_eq_true, decide_eq_true_eq] at heditor
  obtain ⟨⟨⟨⟨⟨⟨⟨hid, -⟩, hreason⟩, -⟩, htime⟩, hutc⟩, -⟩, hfile⟩ := heditor
  have hne : editor.reason ≠ [] := by
    intro h
    rw [h] at hreason
    exact hreason (by decide)
  refine ⟨_, rfl, rfl, rfl, rfl, rfl, rfl, ?_, rfl, rfl, ⟨file, parts, hparse⟩, hbind⟩
  simp [recordComplete, hid, hne, hfile, htime, hutc]

theorem hashOf_ne (text : GoString) : hashOf text ≠ [] := by
  have : str "sha256:" ≠ [] := by decide
  simp [hashOf, this]

/-- The statements of a text do not depend on the name of its file. -/
theorem parse_inFile {parts : List GoString} (h : parse pg file sql = .ok parts) (file' : GoString) :
    parse pg file' sql = .ok parts := by
  unfold parse at h ⊢
  cases htree : pg.parse sql with
  | none =>
    rw [htree] at h
    cases h
  | some tree =>
    cases hss : Source.splitSQL file sql with
    | error msg =>
      rw [htree, hss] at h
      cases h
    | ok ss =>
      rw [htree, hss] at h
      rw [Source.splitSQL_inFile hss file']
      have hsql : (ss.map (Source.Statement.inFile file')).map Source.Statement.sql = ss.map Source.Statement.sql := by
        rw [map_map]
        rfl
      dsimp only at h ⊢
      rw [hsql]
      exact h

theorem checkRecords_cons {ok : EditRecord → Bool} {parent last : GoString} {rs : List EditRecord} :
    checkRecords rfc3339 ok parent (r :: rs) = some last ↔
      (r.parentDigest = parent ∧ r.digest = r.hash rfc3339 ∧ ok r = true) ∧
        checkRecords rfc3339 ok r.digest rs = some last := by
  rw [checkRecords]
  split_ifs with h <;> simp [h]

/-! ### Sequences of edits -/

theorem editAll_ok {rs : List Request} {e' : EditedArtifact} (h : editAll pg rfc3339 e rs = .ok e') :
    (rs = [] ∧ e' = e) ∨ ∃ r e₁ later, Edited pg rfc3339 e r e₁ ∧ e'.provenance = e.provenance ++ r :: later := by
  induction rs generalizing e with
  | nil =>
    cases h
    exact .inl ⟨rfl, rfl⟩
  | cons req rs ih =>
    unfold editAll at h
    rw [foldlM_cons, bind_ok] at h
    obtain ⟨e₁, h₁, h⟩ := h
    obtain ⟨r, hr⟩ := edit_ok h₁
    refine .inr ⟨r, e₁, ?_⟩
    obtain ⟨-, rfl⟩ | ⟨r', e₂, later, -, hprov⟩ := ih h
    · exact ⟨[], hr, hr.provenance⟩
    · refine ⟨r' :: later, hr, ?_⟩
      rw [hprov, hr.provenance, append_assoc, singleton_append]

/-- What the check of a draft checks. -/
theorem EditedArtifact.validate_ok_iff : e.validate pg codec rfc3339 = .ok () ↔
      (e.version = editVersion ∧ e.digest ≠ [] ∧ e.original ≠ [] ∧ e.provenance ≠ []) ∧
      (∃ a, codec.parse e.original = some a ∧ a.plan.digest = e.originalPlan.digest) ∧
      (∃ parent, checkRecords rfc3339 (fun _ => true) e.originalPlan.digest e.provenance = some parent ∧
        draftHash rfc3339 e.original e.candidatePlan e.provenance = e.digest ∧
        some parent = e.provenance.getLast?.map EditRecord.digest) ∧
      e.provenance.getLast?.map EditRecord.sqlDigest = some (hash (str "sql") e.editedSQL) ∧
      (∃ parts, parse pg (str "edited.sql") e.editedSQL = .ok parts) ∧ bindDDL pg e = .ok () := by
  unfold EditedArtifact.validate
  cases codec.parse e.original with
  | none => simp [error_bind]
  | some a =>
    cases checkRecords rfc3339 (fun _ => true) e.originalPlan.digest e.provenance with
    | none => simp [error_bind]
    | some parent =>
      simp only [bind_ok, error_bind, guard_ok, not_or, not_not, ne_eq, Option.some.injEq, exists_eq_left']
      tauto

/-- The draft passes its own check, and so does the provenance it hands to a fresh artifact, with any attestations that are
acceptable for it. -/
def EditedArtifact.Passes (pg : PgQuery) (codec : Codec) (rfc3339 : Time → Option GoString) (e : EditedArtifact) : Prop :=
  e.validate pg codec rfc3339 = .ok () ∧
    ∃ original, codec.parse e.original = some original ∧ ∀ attestations : List ValidationAttestation,
      (∀ v ∈ attestations, v.accepted ((e.provenance.getLast?.map EditRecord.digest).getD []) = true) →
        validateEditProvenance pg codec rfc3339 e.candidatePlan (freshProvenance pg e original attestations) = true

/-- The texts of which the digests of a draft and of its records are taken. -/
def EditedArtifact.hashed (rfc3339 : Time → Option GoString) (e : EditedArtifact) : Set GoString :=
  {hashText (str "planedit") (str "draft") (js (draftJSON rfc3339 e.original e.candidatePlan e.provenance))} ∪
    {t | ∃ r ∈ e.provenance, t = hashText (str "edit-provenance") (str "record")
      (js (EditRecord.json rfc3339 { r with digest := [] }))}

/-- The digest of a draft is not the digest of one of its records: the texts start differently. -/
theorem draft_ne_record (hfree : Sha256.CollisionFree (e.hashed rfc3339))
    (hr : r ∈ e.provenance) : draftHash rfc3339 e.original e.candidatePlan e.provenance ≠ r.hash rfc3339 := by
  intro h
  have hsum := GoString.hexEncode_inj (append_cancel_left h)
  have htext := hfree (.inl rfl) (.inr ⟨r, hr, rfl⟩) hsum
  have hhead : (hashText (str "planedit") (str "draft") []).take 9 ≠ (hashText (str "edit-provenance") (str "record") []).take 9 := by
    decide
  apply hhead
  have := congrArg (List.take 9) htext
  exact this

/-- The first draft passes if its original can be read. -/
theorem Edited.passes {plan : Plan} {original : Original}
    (h : Edited pg rfc3339 ⟨editVersion, raw, plan, plan, [], [], []⟩ r e) (hraw : raw ≠ [])
    (hparse : codec.parse raw = some original) (hplan : original.plan.digest = plan.digest) : e.Passes pg codec rfc3339 := by
  have hprov : e.provenance = [r] := h.provenance
  have hparent : r.parentDigest = plan.digest := h.parent
  have hdraft : e.digest ≠ [] := by
    rw [h.digest]
    exact hashOf_ne _
  obtain ⟨file, parts, hparts⟩ := h.parses
  have hrecords : ∀ ok : EditRecord → Bool, ok r = true → checkRecords rfc3339 ok plan.digest e.provenance = some r.digest := by
    intro ok hok
    rw [hprov, checkRecords, if_pos ⟨hparent, h.record, hok⟩, checkRecords]
  constructor
  · rw [EditedArtifact.validate_ok_iff, h.original, h.originalPlan]
    refine ⟨⟨h.version, hdraft, hraw, by simp [hprov]⟩, ⟨original, hparse, hplan⟩,
      ⟨r.digest, hrecords _ rfl, ?_, by rw [hprov]; rfl⟩, ?_, ⟨parts, parse_inFile hparts _⟩, h.binds⟩
    · rw [h.digest, h.original]
    · rw [hprov, ← h.sql]
      rfl
  · refine ⟨original, by rw [h.original]; exact hparse, ?_⟩
    intro attestations hatt
    have hlast : (e.provenance.getLast?.map EditRecord.digest).getD [] = r.digest := by rw [hprov]; rfl
    rw [hlast] at hatt
    have hchain := hrecords _ h.complete
    have hne : e.provenance ≠ [] := by simp [hprov]
    simp only [validateEditProvenance, freshProvenance, hlast, h.original, hparse, hplan, hchain]
    simpa [hne] using hatt

/-- After a second edit the draft does not pass: its second record would have to name the first one, and names the first
draft. -/
theorem Edited.invalid_of_second {plan : Plan} {r₀ : EditRecord} {e₀ : EditedArtifact} {rs : List Request}
    (h₀ : Edited pg rfc3339 ⟨editVersion, raw, plan, plan, [], [], []⟩ r₀ e₀) (hrs : rs ≠ [])
    (hedits : editAll pg rfc3339 e₀ rs = .ok e) (hfree : Sha256.CollisionFree (e₀.hashed rfc3339)) :
    e.validate pg codec rfc3339 ≠ .ok () := by
  intro hvalid
  have hprov : e₀.provenance = [r₀] := h₀.provenance
  obtain ⟨-, -, ⟨parent, hrecords, -⟩, -⟩ := EditedArtifact.validate_ok_iff.mp hvalid
  obtain ⟨hnil, -⟩ | ⟨r₁, e₁, later, h₁, hprov₁⟩ := editAll_ok hedits
  · exact hrs hnil
  have hne : e₀.digest ≠ [] := by
    rw [h₀.digest]
    exact hashOf_ne _
  have hparent : r₁.parentDigest = e₀.digest := by
    rw [h₁.parent, if_pos hne]
  rw [hprov₁, hprov, singleton_append, checkRecords_cons, checkRecords_cons] at hrecords
  obtain ⟨⟨-, hr₀, -⟩, ⟨hr₁, -⟩, -⟩ := hrecords
  refine draft_ne_record hfree (r := r₀) (by simp [hprov]) ?_
  rw [← h₀.digest, ← hparent, hr₁, hr₀]

theorem new_ok {now : Int} {a : Original} {editor : Editor} (h : new pg codec rfc3339 now raw a sql file editor = .ok e) :
    raw ≠ [] ∧ ∃ r, Edited pg rfc3339 ⟨editVersion, raw, a.plan, a.plan, [], [], []⟩ r e := by
  unfold new at h
  simp only [error_bind, guard_ok] at h
  exact ⟨h.1, edit_ok h.2.2⟩

/-- **Drafts pass after one edit only.**  A sequence of edits of an artifact leads to a draft that passes both checks exactly
if there was one edit and the bytes of the artifact can be read back to its plan. -/
theorem edits_valid_iff {now : Int} {raw : GoString} {a : Original} {sql file : GoString} {editor : Editor}
    {e₀ e : EditedArtifact} {rs : List Request} (hnew : new pg codec rfc3339 now raw a sql file editor = .ok e₀)
    (hedits : editAll pg rfc3339 e₀ rs = .ok e) (hfree : Sha256.CollisionFree (e₀.hashed rfc3339)) :
    e.Passes pg codec rfc3339 ↔
      rs = [] ∧ ∃ original, codec.parse raw = some original ∧ original.plan.digest = a.plan.digest := by
  obtain ⟨hraw, r₀, h₀⟩ := new_ok hnew
  constructor
  · rintro ⟨hvalid, -⟩
    by_cases hrs : rs = []
    · subst hrs
      cases hedits
      obtain ⟨-, ⟨original, hparse, hplan⟩, -⟩ := EditedArtifact.validate_ok_iff.mp hvalid
      rw [h₀.original] at hparse
      rw [h₀.originalPlan] at hplan
      exact ⟨rfl, original, hparse, hplan⟩
    · exact absurd hvalid (h₀.invalid_of_second hrs hedits hfree)
  · rintro ⟨rfl, original, hparse, hplan⟩
    cases hedits
    exact h₀.passes hraw hparse hplan

/-! ### A second edit -/

/-- What `edit` returns if every check passes. -/
def EditedArtifact.next (rfc3339 : Time → Option GoString) (e : EditedArtifact) (candidate : Plan) (r : Request) : EditedArtifact :=
  let parent := if e.digest ≠ [] then e.digest else e.originalPlan.digest
  let record : EditRecord := ⟨[], parent, hash (str "sql") r.sql, r.editor.identity, r.editor.time, r.editor.reason, r.file⟩
  let records := e.provenance ++ [{ record with digest := record.hash rfc3339 }]
  ⟨e.version, e.original, e.originalPlan, candidate, r.sql, records, draftHash rfc3339 e.original candidate records⟩

theorem edit_next {r : Request} {parts : List GoString} {candidate : Plan}
    (heditor : checkEditor r.now r.file r.editor = true)
    (htime : (e.provenance.getLast?.any fun l => r.editor.time.instant ≤ l.editedAt.instant) = false)
    (hparse : parse pg r.file r.sql = .ok parts) (hplan : editSQL pg.indexConcurrent e.candidatePlan parts = .ok candidate)
    (hbind : bindDDL pg { e with candidatePlan := candidate } = .ok ()) :
    edit pg rfc3339 e r.now r.sql r.file r.editor = .ok (e.next rfc3339 candidate r) := by
  unfold edit
  simp only [bind_ok, error_bind, guard_ok, mapError_ok, Bool.not_eq_true, Bool.not_eq_false']
  exact ⟨heditor, htime, parts, hparse, candidate, hplan, (), hbind, rfl⟩

/-- A parser that sees one supported statement in every text. -/
def onePg : PgQuery := ⟨fun _ => some [⟨false, true, []⟩], some, fun _ => false⟩

def replaySQL : GoString := str "CREATE SCHEMA a"

/-- A plan of one replayed statement. -/
def replayPlan : Plan :=
  let fingerprint := str "sha256:" ++ List.replicate 64 0x30
  let steps := (bindSteps (fun _ => false) [] [⟨replaySQL, replayChangeID, true, .executable⟩] [replaySQL]).toOption
  { version := planVersion, plannerVersion := Plans.plannerVersion, driver := ⟨str "postgres", str "1"⟩,
    fromFingerprint := fingerprint, toFingerprint := fingerprint,
    changes := { version := Schema.changeVersion, changes := [] }, replay := [replaySQL],
    steps := steps, phases := phasesOf (steps.getD []),
    digest := str "sha256:155069bd4ca56713ef3d2d9ef8b8c57bfabe503b78473585886568328d25d66d" }

def replayOriginal : Original := ⟨replayPlan, [], []⟩

def oneCodec : Codec := ⟨fun _ => some (str "artifact"), fun _ => some replayOriginal⟩

/-- The instants in the first seconds of a day, as text. -/
def dayText (t : Time) : Option GoString := some (str "2026-01-01T00:00:0" ++ GoString.itoa t.instant ++ str "Z")

/-- The same text again, at the instant `n`. -/
def editAt (n : Int) : Request := ⟨n, replaySQL, str "a.sql", ⟨str "someone", ⟨n, true⟩, str "review"⟩⟩

def replayStart : EditedArtifact := ⟨editVersion, str "artifact", replayPlan, replayPlan, [], [], []⟩

def firstDraft : EditedArtifact := replayStart.next dayText replayPlan (editAt 1)

theorem replayPlan_edit : editSQL (fun _ => false) replayPlan [replaySQL] = .ok replayPlan := by decide +kernel

theorem replay_binds : parse onePg (str "a.sql") replaySQL = .ok [replaySQL] ∧ bindDDL onePg replayStart = .ok () := by
  decide +kernel

theorem new_firstDraft : new onePg oneCodec dayText 1 (str "artifact") replayOriginal replaySQL (str "a.sql") (editAt 1).editor =
    .ok firstDraft := by
  unfold new
  rw [if_neg (by decide), if_neg (by simp [oneCodec])]
  exact edit_next (by decide) rfl replay_binds.1 replayPlan_edit replay_binds.2

theorem edit_firstDraft : editAll onePg dayText firstDraft [editAt 2] = .ok (firstDraft.next dayText replayPlan (editAt 2)) := by
  unfold editAll
  rw [foldlM_cons, bind_ok]
  exact ⟨_, edit_next (by decide) (by decide) replay_binds.1 replayPlan_edit replay_binds.2, rfl⟩

/-- The texts that are hashed for the first draft. -/
def firstTexts : List GoString :=
  hashText (str "planedit") (str "draft") (js (draftJSON dayText firstDraft.original firstDraft.candidatePlan firstDraft.provenance)) ::
    firstDraft.provenance.map fun r =>
      hashText (str "edit-provenance") (str "record") (js (EditRecord.json dayText { r with digest := [] }))

theorem firstDraft_free : Sha256.CollisionFree (firstDraft.hashed dayText) := by
  have hheads : (firstTexts.map fun t => (Sha256.sum256 t).head?).Nodup := by decide +kernel
  refine Sha256.collisionFree_of_heads ?_ hheads
  rintro t (rfl | ⟨r, hr, rfl⟩)
  · exact mem_cons_self
  · exact mem_cons_of_mem _ (mem_map.mpr ⟨r, hr, rfl⟩)

/-- One edit. -/
theorem edits_valid_once : firstDraft.Passes onePg oneCodec dayText :=
  have hedits : editAll onePg dayText firstDraft [] = .ok firstDraft := rfl
  (edits_valid_iff new_firstDraft hedits firstDraft_free).mpr ⟨rfl, replayOriginal, rfl, rfl⟩

/-- **Two edits**: both succeed, and the draft does not pass its own check. -/
theorem edits_twice_invalid :
    new onePg oneCodec dayText 1 (str "artifact") replayOriginal replaySQL (str "a.sql") (editAt 1).editor = .ok firstDraft ∧
      ∃ e, editAll onePg dayText firstDraft [editAt 2] = .ok e ∧ e.validate onePg oneCodec dayText ≠ .ok () := by
  obtain ⟨-, r, hr⟩ := new_ok new_firstDraft
  exact ⟨new_firstDraft, _, edit_firstDraft, hr.invalid_of_second (by simp) edit_firstDraft firstDraft_free⟩

end AutoSql.PlanEdit
