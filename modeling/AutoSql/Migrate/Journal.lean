/-
AutoSql/Migrate/Journal.lean

The journal of an update, and the manifest of the legacy format.

The journal is the authorization to finish an update: it names the manifest to
publish, the digest of the manifest that it may replace, and the files to remove
afterwards.  Like a manifest it is read strictly, so that only its canonical text
is accepted.  A journal that is written to the end reads back as what was written
if the manifest in it does (`Request.Sound.parse_text`, `Request.Sound.of_parse`),
and no part of a journal is a journal (`parseJournal_prefix`).
-/
import AutoSql.Migrate.Rebuild

namespace AutoSql.Migrate

open GoString GoJson Text Fallible List
open Utf8 (sanitize valid sanitize_of_valid)

def journalFile : GoString := str ".autosql-journal.json"

/-! ### Journals -/

/-- The kind of a journal: one of the two that are written, or any other string. -/
inductive JournalKind
  | update
  | v0Migration
  | other (s : GoString)
  deriving DecidableEq

namespace JournalKind

def ofString (s : GoString) : JournalKind :=
  if s = str "update" then .update else if s = str "v0-migration" then .v0Migration else .other s

def string : JournalKind → GoString
  | .update => str "update"
  | .v0Migration => str "v0-migration"
  | .other s => s

def declared : JournalKind → Bool
  | .other _ => false
  | _ => true

end JournalKind

structure Journal where
  version : Int
  kind : JournalKind
  expectedDigest : GoString
  manifest : ReadManifest
  /-- The files to remove; none is the nil slice. -/
  cleanup : Option (List GoString)

def Journal.fields (j : Journal) : List (GoString × Option Json) :=
  [(str "version", some (int j.version)), (str "kind", some (.str j.kind.string)),
    (str "expected_digest", some (.str j.expectedDigest)), (str "manifest", some j.manifest.json),
    (str "cleanup", some (j.cleanup.elim .null strings))]

def Journal.canonical (j : Journal) : GoString := Json.encode (.obj (present j.fields))

def journalNames : List GoString :=
  [str "version", str "kind", str "expected_digest", str "manifest", str "cleanup"]

/-- The zero value of a manifest. -/
def noManifest : ReadManifest := ⟨[], [], [], true, []⟩

def Journal.unmarshal (raw : GoString) : Option Journal := do
  let ms ← knownMembers journalNames raw
  let version ← field (str "version") decodeInt 0 ms
  let kind ← field (str "kind") decodeString [] ms
  let expectedDigest ← field (str "expected_digest") decodeString [] ms
  let manifest ← field (str "manifest") (fun _ => ReadManifest.unmarshal) noManifest ms
  let cleanup ← field (str "cleanup") (decodeSlice (decodeString [])) none ms
  some ⟨version, .ofString kind, expectedDigest, manifest, cleanup⟩

/-- The loop over the files to remove. -/
def checkCleanup (seen : GoSet) : List GoString → Except ReadError Unit
  | [] => .ok ()
  | p :: ps =>
    if notBase p ∨ str ".." <:+: p ∨ GoSet.has seen p then .error .invalid
    else checkCleanup (GoSet.add seen p) ps

def parseJournal (raw : GoString) : Except ReadError Journal :=
  if ¬ rejectDuplicates raw then .error .json
  else
    match Journal.unmarshal raw with
    | none => .error .json
    | some j =>
      if j.version ≠ 2 ∨ ¬ j.kind.declared ∨ raw ≠ j.canonical then .error .invalid
      else if j.expectedDigest ≠ [] ∧ ¬ matchDigest j.expectedDigest then .error .invalid
      else do
        validateManifestStructure j.manifest
        if j.manifest.manifestDigest ≠ j.manifest.digest then .error .invalid
        else do
          checkCleanup GoMap.empty (j.cleanup.getD [])
          .ok j

/-- The journal an update writes. -/
def newJournal (kind : JournalKind) (expected : GoString) (man : Manifest) (cleanup : List GoString) : Journal :=
  ⟨2, kind, expected, man.read, if cleanup = [] then none else some cleanup⟩

/-! ### What is read from a written journal -/

theorem distinct_journal : Distinct journalNames := by decide +kernel

theorem string_ofString (s : GoString) : (TransactionMode.ofString s).string = s := by
  unfold TransactionMode.ofString
  split_ifs with h₁ h₂ h₃
  · exact h₁.symm
  · exact h₂.symm
  · exact h₃.symm
  · rfl

theorem Directives.clean_json (d : Directives) : d.clean.json = d.json.sanitize := by
  rw [Directives.json_eq, Directives.json_eq, sanitize_record d.fields rfl distinct_directives]
  simp only [Directives.fields, Directives.clean, string_ofString, map_cons, map_nil, sanitize_unlessEmpty,
    Option.map_some, Json.sanitize]

theorem sanitize_arr {α : Type} (f : α → Json) (l : List α) : (Json.arr (l.map f)).sanitize = .arr (l.map fun x => (f x).sanitize) := by
  rw [Json.sanitize, Json.sanitizeElems_eq, map_map]
  rfl

theorem Migration.clean_json (e : Migration) : e.clean.json = e.json.sanitize := by
  have hstatements : statementsJson (e.statements.map Statement.clean) = (statementsJson e.statements).sanitize := by
    rw [statementsJson, statementsJson, sanitize_arr, map_map]
    rfl
  have hparents : strings (e.parents.map sanitize) = (strings e.parents).sanitize := by
    rw [strings, strings, sanitize_arr, map_map]
    rfl
  rw [Migration.json_eq, Migration.json_eq, sanitize_record (e.fields _ _) rfl distinct_migration]
  simp only [Migration.fields, Migration.clean, hstatements, hparents, Directives.clean_json, map_cons, map_nil,
    sanitize_unlessEmpty, sanitize_unlessFalse, Option.map_some, Json.sanitize]

theorem Manifest.clean_json (m : Manifest) : m.clean.json = m.json.sanitize := by
  have hentries : m.clean.read.entriesJson = m.read.entriesJson.sanitize := by
    rw [entriesJson_read, entriesJson_read, sanitize_arr, Manifest.clean, map_map]
    exact congrArg Json.arr (map_congr_left fun e _ => e.clean_json)
  rw [← ReadManifest.json_read, ← ReadManifest.json_read, ReadManifest.json, ReadManifest.json,
    sanitize_record m.read.fields rfl distinct_manifest]
  simp only [ReadManifest.fields, hentries, map_cons, map_nil, Option.map_some, Json.sanitize]
  rfl

/-- The four texts of an entry that nothing checks are valid if the text of the
manifest is kept. -/
theorem valid_of_canonical {m : Manifest} (h : canonical m = canonical m.clean) {e : Migration} (he : e ∈ m.entries) :
    valid e.kind = true ∧ valid e.coveredFrom = true ∧ valid e.coveredTo = true ∧
      valid e.schemaFingerprint = true ∧ valid e.dataPolicy = true := by
  have hbad : Json.bad (.obj (present m.read.fields)) = 0 := by
    rw [canonical, canonical, m.clean_json] at h
    rw [← ReadManifest.json, ReadManifest.json_read]
    exact Json.bad_eq_zero m.strict.1 h
  have hentries : Json.bad (.arr (m.entries.map Migration.json)) = 0 := by
    have := bad_of_field hbad 2 rfl
    rwa [entriesJson_read] at this
  have hentry := Json.bad_of_mem_arr hentries (mem_map_of_mem he)
  rw [e.json_eq] at hentry
  exact ⟨valid_of_field hentry 13 rfl, valid_of_field hentry 14 rfl, valid_of_field hentry 15 rfl,
    valid_of_field hentry 16 rfl, valid_of_field hentry 17 rfl⟩

/-- A manifest whose text is kept, and that is accepted, is that of readable files. -/
theorem Built.of_canonical {files : List File} {m : Manifest} (b : Built isArtifact files m) (hcan : canonical m = canonical m.clean)
    (hval : validateManifestStructure m.clean.read = .ok ()) : m.clean = m ∧ ∀ f ∈ files, f.Readable := by
  have hclean : ∀ e ∈ m.entries, e.clean = e := by
    intro e he
    obtain ⟨h₁, h₂, h₃, h₄, h₅⟩ := valid_of_canonical hcan he
    rw [b.clean_entry he, sanitize_of_valid h₁, sanitize_of_valid h₂, sanitize_of_valid h₃,
      sanitize_of_valid h₄, sanitize_of_valid h₅]
  have hman : m.clean = m := by rw [b.clean_manifest, map_eq_self hclean]
  rw [hman] at hval
  refine ⟨hman, b.readable_iff.mp fun e he => ?_⟩
  exact b.readable_of_clean he (validate_kind hval ⟨e, false, false⟩ (mem_map_of_mem he)) (hclean e he)

/-- A request to publish: what `updateLocked` is called with, and the manifest it builds. -/
structure Request where
  kind : JournalKind
  expected : GoString
  files : List File
  man : Manifest
  cleanup : List GoString

def Request.journal (r : Request) : Journal := newJournal r.kind r.expected r.man r.cleanup

/-- The text of the journal. -/
def Request.text (r : Request) : GoString := r.journal.canonical

variable (isArtifact : GoString → Bool)

/-- A request that can get as far as writing its journal.  Only the migration of a
legacy directory removes files, and only those it has published. -/
structure Request.Sound (r : Request) : Prop where
  built : build isArtifact r.files = .ok r.man
  declared : r.kind.declared = true
  expected : r.expected = [] ∨ matchDigest r.expected = true
  cleanup : r.cleanup = [] ∨ r.kind = .v0Migration ∧ r.cleanup = r.files.map File.name

variable {isArtifact} {r : Request} {j : Journal} {raw : GoString}

theorem Journal.strict (j : Journal) : Strict 6 (.obj (present j.fields)) := by
  refine Strict.record distinct_journal ?_
  simp only [Journal.fields, forall_mem_cons, Option.mem_def, Option.some.injEq, forall_eq']
  refine ⟨.int _, .str _, .str _, j.manifest.strict, ?_, by simp⟩
  cases j.cleanup with
  | none => exact .null
  | some l => exact (strict_strings l).mono (by decide)

theorem checkCleanup_ok {seen : GoSet} {ps : List GoString} (hbase : ∀ p ∈ ps, traverses p = false)
    (hfresh : GoSet.Fresh seen ps) : checkCleanup seen ps = .ok () := by
  induction ps generalizing seen with
  | nil => rfl
  | cons p ps ih =>
    rw [forall_mem_cons] at hbase
    rw [GoSet.fresh_cons] at hfresh
    have hp := hbase.1
    simp only [traverses, Bool.or_eq_false_iff, beq_eq_false_iff_ne, decide_eq_false_iff_not] at hp
    obtain ⟨⟨⟨hne, hdots⟩, hslash⟩, -⟩ := hp
    have hslash' : 0x2F ∉ p := by simpa using hslash
    have hguard : ¬ (notBase p = true ∨ str ".." <:+: p ∨ GoSet.has seen p = true) := by
      rintro (h | h | h)
      · simp [notBase, hne, hslash'] at h
      · exact hdots h
      · simp [hfresh.1] at h
    rw [checkCleanup, if_neg hguard]
    exact ih hbase.2 hfresh.2

/-- The text of a journal holds that of its manifest. -/
theorem Request.canonical_of_text (he : r.text = Journal.canonical { r.journal with manifest := r.man.clean.read }) :
    canonical r.man = canonical r.man.clean := by
  have hraw : ∀ j : Journal, knownMembers journalNames j.canonical = some (texts j.fields) := fun j =>
    knownMembers_encode rfl distinct_journal (j.strict.mono (by decide))
  have hfields := hraw r.journal
  rw [← Request.text, he, hraw] at hfields
  have hfour := congrArg (fun l => (l[3]?).map Prod.snd) (Option.some.inj hfields)
  rw [← canonical_read, ← canonical_read]
  exact (Option.some.inj hfour).symm

namespace Request.Sound

variable (h : r.Sound isArtifact)
include h

theorem steps : Nonempty (Built isArtifact r.files r.man) := build_steps isArtifact h.built

theorem cleanup_mem {p : GoString} (hp : p ∈ r.cleanup) :
    traverses p = false ∧ ∃ version name, matchFile p = some (version, name) := by
  obtain ⟨b⟩ := h.steps
  rcases h.cleanup with hc | ⟨-, hc⟩
  · rw [hc] at hp
    cases hp
  · rw [hc] at hp
    obtain ⟨f, hf, rfl⟩ := mem_map.mp hp
    obtain ⟨x, e, ho⟩ := b.origin_of_file hf
    obtain ⟨hname, hmatch, htrav⟩ := ho.named
    exact ⟨hname ▸ htrav, _, _, hname ▸ hmatch⟩

theorem cleanup_nodup : r.cleanup.Nodup := by
  obtain ⟨b⟩ := h.steps
  rcases h.cleanup with hc | ⟨-, hc⟩
  · rw [hc]
    exact nodup_nil
  · rw [hc]
    exact b.nodup_names

/-- What is read from a journal that was written to the end. -/
theorem unmarshal_text : Journal.unmarshal r.text = some { r.journal with manifest := r.man.clean.read } := by
  obtain ⟨b⟩ := h.steps
  have hd : Distinct (r.journal.fields.map Prod.fst) := distinct_journal
  have hs : Strict Json.maxNestingDepth (.obj (present r.journal.fields)) := r.journal.strict.mono (by decide)
  have hmanifest : field (str "manifest") (fun _ => ReadManifest.unmarshal) noManifest (texts r.journal.fields) =
      some r.man.clean.read := by
    rw [field_texts hd 3 rfl]
    exact (congrArg ReadManifest.unmarshal (canonical_read r.man)).trans (unmarshal_canonical b.inRange)
  have hkind : JournalKind.ofString (sanitize r.kind.string) = r.kind := by
    have := h.declared
    cases hk : r.kind with
    | update => decide +kernel
    | v0Migration => decide +kernel
    | other s =>
      rw [hk] at this
      cases this
  have hexpected : sanitize r.expected = r.expected := by
    rcases h.expected with he | he
    · rw [he]
      rfl
    · exact sanitize_of_valid (valid_of_matchDigest he)
  have hnames : r.cleanup.map sanitize = r.cleanup := by
    refine map_eq_self fun p hp => ?_
    obtain ⟨-, v, n, hm⟩ := h.cleanup_mem hp
    exact sanitize_of_valid (Utf8.valid_of_ascii (matchFile_ascii hm))
  have hcleanup : field (str "cleanup") (decodeSlice (decodeString [])) none (texts r.journal.fields) =
      some r.journal.cleanup := by
    rw [field_texts hd 4 rfl]
    show decodeSlice (decodeString []) none (Json.encode (r.journal.cleanup.elim .null strings)) = _
    rw [Request.journal, newJournal]
    split_ifs with hc
    · show decodeSlice _ none (Json.encode .null) = _
      rw [decodeSlice, Json.parse_encode .null, Json.sanitize]
    · exact (decode_strings r.cleanup none).trans (by rw [hnames])
  have hjournal : ({ r.journal with manifest := r.man.clean.read } : Journal) =
      ⟨2, .ofString (sanitize r.kind.string), sanitize r.expected, r.man.clean.read, r.journal.cleanup⟩ := by
    rw [hkind, hexpected]
    rfl
  rw [hjournal]
  exact bind_of_some (knownMembers_encode rfl hd hs) <| bind_of_some (field_int (k := 2) hd 0 rfl (by decide)) <| bind_of_some (field_string hd 1 rfl) <|
    bind_of_some (field_string hd 2 rfl) <| bind_of_some hmanifest <| bind_of_some hcleanup rfl

theorem parse_text (hread : ∀ f ∈ r.files, f.Readable) : parseJournal r.text = .ok r.journal := by
  obtain ⟨b⟩ := h.steps
  have hentries := b.readable_iff.mpr hread
  have hunmarshal : Journal.unmarshal r.text = some r.journal := by
    have := h.unmarshal_text
    rwa [b.clean_eq hentries] at this
  have hstrict : Strict Json.maxNestingDepth (.obj (present r.journal.fields)) := r.journal.strict.mono (by decide)
  have hdup : rejectDuplicates r.text = true := rejectDuplicates_encode hstrict
  have hexpected : ¬ (r.journal.expectedDigest ≠ [] ∧ ¬ matchDigest r.journal.expectedDigest = true) := by
    rintro ⟨hne, hno⟩
    exact h.expected.elim hne hno
  have hcleanup : checkCleanup GoMap.empty (r.journal.cleanup.getD []) = .ok () := by
    have hc : r.journal.cleanup.getD [] = r.cleanup := by
      rw [Request.journal, newJournal]
      split_ifs with hc
      · exact hc.symm
      · rfl
    rw [hc]
    exact checkCleanup_ok (fun p hp => (h.cleanup_mem hp).1) (GoSet.fresh_empty h.cleanup_nodup)
  have hvalidate := b.validate_ok fun e he => (b.checkKind_of_readable he (hentries e he)).1
  have hhead : ¬ (r.journal.version ≠ 2 ∨ ¬ r.journal.kind.declared = true ∨ r.text ≠ r.journal.canonical) := by
    rintro (h₁ | h₁ | h₁)
    · exact h₁ rfl
    · exact h₁ h.declared
    · exact h₁ rfl
  rw [parseJournal, if_neg (by simp [hdup]), hunmarshal]
  show (if _ then _ else if _ then _ else validateManifestStructure r.man.read >>= _) = _
  rw [if_neg hhead, if_neg hexpected, hvalidate]
  show (if r.man.read.manifestDigest ≠ r.man.read.digest then _ else _) = _
  rw [if_neg (not_not.mpr b.digest_read)]
  rw [hcleanup]
  rfl

/-- A journal that was written to the end is accepted only if its manifest is the
one that was asked for, and can be read. -/
theorem of_parse (hp : parseJournal r.text = .ok j) : j = r.journal ∧ ∀ f ∈ r.files, f.Readable := by
  obtain ⟨b⟩ := h.steps
  rw [parseJournal, guard_ok, h.unmarshal_text] at hp
  obtain ⟨-, hp⟩ := hp
  simp only [guard_ok, bind_ok] at hp
  obtain ⟨hhead, -, ⟨⟩, hval, -, -, -, hj⟩ := hp
  have hcanonical : canonical r.man = canonical r.man.clean := by
    refine Request.canonical_of_text ?_
    by_contra hne
    exact hhead (.inr (.inr hne))
  obtain ⟨hman, hread⟩ := b.of_canonical hcanonical hval
  rw [hman] at hj
  exact ⟨(Except.ok.inj hj).symm, hread⟩

end Request.Sound

/-- No part of a journal is a journal. -/
theorem parseJournal_prefix (hraw : raw <+: r.text) (hp : parseJournal raw = .ok j) : raw = r.text := by
  have hcanonical : raw = j.canonical := by
    rw [parseJournal, guard_ok] at hp
    obtain ⟨-, hp⟩ := hp
    split at hp
    · cases hp
    · rename_i j' _
      simp only [guard_ok, bind_ok] at hp
      obtain ⟨hhead, -, -, -, -, -, -, hj⟩ := hp
      cases Except.ok.inj hj
      by_contra hne
      exact hhead (.inr (.inr hne))
  obtain ⟨t, ht⟩ := hraw
  rw [hcanonical, Request.text, Journal.canonical, ← append_nil (Journal.canonical _)] at ht
  have := (Json.encode_obj_append j.strict.1 r.journal.strict.1 ht).2
  rw [hcanonical]
  exact this

/-! ### Legacy manifests -/

def legacyVersion : GoString := str "autosql.migration-directory/v0"

structure LegacyEntry where
  file : GoString
  parents : List GoString
  nonLinear : Bool
  deriving DecidableEq

structure LegacyManifest where
  version : GoString
  entries : Option (List LegacyEntry)
  digest : GoString
  deriving DecidableEq

/-- A list of strings that is left out when it is empty. -/
def unlessNone (l : List GoString) : Option Json := if l = [] then none else some (strings l)

def LegacyEntry.fields (e : LegacyEntry) : List (GoString × Option Json) :=
  [(str "file", some (.str e.file)), (str "parents", unlessNone e.parents), (str "nonlinear", unlessFalse e.nonLinear)]

def LegacyEntry.json (e : LegacyEntry) : Json := .obj (present e.fields)

def LegacyManifest.fields (m : LegacyManifest) : List (GoString × Option Json) :=
  [(str "version", some (.str m.version)),
    (str "entries", some (m.entries.elim .null fun l => .arr (l.map LegacyEntry.json))),
    (str "digest", some (.str m.digest))]

def LegacyManifest.canonical (m : LegacyManifest) : GoString := Json.encode (.obj (present m.fields))

def LegacyEntry.unmarshal (raw : GoString) : Option LegacyEntry := do
  let ms ← knownMembers [str "file", str "parents", str "nonlinear"] raw
  let file ← field (str "file") decodeString [] ms
  let parents ← field (str "parents") (decodeSlice (decodeString [])) none ms
  let nonLinear ← field (str "nonlinear") decodeBool false ms
  some ⟨file, parents.getD [], nonLinear⟩

def LegacyManifest.unmarshal (raw : GoString) : Option LegacyManifest := do
  let ms ← knownMembers [str "version", str "entries", str "digest"] raw
  let version ← field (str "version") decodeString [] ms
  let entries ← field (str "entries") (decodeSlice LegacyEntry.unmarshal) none ms
  let digest ← field (str "digest") decodeString [] ms
  some ⟨version, entries, digest⟩

/-- The loop over the files of a legacy manifest. -/
def checkLegacy (seen : GoSet) : List LegacyEntry → Except ReadError Unit
  | [] => .ok ()
  | e :: es =>
    if notBase e.file ∨ matchFile e.file = none ∨ GoSet.has seen (toLower e.file) then .error .invalid
    else checkLegacy (GoSet.add seen (toLower e.file)) es

def parseLegacyManifest (raw : GoString) : Except ReadError LegacyManifest :=
  if ¬ rejectDuplicates raw then .error .json
  else
    match LegacyManifest.unmarshal raw with
    | none => .error .invalid
    | some old =>
      if old.version ≠ legacyVersion ∨ raw ≠ old.canonical then .error .invalid
      else if digest (str "manifest-v0") { old with digest := [] }.canonical ≠ old.digest then
        .error (.conflict (str "manifest_digest") manifestFile (str "restore the canonical legacy manifest"))
      else do
        checkLegacy GoMap.empty (old.entries.getD [])
        .ok old

end AutoSql.Migrate
