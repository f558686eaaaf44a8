/-
AutoSql/Migrate/Identity.lean

What the digests of a manifest determine.

Two manifests with the same generation, or with the same digest, are the same
manifest, and the files of a manifest are determined by it, as long as no two of the
texts that were hashed collide.  The texts are those of the manifests and files at
hand (`ReadManifest.hashed`, `hashedFile`): nothing is assumed of all texts.
-/
import AutoSql.Migrate.Rebuild

namespace AutoSql.Migrate

open GoString GoJson Fallible List

/-! ### Digests -/

/-- The text that is hashed for `digest`. -/
def hashInput (domain b : GoString) : GoString := str "autosql.migrate." ++ domain ++ str "/v1\x00" ++ b

theorem hashInput_inj {domain a b : GoString} (h : hashInput domain a = hashInput domain b) : a = b :=
  append_cancel_left h

/-- Equal digests are digests of the same text. -/
theorem digest_inj {domain a b : GoString} {S : Set GoString} (hS : Sha256.CollisionFree S) (ha : hashInput domain a ∈ S)
    (hb : hashInput domain b ∈ S) (h : digest domain a = digest domain b) : a = b := by
  exact hashInput_inj (hS ha hb (hexEncode_inj (append_cancel_left h)))

/-- The texts that are hashed for a manifest as a whole. -/
def ReadManifest.hashed (m : ReadManifest) : Set GoString :=
  {hashInput (str "generation") (Json.encode (.obj [(str "Version", .str manifestVersion), (str "Entries", m.entriesJson)])),
    hashInput (str "manifest") { m with digest := [] }.canonical}

/-- The texts that are hashed for the content of a file. -/
def hashedFile (b : GoString) : Set GoString := {hashInput (str "sql") b, hashInput (str "artifact") b}

/-! ### Manifests -/

section Manifests

variable {isArtifact : GoString → Bool} {files files' : List File} {m m' : Manifest} {S : Set GoString}

theorem read_inj (h : m.read = m'.read) : m = m' := by
  obtain ⟨v, g, es, d⟩ := m
  obtain ⟨v', g', es', d'⟩ := m'
  simp only [Manifest.read, ReadManifest.mk.injEq] at h
  have hes : es = es' := map_injective_iff.mpr (fun a b hab => congrArg ReadMigration.migration hab) h.2.2.1
  rw [h.1, h.2.1, hes, h.2.2.2.2]

namespace Built

variable (b : Built isArtifact files m) (b' : Built isArtifact files' m')

include b b' in
/-- Manifests are determined by their entries. -/
theorem eq_of_entries (h : m.entries = m'.entries) : m = m' := by
  have hdigest : m.digest = m'.digest := by
    rw [b.digest_eq, b'.digest_eq, manifestDigest, manifestDigest, b.version_eq, b'.version_eq, b.generation_eq, b'.generation_eq, h]
  have hm : m = ⟨m.version, m.generation, m.entries, m.digest⟩ := rfl
  rw [hm, hdigest, b.version_eq, b.generation_eq, h, ← b'.version_eq, ← b'.generation_eq]

include b b' in
/-- The text of the entries determines them. -/
theorem eq_of_entriesText (hr : ∀ f ∈ files, f.Readable) (hr' : ∀ f ∈ files', f.Readable)
    (h : Json.encode (.arr (m.entries.map Migration.json)) = Json.encode (.arr (m'.entries.map Migration.json))) : m = m' := by
  have hread : ∀ {fs : List File} {x : Manifest}, Built isArtifact fs x → (∀ f ∈ fs, f.Readable) →
      decodeSlice ReadMigration.unmarshal none (Json.encode (.arr (x.entries.map Migration.json))) =
        some (some (x.entries.map fun e => ⟨e, false, false⟩)) := by
    intro fs x bx hx
    refine decodeSlice_encode ((strict_entries _).mono (by decide)) (fun e he => ?_) none
    rw [Migration.unmarshal_json (bx.inRange e he), (bx.checkKind_of_readable he (bx.readable_iff.mpr hx e he)).2]
  refine b.eq_of_entries b' ?_
  have heq := hread b hr
  rw [h, hread b' hr', Option.some.injEq, Option.some.injEq] at heq
  exact (map_injective_iff.mpr (fun x y hxy => congrArg ReadMigration.migration hxy) heq).symm

include b b' in
theorem eq_of_canonical (hr : ∀ f ∈ files, f.Readable) (hr' : ∀ f ∈ files', f.Readable) (h : canonical m = canonical m') : m = m' := by
  have h₁ := unmarshal_canonical b.inRange
  have h₂ := unmarshal_canonical b'.inRange
  rw [b.clean_eq (b.readable_iff.mpr hr)] at h₁
  rw [b'.clean_eq (b'.readable_iff.mpr hr'), ← h, h₁] at h₂
  exact read_inj (Option.some.inj h₂)

include b b' in
/-- The generation determines the manifest. -/
theorem eq_of_generation (hS : Sha256.CollisionFree S) (hm : m.read.hashed ⊆ S) (hm' : m'.read.hashed ⊆ S)
    (hr : ∀ f ∈ files, f.Readable) (hr' : ∀ f ∈ files', f.Readable) (h : m.generation = m'.generation) : m = m' := by
  have hseed : ∀ x : Manifest, x.read.hashed ⊆ S → hashInput (str "generation") (generationSeed x.entries).encode ∈ S := by
    intro x hx
    have := hx (.inl rfl)
    rwa [entriesJson_read] at this
  have hdigest : digest (str "generation") (generationSeed m.entries).encode =
      digest (str "generation") (generationSeed m'.entries).encode := by
    rw [b.generation_eq, b'.generation_eq, generationOf, generationOf, digest, digest, trimPrefix_append, trimPrefix_append] at h
    rw [digest, digest, h]
  have htext := digest_inj hS (hseed m hm) (hseed m' hm') hdigest
  -- the entries are the second member of the text
  refine b.eq_of_entriesText b' hr hr' ?_
  have hmembers : ∀ l : List Migration, knownMembers [str "Version", str "Entries"] (generationSeed l).encode =
      some [(str "Version", Json.encode (.str manifestVersion)), (str "Entries", Json.encode (.arr (l.map Migration.json)))] := by
    intro l
    let fields : List (GoString × Option Json) :=
      [(str "Version", some (.str manifestVersion)), (str "Entries", some (.arr (l.map Migration.json)))]
    have hd : Distinct (fields.map Prod.fst) := by
      show Distinct [str "Version", str "Entries"]
      decide +kernel
    have hstrict : Strict 5 (.obj (present fields)) := by
      refine Strict.record hd ?_
      simp only [fields, forall_mem_cons, Option.mem_def, Option.some.injEq, forall_eq']
      exact ⟨.str _, strict_entries l, by simp⟩
    have hread : knownMembers (fields.map Prod.fst) (Json.encode (.obj (present fields))) = some (texts fields) :=
      knownMembers_encode rfl hd (hstrict.mono (by decide))
    exact hread
  have := hmembers m.entries
  rw [htext, hmembers m'.entries] at this
  simpa using this.symm

include b b' in
/-- The digest determines the manifest. -/
theorem eq_of_digest (hS : Sha256.CollisionFree S) (hm : m.read.hashed ⊆ S) (hm' : m'.read.hashed ⊆ S)
    (hr : ∀ f ∈ files, f.Readable) (hr' : ∀ f ∈ files', f.Readable) (h : m.digest = m'.digest) : m = m' := by
  have hseed : ∀ x : Manifest, x.read.hashed ⊆ S → hashInput (str "manifest") (canonical { x with digest := [] }) ∈ S := by
    intro x hx
    have := hx (.inr rfl)
    rwa [show ({ x.read with digest := [] } : ReadManifest) = Manifest.read { x with digest := [] } from rfl, canonical_read] at this
  have htext : canonical { m with digest := [] } = canonical { m' with digest := [] } := by
    refine digest_inj hS (hseed m hm) (hseed m' hm') ?_
    rw [b.digest_eq, b'.digest_eq] at h
    exact h
  have hclean : ∀ {fs : List File} {x : Manifest}, Built isArtifact fs x → (∀ f ∈ fs, f.Readable) →
      ReadManifest.unmarshal (canonical { x with digest := [] }) = some (Manifest.read { x with digest := [] }) := by
    intro fs x bx hx
    have hrange : ∀ e ∈ ({ x with digest := [] } : Manifest).entries, e.InRange := bx.inRange
    rw [unmarshal_canonical hrange]
    have hc := bx.clean_eq (bx.readable_iff.mpr hx)
    rw [show Manifest.clean { x with digest := [] } = { x.clean with digest := [] } from rfl, hc]
  have heq := hclean b hr
  rw [htext, hclean b' hr'] at heq
  have := read_inj (Option.some.inj heq)
  exact b.eq_of_entries b' (congrArg Manifest.entries this).symm

end Built

end Manifests

end AutoSql.Migrate
