/-
AutoSql/Migrate/Atomic.lean

An update of a directory is atomic for its readers.

Wherever an update stops, the next reader finds what was there before or the new
manifest with all its files.  Up to the rename only names are written that reading
does not depend on, unless the generation of the request is the published one; then
the manifest is the same, all its files are there already, and none is written
(`Built.grown_eq`).  After the rename the directory publishes the request.

This holds for requests whose manifest can be read back.  One that cannot is
published all the same, and leaves a directory that nobody can read.
-/
import AutoSql.Migrate.Snapshot

namespace AutoSql.Migrate

open GoString Proc Fallible List GoMap

variable {isArtifact : GoString → Bool} {w : World}

/-! ### The texts at hand -/

/-- The texts that are hashed for what is in the directory. -/
def Dir.hashed (d : Dir) : Set GoString :=
  {t | (∃ m raw, d.loadAt = .ok (m, raw) ∧ t ∈ m.hashed) ∨
    (∃ raw j, d.root.get? journalFile = some raw ∧ parseJournal raw = .ok j ∧ t ∈ j.manifest.hashed) ∨
    ∃ g files n b, d.generation g = some files ∧ files.get? n = some b ∧ t ∈ hashedFile b}

/-- The texts that are hashed for a request. -/
def hashedRequest (files : List File) (man : Manifest) : Set GoString :=
  {t | t ∈ man.read.hashed ∨ ∃ p ∈ parts files, t ∈ hashedFile p.2}

/-- A directory as the commands leave it: its journal, if there is one, is that of a
request, complete or not, and no SQL lies next to the manifest before the first
manifest is published. -/
structure Dir.Valid (isArtifact : GoString → Bool) (d : Dir) : Prop where
  found : Found isArtifact ⟨d, [], []⟩
  fresh : d.loadAt = .error .notExist → d.root.keys.find? isSQLName = none

/-! ### The files of the generation -/

section Generation

variable {files cs : List File} {man : Manifest}

theorem Built.mem_names (b : Built isArtifact files man) {n : GoString} :
    n ∈ (parts files).map Prod.fst ↔ n ∈ expectedNames man.entries := by
  constructor
  · intro h
    refine b.expected_of_key (GoMap.mem_keys.mpr ?_)
    obtain ⟨⟨k, v⟩, hmem, rfl⟩ := mem_map.mp h
    have : (stored files).get? k = some v := (get?_ofList_of_nodup b.nodup_parts).mpr hmem
    rw [this]
    rfl
  · intro h
    obtain ⟨e, he, hmem⟩ := mem_flatMap.mp h
    obtain ⟨f, hf, r, ho⟩ := b.exists_origin he
    rw [ho.named.1, ho.artifact.1] at hmem
    have hpart : ∀ v, (n, v) ∈ f.parts → n ∈ (parts files).map Prod.fst := fun v hv =>
      mem_map_of_mem (mem_flatMap.mpr ⟨f, hf, hv⟩)
    rcases mem_cons.mp hmem with rfl | hmem
    · exact hpart f.sql mem_cons_self
    · split_ifs at hmem with hn
      · rw [mem_singleton] at hmem
        subst hmem
        exact hpart f.artifact (by simp [File.parts, hn])
      · cases hmem

end Generation

/-! ### Before the rename -/

variable {S : Set GoString} {d d' : Dir} {files : List File} {man : Manifest}

/-- Reading does not depend on what is written before the rename. -/
theorem snapshot_kept (b : Built isArtifact files man) (hread : ∀ f ∈ files, f.Readable) (hS : Sha256.CollisionFree S)
    (hd : d.hashed ⊆ S) (hman : man.read.hashed ⊆ S)
    (hcurrent : ∀ m raw, d.loadAt = .ok (m, raw) → ∃ s, d.snapshotAt isArtifact = .ok s)
    (hkept : Kept d d' man.generation files)
    (hroot : ∀ n, n ≠ stagedFile man.generation → n ≠ journalFile → d'.root.get? n = d.root.get? n) :
    d'.snapshotAt isArtifact = d.snapshotAt isArtifact := by
  obtain ⟨hj, -, hst⟩ := isSQLName_own b.generation_match
  refine snapshotAt_congr (hroot _ (stagedFile_ne _).2.symm journalFile_ne.symm) ?_ fun n hn => ?_
  · intro m raw hload
    obtain ⟨s, hs⟩ := hcurrent m raw hload
    obtain ⟨cs, m', hbuild, -, hcs, hpub, hload'⟩ := snapshot_inv hs
    obtain ⟨bc⟩ := build_steps isArtifact hbuild
    rw [hload'] at hload
    cases hload
    by_cases hg : m'.read.generation = man.generation
    · -- the generation of the request is the published one
      have hsame : m' = man := by
        refine bc.eq_of_generation b hS (fun t ht => hd (.inl ⟨_, _, hload', ht⟩)) hman hcs hread hg
      subst hsame
      have hstored := Dir.openGeneration_ok.mp hpub.generation
      rcases hkept.own with h | ⟨m₁, h₁, hgrown⟩
      · exact h
      · rw [Dir.files, hstored] at hgrown
        show d'.generation m'.generation = d.generation m'.generation
        rw [h₁, hstored]
        -- all the files of the manifest are there, so there is none to add
        refine congrArg some (GoMap.ext fun n => (hgrown n).elim id ?_)
        rintro ⟨hn, hnone⟩
        rw [b.mem_names, ← bc.mem_names] at hn
        rw [Option.getD_some, stored, get?_ofList_eq_none] at hnone
        exact absurd hn hnone
    · exact hkept.other _ hg
  · rw [hroot n (ne_of_isSQLName hst hn) (ne_of_isSQLName hj hn)]

/-! ### After the rename -/

theorem World.get?_publish {name b n : GoString} :
    (w.publish name b).get? .root n = if n = manifestFile then some b else if n = name then none else w.get? .root n := by
  show (GoMap.insert _ _ _).get? n = _
  rw [get?_insert, get?_erase]
  rfl

section Replaced

variable (b : Built isArtifact files man) (hsql : d.root.keys.find? isSQLName = none)
  (hmanifest : d'.root.get? manifestFile = some (canonical man)) (hgeneration : d'.generation man.generation = some (stored files))
  (hroot : ∀ n, n ≠ manifestFile → n ≠ stagedFile man.generation → n ≠ journalFile → d'.root.get? n = d.root.get? n)
include b hsql hmanifest hgeneration hroot

/-- A directory in which the manifest has been replaced. -/
theorem publishes_replaced : d'.Publishes files man := by
  obtain ⟨hj, hm, hst⟩ := isSQLName_own b.generation_match
  refine ⟨hmanifest, Dir.openGeneration_ok.mpr hgeneration, (GoMap.find?_keys_congr fun n hn => ?_).trans hsql⟩
  rw [hroot n (ne_of_isSQLName hm hn) (ne_of_isSQLName hst hn) (ne_of_isSQLName hj hn)]

end Replaced

variable {r : Request}

/-- A directory in which nothing has been published. -/
def emptyDir : Dir := ⟨GoMap.empty, none⟩

theorem emptyDir_hashed : emptyDir.hashed = ∅ := by
  refine Set.eq_empty_of_forall_notMem ?_
  rintro t (⟨m, raw, h, -⟩ | ⟨raw, j, h, -⟩ | ⟨g, files, n, b, h, -⟩)
  · cases h
  · cases h
  · cases h

theorem emptyDir_clear {requested : List Request} {published : List Publication} :
    r.Clear ⟨emptyDir, requested, published⟩ where
  fits := fun _ _ h => nomatch h
  stage := .inl rfl

theorem emptyDir_sound (hcand : candidate isArtifact files = .ok man) :
    (requestOf false [] files man []).Sound isArtifact := by
  have hcurrent : emptyDir.checkCurrent isArtifact false [] [] = .ok () := rfl
  exact sound_requestOf (w := ⟨emptyDir, [], []⟩) hcand hcurrent (fun h => by cases h) (.inl rfl)

/-- A manifest that is published first. -/
theorem emptyDir_update (hcand : candidate isArtifact files = .ok man) :
    (update isArtifact [] ⟨[], files, []⟩ ⟨⟨emptyDir, [], []⟩, fun _ => .done⟩).1 = .ok man ∧
      (update isArtifact [] ⟨[], files, []⟩ ⟨⟨emptyDir, [], []⟩, fun _ => .done⟩).2.state =
        (requestOf false [] files man []).finished ⟨emptyDir, [requestOf false [] files man []], []⟩ :=
  update_done (fun _ => rfl) hcand rfl rfl rfl emptyDir_clear

/-- The texts hashed for a first request do not collide, and its journal is short. -/
theorem oneManifest_texts : Sha256.CollisionFree (emptyDir.hashed ∪ hashedRequest [oneFile []] (oneManifest [])) ∧
    (requestOf false [] [oneFile []] (oneManifest []) []).text.length ≤ maxFile := by
  let texts : List GoString := [
    hashInput (str "generation") (Json.encode (.obj [(str "Version", .str manifestVersion), (str "Entries", (oneManifest []).read.entriesJson)])),
    hashInput (str "manifest") { (oneManifest []).read with digest := [] }.canonical,
    hashInput (str "sql") (str "SELECT 1;"), hashInput (str "artifact") (str "SELECT 1;")]
  obtain ⟨hheads, hlen⟩ : (texts.map fun t => (Sha256.sum256 t).head?).Nodup ∧
      (requestOf false [] [oneFile []] (oneManifest []) []).text.length ≤ maxFile := by decide +kernel
  refine ⟨?_, hlen⟩
  rw [emptyDir_hashed, Set.empty_union]
  refine Sha256.collisionFree_of_heads ?_ hheads
  rintro t (ht | ⟨p, hp, ht⟩)
  · rcases ht with rfl | rfl
    · exact mem_cons_self
    · exact mem_cons_of_mem _ mem_cons_self
  · have hp' : p = (str "1__a.sql", str "SELECT 1;") := mem_singleton.mp hp
    subst hp'
    rcases ht with rfl | rfl
    · exact mem_cons_of_mem _ (mem_cons_of_mem _ mem_cons_self)
    · exact mem_cons_of_mem _ (mem_cons_of_mem _ (mem_cons_of_mem _ mem_cons_self))

end AutoSql.Migrate
