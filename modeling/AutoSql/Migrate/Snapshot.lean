/-
AutoSql/Migrate/Snapshot.lean

What a directory is that can be read, and what reading depends on.

`snapshot_inv`: a directory that `snapshotAt` accepts publishes a manifest that
`build` makes of the files in its generation.  `snapshotAt_congr`: the result
depends on the manifest file, the generation it names, and on which names next to
the manifest are names of SQL files, and on nothing else.
-/
import AutoSql.Migrate.Commands
import AutoSql.Migrate.Identity

namespace AutoSql.Migrate

open GoString GoJson Fallible List

variable {isArtifact : GoString → Bool} {files : List File} {man : Manifest} {d d' : Dir}

/-! ### Directories that can be read -/

/-- Only the manifest itself is read from the text of a manifest. -/
theorem Built.strict_inv (b : Built isArtifact files man) {r : ReadManifest} (h : strictManifest (canonical man) = .ok r) :
    r = man.read ∧ ∀ f ∈ files, f.Readable := by
  have hsize : (canonical man).length ≤ maxManifest := by
    rw [strictManifest, guard_ok] at h
    by_contra hlen
    exact h.1 (.inl (not_le.mp hlen))
  obtain ⟨rfl, -, -, hval, -, hcan⟩ := (strictManifest_canonical b.inRange hsize).mp h
  obtain ⟨hman, hread⟩ := b.of_canonical hcan hval
  rw [hman]
  exact ⟨rfl, hread⟩

theorem readCandidate_inv {g : GoMap GoString} {e : Migration} {c : File} (h : readCandidate g e = .ok c) :
    ∀ k v, (k, v) ∈ c.parts ↔ (k = e.file ∨ e.artifactFile ≠ [] ∧ k = e.artifactFile) ∧ g.get? k = some v := by
  obtain ⟨sql, hsql, h⟩ := bind_ok.mp h
  obtain ⟨hget, -⟩ := readAt_inv hsql
  intro k v
  split_ifs at h with hn
  · obtain ⟨a, ha, h⟩ := bind_ok.mp h
    obtain ⟨hart, -⟩ := readAt_inv ha
    rw [guard_ok] at h
    cases Except.ok.inj h.2
    simp only [File.parts, if_pos hn, mem_cons, Prod.mk.injEq, not_mem_nil, or_false]
    constructor
    · rintro (⟨rfl, rfl⟩ | ⟨rfl, rfl⟩)
      · exact ⟨.inl rfl, hget⟩
      · exact ⟨.inr ⟨hn, rfl⟩, hart⟩
    · rintro ⟨rfl | ⟨-, rfl⟩, hv⟩
      · exact .inl ⟨rfl, Option.some.inj (hv.symm.trans hget)⟩
      · exact .inr ⟨rfl, Option.some.inj (hv.symm.trans hart)⟩
  · cases Except.ok.inj h
    have hart : ([] : GoString) ≠ [] → False := fun h => h rfl
    simp only [File.parts, if_neg hart, mem_cons, Prod.mk.injEq, not_mem_nil, or_false]
    constructor
    · rintro ⟨rfl, rfl⟩
      exact ⟨.inl rfl, hget⟩
    · rintro ⟨rfl | ⟨hne, -⟩, hv⟩
      · exact ⟨rfl, Option.some.inj (hv.symm.trans hget)⟩
      · exact absurd hne hn

/-- A generation that is accepted holds the files of a manifest with the same text,
and nothing else. -/
theorem verifyFiles_inv {g x : GoMap GoString} {m : ReadManifest} (h : verifyFiles isArtifact g m = .ok x) :
    ∃ cs actual, build isArtifact cs = .ok actual ∧ m.canonical = canonical actual ∧ x = g ∧ g = stored cs := by
  rw [verifyFiles] at h
  split at h
  · cases h
  · rename_i hnames
    obtain ⟨cs, hcs, h⟩ := bind_ok.mp h
    obtain ⟨actual, hbuild, h⟩ := bind_ok.mp h
    rw [mapError_ok] at hbuild
    rw [guard_ok, not_not] at h
    obtain ⟨b⟩ := build_steps isArtifact hbuild
    have hall := mapM_ok hcs
    have hg : g = stored cs := by
      refine GoMap.ext fun k => Option.ext fun v => ?_
      rw [b.get?_stored]
      constructor
      · intro hk
        have hkey := find?_eq_none.mp hnames k (GoMap.mem_keys.mpr (by rw [hk]; rfl))
        have hexp : k ∈ expectedNames (m.entries.map ReadMigration.migration) := by simpa using hkey
        obtain ⟨e, he, hmem⟩ := mem_flatMap.mp hexp
        obtain ⟨c, hc, hread⟩ := forall₂_mem hall e he
        refine ⟨c, hc, (readCandidate_inv hread k v).mpr ⟨?_, hk⟩⟩
        rcases mem_cons.mp hmem with hk | hmem
        · exact .inl hk
        · split_ifs at hmem with hn
          · exact .inr ⟨hn, mem_singleton.mp hmem⟩
          · cases hmem
      · rintro ⟨c, hc, hmem⟩
        obtain ⟨e, -, hread⟩ := forall₂_mem hall.flip c hc
        exact ((readCandidate_inv hread k v).mp hmem).2
    refine ⟨cs, actual, hbuild, h.1, ?_, hg⟩
    rw [hg]
    exact (Except.ok.inj h.2).symm

theorem loadAt_inv {m : ReadManifest} {raw : GoString} (h : d.loadAt = .ok (m, raw)) :
    d.root.get? manifestFile = some raw ∧ raw.length ≤ maxManifest ∧ strictManifest raw = .ok m ∧ raw = m.canonical := by
  obtain ⟨raw', hraw, h⟩ := bind_ok.mp h
  obtain ⟨m', hm, h⟩ := bind_ok.mp h
  cases h
  obtain ⟨hget, hlen⟩ := readAt_inv hraw
  refine ⟨hget, hlen, hm, ?_⟩
  rw [strictManifest, guard_ok, guard_ok] at hm
  obtain ⟨-, -, hm⟩ := hm
  split at hm
  · cases hm
  · simp only [guard_ok, bind_ok, not_not] at hm
    obtain ⟨-, -, -, -, -, hcan, hm⟩ := hm
    cases Except.ok.inj hm
    exact hcan

/-- A directory that can be read publishes what `build` makes of its files. -/
theorem snapshot_inv {s : ReadSnapshot} (h : d.snapshotAt isArtifact = .ok s) :
    ∃ cs m, build isArtifact cs = .ok m ∧ (canonical m).length ≤ maxManifest ∧ (∀ c ∈ cs, c.Readable) ∧ d.Publishes cs m ∧
      d.loadAt = .ok (m.read, canonical m) := by
  obtain ⟨⟨m, raw⟩, hload, h⟩ := bind_ok.mp h
  obtain ⟨x, hverify, h⟩ := bind_ok.mp h
  obtain ⟨g, hopen, hfiles⟩ := bind_ok.mp hverify
  obtain ⟨cs, actual, hbuild, hcan, rfl, rfl⟩ := verifyFiles_inv hfiles
  obtain ⟨b⟩ := build_steps isArtifact hbuild
  obtain ⟨hget, hlen, hstrict, rfl⟩ := loadAt_inv hload
  rw [hcan] at hget hlen hstrict
  obtain ⟨rfl, hread⟩ := b.strict_inv hstrict
  rw [hcan] at hload
  refine ⟨cs, actual, hbuild, hlen, hread, ⟨hget, hopen, ?_⟩, hload⟩
  split at h
  · cases h
  · assumption

/-! ### What reading depends on -/

theorem snapshotAt_congr (hmanifest : d'.root.get? manifestFile = d.root.get? manifestFile)
    (hgeneration : ∀ m raw, d.loadAt = .ok (m, raw) → d'.generation m.generation = d.generation m.generation)
    (hsql : ∀ n, isSQLName n = true → (d'.root.get? n).isSome = (d.root.get? n).isSome) :
    d'.snapshotAt isArtifact = d.snapshotAt isArtifact := by
  have hload : d'.loadAt = d.loadAt := by
    rw [Dir.loadAt, Dir.loadAt, readAt_eq (by decide), readAt_eq (by decide), hmanifest]
  have hfind : d'.root.keys.find? isSQLName = d.root.keys.find? isSQLName := GoMap.find?_keys_congr hsql
  rw [Dir.snapshotAt, Dir.snapshotAt, hload]
  rcases hd : d.loadAt with e | ⟨m, raw⟩
  · rfl
  · have hopen : d'.openGeneration m.generation = d.openGeneration m.generation := by
      rw [Dir.openGeneration_eq, Dir.openGeneration_eq, hgeneration m raw hd]
    show (d'.verifyGenerationAt isArtifact m >>= _) = (d.verifyGenerationAt isArtifact m >>= _)
    rw [Dir.verifyGenerationAt, Dir.verifyGenerationAt, hopen, hfind]

/-- A name that does not end in `.sql`, whatever it starts with. -/
theorem isSQLName_append {s t : GoString} (hs : Utf8.valid s = true) (ht : (Text.toLower t).length = 4)
    (hne : Text.toLower t ≠ str ".sql") : isSQLName (s ++ t) = false := by
  have happend : Text.toLower (s ++ t) = Text.toLower s ++ Text.toLower t := by
    rw [Text.toLower, Utf8.runes_append hs, flatMap_append]
    rfl
  rw [isSQLName, happend, Bool.eq_false_iff, ne_eq, isSuffixOf_iff_suffix]
  intro h
  have hsuffix := suffix_of_suffix_length_le h (suffix_append (Text.toLower s) (Text.toLower t)) (by rw [ht]; decide)
  exact hne (hsuffix.eq_of_length (by rw [ht]; decide)).symm

theorem ne_of_isSQLName {m n : GoString} (hm : isSQLName m = false) (hn : isSQLName n = true) : n ≠ m := by
  rintro rfl
  rw [hm] at hn
  cases hn

theorem isSQLName_own {g : GoString} (hg : matchGeneration g = true) :
    isSQLName journalFile = false ∧ isSQLName manifestFile = false ∧ isSQLName (stagedFile g) = false := by
  refine ⟨by decide +kernel, by decide +kernel, ?_⟩
  refine isSQLName_append (Utf8.valid_append (by decide +kernel) (valid_of_matchGeneration hg)) (by decide +kernel) (by decide +kernel)

end AutoSql.Migrate
