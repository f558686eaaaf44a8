/-
AutoSql/Migrate/Rebuild.lean

Rebuilding a generation from its own manifest, and reading a published
directory.

`verifyGenerationAt` gives `build` the entries of the manifest as files.  These
are not the files the directory was built from: they come in the order of the
manifest, and their parents are those the entry was linked to, which the file may
have left out.  `rebuild` says that this makes no difference.

`published_readable` is the result for a directory as `Update` leaves it.
-/
import AutoSql.Migrate.Readable

namespace AutoSql.Migrate

open GoString GoJson Text Fallible List GoMap

variable {isArtifact : GoString → Bool} {files : List File} {m : Manifest}

/-! ### The stored files -/

variable {name rest version : GoString} {g : GoMap GoString} {limit : Nat} {e : Migration}

theorem exists_sql (h : matchFile name = some (version, rest)) : ∃ u, name = u ++ str ".sql" := by
  obtain ⟨rfl | rfl, -⟩ := matchFile_eq h
  · exact ⟨_, rfl⟩
  · exact ⟨0x56 :: (version ++ str "__" ++ rest), rfl⟩

/-- No SQL file has the name of an artifact. -/
theorem sql_ne_artifact {other : GoString} (h : matchFile name = some (version, rest)) :
    name ≠ other ++ str ".artifact.json" := by
  obtain ⟨u, rfl⟩ := exists_sql h
  intro heq
  have hlast := congrArg List.getLast? heq
  rw [getLast?_append, getLast?_append] at hlast
  cases hlast

namespace Built

variable (b : Built isArtifact files m)
include b

theorem origin_of_file {f : File} (hf : f ∈ files) : ∃ r e, Origin isArtifact f r e := by
  obtain ⟨e, -, r, ho⟩ := b.exists_entry hf
  exact ⟨r, e, ho⟩

theorem nodup_names : (files.map File.name).Nodup := by
  refine List.Nodup.of_map toLower ?_
  rw [map_map]
  exact b.names

theorem nodup_parts : ((files.flatMap File.parts).map Prod.fst).Nodup := by
  have hartifact : ∀ f ∈ files, f.artifactName ≠ [] → f.artifactName = f.name ++ str ".artifact.json" := by
    intro f hf hn
    obtain ⟨r, e, ho⟩ := b.origin_of_file hf
    exact (ho.artifact.2.2 hn).2.1
  have hsql : ∀ f ∈ files, ∀ other, f.name ≠ other ++ str ".artifact.json" := by
    intro f hf other
    obtain ⟨r, e, ho⟩ := b.origin_of_file hf
    obtain ⟨hname, hmatch, -⟩ := ho.named
    exact sql_ne_artifact (hname ▸ hmatch)
  rw [map_flatMap, nodup_flatMap]
  constructor
  · intro f hf
    rw [File.parts]
    split_ifs with hn
    · have := hartifact f hf hn
      simp only [map_cons, map_nil, nodup_cons, mem_singleton]
      exact ⟨fun h => hsql f hf _ (h.trans this), by simp, nodup_nil⟩
    · simp
  · refine (pairwise_map.mp b.nodup_names).imp_of_mem fun {f g} hf hg hne => ?_
    intro k hkf hkg
    have hmem : ∀ {x : File}, k ∈ x.parts.map Prod.fst → k = x.name ∨ x.artifactName ≠ [] ∧ k = x.artifactName := by
      intro x hx
      rw [File.parts] at hx
      split_ifs at hx with hn
      · simpa [hn] using hx
      · exact .inl (by simpa using hx)
    rcases hmem hkf with rfl | ⟨hnf, rfl⟩ <;> rcases hmem hkg with hk | ⟨hng, hk⟩
    · exact hne hk
    · exact hsql f hf _ (hk.trans (hartifact g hg hng))
    · exact hsql g hg _ (hk.symm.trans (hartifact f hf hnf))
    · rw [hartifact f hf hnf, hartifact g hg hng] at hk
      exact hne (append_cancel_right hk)

theorem get?_stored {k v : GoString} : (stored files).get? k = some v ↔ ∃ f ∈ files, (k, v) ∈ f.parts := by
  rw [stored, get?_ofList_of_nodup b.nodup_parts, mem_flatMap]

theorem expected_of_key {k : GoString} (hk : k ∈ (stored files).keys) : k ∈ expectedNames m.entries := by
  obtain ⟨v, hv⟩ := Option.isSome_iff_exists.mp (mem_keys.mp hk)
  obtain ⟨f, hf, hmem⟩ := b.get?_stored.mp hv
  obtain ⟨e, he, r, ho⟩ := b.exists_entry hf
  refine mem_flatMap.mpr ⟨e, he, ?_⟩
  rw [ho.artifact.1, ho.named.1]
  rw [File.parts] at hmem
  split_ifs at hmem ⊢ with hn
  · simp only [mem_cons, Prod.mk.injEq, not_mem_nil, or_false] at hmem ⊢
    exact hmem.imp And.left And.left
  · simp only [mem_cons, Prod.mk.injEq, not_mem_nil, or_false] at hmem ⊢
    exact hmem.1

end Built

/-! ### The files of the entries -/

/-- The file an entry is rebuilt from. -/
def Recovered (isArtifact : GoString → Bool) (files : List File) (e : Migration) (c : File) : Prop :=
  ∃ f ∈ files, ∃ r, Origin isArtifact f r e ∧ c = { f with parents := e.parents }

theorem readAt_eq (h : traverses name = false) : readAt g name limit = match g.get? name with
      | none => .error .notExist
      | some b => if limit < b.length then .error .invalid else .ok b := by
  simp only [traverses, Bool.or_eq_false_iff, beq_eq_false_iff_ne, decide_eq_false_iff_not] at h
  obtain ⟨⟨⟨hne, hdots⟩, hslash⟩, -⟩ := h
  have hbase : ¬ (notBase name = true ∨ str ".." <:+: name) := by
    rintro (h | h)
    · have hslash' : 0x2F ∉ name := by simpa using hslash
      simp [notBase, hne, hslash'] at h
    · exact hdots h
  refine (if_neg hbase).trans ?_
  cases g.get? name <;> rfl

theorem readAt_ok {b : GoString} (hbase : traverses name = false)
    (hget : g.get? name = some b) (hlen : b.length ≤ limit) : readAt g name limit = .ok b := by
  rw [readAt_eq hbase, hget]
  exact if_neg (not_lt.mpr hlen)

theorem readAt_inv {b : GoString} (h : readAt g name limit = .ok b) : g.get? name = some b ∧ b.length ≤ limit := by
  rw [readAt, guard_ok] at h
  obtain ⟨-, h⟩ := h
  split at h
  · cases h
  · rename_i c hc
    rw [guard_ok, not_lt] at h
    cases Except.ok.inj h.2
    exact ⟨hc, h.1⟩

/-- Two dots in a row are two neighbours that are dots. -/
theorem not_dots_iff {s : GoString} : ¬ str ".." <:+: s ↔ s.IsChain fun x y => ¬ (x = 0x2E ∧ y = 0x2E) := by
  constructor
  · intro h
    induction s with
    | nil => exact .nil
    | cons x s ih =>
      have hs := ih fun hi => h (hi.trans (suffix_cons x s).isInfix)
      cases s with
      | nil => exact .singleton x
      | cons y s =>
        refine .cons_cons ?_ hs
        rintro ⟨rfl, rfl⟩
        exact h (prefix_append (str "..") s).isInfix
  · intro h hi
    cases h.infix hi with
    | cons_cons hr _ => exact hr ⟨rfl, rfl⟩

/-- The name of the artifact is a base name if that of the file is. -/
theorem traverses_artifact (hm : matchFile name = some (version, rest))
    (h : traverses name = false) : traverses (name ++ str ".artifact.json") = false := by
  obtain ⟨u, rfl⟩ := exists_sql hm
  simp only [traverses, Bool.or_eq_false_iff, beq_eq_false_iff_ne, decide_eq_false_iff_not, not_dots_iff,
    isChain_append, contains_eq_mem, mem_append, not_or] at h ⊢
  obtain ⟨⟨⟨hne, hdots⟩, hslash⟩, hback⟩ := h
  refine ⟨⟨⟨append_ne_nil_of_left_ne_nil hne _, hdots, by decide, ?_⟩, hslash, by decide⟩, hback, by decide⟩
  rw [getLast?_append]
  rintro x ⟨⟩ y -
  simp

theorem readCandidate_ok (b : Built isArtifact files m) (he : e ∈ m.entries) :
    ∃ c, readCandidate (stored files) e = .ok c ∧ Recovered isArtifact files e c := by
  obtain ⟨f, hf, r, ho⟩ := b.exists_origin he
  refine ⟨_, ?_, f, hf, r, ho, rfl⟩
  obtain ⟨hname, hmatch, htrav⟩ := ho.named
  obtain ⟨hart, hnone, hsome⟩ := ho.artifact
  have hsql : readAt (stored files) e.file maxFile = .ok f.sql := by
    refine readAt_ok htrav (b.get?_stored.mpr ⟨f, hf, ?_⟩) ?_
    · rw [hname]
      exact mem_cons_self
    · have := ho.1.text_ok
      simp only [textOk, Bool.and_eq_true, decide_eq_true_eq] at this
      exact this.1.1
  have hfields : e.nonLinear = f.nonLinear ∧ e.kind = f.kind ∧ e.coveredFrom = f.coveredFrom ∧
      e.coveredTo = f.coveredTo ∧ e.schemaFingerprint = f.schemaFingerprint ∧ e.dataPolicy = f.dataPolicy := by
    obtain ⟨-, ps, ch, rfl⟩ := ho
    exact ⟨rfl, rfl, rfl, rfl, rfl, rfl⟩
  rw [readCandidate, hsql]
  show (if e.artifactFile ≠ [] then _ else _) = _
  obtain ⟨h₁, h₂, h₃, h₄, h₅, h₆⟩ := hfields
  rw [hart]
  by_cases hn : f.artifactName = []
  · have hempty : f.artifact = [] := by
      by_contra hne
      exact ho.hasArtifact.mp (.inl hne) hn
    rw [if_neg (not_not.mpr hn), hname, h₁, h₂, h₃, h₄, h₅, h₆, hn, hempty]
  · obtain ⟨hdig, heq, htext, -⟩ := hsome hn
    have hread : readAt (stored files) f.artifactName maxFile = .ok f.artifact := by
      refine readAt_ok ?_ (b.get?_stored.mpr ⟨f, hf, ?_⟩) ?_
      · rw [heq, ← hname]
        exact traverses_artifact hmatch htrav
      · rw [File.parts, if_pos hn]
        exact mem_cons_of_mem _ mem_cons_self
      · simp only [textOk, Bool.and_eq_true, decide_eq_true_eq] at htext
        exact htext.1.1
    rw [if_pos hn, hread]
    show (if artifactDigest f.artifact ≠ e.artifactDigest then _ else _) = _
    rw [if_neg (not_not.mpr hdig.symm), hname, h₁, h₂, h₃, h₄, h₅, h₆]

/-! ### The same manifest again -/

/-- An entry before it is linked, with the parents it is linked to. -/
def Migration.unlinked (e : Migration) : Migration := { e with chainDigest := [] }

theorem parseFiles_of {names versions : GoSet} {cs : List File} {es : List Migration}
    (hall : List.Forall₂ (fun c e => parseFile isArtifact c = .ok e) cs es)
    (hversions : versions.Fresh (es.map Migration.version)) (hnames : names.Fresh (cs.map fun c => toLower c.name)) :
    parseFiles isArtifact names versions cs = .ok es := by
  induction hall generalizing names versions with
  | nil => rfl
  | @cons c e cs es hc _ ih =>
    rw [map_cons, GoSet.fresh_cons] at hversions hnames
    rw [parseFiles, if_neg (by simp [hnames.1]), hc]
    show (if GoSet.has versions e.version = true then _ else _) = _
    rw [if_neg (by simp [hversions.1]), ih hversions.2 hnames.2]
    rfl

theorem versionIndex_congr {l l' : List Migration} (h : l.map Migration.version = l'.map Migration.version) :
    versionIndex l = versionIndex l' := by
  have key : ∀ l : List Migration, (l.zipIdx.map fun x => (x.1.version, x.2)) = (l.map Migration.version).zipIdx := by
    intro l
    rw [zipIdx_map]
    rfl
  rw [versionIndex, versionIndex, key, key, h]

/-- Linking keeps to the parents it has chosen once. -/
theorem Linked.again {byVersion : GoMap Nat} {done : List Migration} {e' : Migration} (h : Linked byVersion done e e') :
    Linked byVersion done e'.unlinked e' where
  covers hk := by
    have hk' : e.kind = checkpoint := by
      rw [h.entry_eq] at hk
      exact hk
    rw [h.entry_eq]
    exact h.covers hk'
  parents_eq := by
    have hnil : e'.unlinked.parents = [] ↔ done = [] := h.parents_eq_nil
    show defaultParents done e'.unlinked = .ok e'.unlinked.parents
    rw [defaultParents]
    split
    · rename_i hlast
      have hempty := hnil.mpr (getLast?_eq_none_iff.mp hlast)
      rw [if_neg (not_not.mpr hempty), hempty]
    · rename_i prev hlast
      rw [if_neg]
      intro hno
      rw [hnil.mp hno] at hlast
      cases hlast
  nodup := h.nodup
  before := h.before
  linear := by
    have hn : e'.unlinked.nonLinear = e.nonLinear := by
      rw [h.entry_eq]
      rfl
    rw [hn]
    exact h.linear
  nonempty := h.nonempty
  entry_eq := by
    have hchain : e'.chainDigest = chainDigest e' (parentChains byVersion done e'.parents) := by
      conv_lhs => rw [h.entry_eq]
      conv_rhs => rw [h.entry_eq]
      rfl
    have hupdate : ∀ {c : GoString}, c = e'.chainDigest → e' = { e' with chainDigest := c } := by
      rintro _ rfl
      rfl
    exact hupdate hchain.symm

theorem Recovered.parseFile {c : File} (h : Recovered isArtifact files e c)
    (hsorted : sortStrings e.parents = e.parents) : parseFile isArtifact c = .ok e.unlinked := by
  obtain ⟨f, -, r, ⟨hr, ps, ch, rfl⟩, rfl⟩ := h
  refine (parseFile_ok isArtifact).mpr ⟨r, ⟨hr.text_ok, hr.base_name, hr.file_ok, hr.version_ok, hr.directives_ok,
    hr.split_ok, hr.artifact_ok⟩, ?_⟩
  have hs : sortStrings ps = ps := hsorted
  show _ = { r.entry f with parents := sortStrings ps }
  rw [hs]
  rfl

theorem sortStrings_of_lt {l : List GoString} (h : l.Pairwise fun p q => lt p q = true) : sortStrings l = l :=
  List.Pairwise.insertionSort_eq (h.imp fun hl => (lt_iff.mp hl).1)

/-- Rebuilding a directory from its entries gives the directory. -/
theorem rebuild (b : Built isArtifact files m) {cs : List File} (hcs : List.Forall₂ (Recovered isArtifact files) m.entries cs) :
    build isArtifact cs = .ok m := by
  have hparsed : List.Forall₂ (fun c e => parseFile isArtifact c = .ok e) cs (m.entries.map Migration.unlinked) := by
    rw [forall₂_map_right_iff]
    refine (forall₂_imp_of_mem hcs fun e he c hc => ?_).flip
    obtain ⟨i, hi⟩ := mem_iff_getElem?.mp he
    obtain ⟨f, -, r, -, hl⟩ := b.at_index hi
    exact hc.parseFile (sortStrings_of_lt (hl.sorted rfl))
  have hnames : m.entries.map Migration.file = cs.map File.name := by
    refine map_eq_of_forall₂ (forall₂_imp_of_mem hcs fun e _ c hc => ?_)
    obtain ⟨f, -, r, ho, rfl⟩ := hc
    exact ho.named.1
  have hversion : (m.entries.map Migration.unlinked).map Migration.version = m.entries.map Migration.version := by
    rw [map_map]
    rfl
  have hparse : parseFiles isArtifact GoMap.empty GoMap.empty cs = .ok (m.entries.map Migration.unlinked) := by
    refine parseFiles_of hparsed (GoSet.fresh_empty (hversion ▸ b.nodup_version)) (GoSet.fresh_empty ?_)
    have := b.nodup_lower
    rw [show (m.entries.map fun e => toLower e.file) = (m.entries.map Migration.file).map toLower by rw [map_map]; rfl,
      hnames, map_map] at this
    exact this
  have hsort : sortEntries (m.entries.map Migration.unlinked) = m.entries.map Migration.unlinked := by
    refine List.Pairwise.insertionSort_eq (pairwise_map.mpr (b.wellFormed.increasing.imp fun h => ?_))
    exact not_less_iff.mpr (.inl h)
  have hindex : versionIndex (m.entries.map Migration.unlinked) = versionIndex (sortEntries b.parsed) :=
    versionIndex_congr (hversion.trans b.map_version)
  have hlink : linkAll (versionIndex (sortEntries b.parsed)) [] (m.entries.map Migration.unlinked) = .ok m.entries := by
    refine linkAll_ok.mpr ⟨m.entries, rfl, by simp, ?_⟩
    intro i e e' he he'
    rw [getElem?_map, he', Option.map_some, Option.some.injEq] at he
    obtain ⟨e₀, -, hl⟩ := b.exists_sorted he'
    rw [← he]
    exact hl.again
  rw [build, hparse]
  show (linkAll (versionIndex (sortEntries _)) [] (sortEntries _) >>= _) = _
  rw [hsort, hindex, hlink]
  have hm : m = ⟨m.version, m.generation, m.entries, m.digest⟩ := rfl
  conv_rhs => rw [hm, b.version_eq, b.generation_eq, b.digest_eq]
  have hdigest : manifestDigest ⟨manifestVersion, generationOf m.entries, m.entries, []⟩ = manifestDigest m := by
    rw [manifestDigest, manifestDigest, b.version_eq, b.generation_eq]
  rw [← hdigest]
  rfl

/-! ### A published directory -/

theorem verifyFiles_ok (b : Built isArtifact files m) : verifyFiles isArtifact (stored files) m.read = .ok (stored files) := by
  have hmap : m.read.entries.map ReadMigration.migration = m.entries := by
    rw [Manifest.read, map_map]
    exact map_id _
  obtain ⟨cs, hcs, hall⟩ := exists_mapM_ok fun e he => readCandidate_ok b he
  have hbuild := rebuild b hall
  obtain ⟨b'⟩ := build_steps isArtifact hbuild
  have hstored : stored cs = stored files := by
    refine GoMap.ext fun k => Option.ext fun v => ?_
    rw [b.get?_stored, b'.get?_stored]
    constructor
    · rintro ⟨c, hc, hmem⟩
      obtain ⟨e, -, f, hf, r, -, rfl⟩ := forall₂_mem hall.flip c hc
      exact ⟨f, hf, hmem⟩
    · rintro ⟨f, hf, hmem⟩
      obtain ⟨e, he, r, ho⟩ := b.exists_entry hf
      obtain ⟨c, hc, f', hf', r', ho', rfl⟩ := forall₂_mem hall e he
      -- both come from the same entry, so they have the same name
      have hsame : f' = f := inj_on_of_nodup_map b.nodup_names hf' hf (ho'.named.1.symm.trans ho.named.1)
      exact ⟨_, hc, hsame ▸ hmem⟩
  have hkeys : (stored files).keys.find? (fun name => name ∉ expectedNames m.entries) = none := by
    rw [find?_eq_none]
    intro k hk
    simpa using b.expected_of_key hk
  rw [verifyFiles, hmap, hkeys, hcs]
  show ((build isArtifact cs).mapError ReadError.build >>= _) = _
  rw [hbuild]
  show (if m.read.canonical ≠ canonical m then _ else _) = _
  rw [if_neg (not_not.mpr (canonical_read m)), hstored]

/-- A directory in which `m` has just been published: the manifest is its canonical
text, its generation holds the files, and no SQL lies next to the manifest. -/
structure Dir.Publishes (d : Dir) (files : List File) (m : Manifest) : Prop where
  manifest : d.root.get? manifestFile = some (canonical m)
  generation : d.openGeneration m.generation = .ok (stored files)
  noSQL : d.root.keys.find? isSQLName = none

theorem Dir.loadAt_eq {d : Dir} {raw : GoString} (hraw : d.root.get? manifestFile = some raw) (hsize : raw.length ≤ maxManifest) :
    d.loadAt = (strictManifest raw).map fun r => (r, raw) := by
  rw [Dir.loadAt, readAt_ok (by decide) hraw hsize]
  show (strictManifest raw >>= _) = _
  cases strictManifest raw <;> rfl

/-- A manifest that is not accepted. -/
theorem Dir.snapshotAt_error {d : Dir} {raw : GoString} {e : ReadError} (hraw : d.root.get? manifestFile = some raw)
    (hsize : raw.length ≤ maxManifest) (hstrict : strictManifest raw = .error e) :
    d.loadAt = .error e ∧ d.snapshotAt isArtifact = .error e := by
  have hload : d.loadAt = .error e := by
    rw [Dir.loadAt_eq hraw hsize, hstrict]
    rfl
  refine ⟨hload, ?_⟩
  rw [Dir.snapshotAt, hload]
  rfl

theorem Built.readable_iff (b : Built isArtifact files m) : (∀ e ∈ m.entries, e.Readable) ↔ ∀ f ∈ files, f.Readable := by
  constructor
  · intro h f hf
    obtain ⟨e, he, r, ho⟩ := b.exists_entry hf
    exact ho.readable_iff.mp (h e he)
  · intro h e he
    obtain ⟨f, hf, r, ho⟩ := b.exists_origin he
    exact ho.readable_iff.mpr (h f hf)

namespace Dir.Publishes

variable {d : Dir} (hd : d.Publishes files m)
include hd

theorem loadAt_ok (hsize : (canonical m).length ≤ maxManifest) (hstrict : strictManifest (canonical m) = .ok m.read) :
    d.loadAt = .ok (m.read, canonical m) := by
  rw [Dir.loadAt_eq hd.manifest hsize, hstrict]
  rfl

theorem snapshotAt_ok (b : Built isArtifact files m) (hsize : (canonical m).length ≤ maxManifest)
    (hstrict : strictManifest (canonical m) = .ok m.read) :
    d.snapshotAt isArtifact = .ok ⟨m.read, canonical m, stored files⟩ := by
  rw [Dir.snapshotAt, hd.loadAt_ok hsize hstrict]
  show (d.verifyGenerationAt isArtifact m.read >>= _) = _
  rw [Dir.verifyGenerationAt, show m.read.generation = m.generation from rfl, hd.generation]
  show (verifyFiles isArtifact (stored files) m.read >>= _) = _
  rw [verifyFiles_ok b, hd.noSQL]
  rfl

end Dir.Publishes

/-- A directory that was just published can be read if and only if every file in it
declares no kind but `checkpoint`, and JSON keeps what else it declares. -/
theorem published_readable (hb : build isArtifact files = .ok m) (hsize : (canonical m).length ≤ maxManifest) (d : Dir)
    (hd : d.Publishes files m) :
    (strictManifest (canonical m) = .ok m.read ∧ verifyFiles isArtifact (stored files) m.read = .ok (stored files) ∧
      d.loadAt = .ok (m.read, canonical m) ∧
      d.snapshotAt isArtifact = .ok ⟨m.read, canonical m, stored files⟩) ↔ ∀ f ∈ files, f.Readable := by
  obtain ⟨b⟩ := build_steps isArtifact hb
  rw [← b.readable_iff, ← b.strictManifest_iff hsize]
  refine ⟨fun h => h.1, fun hstrict => ?_⟩
  exact ⟨hstrict, verifyFiles_ok b, hd.loadAt_ok hsize hstrict, hd.snapshotAt_ok b hsize hstrict⟩

/-! A directory of one file. -/

variable (kind : GoString)

def oneFile : File := { name := str "1__a.sql", sql := str "SELECT 1;", kind }

def oneManifest : Manifest :=
  (build (fun _ => true) [oneFile kind]).toOption.getD ⟨[], [], [], []⟩

def oneDir : Dir where
  root := GoMap.ofList [(manifestFile, canonical (oneManifest kind))]
  generations := some (GoMap.ofList [((oneManifest kind).generation, stored [oneFile kind])])

theorem oneDir_publishes : (oneDir kind).Publishes [oneFile kind] (oneManifest kind) where
  manifest := get?_insert_self
  generation := by
    have hget : (GoMap.ofList [((oneManifest kind).generation, stored [oneFile kind])]).get? (oneManifest kind).generation =
        some (stored [oneFile kind]) := get?_insert_self
    rw [Dir.openGeneration, oneDir, Option.bind_some, hget]
  noSQL := by
    show [manifestFile].find? isSQLName = none
    decide +kernel

/-- A file of no kind. -/
theorem oneFile_plain : build (fun _ => true) [oneFile []] = .ok (oneManifest []) ∧
    (canonical (oneManifest [])).length ≤ maxManifest := by
  obtain ⟨hok, hsize⟩ : (build (fun _ => true) [oneFile []]).isOk = true ∧
      (canonical (oneManifest [])).length ≤ maxManifest := by decide +kernel
  exact ⟨eq_ok_of_isOk hok _, hsize⟩

/-- A file of an unknown kind. -/
theorem oneFile_unknown : build (fun _ => true) [oneFile (str "x")] = .ok (oneManifest (str "x")) ∧
    (canonical (oneManifest (str "x"))).length ≤ maxManifest ∧
    strictManifest (canonical (oneManifest (str "x"))) = .error .invalid := by
  obtain ⟨hok, hsize, hstrict⟩ : (build (fun _ => true) [oneFile (str "x")]).isOk = true ∧
      (canonical (oneManifest (str "x"))).length ≤ maxManifest ∧
      strictManifest (canonical (oneManifest (str "x"))) = .error .invalid := by decide +kernel
  exact ⟨eq_ok_of_isOk hok _, hsize, hstrict⟩

theorem published_readable_one :
    (oneDir []).snapshotAt (fun _ => true) = .ok ⟨(oneManifest []).read, canonical (oneManifest []), stored [oneFile []]⟩ := by
  obtain ⟨hb, hsize⟩ := oneFile_plain
  exact ((published_readable hb hsize (oneDir []) (oneDir_publishes [])).mpr (by decide)).2.2.2

/-- `build` accepts a file of an unknown kind, and the directory published with it
cannot be read any more. -/
theorem unknown_kind_unreadable : build (fun _ => true) [oneFile (str "x")] = .ok (oneManifest (str "x")) ∧
      (canonical (oneManifest (str "x"))).length ≤ maxManifest ∧
      (oneDir (str "x")).Publishes [oneFile (str "x")] (oneManifest (str "x")) ∧
      strictManifest (canonical (oneManifest (str "x"))) = .error .invalid ∧
      (oneDir (str "x")).loadAt = .error .invalid ∧ (oneDir (str "x")).snapshotAt (fun _ => true) = .error .invalid := by
  obtain ⟨hbuild, hsize, hstrict⟩ := oneFile_unknown
  exact ⟨hbuild, hsize, oneDir_publishes _, hstrict, Dir.snapshotAt_error (oneDir_publishes _).manifest hsize hstrict⟩

end AutoSql.Migrate
