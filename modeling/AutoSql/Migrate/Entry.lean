/-
AutoSql/Migrate/Entry.lean

What is known of an entry of an accepted directory.

Every entry comes from a file (`Origin`), and what `parseFile` has read from it
passes the checks that the reader of a manifest repeats: the name and the
version belong together, the digests are those of the parts, and all of it is
text in ASCII.
-/
import AutoSql.Migrate.Directory

namespace AutoSql.Migrate

open GoString GoJson Text Fallible List
open Bool (or_eq_true and_eq_true)
open Utf8 (valid)

/-! ### Texts of accepted files -/

theorem isAlnum_ascii {b : UInt8} (h : isAlnum b = true) : b < 0x80 := by
  simp only [isAlnum, isDigit, or_eq_true, and_eq_true, decide_eq_true_eq, UInt8.le_iff_toNat_le] at h
  rw [UInt8.lt_iff_toNat_lt]
  simp only [UInt8.reduceToNat] at h ⊢
  omega

theorem isPreByte_ascii {b : UInt8} (h : isPreByte b = true) : b < 0x80 := by
  simp only [isPreByte, or_eq_true, beq_iff_eq] at h
  rcases h with (h | rfl) | rfl
  · exact isAlnum_ascii h
  · decide
  · decide

variable {s : GoString}

theorem matchPre_ascii (h : matchPre s = true) : ∀ b ∈ s, b < 0x80 := by
  cases s with
  | nil => simp
  | cons a s =>
    rw [matchPre, and_eq_true] at h
    rw [forall_mem_cons]
    exact ⟨isAlnum_ascii h.1, fun b hb => isPreByte_ascii (all_eq_true.mp h.2 b hb)⟩

theorem mem_intercalate {c b : UInt8} {l : List GoString} (h : b ∈ List.intercalate [c] l) : b = c ∨ ∃ p ∈ l, b ∈ p := by
  induction l with
  | nil => simp at h
  | cons p l ih =>
    cases l with
    | nil =>
      rw [intercalate_singleton] at h
      exact .inr ⟨p, mem_cons_self, h⟩
    | cons q l =>
      rw [intercalate_cons_cons, append_assoc, mem_append, mem_append, mem_singleton] at h
      rcases h with h | rfl | h
      · exact .inr ⟨p, mem_cons_self, h⟩
      · exact .inl rfl
      · exact (ih h).imp_right fun ⟨r, hr, hb⟩ => ⟨r, mem_cons_of_mem _ hr, hb⟩

/-- A text whose parts have no byte above `0x7F` has none either. -/
theorem ascii_of_splitOn {c : UInt8} (hc : c < 0x80) (h : ∀ p ∈ s.splitOn c, ∀ b ∈ p, b < 0x80) :
    ∀ b ∈ s, b < 0x80 := by
  intro b hb
  have hs : List.intercalate [c] (s.splitOn c) = s := intercalate_splitOn c
  rw [← hs] at hb
  rcases mem_intercalate hb with rfl | ⟨p, hp, hb⟩
  · exact hc
  · exact h p hp b hb

/-- Numbers separated by dots, and what may follow a hyphen. -/
theorem ascii_of_version (hnum : ∀ p ∈ (s.takeWhile (· != 0x2D)).splitOn 0x2E, p.all isDigit = true)
    (hpre : ∀ b t, s.dropWhile (· != 0x2D) = b :: t → matchPre t = true) : ∀ b ∈ s, b < 0x80 := by
  rw [← takeWhile_append_dropWhile (p := (· != 0x2D)) (l := s), forall_mem_append]
  constructor
  · exact ascii_of_splitOn (by decide) fun p hp b hb => Json.isDigit_ascii (all_eq_true.mp (hnum p hp) b hb)
  · rcases hd : s.dropWhile (· != 0x2D) with - | ⟨a, t⟩
    · simp
    · have ha : a = 0x2D := by
        have := head?_dropWhile_not (· != 0x2D) s
        rw [hd] at this
        simpa using this
      rw [forall_mem_cons, ha]
      exact ⟨by decide, matchPre_ascii (hpre a t hd)⟩

theorem matchFileVersion_ascii (h : matchFileVersion s = true) : ∀ b ∈ s, b < 0x80 := by
  simp only [matchFileVersion, and_eq_true] at h
  obtain ⟨⟨-, hparts⟩, hpre⟩ := h
  refine ascii_of_version (fun p hp => ?_) fun b t ht => ?_
  · have := all_eq_true.mp hparts p hp
    rw [and_eq_true] at this
    exact this.2
  · rw [ht] at hpre
    exact hpre

theorem matchName_ascii (h : matchName s = true) : ∀ b ∈ s, b < 0x80 := by
  cases s with
  | nil => simp
  | cons a s =>
    simp only [matchName, and_eq_true, or_eq_true, beq_iff_eq] at h
    rw [forall_mem_cons]
    refine ⟨?_, fun b hb => ?_⟩
    · rcases h.1 with h | rfl
      · exact isAlnum_ascii h
      · decide
    · have := all_eq_true.mp h.2 b hb
      rw [or_eq_true, beq_iff_eq] at this
      rcases this with h | rfl
      · exact isPreByte_ascii h
      · decide

/-- The shape of a file name that `fileRE` matches. -/
theorem matchFile_eq {file version name : GoString} (h : matchFile file = some (version, name)) :
    (file = version ++ str "__" ++ name ++ str ".sql" ∨ file = 0x56 :: (version ++ str "__" ++ name ++ str ".sql")) ∧
      (∀ b ∈ version, b < 0x80) ∧ matchName name = true := by
  have hbody : (if file.head? = some 0x56 then file.drop 1 else file) = file ∨
      file = 0x56 :: (if file.head? = some 0x56 then file.drop 1 else file) := by
    split_ifs with hv
    · cases file with
      | nil => cases hv
      | cons b file =>
        cases hv
        exact .inr rfl
    · exact .inl rfl
  rw [matchFile] at h
  dsimp only at h
  generalize (if file.head? = some 0x56 then file.drop 1 else file) = body at h hbody
  split at h
  · rename_i t hd
    split_ifs at h with hm
    cases h
    simp only [and_eq_true] at hm
    obtain ⟨⟨hver, hsuf⟩, hname⟩ := hm
    have ht : trimSuffix t (str ".sql") ++ str ".sql" = t := by
      obtain ⟨u, hu⟩ := isSuffixOf_iff_suffix.mp hsuf
      rw [trimSuffix, ← hu]
      simp
    have hbody' : body.takeWhile (· != 0x5F) ++ str "__" ++ trimSuffix t (str ".sql") ++ str ".sql" = body := by
      rw [append_assoc, ht, append_assoc]
      conv_rhs => rw [← takeWhile_append_dropWhile (l := body), hd]
      rfl
    refine ⟨?_, matchFileVersion_ascii hver, hname⟩
    rw [hbody']
    exact hbody.imp Eq.symm id
  · cases h

theorem matchFile_ascii {file version name : GoString} (h : matchFile file = some (version, name)) :
    ∀ b ∈ file, b < 0x80 := by
  obtain ⟨hfile, hver, hname⟩ := matchFile_eq h
  have key : ∀ b ∈ version ++ str "__" ++ name ++ str ".sql", b < 0x80 := by
    simp only [forall_mem_append]
    exact ⟨⟨⟨hver, by decide +kernel⟩, matchName_ascii hname⟩, by decide +kernel⟩
  rcases hfile with rfl | rfl
  · exact key
  · exact forall_mem_cons.mpr ⟨by decide, key⟩

theorem version_ascii {v : Version} (h : v.Valid) : ∀ b ∈ v.string, b < 0x80 := by
  have hdec : ∀ n, ∀ b ∈ decimal n, b < 0x80 := fun n b hb =>
    Json.isDigit_ascii (all_eq_true.mp (Decimal.all_isDigit_decimal n) b hb)
  have hpre : ∀ b ∈ (if v.pre ≠ [] then 0x2D :: v.pre else []), b < 0x80 := by
    split_ifs with hp
    · exact forall_mem_cons.mpr ⟨by decide, matchPre_ascii (h.pre_ok hp).1⟩
    · simp
  rw [Version.string]
  simp only [forall_mem_append, forall_mem_cons]
  exact ⟨⟨hdec _, by decide, hdec _, by decide, hdec _⟩, hpre⟩

theorem isHex_ascii {b : UInt8} (h : isHex b = true) : b < 0x80 := by
  simp only [isHex, isDigit, or_eq_true, and_eq_true, decide_eq_true_eq, UInt8.le_iff_toNat_le] at h
  rw [UInt8.lt_iff_toNat_lt]
  simp only [UInt8.reduceToNat] at h ⊢
  omega

theorem valid_of_matchGeneration (h : matchGeneration s = true) : valid s = true := by
  rw [matchGeneration, and_eq_true] at h
  exact Utf8.valid_of_ascii fun b hb => isHex_ascii (all_eq_true.mp h.2 b hb)

theorem valid_of_matchDigest (h : matchDigest s = true) : valid s = true := by
  rw [matchDigest, and_eq_true] at h
  obtain ⟨t, rfl⟩ := isPrefixOf_iff_prefix.mp h.1
  exact Utf8.valid_append (by decide) (valid_of_matchGeneration h.2)

theorem valid_of_validDigest (h : validDigest s = true) : valid s = true := by
  rw [validDigest, or_eq_true, beq_iff_eq] at h
  rcases h with rfl | h
  · rfl
  · exact valid_of_matchDigest h

/-! ### Entries of accepted directories -/

variable {isArtifact : GoString → Bool} {files : List File} {m : Manifest}

/-- A file whose kind, and whose range, come back from the manifest as they are. -/
def File.Readable (f : File) : Prop :=
  f.kind = checkpoint ∨ f.kind = [] ∧ valid f.coveredFrom = true ∧ valid f.coveredTo = true ∧
    valid f.schemaFingerprint = true ∧ valid f.dataPolicy = true

instance (f : File) : Decidable f.Readable := inferInstanceAs (Decidable (_ ∨ _))

/-- An entry whose kind, and whose range, come back from the manifest as they are. -/
def Migration.Readable (e : Migration) : Prop :=
  e.kind = checkpoint ∨ e.kind = [] ∧ valid e.coveredFrom = true ∧ valid e.coveredTo = true ∧
    valid e.schemaFingerprint = true ∧ valid e.dataPolicy = true

/-- Where an entry comes from: the file, and what was read from it. -/
def Origin (isArtifact : GoString → Bool) (f : File) (r : Reading) (e : Migration) : Prop :=
  r.Of isArtifact f ∧ ∃ parents chain, e = { r.entry f with parents := parents, chainDigest := chain }

theorem Linked.eq_with {byVersion : GoMap Nat} {done : List Migration} {e e' : Migration} (h : Linked byVersion done e e') :
    ∃ parents chain, e' = { e with parents := parents, chainDigest := chain } :=
  ⟨_, _, h.entry_eq⟩

namespace Built

variable (b : Built isArtifact files m)
include b

theorem exists_file {e : Migration} (he : e ∈ sortEntries b.parsed) :
    ∃ f ∈ files, ∃ r : Reading, r.Of isArtifact f ∧ e = r.entry f := by
  obtain ⟨f, hf, hp⟩ := forall₂_mem b.parsed_ok.flip e ((perm_sortEntries b.parsed).mem_iff.mp he)
  exact ⟨f, hf, (parseFile_ok isArtifact).mp hp⟩

theorem exists_origin {e : Migration} (he : e ∈ m.entries) : ∃ f ∈ files, ∃ r, Origin isArtifact f r e := by
  obtain ⟨i, hi⟩ := mem_iff_getElem?.mp he
  obtain ⟨e₀, he₀, hl⟩ := b.exists_sorted hi
  obtain ⟨f, hf, r, hr, rfl⟩ := b.exists_file (mem_of_getElem? he₀)
  exact ⟨f, hf, r, hr, hl.eq_with⟩

theorem exists_entry {f : File} (hf : f ∈ files) : ∃ e ∈ m.entries, ∃ r, Origin isArtifact f r e := by
  obtain ⟨e₀, he₀, hp⟩ := forall₂_mem b.parsed_ok f hf
  obtain ⟨r, hr, rfl⟩ := (parseFile_ok isArtifact).mp hp
  obtain ⟨i, hi⟩ := mem_iff_getElem?.mp ((perm_sortEntries b.parsed).mem_iff.mpr he₀)
  have hlt : i < m.entries.length := by
    rw [b.length_eq]
    exact (List.getElem?_eq_some_iff.mp hi).1
  have hget := List.getElem?_eq_getElem hlt
  exact ⟨_, getElem_mem hlt, r, hr, (b.linked i _ _ hi hget).eq_with⟩

end Built

/-! ### What is known of an entry -/

theorem setDirective_declared {d d' : Directives} {k v : GoString} (hd : d.transaction.declared = true)
    (h : setDirective d k v = .ok d') : d'.transaction.declared = true := by
  rw [setDirective] at h
  split_ifs at h with h₁ h₂
  all_goals cases h
  · exact h₂
  all_goals exact hd

theorem directiveLines_declared {d d' : Directives} {seen : GoSet} {header : Bool} {i : Nat} {lines : List GoString}
    (hd : d.transaction.declared = true) (h : directiveLines d seen header i lines = .ok d') :
    d'.transaction.declared = true := by
  induction lines generalizing d seen header i with
  | nil =>
    cases h
    exact hd
  | cons line lines ih =>
    simp only [directiveLines] at h
    split_ifs at h
    · exact ih hd h
    · split at h
      · cases h
      · split_ifs at h
        obtain ⟨d₁, h₁, h⟩ := bind_ok.mp h
        exact ih (setDirective_declared hd h₁) h
    · exact ih hd h

theorem parseDirectives_ok {sql : GoString} {d : Directives} (h : parseDirectives sql = .ok d) :
    d.transaction.declared = true ∧ d.digestsValid = true := by
  obtain ⟨d₁, h₁, h⟩ := bind_ok.mp h
  rw [guard_ok] at h
  obtain ⟨hv, h⟩ := h
  cases h
  exact ⟨directiveLines_declared rfl h₁, by simpa using hv⟩

theorem checkStatements_zipIdx {l : List Source.Statement} (h : ∀ x ∈ l, 1 ≤ x.position.line ∧ 1 ≤ x.position.column) (j : Nat) :
    checkStatements j ((l.zipIdx j).map fun (s, i) =>
      ⟨i + 1, s.position.line, s.position.column, statementDigest (canonicalExecutableSQL s.sql)⟩) = true := by
  induction l generalizing j with
  | nil => rfl
  | cons s l ih =>
    rw [forall_mem_cons] at h
    rw [zipIdx_cons, map_cons, checkStatements]
    simp only [and_eq_true, decide_eq_true_eq]
    refine ⟨⟨⟨⟨trivial, ?_⟩, ?_⟩, matchDigest_digest _ _⟩, ih h.2 _⟩
    · exact_mod_cast h.1.1
    · exact_mod_cast h.1.2

theorem inRange_toStatements {l : List Source.Statement} {n : Nat} (hlen : l.length ≤ n)
    (h : ∀ x ∈ l, x.position.line ≤ n ∧ x.position.column ≤ n) (hn : n + 1 < 2 ^ 63) : ∀ s ∈ toStatements l, s.InRange := by
  intro s hs
  obtain ⟨⟨x, i⟩, hx, rfl⟩ := mem_map.mp hs
  obtain ⟨hi, hx⟩ := mem_zipIdx' hx
  have hpos := h x (hx ▸ getElem_mem hi)
  intro k hk
  simp only [mem_cons, not_mem_nil, or_false] at hk
  omega

namespace Origin

variable {f : File} {r : Reading} {e : Migration} (h : Origin isArtifact f r e)
include h

theorem named : e.file = f.name ∧ matchFile e.file = some (r.versionText, e.name) ∧ traverses e.file = false := by
  obtain ⟨hr, ps, c, rfl⟩ := h
  exact ⟨rfl, hr.file_ok, hr.base_name⟩

theorem versioned : parseVersion r.versionText = .ok r.version ∧ r.version.string = e.version := by
  obtain ⟨hr, ps, c, rfl⟩ := h
  exact ⟨hr.version_ok, rfl⟩

theorem digests : matchDigest e.sqlDigest = true ∧ matchDigest e.directiveDigest = true ∧
    matchDigest e.boundaryDigest = true := by
  obtain ⟨hr, ps, c, rfl⟩ := h
  exact ⟨matchDigest_digest _ _, matchDigest_digest _ _, matchDigest_digest _ _⟩

theorem directives_ok : e.directives.transaction.declared = true ∧ e.directives.digestsValid = true ∧
    directiveDigest e.directives = e.directiveDigest := by
  obtain ⟨hr, ps, c, rfl⟩ := h
  obtain ⟨hd, hv⟩ := parseDirectives_ok hr.directives_ok
  exact ⟨hd, hv, rfl⟩

theorem statements_ok : checkStatements 0 e.statements = true ∧ boundaryDigest e.statements = e.boundaryDigest ∧
    e.InRange := by
  obtain ⟨hr, ps, c, rfl⟩ := h
  refine ⟨checkStatements_zipIdx (Source.one_le_position hr.split_ok) 0, rfl, ?_⟩
  obtain ⟨hlen, hpos⟩ := Source.position_le hr.split_ok
  have hsize : f.sql.length ≤ maxFile := by
    have := hr.text_ok
    simp only [textOk, and_eq_true, decide_eq_true_eq] at this
    exact this.1.1
  have hmax : maxFile + 1 + 1 < 2 ^ 63 := by decide
  exact inRange_toStatements hlen hpos (by omega)

/-- A file has an artifact if it names one. -/
theorem hasArtifact : f.HasArtifact ↔ f.artifactName ≠ [] := by
  obtain ⟨hr, -⟩ := h
  refine ⟨fun ha hn => ?_, .inr⟩
  have := hr.artifact_ok ha
  simp only [artifactOk, and_eq_true, beq_iff_eq] at this
  rw [hn] at this
  exact append_ne_nil_of_right_ne_nil _ (by decide) this.1.1.1.symm

theorem artifact : e.artifactFile = f.artifactName ∧ (f.artifactName = [] → e.artifactDigest = []) ∧
    (f.artifactName ≠ [] → e.artifactDigest = artifactDigest f.artifact ∧
      f.artifactName = f.name ++ str ".artifact.json" ∧ textOk f.artifact = true ∧ isArtifact f.artifact = true) := by
  have hiff := h.hasArtifact
  obtain ⟨hr, ps, c, rfl⟩ := h
  by_cases hn : f.artifactName = []
  · have hno : ¬ f.HasArtifact := fun ha => hiff.mp ha hn
    simp [Reading.entry, hno, hn]
  · have ha := hr.artifact_ok (hiff.mpr hn)
    simp only [artifactOk, and_eq_true, beq_iff_eq] at ha
    refine ⟨if_pos (hiff.mpr hn), fun h => absurd h hn, fun _ => ⟨if_pos (hiff.mpr hn), ha.1.1.1, ha.1.2, ha.2⟩⟩

theorem checkArtifact : checkArtifact e = true := by
  obtain ⟨hfile, hnone, hsome⟩ := h.artifact
  obtain ⟨hname, -⟩ := h.named
  by_cases hn : f.artifactName = []
  · rw [Migrate.checkArtifact, hfile, hn, hnone hn]
    rfl
  · obtain ⟨hdig, hart, -⟩ := hsome hn
    have hne : e.artifactDigest ≠ [] := by
      rw [hdig]
      exact append_ne_nil_of_left_ne_nil (by decide) _
    have hmatch : matchDigest e.artifactDigest = true := by
      rw [hdig]
      exact matchDigest_digest _ _
    have hart' : e.artifactFile = e.file ++ str ".artifact.json" := by rw [hfile, hart, hname]
    have h₁ : (e.artifactFile == []) = false := beq_eq_false_iff_ne.mpr (hfile ▸ hn)
    have h₂ : (e.artifactDigest == []) = false := beq_eq_false_iff_ne.mpr hne
    rw [Migrate.checkArtifact, h₁, h₂, ← hart', hmatch]
    simp

theorem readable_iff : e.Readable ↔ f.Readable := by
  obtain ⟨hr, ps, c, rfl⟩ := h
  exact Iff.rfl

end Origin

end AutoSql.Migrate
