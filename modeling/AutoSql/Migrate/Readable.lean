/-
AutoSql/Migrate/Readable.lean

Whether a directory that was just published can be read.

`build`, `validateManifestStructure` and `verifyGenerationAt` state the rules of
a directory three times.  Here they are compared: the entries of an accepted
directory pass every check of the reader except one, and rebuilding them from
the stored files gives the same manifest.  The exception is the kind.  `build`
does not look at it unless it is `checkpoint`, and it does not look at the range
of an entry that is none, so that these five fields can hold anything; the reader
accepts no other kind, and no text that JSON does not keep.
-/
import AutoSql.Migrate.Entry

namespace AutoSql.Migrate

open GoString GoJson Text Fallible List
open Utf8 (sanitize sanitize_of_valid valid_iff)

variable {isArtifact : GoString → Bool} {files : List File} {m : Manifest}

/-! ### The checks of the reader -/

/-- What the first loop knows after the entries `done`. -/
structure Seen.Of (seen : Seen) (done : List Migration) : Prop where
  files : ∀ k, GoSet.has seen.files k = true ↔ k ∈ done.map fun e => toLower e.file
  versions : ∀ k, GoSet.has seen.versions k = true ↔ k ∈ done.map Migration.version
  byVersion : ∀ k j, seen.byVersion.get? k = some j ↔ (done.map Migration.version)[j]? = some k

variable {done : List Migration} {e : Migration} {byVersion : GoMap Nat}

theorem Seen.Of.add {seen : Seen} (h : seen.Of done) (hnew : e.version ∉ done.map Migration.version) :
    Seen.Of ⟨GoSet.add seen.files (toLower e.file), GoSet.add seen.versions e.version,
      seen.byVersion.insert e.version done.length⟩ (done ++ [e]) where
  files k := by
    rw [GoSet.has_add, h.files, map_append, mem_append, or_comm]
    simp
  versions k := by
    rw [GoSet.has_add, h.versions, map_append, mem_append, or_comm]
    simp
  byVersion k j := by
    rw [GoMap.get?_insert, map_append, getElem?_append, length_map]
    split_ifs with hk hj hj
    · -- the version is new, so it is not found further in front
      subst hk
      refine iff_of_false (by simp only [Option.some.injEq]; omega) fun hget => hnew ?_
      exact mem_of_getElem? hget
    · subst hk
      rw [map_singleton, getElem?_singleton]
      split_ifs with h0 <;> simp <;> omega
    · exact h.byVersion k j
    · rw [h.byVersion, map_singleton, getElem?_singleton, getElem?_eq_none (by simpa using hj)]
      split_ifs
      · simp [Ne.symm hk]
      · simp

theorem checkParentOrder_ok {file : GoString} {prev : Option GoString} {ps : List GoString}
    (hparse : ∀ p ∈ ps, ∃ v, parseVersion p = .ok v) (hprev : ∀ q ∈ prev, ∀ p ∈ ps, lt q p = true)
    (hsorted : ps.Pairwise fun p q => lt p q = true) : checkParentOrder file prev ps = .ok () := by
  induction ps generalizing prev with
  | nil => rfl
  | cons p ps ih =>
    rw [forall_mem_cons] at hparse
    rw [pairwise_cons] at hsorted
    obtain ⟨v, hv⟩ := hparse.1
    have hnot : ¬ (prev.any fun q => le p q) = true := by
      cases prev with
      | none => simp
      | some q =>
        have := hprev q rfl p mem_cons_self
        simpa [lt] using this
    rw [checkParentOrder, hv, if_neg hnot]
    refine ih hparse.2 ?_ hsorted.2
    rintro q ⟨⟩
    exact hsorted.1

/-- The parents an entry is linked to are sorted. -/
theorem Linked.sorted {e' : Migration} {l : List GoString}
    (h : Linked byVersion done e e') (he : e.parents = sortStrings l) : e'.parents.Pairwise fun p q => lt p q = true := by
  have hle : e'.parents.Pairwise LE := by
    have hp := h.parents_eq
    rw [defaultParents] at hp
    split at hp
    · split_ifs at hp
      rw [← Except.ok.inj hp]
      exact List.Pairwise.nil
    · split_ifs at hp
      · rw [← Except.ok.inj hp]
        exact pairwise_singleton _ _
      · rw [← Except.ok.inj hp, he]
        exact pairwise_insertionSort LE l
  exact (hle.and h.nodup).imp fun ⟨h₁, h₂⟩ => lt_iff.mpr ⟨h₁, h₂⟩

theorem chainsOf_ok {entries : List Migration} {i : Nat} {ps : List GoString} {seen : GoSet}
    (hfresh : seen.Fresh ps) (hps : ∀ p ∈ ps, ∃ j < i, byVersion.get? p = some j) :
    chainsOf byVersion entries i seen ps = .ok (ps.map fun p =>
      ((byVersion.get? p).bind (entries[·]?)).elim [] Migration.chainDigest) := by
  induction ps generalizing seen with
  | nil => rfl
  | cons p ps ih =>
    rw [forall_mem_cons] at hps
    rw [GoSet.fresh_cons] at hfresh
    obtain ⟨j, hj, hget⟩ := hps.1
    rw [chainsOf, hget]
    dsimp only
    rw [if_neg (by simp [hfresh.1, hj]), ih hfresh.2 hps.2, map_cons, hget]
    rfl

/-- Only the first entry has no parents. -/
theorem Linked.parents_eq_nil {e' : Migration} (h : Linked byVersion done e e') : e'.parents = [] ↔ done = [] := by
  have hp := h.parents_eq
  rw [defaultParents] at hp
  split at hp
  · rename_i hlast
    split_ifs at hp
    exact iff_of_true (Except.ok.inj hp).symm (getLast?_eq_none_iff.mp hlast)
  · rename_i prev hlast
    have hdone : done ≠ [] := by
      rintro rfl
      cases hlast
    refine iff_of_false ?_ hdone
    split_ifs at hp with he
    · rw [← Except.ok.inj hp]
      simp
    · rw [← Except.ok.inj hp]
      exact he

section Take

variable {α β : Type} {l : List α} {i : Nat} {x : α} (hi : l[i]? = some x)
include hi

theorem take_succ : l.take (i + 1) = l.take i ++ [x] := by
  rw [take_add_one, hi]
  rfl

theorem length_take : (l.take i).length = i := by
  rw [List.length_take]
  have := (List.getElem?_eq_some_iff.mp hi).1
  omega

/-- No element in front has the same key. -/
theorem notMem_take {key : α → β} (hn : (l.map key).Nodup) : key x ∉ (l.take i).map key := by
  have hn' : ((l.take (i + 1)).map key).Nodup := hn.sublist ((take_sublist _ _).map _)
  rw [take_succ hi, map_append, nodup_append] at hn'
  exact fun hmem => hn'.2.2 _ hmem _ (by simp) rfl

end Take

namespace Built

variable (b : Built isArtifact files m)
include b

variable {i : Nat} {seen : Seen}

/-- An entry with its file and its link. -/
theorem at_index (hi : m.entries[i]? = some e) : ∃ f ∈ files, ∃ r, Origin isArtifact f r e ∧
      Linked (versionIndex (sortEntries b.parsed)) (m.entries.take i) (r.entry f) e := by
  obtain ⟨e₀, he₀, hl⟩ := b.exists_sorted hi
  obtain ⟨f, hf, r, hr, rfl⟩ := b.exists_file (mem_of_getElem? he₀)
  exact ⟨f, hf, r, ⟨hr, hl.eq_with⟩, hl⟩

theorem nodup_version : (m.entries.map Migration.version).Nodup := by
  rw [b.map_version]
  exact b.nodup_sorted

/-- The names of the entries are those of the files, in another order. -/
theorem perm_file : (m.entries.map Migration.file).Perm (files.map File.name) := by
  have hparsed : files.map File.name = b.parsed.map Migration.file := by
    refine map_eq_of_forall₂ (b.parsed_ok.imp fun f e hp => ?_)
    obtain ⟨r, -, rfl⟩ := (parseFile_ok isArtifact).mp hp
    rfl
  rw [b.map_linked fun _ _ _ => rfl, hparsed]
  exact (perm_sortEntries b.parsed).map _

theorem nodup_lower : (m.entries.map fun e => toLower e.file).Nodup := by
  have hp := b.perm_file.map toLower
  rw [map_map, map_map] at hp
  exact hp.nodup_iff.mpr b.names

theorem version_at {v : GoString} (h : (m.entries.map Migration.version)[i]? = some v) : ∃ w : Version, w.Valid ∧ v = w.string := by
  rw [getElem?_map, Option.map_eq_some_iff] at h
  obtain ⟨x, hx, rfl⟩ := h
  exact ⟨_, b.wellFormed.canonical x (mem_of_getElem? hx)⟩

theorem parents_parse (hi : m.entries[i]? = some e) : ∀ p ∈ e.parents, ∃ v, parseVersion p = .ok v := by
  intro p hp
  obtain ⟨j, -, hj⟩ := b.wellFormed.before i e hi p hp
  obtain ⟨w, hw, rfl⟩ := b.version_at hj
  exact ⟨w, parseVersion_string hw⟩

theorem checkEntry_ok (hi : m.entries[i]? = some e) (hkind : checkKind e = true) (hs : seen.Of (m.entries.take i)) :
    ∃ seen', checkEntry seen i (m.entries.take i).getLast? ⟨e, false, false⟩ = .ok seen' ∧
      seen'.Of (m.entries.take (i + 1)) := by
  obtain ⟨f, -, r, ho, hl⟩ := b.at_index hi
  have hlen := length_take hi
  have hnewVersion := notMem_take hi b.nodup_version
  have hnewFile := notMem_take hi b.nodup_lower
  obtain ⟨-, hmatch, htrav⟩ := ho.named
  obtain ⟨hparse, hstring⟩ := ho.versioned
  obtain ⟨hsql, hdir, hbound⟩ := ho.digests
  obtain ⟨hdecl, hvalid, hddig⟩ := ho.directives_ok
  obtain ⟨hstmts, hbdig, -⟩ := ho.statements_ok
  have hcov : ¬ (e.kind = checkpoint ∧ ¬ checkCovered seen.byVersion i e = true) := by
    rintro ⟨hk, hno⟩
    obtain ⟨x, y, hxy, hyi, hx, hy⟩ := b.wellFormed.covers i e hi hk
    have hx' : seen.byVersion.get? e.coveredFrom = some x := by
      rw [hs.byVersion, map_take, getElem?_take, if_pos (by omega)]
      exact hx
    have hy' : seen.byVersion.get? e.coveredTo = some y := by
      rw [hs.byVersion, map_take, getElem?_take, if_pos hyi]
      exact hy
    simp [checkCovered, hx', hy', hxy, hyi] at hno
  have hdup : ¬ (GoSet.has seen.files (toLower e.file) = true ∨ GoSet.has seen.versions e.version = true) := by
    rw [hs.files, hs.versions]
    exact fun h => h.elim hnewFile hnewVersion
  have horder : ¬ ((m.entries.take i).getLast?.any fun p => (versionOf p).compare r.version ≠ .lt) = true := by
    rcases hlast : (m.entries.take i).getLast? with - | p
    · simp
    · have hp := mem_of_getLast? hlast
      have hpair := b.wellFormed.increasing.sublist (take_sublist (i + 1) m.entries)
      rw [take_succ hi, pairwise_append] at hpair
      have hlt := hpair.2.2 p hp e mem_cons_self
      have hof : versionOf e = r.version := by
        rw [versionOf, ← hstring, parseVersion_string (valid_of_parseVersion hparse)]
        rfl
      simp [← hof, hlt]
  have hchain : matchDigest e.chainDigest = true := by
    rw [hl.entry_eq]
    exact matchDigest_digest _ _
  have hbdig' : digest (str "boundaries") (ReadMigration.statementsJson ⟨e, false, false⟩).encode = e.boundaryDigest := hbdig
  have hparents : checkParentOrder e.file none e.parents = .ok () :=
    checkParentOrder_ok (b.parents_parse hi) (by simp) (hl.sorted rfl)
  refine ⟨_, ?_, take_succ hi ▸ hs.add hnewVersion⟩
  rw [checkEntry]
  rw [if_neg hcov, if_neg (by simp [htrav]), hmatch]
  dsimp only
  rw [hparse]
  dsimp only
  rw [if_neg (by simp [hstring]), if_neg hdup, if_neg horder, if_neg (by simp [hsql, hdir, hbound, hchain]),
    if_neg (by simp [ho.checkArtifact]), if_neg (by simp [hkind]), if_neg (by simp [hdecl]), if_neg (by simp [hvalid]),
    if_neg (by simp [hddig]), if_neg (by simp [hstmts]), if_neg (not_not.mpr hbdig'), hparents, hlen]
  rfl

theorem checkEntries_ok (hkind : ∀ e ∈ m.entries, checkKind e = true) (n i : Nat) (hn : i + n = m.entries.length)
    (hs : seen.Of (m.entries.take i)) :
    ∃ seen', checkEntries seen i (m.entries.take i).getLast? ((m.entries.drop i).map fun e => ⟨e, false, false⟩) = .ok seen' ∧
      seen'.Of m.entries := by
  induction n generalizing i seen with
  | zero =>
    have hi : i = m.entries.length := by omega
    rw [hi, take_length] at hs
    rw [hi, drop_length]
    exact ⟨seen, rfl, hs⟩
  | succ n ih =>
    have hlt : i < m.entries.length := by omega
    have hget := getElem?_eq_getElem hlt
    obtain ⟨seen₁, h₁, hs₁⟩ := b.checkEntry_ok hget (hkind _ (getElem_mem hlt)) hs
    obtain ⟨seen₂, h₂, hs₂⟩ := ih (i + 1) (by omega) hs₁
    refine ⟨seen₂, ?_, hs₂⟩
    rw [take_succ hget, getLast?_concat] at h₂
    rw [drop_eq_getElem_cons hlt, map_cons, checkEntries, h₁]
    exact h₂

theorem checkLink_ok (hi : m.entries[i]? = some e) (hs : seen.Of m.entries) :
    checkLink seen.byVersion m.entries i (m.entries.take i).getLast? e = .ok () := by
  obtain ⟨f, -, r, -, hl⟩ := b.at_index hi
  have hlen : (m.entries.take i).length = i := length_take hi
  have hbefore : ∀ p ∈ e.parents, ∃ j < i, seen.byVersion.get? p = some j := by
    intro p hp
    obtain ⟨j, hj, hget⟩ := b.wellFormed.before i e hi p hp
    exact ⟨j, hj, (hs.byVersion p j).mpr hget⟩
  have hzero : e.parents = [] ↔ i = 0 := by
    rw [hl.parents_eq_nil, ← length_eq_zero_iff, hlen]
  have hroot : ¬ (i = 0 ∧ e.parents ≠ [] ∨ 0 < i ∧ e.parents = []) := by
    rintro (⟨h0, hne⟩ | ⟨h0, hnil⟩)
    · exact hne (hzero.mpr h0)
    · exact h0.ne' (hzero.mp hnil)
  have hlinear : ¬ ((i = 0 ∨ e.parents = ((m.entries.take i).getLast?.map Migration.version).toList) ↔ e.nonLinear = true) := by
    have hwf := b.wellFormed.linear i e hi
    rw [linearParents] at hwf
    rw [← hwf]
    rcases Nat.eq_zero_or_pos i with rfl | h0
    · have : e.nonLinear = false := hwf.mpr (by simp [hzero.mpr rfl])
      simp [this]
    · cases e.nonLinear <;> simp [h0.ne']
  -- the parents have the same chain digests, whether they are looked up in all entries or in those in front
  have hchains : sortStrings (e.parents.map fun p =>
      ((seen.byVersion.get? p).bind (m.entries[·]?)).elim [] Migration.chainDigest) =
      parentChains (versionIndex (sortEntries b.parsed)) (m.entries.take i) e.parents := by
    refine congrArg sortStrings (map_congr_left fun p hp => ?_)
    obtain ⟨j, hj, hget⟩ := hbefore p hp
    have hget' : (versionIndex (sortEntries b.parsed)).get? p = some j := by
      rw [get?_versionIndex b.nodup_sorted, ← b.map_version]
      exact (hs.byVersion p j).mp hget
    rw [hget, hget', Option.bind_some, Option.bind_some, getElem?_take, if_pos hj]
    cases m.entries[j]? <;> rfl
  have hdigest : chainDigest e (parentChains (versionIndex (sortEntries b.parsed)) (m.entries.take i) e.parents) = e.chainDigest := by
    rw [hl.entry_eq]
    rfl
  rw [checkLink, if_neg hroot, chainsOf_ok (GoSet.fresh_empty hl.nodup) hbefore]
  show (if _ then _ else if chainDigest e (sortStrings _) ≠ e.chainDigest then _ else _) = _
  rw [if_neg hlinear, hchains, if_neg (not_not.mpr hdigest)]

theorem checkLinks_ok (hs : seen.Of m.entries) (n i : Nat) (hn : i + n = m.entries.length) :
    checkLinks seen.byVersion m.entries i (m.entries.take i).getLast? (m.entries.drop i) = .ok () := by
  induction n generalizing i with
  | zero =>
    have hi : i = m.entries.length := by omega
    rw [hi, drop_length]
    rfl
  | succ n ih =>
    have hlt : i < m.entries.length := by omega
    have hget := getElem?_eq_getElem hlt
    have h₂ := ih (i + 1) (by omega)
    rw [take_succ hget, getLast?_concat] at h₂
    rw [drop_eq_getElem_cons hlt, checkLinks, b.checkLink_ok hget hs]
    exact h₂

/-- The reader has no objection but to a kind. -/
theorem validate_ok (hkind : ∀ e ∈ m.entries, checkKind e = true) : validateManifestStructure m.read = .ok () := by
  have hinit : ({} : Seen).Of (m.entries.take 0) := ⟨by simp, by simp, by simp⟩
  obtain ⟨seen, hseen, hs⟩ := b.checkEntries_ok hkind m.entries.length 0 (by omega) hinit
  have hmap : m.read.entries.map ReadMigration.migration = m.entries := by
    rw [Manifest.read, map_map]
    exact map_id _
  have hgen : m.read.generationOf = m.read.generation := by
    rw [ReadManifest.generationOf, entriesJson_read]
    exact b.generation_eq.symm
  have hentries : checkEntries {} 0 none m.read.entries = .ok seen := hseen
  have hlinks : checkLinks seen.byVersion m.entries 0 none m.entries = .ok () := b.checkLinks_ok hs m.entries.length 0 (by omega)
  rw [validateManifestStructure, hmap, hentries]
  show (checkLinks seen.byVersion m.entries 0 none m.entries >>= _) = _
  rw [hlinks]
  exact if_neg (not_not.mpr hgen)

end Built

theorem checkEntries_kind {seen out : Seen} {i : Nat} {prev : Option Migration} {l : List ReadMigration}
    (h : checkEntries seen i prev l = .ok out) : ∀ r ∈ l, checkKind r.migration = true := by
  induction l generalizing seen i prev with
  | nil => simp
  | cons r l ih =>
    obtain ⟨seen₁, h₁, h⟩ := bind_ok.mp h
    refine forall_mem_cons.mpr ⟨?_, ih h⟩
    rw [checkEntry, guard_ok, guard_ok] at h₁
    obtain ⟨-, -, h₁⟩ := h₁
    split at h₁
    · cases h₁
    · split at h₁
      · cases h₁
      · simp only [guard_ok] at h₁
        obtain ⟨-, -, -, -, -, hk, -⟩ := h₁
        simpa using hk

theorem validate_kind {r : ReadManifest} (h : validateManifestStructure r = .ok ()) :
    ∀ e ∈ r.entries, checkKind e.migration = true := by
  obtain ⟨seen, hseen, -⟩ := bind_ok.mp h
  exact checkEntries_kind hseen

/-! ### Texts that come back -/

theorem map_eq_self {α : Type} {f : α → α} {l : List α} (h : ∀ x ∈ l, f x = x) : l.map f = l := by
  rw [map_congr_left h]
  exact map_id l

theorem Directives.clean_eq {d : Directives} (ht : d.transaction.declared = true) (hd : d.digestsValid = true) : d.clean = d := by
  obtain ⟨t, p, c, b, cb⟩ := d
  simp only [Directives.digestsValid, Bool.and_eq_true] at hd
  have htrans : TransactionMode.ofString (sanitize t.string) = t := by
    cases t with
    | other s => cases ht
    | auto | required | forbidden => decide +kernel
  simp only [Directives.clean, htrans, sanitize_of_valid (valid_of_validDigest hd.1.1.1),
    sanitize_of_valid (valid_of_validDigest hd.1.1.2), sanitize_of_valid (valid_of_validDigest hd.1.2),
    sanitize_of_valid (valid_of_validDigest hd.2)]

theorem checkStatements_clean {j : Nat} {l : List Statement} (h : checkStatements j l = true) : l.map Statement.clean = l := by
  induction l generalizing j with
  | nil => rfl
  | cons s l ih =>
    rw [checkStatements, Bool.and_eq_true, Bool.and_eq_true] at h
    obtain ⟨⟨-, hd⟩, hl⟩ := h
    rw [map_cons, ih hl, Statement.clean, sanitize_of_valid (valid_of_matchDigest hd)]

namespace Built

variable (b : Built isArtifact files m)
include b

/-- Everything but the kind and the range of an entry is text that JSON keeps. -/
theorem clean_entry (he : e ∈ m.entries) : e.clean =
    { e with
      kind := sanitize e.kind
      coveredFrom := sanitize e.coveredFrom
      coveredTo := sanitize e.coveredTo
      schemaFingerprint := sanitize e.schemaFingerprint
      dataPolicy := sanitize e.dataPolicy } := by
  obtain ⟨i, hi⟩ := mem_iff_getElem?.mp he
  obtain ⟨f, -, r, ho, hl⟩ := b.at_index hi
  have hascii : ∀ {t : GoString}, (∀ c ∈ t, c < 0x80) → sanitize t = t := fun h =>
    sanitize_of_valid (Utf8.valid_of_ascii h)
  have hdigest : ∀ {t : GoString}, matchDigest t = true → sanitize t = t := fun h =>
    sanitize_of_valid (valid_of_matchDigest h)
  obtain ⟨hfile, hmatch, -⟩ := ho.named
  obtain ⟨hparse, hstring⟩ := ho.versioned
  obtain ⟨hsql, hdir, hbound⟩ := ho.digests
  obtain ⟨hdecl, hvalid, -⟩ := ho.directives_ok
  obtain ⟨hstmts, -, -⟩ := ho.statements_ok
  obtain ⟨hart, hnone, hsome⟩ := ho.artifact
  have hversion : sanitize e.version = e.version := hascii (hstring ▸ version_ascii (valid_of_parseVersion hparse))
  have hname : sanitize e.name = e.name := hascii (matchName_ascii (matchFile_eq hmatch).2.2)
  have hartifact : sanitize e.artifactFile = e.artifactFile ∧ sanitize e.artifactDigest = e.artifactDigest := by
    rw [hart]
    by_cases hn : f.artifactName = []
    · rw [hn, hnone hn]
      exact ⟨rfl, rfl⟩
    · obtain ⟨hdig, heq, -⟩ := hsome hn
      rw [heq, hdig, ← hfile]
      refine ⟨hascii ?_, hdigest (matchDigest_digest _ _)⟩
      exact forall_mem_append.mpr ⟨matchFile_ascii hmatch, by decide +kernel⟩
  have hparents : e.parents.map sanitize = e.parents := by
    refine map_eq_self fun p hp => ?_
    obtain ⟨j, -, hj⟩ := b.wellFormed.before i e hi p hp
    obtain ⟨w, hw, rfl⟩ := b.version_at hj
    exact hascii (version_ascii hw)
  have hchain : matchDigest e.chainDigest = true := by
    rw [hl.entry_eq]
    exact matchDigest_digest _ _
  simp only [Migration.clean, hascii (matchFile_ascii hmatch), hversion, hname, hdigest hsql, hartifact.1, hartifact.2,
    Directives.clean_eq hdecl hvalid, hdigest hdir, checkStatements_clean hstmts, hdigest hbound, hparents, hdigest hchain]

theorem clean_manifest : m.clean = { m with entries := m.entries.map Migration.clean } := by
  have hv : sanitize m.version = m.version := by
    rw [b.version_eq]
    decide +kernel
  have hg : sanitize m.generation = m.generation := sanitize_of_valid (valid_of_matchGeneration b.generation_match)
  have hd : sanitize m.digest = m.digest := by
    rw [b.digest_eq]
    exact sanitize_of_valid (valid_of_matchDigest (matchDigest_digest _ _))
  rw [Manifest.clean, hv, hg, hd]

/-- A checkpoint passes the check of its kind, as far as the reader repeats it. -/
theorem checkpoint_fields (he : e ∈ m.entries) (hk : e.kind = checkpoint) :
    e.coveredFrom ≠ [] ∧ e.coveredTo ≠ [] ∧ (∀ c ∈ e.coveredFrom ++ e.coveredTo, c < 0x80) ∧
      matchDigest e.schemaFingerprint = true ∧
      (e.dataPolicy = str "schema_only" ∨ e.dataPolicy = str "declared_replay") := by
  obtain ⟨i, hi⟩ := mem_iff_getElem?.mp he
  obtain ⟨f, -, r, ho, hl⟩ := b.at_index hi
  have hversion : ∀ {j : Nat} {v : GoString}, (m.entries.map Migration.version)[j]? = some v → v ≠ [] ∧ ∀ c ∈ v, c < 0x80 := by
    intro j v hv
    obtain ⟨w, hw, rfl⟩ := b.version_at hv
    refine ⟨?_, version_ascii hw⟩
    exact append_ne_nil_of_left_ne_nil (append_ne_nil_of_left_ne_nil (Decimal.decimal_ne_nil _) _) _
  obtain ⟨x, y, -, -, hx, hy⟩ := b.wellFormed.covers i e hi hk
  obtain ⟨hne₁, ha₁⟩ := hversion hx
  obtain ⟨hne₂, ha₂⟩ := hversion hy
  refine ⟨hne₁, hne₂, forall_mem_append.mpr ⟨ha₁, ha₂⟩, ?_⟩
  rw [hl.entry_eq] at hk ⊢
  have hc := hl.covers hk
  rw [checkpointOk] at hc
  split at hc
  · simp only [Bool.and_eq_true, Bool.or_eq_true, beq_iff_eq] at hc
    exact ⟨hc.1.2, hc.2⟩
  · cases hc

theorem checkKind_of_readable (he : e ∈ m.entries) (hr : e.Readable) : checkKind e = true ∧ e.clean = e := by
  rw [b.clean_entry he]
  rcases hr with hk | ⟨hk, hfrom, hto, hschema, hpolicy⟩
  · obtain ⟨h₁, h₂, ha, hs, hp⟩ := b.checkpoint_fields he hk
    rw [forall_mem_append] at ha
    constructor
    · simp [checkKind, hk, h₁, h₂, hs, hp]
    · have hpolicy : sanitize e.dataPolicy = e.dataPolicy := by
        rcases hp with hp | hp <;> rw [hp] <;> decide +kernel
      have hkind : sanitize e.kind = e.kind := by
        rw [hk]
        decide +kernel
      rw [hkind, sanitize_of_valid (Utf8.valid_of_ascii ha.1), sanitize_of_valid (Utf8.valid_of_ascii ha.2),
        sanitize_of_valid (valid_of_matchDigest hs), hpolicy]
  · constructor
    · rw [checkKind, hk]
      rfl
    · have hkind : sanitize e.kind = e.kind := by
        rw [hk]
        rfl
      rw [hkind, sanitize_of_valid hfrom, sanitize_of_valid hto, sanitize_of_valid hschema, sanitize_of_valid hpolicy]

theorem readable_of_clean (he : e ∈ m.entries) (hkind : checkKind e = true) (hclean : e.clean = e) : e.Readable := by
  simp only [checkKind, Bool.and_eq_true, Bool.or_eq_true, beq_iff_eq] at hkind
  rcases hkind.1 with hk | hk
  · have h := hclean
    rw [b.clean_entry he] at h
    refine .inr ⟨hk, valid_iff.mpr ?_, valid_iff.mpr ?_, valid_iff.mpr ?_, valid_iff.mpr ?_⟩
    · exact congrArg Migration.coveredFrom h
    · exact congrArg Migration.coveredTo h
    · exact congrArg Migration.schemaFingerprint h
    · exact congrArg Migration.dataPolicy h
  · exact .inl hk

theorem inRange : ∀ e ∈ m.entries, e.InRange := by
  intro e he
  obtain ⟨f, -, r, ho⟩ := b.exists_origin he
  exact ho.statements_ok.2.2

theorem clean_eq (hr : ∀ e ∈ m.entries, e.Readable) : m.clean = m := by
  rw [b.clean_manifest, map_eq_self fun e he => (b.checkKind_of_readable he (hr e he)).2]

theorem digest_read : m.read.manifestDigest = m.read.digest :=
  (congrArg (digest _) (canonical_read { m with digest := [] })).trans b.digest_eq.symm

/-- Which manifests come back from their text. -/
theorem strictManifest_iff (hsize : (canonical m).length ≤ maxManifest) :
    strictManifest (canonical m) = .ok m.read ↔ ∀ e ∈ m.entries, e.Readable := by
  rw [strictManifest_canonical b.inRange hsize]
  constructor
  · rintro ⟨hread, -, -, hval, -, -⟩ e he
    rw [← hread] at hval
    have hkind : checkKind e = true := validate_kind hval ⟨e, false, false⟩ (mem_map_of_mem he)
    refine b.readable_of_clean he hkind ?_
    have hentries := congrArg ReadManifest.entries hread
    rw [b.clean_manifest, Manifest.read, Manifest.read, map_map] at hentries
    have := map_inj_left.mp hentries e he
    exact (congrArg ReadMigration.migration this).symm
  · intro hr
    rw [b.clean_eq hr]
    exact ⟨rfl, b.version_eq, b.generation_match, b.validate_ok fun e he => (b.checkKind_of_readable he (hr e he)).1, b.digest_read, rfl⟩

end Built

end AutoSql.Migrate
