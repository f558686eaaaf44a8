/-
AutoSql/Migrate/Build.lean

`build`: a manifest from a list of files.

The files are parsed, sorted by version, and then linked one after the other:
every entry gets its parents and a chain digest that binds it to them.

`build_ok` is what the rest of the development knows of an accepted directory:
the versions are canonical, pairwise different and increasing, a checkpoint
covers a range of entries in front of it, the parents of an entry are in front
of it, and an entry that does not declare itself nonlinear follows the one
before it.
-/
import AutoSql.Migrate.File

namespace AutoSql.Migrate

open GoString Text Fallible Std List

/-- The version an entry is sorted by. -/
def versionOf (e : Migration) : Version := (parseVersion e.version).toOption.getD default

/-- The order of `sort.Slice`. -/
def less (a b : Migration) : Bool :=
  match (versionOf a).compare (versionOf b) with
  | .eq => lt a.file b.file
  | c => c == .lt

def sortEntries (l : List Migration) : List Migration := l.insertionSort fun a b => less b a = false

/-- The indices of the entries by version. -/
def versionIndex (entries : List Migration) : GoMap Nat :=
  GoMap.ofList (entries.zipIdx.map fun (e, i) => (e.version, i))

variable (isArtifact : GoString → Bool)

/-- The loop that parses the files; `names` and `versions` hold what was seen. -/
def parseFiles (names versions : GoSet) : List File → Except BuildError (List Migration)
  | [] => .ok []
  | f :: files =>
    if GoSet.has names (toLower f.name) then
      .error (.conflict (str "case_collision") f.name (str "rename the colliding migration"))
    else do
      let e ← parseFile isArtifact f
      if GoSet.has versions e.version then
        .error (.conflict (str "version_collision") e.version (str "assign a unique canonical version"))
      else do
        let es ← parseFiles (GoSet.add names (toLower f.name)) (GoSet.add versions e.version) files
        .ok (e :: es)

/-- The range and the schema of a checkpoint at index `i`. -/
def checkpointOk (byVersion : GoMap Nat) (i : Nat) (e : Migration) : Bool :=
  match byVersion.get? e.coveredFrom, byVersion.get? e.coveredTo with
  | some a, some b =>
    decide (a ≤ b) && decide (b < i) && matchDigest e.schemaFingerprint &&
      (e.dataPolicy == str "schema_only" || e.dataPolicy == str "declared_replay")
  | _, _ => false

/-- The parents of an entry after the entries `done`: the one in front of it if
it names none. -/
def defaultParents (done : List Migration) (e : Migration) : Except BuildError (List GoString) :=
  match done.getLast? with
  | none =>
    if e.parents ≠ [] then .error (.conflict (str "root_parent") e.file (str "remove root parents"))
    else .ok []
  | some prev => if e.parents = [] then .ok [prev.version] else .ok e.parents

def checkParents (byVersion : GoMap Nat) (file : GoString) (i : Nat) (seen : GoSet) :
    List GoString → Except BuildError Unit
  | [] => .ok ()
  | p :: ps =>
    if GoSet.has seen p then
      .error (.conflict (str "duplicate_parent") file (str "list every parent exactly once"))
    else
      match byVersion.get? p with
      | none =>
        .error (.conflict (str "missing_parent") p
          (str "restore the parent migration or repair the declared graph"))
      | some j =>
        if i ≤ j then
          .error (.conflict (str "cyclic_or_forward_parent") file (str "parents must precede their child"))
        else checkParents byVersion file i (GoSet.add seen p) ps

/-- The parents of an entry that follows `done` in a line. -/
def linearParents (done : List Migration) : List GoString := (done.getLast?.map Migration.version).toList

def parentChains (byVersion : GoMap Nat) (done : List Migration) (parents : List GoString) : List GoString :=
  sortStrings (parents.map fun p =>
    match (byVersion.get? p).bind (done[·]?) with
    | some e => e.chainDigest
    | none => [])

/-- One round of the second loop: the entry `e` after the entries `done`. -/
def link (byVersion : GoMap Nat) (done : List Migration) (e : Migration) : Except BuildError Migration :=
  if e.kind = checkpoint ∧ ¬ checkpointOk byVersion done.length e then
    .error (.conflict (str "checkpoint_range") e.file
      (str "bind a checkpoint to an earlier contiguous covered range"))
  else do
    let parents ← defaultParents done e
    checkParents byVersion e.file done.length GoMap.empty parents
    if parents ≠ linearParents done ∧ (¬ e.nonLinear ∨ parents = []) then
      .error (.conflict (str "nonlinear_chain") e.file
        (str "declare nonlinear=true with explicit existing parents"))
    else if parents = linearParents done ∧ e.nonLinear then
      .error (.conflict (str "spurious_nonlinear") e.file
        (str "remove nonlinear authorization from a linear edge"))
    else
      let e := { e with parents }
      .ok { e with chainDigest := chainDigest e (parentChains byVersion done parents) }

def linkAll (byVersion : GoMap Nat) (done : List Migration) : List Migration → Except BuildError (List Migration)
  | [] => .ok done
  | e :: es => do
    let e ← link byVersion done e
    linkAll byVersion (done ++ [e]) es

def build (files : List File) : Except BuildError Manifest := do
  let parsed ← parseFiles isArtifact GoMap.empty GoMap.empty files
  let sorted := sortEntries parsed
  let entries ← linkAll (versionIndex sorted) [] sorted
  let man : Manifest := ⟨manifestVersion, generationOf entries, entries, []⟩
  return { man with digest := manifestDigest man }

/-! ### Sorting -/

theorem less_iff {a b : Migration} : less a b = true ↔ (versionOf a).compare (versionOf b) = .lt ∨
      (versionOf a).compare (versionOf b) = .eq ∧ lt a.file b.file = true := by
  rw [less]
  cases (versionOf a).compare (versionOf b) <;> simp

theorem not_less_iff {a b : Migration} : less b a = false ↔ (versionOf a).compare (versionOf b) = .lt ∨
      (versionOf a).compare (versionOf b) = .eq ∧ le a.file b.file = true := by
  rw [less, (versionOf b).compare_swap]
  cases (versionOf a).compare (versionOf b) <;> simp [lt]

instance : Std.Total fun a b : Migration => less b a = false where
  total a b := by
    by_cases h : less b a = true
    · right
      rcases less_iff.mp h with h | ⟨h, hf⟩
      · exact not_less_iff.mpr (Or.inl h)
      · exact not_less_iff.mpr (Or.inr ⟨h, (lt_iff.mp hf).1⟩)
    · left
      simpa using h

instance : IsTrans Migration fun a b => less b a = false where
  trans a b c hab hbc := by
    rw [not_less_iff] at *
    rcases hab with hab | ⟨hab, hf⟩ <;> rcases hbc with hbc | ⟨hbc, hg⟩
    · exact Or.inl (TransCmp.lt_trans hab hbc)
    · exact Or.inl (TransCmp.lt_of_lt_of_eq hab hbc)
    · exact Or.inl (TransCmp.lt_of_eq_of_lt hab hbc)
    · exact Or.inr ⟨TransCmp.eq_trans hab hbc, le_trans hf hg⟩

theorem perm_sortEntries (l : List Migration) : (sortEntries l).Perm l := perm_insertionSort _ l

/-! ### Parsing -/

variable {files : List File} {byVersion : GoMap Nat} {e : Migration}

theorem parseFiles_ok {names versions : GoSet} {es : List Migration}
    (h : parseFiles isArtifact names versions files = .ok es) :
    List.Forall₂ (fun f e => parseFile isArtifact f = .ok e) files es ∧
      versions.Fresh (es.map Migration.version) ∧ names.Fresh (files.map fun f => toLower f.name) := by
  induction files generalizing names versions es with
  | nil =>
    cases h
    simp
  | cons f files ih =>
    simp only [parseFiles, guard_ok, bind_ok] at h
    obtain ⟨hname, e, he, hversion, es', hes, h⟩ := h
    cases h
    rw [Bool.not_eq_true] at hname hversion
    obtain ⟨hall, hversions, hnames⟩ := ih hes
    exact ⟨.cons he hall, GoSet.fresh_cons.mpr ⟨hversion, hversions⟩, GoSet.fresh_cons.mpr ⟨hname, hnames⟩⟩

/-- One more file is refused for its version exactly if an earlier one has it. -/
theorem parseFiles_concat {names versions : GoSet} {fs : List File} {es : List Migration} {f : File} {e : Migration}
    (h : parseFiles isArtifact names versions fs = .ok es)
    (hname : GoSet.has names (toLower f.name) = false ∧ toLower f.name ∉ fs.map fun g => toLower g.name)
    (hf : parseFile isArtifact f = .ok e) : parseFiles isArtifact names versions (fs ++ [f]) =
      if GoSet.has versions e.version ∨ e.version ∈ es.map Migration.version then
        .error (.conflict (str "version_collision") e.version (str "assign a unique canonical version"))
      else .ok (es ++ [e]) := by
  induction fs generalizing names versions es with
  | nil =>
    cases h
    rw [nil_append, parseFiles, if_neg (by simp [hname.1]), hf]
    simp [parseFiles, bind, Except.bind]
  | cons g fs ih =>
    simp only [parseFiles, guard_ok, bind_ok] at h
    obtain ⟨hg, x, hx, hversion, es', hes, h⟩ := h
    cases h
    rw [map_cons, mem_cons, not_or] at hname
    have hadd : GoSet.has (GoSet.add names (toLower g.name)) (toLower f.name) = false := by
      rw [← Bool.not_eq_true, GoSet.has_add, hname.1]
      simp [hname.2.1]
    rw [cons_append, parseFiles, if_neg hg, hx]
    simp only [bind, Except.bind, if_neg hversion, ih hes ⟨hadd, hname.2.2⟩, GoSet.has_add, map_cons, mem_cons,
      cons_append, or_assoc, or_left_comm]
    split_ifs <;> rfl

/-! ### Linking -/

theorem get?_versionIndex {entries : List Migration} (h : (entries.map Migration.version).Nodup)
    {v : GoString} {i : Nat} :
    (versionIndex entries).get? v = some i ↔ (entries.map Migration.version)[i]? = some v := by
  have hkeys : (entries.zipIdx.map fun (e, i) => (e.version, i)).map Prod.fst
      = entries.map Migration.version := by
    conv_rhs => rw [← zipIdx_map_fst 0 entries, map_map]
    rw [map_map]
    rfl
  rw [versionIndex, GoMap.get?_ofList_of_nodup (hkeys ▸ h), mem_map, getElem?_map, Option.map_eq_some_iff]
  constructor
  · rintro ⟨⟨e, j⟩, hmem, heq⟩
    cases heq
    exact ⟨e, mem_zipIdx_iff_getElem?.mp hmem, rfl⟩
  · rintro ⟨e, he, rfl⟩
    exact ⟨(e, i), mem_zipIdx_iff_getElem?.mpr he, rfl⟩

theorem checkParents_ok {file : GoString} {i : Nat} {seen : GoSet}
    {ps : List GoString} : checkParents byVersion file i seen ps = .ok () ↔
      seen.Fresh ps ∧ ∀ p ∈ ps, ∃ j < i, byVersion.get? p = some j := by
  induction ps generalizing seen with
  | nil => simp [checkParents]
  | cons p ps ih =>
    rw [checkParents, guard_ok, GoSet.fresh_cons, forall_mem_cons, Bool.not_eq_true]
    rcases hp : byVersion.get? p with - | j
    · simp
    · dsimp only
      rw [guard_ok, ih]
      constructor
      · rintro ⟨hseen, hj, hfresh, hall⟩
        exact ⟨⟨hseen, hfresh⟩, ⟨j, by omega, rfl⟩, hall⟩
      · rintro ⟨⟨hseen, hfresh⟩, ⟨j', hj', heq⟩, hall⟩
        cases heq
        exact ⟨hseen, by omega, hfresh, hall⟩

/-- What `link` makes of an entry. -/
structure Linked (byVersion : GoMap Nat) (done : List Migration) (e e' : Migration) : Prop where
  covers : e.kind = checkpoint → checkpointOk byVersion done.length e = true
  parents_eq : defaultParents done e = .ok e'.parents
  nodup : e'.parents.Nodup
  before : ∀ p ∈ e'.parents, ∃ j < done.length, byVersion.get? p = some j
  linear : e'.parents = linearParents done ↔ e.nonLinear = false
  nonempty : e'.parents ≠ linearParents done → e'.parents ≠ []
  entry_eq : e' = { e with
    parents := e'.parents
    chainDigest := chainDigest { e with parents := e'.parents } (parentChains byVersion done e'.parents) }

theorem link_ok {done : List Migration} {e' : Migration} :
    link byVersion done e = .ok e' ↔ Linked byVersion done e e' := by
  rw [link]
  simp only [guard_ok, bind_ok]
  constructor
  · rintro ⟨hc, ps, hps, ⟨⟩, hcheck, hlin, hspur, h⟩
    obtain ⟨hfresh, hbefore⟩ := checkParents_ok.mp hcheck
    cases h
    refine ⟨fun hk => ?_, hps, hfresh.1, hbefore, ?_, ?_, rfl⟩
    · by_contra hno
      exact hc ⟨hk, hno⟩
    · constructor
      · intro heq
        by_contra hn
        exact hspur ⟨heq, by simpa using hn⟩
      · intro hn
        by_contra hne
        exact hlin ⟨hne, Or.inl (by simp [hn])⟩
    · intro hne hnil
      exact hlin ⟨hne, Or.inr hnil⟩
  · rintro ⟨hc, hps, hnodup, hbefore, hlin, hne, heq⟩
    refine ⟨fun h => h.2 (hc h.1), e'.parents, hps, (),
      checkParents_ok.mpr ⟨GoSet.fresh_empty hnodup, hbefore⟩, ?_, ?_, ?_⟩
    · rintro ⟨h, hn | hn⟩
      · exact h (hlin.mpr (by simpa using hn))
      · exact hne h hn
    · rintro ⟨h, hn⟩
      rw [hlin.mp h] at hn
      cases hn
    · rw [← heq]

theorem linkAll_ok {done es out : List Migration} :
    linkAll byVersion done es = .ok out ↔ ∃ new, out = done ++ new ∧ new.length = es.length ∧
      ∀ i e e', es[i]? = some e → new[i]? = some e' → Linked byVersion (done ++ new.take i) e e' := by
  induction es generalizing done with
  | nil =>
    rw [linkAll]
    constructor
    · intro h
      cases h
      exact ⟨[], by simp, rfl, by simp⟩
    · rintro ⟨new, rfl, hlen, -⟩
      rw [length_eq_zero_iff.mp hlen, append_nil]
  | cons e es ih =>
    simp only [linkAll, bind_ok, link_ok, ih]
    constructor
    · rintro ⟨e', he, new, rfl, hlen, hall⟩
      refine ⟨e' :: new, by simp, by simp [hlen], ?_⟩
      intro i x x' hx hx'
      cases i with
      | zero =>
        cases hx
        cases hx'
        simpa using he
      | succ i => simpa using hall i x x' hx hx'
    · rintro ⟨new, rfl, hlen, hall⟩
      cases new with
      | nil => cases hlen
      | cons e' new =>
        refine ⟨e', by simpa using hall 0 e e' rfl rfl, new, by simp, by simpa using hlen, ?_⟩
        intro i x x' hx hx'
        simpa using hall (i + 1) x x' hx hx'

/-! ### Accepted directories -/

/-- The entries of an accepted directory. -/
structure Manifest.WellFormed (m : Manifest) : Prop where
  canonical : ∀ e ∈ m.entries, (versionOf e).Valid ∧ e.version = (versionOf e).string
  increasing : m.entries.Pairwise fun a b => (versionOf a).compare (versionOf b) = .lt
  covers : ∀ (i : Nat) (e : Migration), m.entries[i]? = some e → e.kind = checkpoint → ∃ a b, a ≤ b ∧ b < i ∧
    (m.entries.map Migration.version)[a]? = some e.coveredFrom ∧
    (m.entries.map Migration.version)[b]? = some e.coveredTo
  before : ∀ (i : Nat) (e : Migration), m.entries[i]? = some e → ∀ p ∈ e.parents, ∃ j < i,
    (m.entries.map Migration.version)[j]? = some p
  linear : ∀ (i : Nat) (e : Migration), m.entries[i]? = some e →
    (e.nonLinear = false ↔ e.parents = linearParents (m.entries.take i))
  digest_ne : m.digest ≠ []

theorem versionOf_string {v : Version} (h : v.Valid) (he : e.version = v.string) : versionOf e = v := by
  rw [versionOf, he, parseVersion_string h]
  rfl

/-- An accepted file has a canonical version. -/
theorem canonical_of_parseFile {f : File} (h : parseFile isArtifact f = .ok e) :
    (versionOf e).Valid ∧ e.version = (versionOf e).string := by
  obtain ⟨r, hr, rfl⟩ := (parseFile_ok isArtifact).mp h
  have hv := valid_of_parseVersion hr.version_ok
  rw [versionOf_string hv rfl]
  exact ⟨hv, rfl⟩

theorem canonical_of_parseFiles {files : List File} {es : List Migration}
    (h : Forall₂ (fun f e => parseFile isArtifact f = .ok e) files es) :
    ∀ e ∈ es, (versionOf e).Valid ∧ e.version = (versionOf e).string := by
  intro e he
  obtain ⟨i, hi, rfl⟩ := mem_iff_getElem.mp he
  have hf : i < files.length := by rw [h.length_eq]; exact hi
  exact canonical_of_parseFile isArtifact (h.get hf hi)

/-- Distinct canonical versions that are sorted are increasing. -/
theorem increasing_of_sorted {l : List Migration} (hc : ∀ e ∈ l, (versionOf e).Valid ∧ e.version = (versionOf e).string)
    (hn : (l.map Migration.version).Nodup) (hs : l.Pairwise fun a b => less b a = false) :
    l.Pairwise fun a b => (versionOf a).compare (versionOf b) = .lt := by
  rw [List.Nodup, pairwise_map] at hn
  refine (hs.and hn).imp_of_mem ?_
  intro a b ha hb ⟨hle, hne⟩
  rcases not_less_iff.mp hle with h | ⟨h, -⟩
  · exact h
  · have heq := eq_of_compare_eq (hc a ha).1 (hc b hb).1 h
    exact absurd ((hc a ha).2.trans (heq ▸ (hc b hb).2.symm)) hne

/-- The steps of an accepted `build`. -/
structure Built (files : List File) (m : Manifest) where
  parsed : List Migration
  parsed_ok : List.Forall₂ (fun f e => parseFile isArtifact f = .ok e) files parsed
  nodup : (parsed.map Migration.version).Nodup
  names : (files.map fun f => toLower f.name).Nodup
  length_eq : m.entries.length = (sortEntries parsed).length
  linked : ∀ i e e', (sortEntries parsed)[i]? = some e → m.entries[i]? = some e' →
    Linked (versionIndex (sortEntries parsed)) (m.entries.take i) e e'
  version_eq : m.version = manifestVersion
  generation_eq : m.generation = generationOf m.entries
  digest_eq : m.digest = manifestDigest m

theorem build_steps {m : Manifest} (h : build isArtifact files = .ok m) : Nonempty (Built isArtifact files m) := by
  simp only [build, bind_ok] at h
  obtain ⟨parsed, hparsed, entries, hlink, h⟩ := h
  cases h
  obtain ⟨hall, ⟨hnodup, -⟩, hnames, -⟩ := parseFiles_ok isArtifact hparsed
  obtain ⟨new, rfl, hlen, hlinked⟩ := linkAll_ok.mp hlink
  refine ⟨⟨parsed, hall, hnodup, hnames, hlen, ?_, rfl, rfl, rfl⟩⟩
  intro i e e' he he'
  exact hlinked i e e' he he'

namespace Built

variable {isArtifact} {files : List File} {m : Manifest} (b : Built isArtifact files m)

include b

theorem generation_match : matchGeneration m.generation = true := by
  rw [b.generation_eq]
  exact matchGeneration_hexEncode _

theorem exists_sorted {i : Nat} {e' : Migration} (h : m.entries[i]? = some e') :
    ∃ e, (sortEntries b.parsed)[i]? = some e ∧
      Linked (versionIndex (sortEntries b.parsed)) (m.entries.take i) e e' := by
  have hi : i < (sortEntries b.parsed).length := by
    rw [← b.length_eq]
    exact (List.getElem?_eq_some_iff.mp h).1
  exact ⟨_, getElem?_eq_getElem hi, b.linked i _ e' (getElem?_eq_getElem hi) h⟩

/-- What linking leaves alone is as in the sorted entries. -/
theorem map_linked {γ : Type} {g : Migration → γ} (hg : ∀ e ps c, g { e with parents := ps, chainDigest := c } = g e) :
    m.entries.map g = (sortEntries b.parsed).map g := by
  refine ext_getElem? fun i => ?_
  rw [getElem?_map, getElem?_map]
  rcases h : m.entries[i]? with - | e'
  · have : (sortEntries b.parsed)[i]? = none := by
      rw [getElem?_eq_none_iff] at h ⊢
      exact b.length_eq ▸ h
    rw [this]
  · obtain ⟨e, he, hl⟩ := b.exists_sorted h
    rw [he, hl.entry_eq]
    simp [hg]

theorem map_version : m.entries.map Migration.version = (sortEntries b.parsed).map Migration.version := b.map_linked fun _ _ _ => rfl

theorem canonical_sorted : ∀ e ∈ sortEntries b.parsed, (versionOf e).Valid ∧ e.version = (versionOf e).string := by
  intro e he
  exact canonical_of_parseFiles isArtifact b.parsed_ok e ((perm_sortEntries b.parsed).mem_iff.mp he)

theorem nodup_sorted : ((sortEntries b.parsed).map Migration.version).Nodup :=
  ((perm_sortEntries b.parsed).map _).nodup_iff.mpr b.nodup

/-- What the order of entries says depends on their versions only. -/
theorem wellFormed : m.WellFormed where
  canonical := by
    intro e' he'
    obtain ⟨i, hi⟩ := mem_iff_getElem?.mp he'
    obtain ⟨e, he, hl⟩ := b.exists_sorted hi
    have hc := b.canonical_sorted e (mem_of_getElem? he)
    have hv : e'.version = e.version := by rw [hl.entry_eq]
    have hof : versionOf e' = versionOf e := by rw [versionOf, versionOf, hv]
    rw [hof, hv]
    exact hc
  increasing := by
    have hs := increasing_of_sorted b.canonical_sorted b.nodup_sorted (pairwise_insertionSort _ b.parsed)
    have hp : (m.entries.map versionOf).Pairwise fun v w => v.compare w = .lt := by
      rw [b.map_linked fun _ _ _ => rfl]
      exact pairwise_map.mpr hs
    exact pairwise_map.mp hp
  covers := by
    intro i e' hi hk
    obtain ⟨e, he, hl⟩ := b.exists_sorted hi
    have hlen : (m.entries.take i).length = i := by
      rw [length_take]
      have := (List.getElem?_eq_some_iff.mp hi).1
      omega
    have hkind : e.kind = checkpoint := by
      rw [hl.entry_eq] at hk
      exact hk
    have hc := hl.covers hkind
    rw [checkpointOk, hlen] at hc
    split at hc
    · rename_i x y hx hy
      simp only [Bool.and_eq_true, decide_eq_true_eq] at hc
      rw [get?_versionIndex b.nodup_sorted, ← b.map_version] at hx hy
      refine ⟨x, y, hc.1.1.1, hc.1.1.2, ?_⟩
      rw [hl.entry_eq]
      exact ⟨hx, hy⟩
    · cases hc
  before := by
    intro i e' hi p hp
    obtain ⟨e, he, hl⟩ := b.exists_sorted hi
    obtain ⟨j, hj, hget⟩ := hl.before p hp
    rw [get?_versionIndex b.nodup_sorted, ← b.map_version] at hget
    rw [length_take] at hj
    exact ⟨j, by omega, hget⟩
  linear := by
    intro i e' hi
    obtain ⟨e, he, hl⟩ := b.exists_sorted hi
    have hn : e'.nonLinear = e.nonLinear := by rw [hl.entry_eq]
    rw [hn, ← hl.linear]
  digest_ne := by
    rw [b.digest_eq, manifestDigest, digest]
    exact append_ne_nil_of_left_ne_nil (by decide) _

end Built

theorem build_ok {m : Manifest} (h : build isArtifact files = .ok m) : m.WellFormed := by
  obtain ⟨b⟩ := build_steps isArtifact h
  exact b.wellFormed

/-- Parsed versions are ordered by the precedence of SemVer and have one spelling.  The
entries of a manifest are in the only order that does not decrease, and a file is
refused for its version exactly if a file before it has this version. -/
theorem versions_ordered (isArtifact : GoString → Bool) :
    (∀ v w : ParsedVersion, (v.1.compare w.1 = .lt ↔ v.1.Below w.1) ∧ (v.1.compare w.1 = .gt ↔ w.1.Below v.1) ∧
      (v.1.compare w.1 = .eq ↔ v = w) ∧ parseVersion v.1.string = .ok v.1) ∧
    (∀ u v w : ParsedVersion, u.1.compare v.1 ≠ .gt → v.1.compare w.1 ≠ .gt → u.1.compare w.1 ≠ .gt) ∧
    (∀ files m, build isArtifact files = .ok m →
      m.entries.Pairwise (fun a b => (versionOf a).compare (versionOf b) = .lt) ∧
      ∀ l, l.Perm m.entries → l.Pairwise (fun a b => (versionOf a).compare (versionOf b) ≠ .gt) → l = m.entries) ∧
    ∀ fs es f e, parseFiles isArtifact GoMap.empty GoMap.empty fs = .ok es →
      toLower f.name ∉ fs.map (fun g => toLower g.name) → parseFile isArtifact f = .ok e →
      parseFiles isArtifact GoMap.empty GoMap.empty (fs ++ [f]) = if ∃ x ∈ es, versionOf x = versionOf e then
          .error (.conflict (str "version_collision") e.version (str "assign a unique canonical version"))
        else .ok (es ++ [e]) := by
  refine ⟨fun v w => ⟨compare_lt v.valid w.valid, ?_, ⟨?_, ?_⟩, parseVersion_string v.valid⟩, ?_, ?_, ?_⟩
  · rw [v.1.compare_swap, Ordering.swap_eq_gt]
    exact compare_lt w.valid v.valid
  · exact fun h => Subtype.ext (eq_of_compare_eq v.valid w.valid h)
  · rintro rfl
    exact v.1.compare_self
  · intro u v w
    simp only [← Ordering.isLE_iff_ne_gt]
    exact TransCmp.isLE_trans
  · intro files m hm
    have hw := build_ok isArtifact hm
    have hnodup : (m.entries.map versionOf).Nodup := by
      refine pairwise_map.mpr (hw.increasing.imp fun h heq => ?_)
      rw [heq, Version.compare_self] at h
      cases h
    refine ⟨hw.increasing, fun l hl hs => hl.eq_of_pairwise ?_ hs (hw.increasing.imp fun h => by simp [h])⟩
    intro a b ha hb hab hba
    have heq : (versionOf a).compare (versionOf b) = .eq := by
      rw [Version.compare_swap] at hba
      cases h : (versionOf a).compare (versionOf b) <;> simp_all
    have ha := hl.mem_iff.mp ha
    exact inj_on_of_nodup_map hnodup ha hb (eq_of_compare_eq (hw.canonical a ha).1 (hw.canonical b hb).1 heq)
  · intro fs es f e hes hname hf
    have hc := canonical_of_parseFile isArtifact hf
    have hsame : e.version ∈ es.map Migration.version ↔ ∃ x ∈ es, versionOf x = versionOf e := by
      rw [mem_map]
      refine exists_congr fun x => and_congr_right fun hx => ⟨fun h => ?_, fun h => ?_⟩
      · rw [versionOf, versionOf, h]
      · rw [(canonical_of_parseFiles isArtifact (parseFiles_ok isArtifact hes).1 x hx).2, hc.2, h]
    rw [parseFiles_concat isArtifact hes ⟨rfl, hname⟩ hf]
    simp only [hsame, show GoSet.has GoMap.empty e.version = false from rfl, Bool.false_eq_true, false_or]

end AutoSql.Migrate
