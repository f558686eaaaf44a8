/-
AutoSql/Schema/Diff.lean

`Diff`: the changes that lead from a current to a desired document.

The resources of the two selected documents are matched in three rounds: by
equal ID, by explicit rename hints, and by carrying the descendants of a
renamed container along with it.  A matched pair gives an alteration if the
two resources differ, preceded by a rename if their IDs do; what is left over
gives drops on one side and creates on the other.

A rename with an alteration passes through an intermediate resource: the old
one under its new name, with its references mapped along the pairs.  The
mapping writes into the dependency list that the old resource shares, so the
snapshot before the rename shows the mapped references as well.

Main results: the matching pairs current with desired resources one to one and
pairs every common ID with itself (`matching_sound`); the successful calls
inside a successful `diff` (`diff_ok`).
-/
import AutoSql.Schema.Order

namespace AutoSql.Schema

open Fallible List GoMap

/-- An explicit rename, each end given by ID or by name. -/
structure RenameHint where
  hintFrom : GoString
  hintTo : GoString
  deriving DecidableEq

structure DiffOptions where
  includes : List GoString := []
  excludes : List GoString := []
  renameHints : List RenameHint := []
  deriving DecidableEq

def changeVersion : GoString := str "autosql.changes/v1"

structure ChangeSet where
  version : GoString
  changes : List Change
  annotations : GoMap GoString := .empty
  extra : GoMap GoString := .empty
  deriving DecidableEq

/-! ### Validation of change sets -/

/-- The two snapshots of a change as its operation requires them. -/
def Change.shaped (c : Change) : Bool :=
  match c.operation with
  | .create => c.after.isSome && c.before.isNone
  | .drop => c.before.isSome && c.after.isNone
  | .alter | .rename => c.before.isSome && c.after.isSome

/-- The logical name, without unknown fields. -/
def Name.same (a b : Name) : Bool :=
  a.catalog = b.catalog && a.schema = b.schema && a.name = b.name && a.parent = b.parent

/-- The checks on one snapshot of a change. -/
def checkSnapshot (c : Change) (r : Resource) : Except Error Unit :=
  if !isKnownKind r.kind then .error (.unsupportedChangeKind c.id r.kind)
  else if r.name.name = [] ∨ r.id = [] ∨ r.id ≠ stableID r.kind r.name then
    .error (.invalidDocument (.changeIdentity c.id))
  else if c.operation ≠ .rename ∧ c.resourceID ≠ r.id then
    .error (.invalidDocument (.changeSnapshot c.id))
  else if r.spec ≠ [] ∧ !validJSONObject r.spec then .error (.invalidDocument (.changeSpec c.id))
  else .ok ()

/-- A rename keeps the kind, changes the name, and is filed under its result. -/
def checkRename (c : Change) : Except Error Unit :=
  match c.operation, c.before, c.after with
  | .rename, some b, some a =>
    if b.kind ≠ a.kind ∨ b.name.same a.name then .error (.invalidDocument (.renameName c.id))
    else if c.resourceID ≠ a.id then .error (.invalidDocument (.renameResource c.id))
    else .ok ()
  | _, _, _ => .ok ()

def checkChange (i : Nat) (c : Change) (ids : GoSet) : Except Error Unit := do
  if c.id = [] ∨ c.resourceID = [] then .error (.invalidDocument (.changeIDsRequired i))
  if ids.has c.id then .error (.invalidDocument (.duplicateChange c.id))
  if !c.shaped then .error (.invalidDocument (.changeShape c.id))
  checkRename c
  (c.before.toList ++ c.after.toList).forM (checkSnapshot c)
  if c.details ≠ [] ∧ !validJSONObject c.details then
    .error (.invalidDocument (.changeDetails c.id))

def checkChanges : Nat → List Change → GoSet → Except Error GoSet
  | _, [], ids => .ok ids
  | i, c :: cs, ids => do
    checkChange i c ids
    checkChanges (i + 1) cs (ids.add c.id)

/-- `ChangeSet.Validate`. -/
def ChangeSet.validate (cs : ChangeSet) : Except Error Unit := do
  if cs.version ≠ changeVersion then .error (.unsupportedVersion cs.version)
  let ids ← checkChanges 0 cs.changes .empty
  cs.changes.forM fun c => c.dependsOn.forM fun dep =>
    if ids.has dep then .ok () else .error (.invalidDocument (.missingChange c.id dep))

/-! ### Matching -/

/-- Which current resource becomes which desired one. -/
structure Matching where
  pairs : GoMap GoString := .empty
  matchedCur : GoSet := .empty
  matchedWant : GoSet := .empty

def Matching.add (m : Matching) (oldID newID : GoString) : Matching :=
  ⟨m.pairs.insert oldID newID, m.matchedCur.add oldID, m.matchedWant.add newID⟩

section Diff

variable (it : MapIter RangeSite) (cur want : GoMap Resource)

/-- The values of a map in the order of a visit. -/
def visited (site : RangeSite) (m : GoMap Resource) : List Resource :=
  (it.order site m.keys).filterMap m.get?

/-- Equal IDs. -/
def matchIdentity : Matching :=
  (it.order .identity cur.keys).foldl
    (fun m id => if want.contains id then m.add id id else m) {}

/-- The resource a hint names. -/
def resolveResource (site : RangeSite) (resources : GoMap Resource) (value : GoString) : Except Error Resource :=
  match resources.get? value with
  | some r => .ok r
  | none =>
    match (visited it site resources).filter fun r =>
        r.name.string = value || r.kind ++ str ":" ++ r.name.string = value with
    | [r] => .ok r
    | found => .error (.unresolvedHint value found.length)

/-- A hint with the resources it names. -/
structure ResolvedHint where
  hint : RenameHint
  src : Resource
  dst : Resource

/-- Resolves every hint before any is used, so that a hint on a child may refer
to a parent that a later hint renames. -/
def resolveHints : Nat → List RenameHint → GoMap GoString → Except Error (List ResolvedHint × GoMap GoString)
  | _, [], hintedParents => .ok ([], hintedParents)
  | i, hint :: hints, hintedParents => do
    let src ← resolveResource it (.hintFrom i) cur hint.hintFrom
    let dst ← resolveResource it (.hintTo i) want hint.hintTo
    if src.kind ≠ dst.kind then .error (.ambiguousRename hint.hintFrom hint.hintTo)
    if (hintedParents.get? src.id).any (· ≠ dst.id) then
      .error (.conflictingSource hint.hintFrom)
    let (resolved, hintedParents) ← resolveHints (i + 1) hints (hintedParents.insert src.id dst.id)
    .ok (⟨hint, src, dst⟩ :: resolved, hintedParents)

/-- A rename stays in its container, follows a renamed parent, or moves an
extension to another schema. -/
def renameAllowed (hintedParents : GoMap GoString) (src dst : Resource) : Bool :=
  let parentMapped := src.name.parent ≠ [] ∧ (hintedParents.get? src.name.parent).getD [] = dst.name.parent
  let sameContainer := src.name.parent = dst.name.parent ∧ src.name.catalog = dst.name.catalog ∧
    src.name.schema = dst.name.schema
  let extensionSchemaMove := src.kind = kindExtension ∧ src.name.name = dst.name.name ∧
    src.name.catalog = dst.name.catalog
  sameContainer ∨ parentMapped ∨ extensionSchemaMove

/-- Explicit renames. -/
def matchHints (hintedParents : GoMap GoString) : List ResolvedHint → Matching → GoSet → Except Error Matching
  | [], m, _ => .ok m
  | item :: items, m, seenTargets =>
    if m.matchedCur.has item.src.id || m.matchedWant.has item.dst.id || seenTargets.has item.dst.id then
      .error (.ambiguousRename item.hint.hintFrom item.hint.hintTo)
    else if !renameAllowed hintedParents item.src item.dst then
      .error (.crossParentRename item.hint.hintFrom item.hint.hintTo)
    else
      matchHints hintedParents items (m.add item.src.id item.dst.id) (seenTargets.add item.dst.id)

/-- The desired resources that could continue a descendant of a renamed
container. -/
def carryCandidates (pass : Nat) (m : Matching) (src : Resource) (newParent : GoString) : List Resource :=
  (visited it (.candidates pass src.id) want).filter fun dst =>
    !m.matchedWant.has dst.id && src.kind = dst.kind && dst.name.parent = newParent &&
      src.name.name = dst.name.name

/-- One current resource in a round of carrying; the flag says that a pair was
added. -/
def carryStep (pass : Nat) (st : Matching × Bool) (src : Resource) : Matching × Bool :=
  if st.1.matchedCur.has src.id || src.name.parent = [] then st
  else
    match st.1.pairs.get? src.name.parent with
    | none => st
    | some newParent =>
      if newParent = src.name.parent then st
      else
        match carryCandidates it want pass st.1 src newParent with
        | [dst] => (st.1.add src.id dst.id, true)
        | _ => st

def carryPass (pass : Nat) (m : Matching) : Matching × Bool :=
  (visited it (.carry pass) cur).foldl (carryStep it want pass) (m, false)

/-- Repeats the rounds until one adds nothing.  Every other round matches a
current resource more. -/
def carryLoop : Nat → Nat → Matching → Matching
  | 0, _, m => m
  | fuel + 1, pass, m =>
    let (m, changed) := carryPass it cur want pass m
    if changed then carryLoop fuel (pass + 1) m else m

/-- The three rounds. -/
def matching (hints : List RenameHint) : Except Error Matching := do
  let (resolved, hintedParents) ← resolveHints it cur want 0 hints .empty
  let m ← matchHints hintedParents resolved (matchIdentity it cur want) .empty
  .ok (carryLoop it cur want (cur.size + 1) 0 m)

/-! ### Changes of pairs -/

variable (pairs : GoMap GoString)

/-- The dependencies with their targets mapped along the pairs. -/
def remapDependencies (deps : List Dependency) : List Dependency :=
  deps.map fun d => { d with target := (pairs.get? d.target).getD d.target }

/-- The old resource as the mapping of references leaves it. -/
def remapped (before : Resource) : Resource :=
  { before with dependencies := remapDependencies pairs before.dependencies }

/-- The resource between a rename and an alteration.  Moving an extension to
another schema replaces its containment edge, which counts as a part of the
rename. -/
def intermediate (before after : Resource) : Resource :=
  { remapped pairs before with
    id := after.id
    name := after.name
    dependencies :=
      if before.kind = kindExtension ∧ before.name.parent ≠ after.name.parent then
        after.dependencies
      else remapDependencies pairs before.dependencies }

def resourcesEqual (a b : Resource) : Except Error Bool := do
  let af ← resourceFingerprint a
  let bf ← resourceFingerprint b
  .ok (af = bf)

/-- An alteration, if the two resources differ. -/
def alteration (before after : Resource) : Except Error (List Change) := do
  if ← resourcesEqual before after then .ok []
  else .ok [← newChange .alter (some before) (some after)]

/-- The changes of one pair. -/
def pairChanges (oldID newID : GoString) (before after : Resource) :
    Except Error (List Change) :=
  if oldID ≠ newID then do
    let middle := intermediate pairs before after
    let rename ← newChange .rename (some (remapped pairs before)) (some middle)
    .ok (rename :: (← alteration middle after))
  else alteration before after

/-- The resource with the given ID; the maps are only read at IDs they hold. -/
def resourceAt (m : GoMap Resource) (id : GoString) : Resource := (m.get? id).getD {}

/-- The changes of all pairs, in the order of the old IDs. -/
def changesOfPairs : Except Error (List Change) := do
  let oldIDs := GoString.sortStrings (it.order .pairs pairs.keys)
  let changes ← oldIDs.mapM fun oldID =>
    let newID := (pairs.get? oldID).getD []
    pairChanges pairs oldID newID (resourceAt cur oldID) (resourceAt want newID)
  .ok changes.flatten

/-- The desired resources without a partner. -/
def creates (m : Matching) : Except Error (List Change) :=
  ((visited it .creates want).filter fun r => !m.matchedWant.has r.id).mapM fun r =>
    newChange .create none (some r)

/-- The current resources without a partner. -/
def drops (m : Matching) : Except Error (List Change) :=
  ((visited it .drops cur).filter fun r => !m.matchedCur.has r.id).mapM fun r =>
    newChange .drop (some r) none

/-- All changes, before they are ordered. -/
def unorderedChanges (m : Matching) : Except Error (List Change) := do
  let pairChanges ← changesOfPairs it cur want m.pairs
  let creates ← creates it want m
  let drops ← drops it cur m
  .ok (pairChanges ++ creates ++ drops)

end Diff

/-- `Diff`. -/
def diff (it : MapIter RangeSite) (current desired : Document) (options : DiffOptions) : Except Error ChangeSet := do
  let current ← select it .current current options.includes options.excludes
  let desired ← select it .desired desired options.includes options.excludes
  let cur := resourceMap current
  let want := resourceMap desired
  let m ← matching it cur want options.renameHints
  let changes ← unorderedChanges it cur want m
  let changes ← orderChanges it changes
  let result : ChangeSet := { version := changeVersion, changes := changes }
  result.validate
  .ok result

/-! ### The matching is one to one -/

/-- The matching is a partial injection from current to desired resources, and
`matchedCur` and `matchedWant` are its two ends. -/
structure Matching.Sound (cur want : GoMap Resource) (m : Matching) : Prop where
  cur_iff : ∀ o, m.matchedCur.has o = true ↔ ∃ n, m.pairs.get? o = some n
  want_iff : ∀ n, m.matchedWant.has n = true ↔ ∃ o, m.pairs.get? o = some n
  cur_mem : ∀ o n, m.pairs.get? o = some n → ∃ r, cur.get? o = some r
  want_mem : ∀ o n, m.pairs.get? o = some n → ∃ r, want.get? n = some r
  inj : ∀ o o' n, m.pairs.get? o = some n → m.pairs.get? o' = some n → o = o'

/-- Every ID of both documents is paired with itself. -/
def Matching.Identity (cur want : GoMap Resource) (m : Matching) : Prop :=
  ∀ id, cur.contains id = true → want.contains id = true → m.pairs.get? id = some id

/-- A map whose keys are the IDs of its resources. -/
def Keyed (m : GoMap Resource) : Prop := ∀ id r, m.get? id = some r → r.id = id

theorem keyed_resourceMap (doc : Document) : Keyed (resourceMap doc) :=
  fun _ _ h => (get?_index h).2

section Matching

variable {it : MapIter RangeSite} {cur want : GoMap Resource} {m : Matching}

theorem Matching.get?_add {o n k : GoString} :
    (m.add o n).pairs.get? k = if k = o then some n else m.pairs.get? k := get?_insert

/-- Adding a pair of unmatched resources keeps the matching one to one. -/
theorem Matching.Sound.add (h : m.Sound cur want) {o n : GoString}
    (ho : m.matchedCur.has o = false) (hn : m.matchedWant.has n = false)
    (hcur : ∃ r, cur.get? o = some r) (hwant : ∃ r, want.get? n = some r) : (m.add o n).Sound cur want := by
  have hfree : ∀ o', m.pairs.get? o' ≠ some n := by
    intro o' h'
    rw [(h.want_iff n).mpr ⟨o', h'⟩] at hn
    cases hn
  have hnone : m.pairs.get? o = none := by
    rcases e : m.pairs.get? o with - | n'
    · rfl
    · rw [(h.cur_iff o).mpr ⟨n', e⟩] at ho
      cases ho
  refine ⟨?_, ?_, ?_, ?_, ?_⟩
  · intro k
    rw [Matching.add, GoSet.has_add, h.cur_iff, get?_insert]
    split_ifs with hk <;> simp [hk]
  · intro k
    rw [Matching.add, GoSet.has_add, h.want_iff]
    constructor
    · rintro (rfl | ⟨o', ho'⟩)
      · exact ⟨o, get?_insert_self⟩
      · refine ⟨o', ?_⟩
        rw [get?_insert, if_neg, ho']
        rintro rfl
        rw [hnone] at ho'
        cases ho'
    · rintro ⟨o', ho'⟩
      rw [get?_insert] at ho'
      split_ifs at ho'
      · exact Or.inl (by cases ho'; rfl)
      · exact Or.inr ⟨o', ho'⟩
  · intro k n' hk
    rw [Matching.get?_add] at hk
    split_ifs at hk with hko
    · exact hko ▸ hcur
    · exact h.cur_mem k n' hk
  · intro k n' hk
    rw [Matching.get?_add] at hk
    split_ifs at hk
    · cases hk
      exact hwant
    · exact h.want_mem k n' hk
  · intro k k' n' hk hk'
    rw [Matching.get?_add] at hk hk'
    split_ifs at hk hk' with h₁ h₂ h₂
    · exact h₁.trans h₂.symm
    · cases hk
      exact absurd hk' (hfree k')
    · cases hk'
      exact absurd hk (hfree k)
    · exact h.inj k k' n' hk hk'

theorem Matching.Identity.add (h : m.Identity cur want) (hs : m.Sound cur want) {o n : GoString}
    (ho : m.matchedCur.has o = false) : (m.add o n).Identity cur want := by
  intro id hc hw
  rw [Matching.get?_add, if_neg]
  · exact h id hc hw
  · rintro rfl
    rw [(hs.cur_iff id).mpr ⟨id, h id hc hw⟩] at ho
    cases ho

/-- The first round pairs the IDs that it visits and that the desired document has. -/
theorem foldl_matchIdentity (l : List GoString) (m : Matching) (k : GoString) :
    let m' := l.foldl (fun m id => if want.contains id then m.add id id else m) m
    let paired := k ∈ l ∧ want.contains k = true
    (m'.pairs.get? k = if paired then some k else m.pairs.get? k) ∧
      (m'.matchedCur.has k = true ↔ paired ∨ m.matchedCur.has k = true) ∧
      (m'.matchedWant.has k = true ↔ paired ∨ m.matchedWant.has k = true) := by
  induction l generalizing m with
  | nil => simp
  | cons a l ih =>
    obtain ⟨hp, hc, hw⟩ := ih (if want.contains a then m.add a a else m)
    simp only [foldl_cons, hp, hc, hw, mem_cons]
    split_ifs <;> simp_all [Matching.add, get?_insert] <;> grind

/-- The first round, in whatever order the IDs are visited. -/
theorem matchIdentity_sound (it : MapIter RangeSite) (cur want : GoMap Resource) :
    (matchIdentity it cur want).Sound cur want ∧ (matchIdentity it cur want).Identity cur want := by
  have hround := @foldl_matchIdentity want (it.order .identity cur.keys) {}
  have hmem : ∀ k, k ∈ it.order .identity cur.keys ↔ cur.contains k = true := fun k => it.mem_order.trans GoMap.mem_keys
  simp only [hmem, get?_empty, GoSet.has_empty, Bool.false_eq_true, or_false] at hround
  have hpairs : ∀ o n, (matchIdentity it cur want).pairs.get? o = some n ↔
      (cur.contains o = true ∧ want.contains o = true) ∧ o = n := by
    intro o n
    rw [matchIdentity, (hround o).1]
    split_ifs with h <;> simp [h]
  refine ⟨⟨fun o => ?_, fun n => ?_, fun o n h => ?_, fun o n h => ?_, fun o o' n h h' => ?_⟩, fun id hc hw => ?_⟩
  · simp only [hpairs, exists_and_left, exists_eq', and_true]
    exact (hround o).2.1
  · simp only [hpairs, exists_eq_right]
    exact (hround n).2.2
  · exact contains_iff.mp ((hpairs o n).mp h).1.1
  · obtain ⟨⟨-, hw⟩, rfl⟩ := (hpairs o n).mp h
    exact contains_iff.mp hw
  · exact ((hpairs o n).mp h).2.trans ((hpairs o' n).mp h').2.symm
  · exact (hpairs id id).mpr ⟨⟨hc, hw⟩, rfl⟩

theorem mem_visited {site : RangeSite} {mp : GoMap Resource} {r : Resource} :
    r ∈ visited it site mp ↔ ∃ id, mp.get? id = some r := by
  rw [visited, mem_filterMap]
  constructor
  · rintro ⟨id, -, h⟩
    exact ⟨id, h⟩
  · rintro ⟨id, h⟩
    exact ⟨id, it.mem_order.mpr (mem_keys.mpr (by simp [h])), h⟩

theorem resolveResource_mem {site : RangeSite} {mp : GoMap Resource} {value : GoString}
    {r : Resource} (hk : Keyed mp) (h : resolveResource it site mp value = .ok r) : mp.get? r.id = some r := by
  have hmem : ∃ id, mp.get? id = some r := by
    rw [resolveResource] at h
    split at h
    · next r' hr =>
      cases h
      exact ⟨value, hr⟩
    · split at h
      · next r' hr =>
        cases h
        have hin := mem_of_mem_filter (hr ▸ mem_singleton_self r)
        exact mem_visited.mp hin
      · cases h
  obtain ⟨id, hid⟩ := hmem
  rw [hk id r hid]
  exact hid

/-- Resolved hints name resources of the two documents, of one kind, and the map
of parents holds them all. -/
theorem resolveHints_ok (hcur : Keyed cur) (hwant : Keyed want) {i : Nat} {hints : List RenameHint}
    {hp : GoMap GoString} {res : List ResolvedHint × GoMap GoString}
    (h : resolveHints it cur want i hints hp = .ok res) :
    (∀ x ∈ res.1, cur.get? x.src.id = some x.src ∧ want.get? x.dst.id = some x.dst ∧ x.src.kind = x.dst.kind) ∧
      ∀ k v, res.2.get? k = some v ↔ hp.get? k = some v ∨ ∃ x ∈ res.1, x.src.id = k ∧ x.dst.id = v := by
  induction hints generalizing i hp res with
  | nil =>
    cases h
    simp
  | cons hint hints ih =>
    rw [resolveHints] at h
    simp only [bind_ok, error_bind, guard_ok, not_not] at h
    obtain ⟨src, hsrc, dst, hdst, hkind, hno, rest, hrest, heq⟩ := h
    cases heq
    obtain ⟨hitems, hget⟩ := ih hrest
    refine ⟨forall_mem_cons.mpr ⟨⟨resolveResource_mem hcur hsrc, resolveResource_mem hwant hdst, hkind⟩, hitems⟩,
      fun k v => ?_⟩
    rw [hget, get?_insert]
    split_ifs with hk
    · -- an earlier hint on the same source had the same target
      subst hk
      have hsame : hp.get? src.id = some v → dst.id = v := by
        intro hv
        rw [eq_comm]
        simpa [hv] using hno
      simp only [exists_mem_cons_iff, true_and, Option.some.injEq]
      tauto
    · simp [Ne.symm hk]

theorem matchHints_sound {hp : GoMap GoString} {items : List ResolvedHint} {seen : GoSet} {m' : Matching}
    (hitems : ∀ x ∈ items, cur.get? x.src.id = some x.src ∧ want.get? x.dst.id = some x.dst ∧ x.src.kind = x.dst.kind)
    (hs : m.Sound cur want) (hid : m.Identity cur want)
    (h : matchHints hp items m seen = .ok m') : m'.Sound cur want ∧ m'.Identity cur want := by
  induction items generalizing m seen with
  | nil =>
    cases h
    exact ⟨hs, hid⟩
  | cons item items ih =>
    rw [matchHints] at h
    simp only [guard_ok, Bool.not_eq_true, Bool.or_eq_false_iff] at h
    obtain ⟨⟨⟨hfc, hfw⟩, -⟩, -, h⟩ := h
    obtain ⟨hsrc, hdst, -⟩ := hitems item mem_cons_self
    exact ih (fun item' h' => hitems item' (mem_cons_of_mem _ h'))
      (hs.add hfc hfw ⟨_, hsrc⟩ ⟨_, hdst⟩) (hid.add hs hfc) h

theorem carryStep_sound {pass : Nat} {st : Matching × Bool} {src : Resource}
    (hcur : cur.get? src.id = some src) (hwant : Keyed want) (h : st.1.Sound cur want ∧ st.1.Identity cur want) :
    (carryStep it want pass st src).1.Sound cur want ∧ (carryStep it want pass st src).1.Identity cur want := by
  rw [carryStep]
  split
  · exact h
  · next hskip =>
    split
    · exact h
    · split
      · exact h
      · split
        · next dst hdst =>
          simp only [Bool.or_eq_true, not_or, Bool.not_eq_true] at hskip
          -- the only candidate is an unmatched desired resource
          have hmem : dst ∈ carryCandidates it want pass st.1 src _ :=
            hdst ▸ mem_singleton_self dst
          obtain ⟨hvis, hcand⟩ := mem_filter.mp hmem
          simp only [Bool.and_eq_true, Bool.not_eq_true'] at hcand
          obtain ⟨id, hid⟩ := mem_visited.mp hvis
          have hdst' : want.get? dst.id = some dst := by
            rw [hwant id dst hid]
            exact hid
          exact ⟨h.1.add hskip.1 hcand.1.1.1 ⟨_, hcur⟩ ⟨_, hdst'⟩, h.2.add h.1 hskip.1⟩
        · exact h

theorem carryLoop_sound {fuel pass : Nat} (hcur : Keyed cur) (hwant : Keyed want)
    (h : m.Sound cur want ∧ m.Identity cur want) : (carryLoop it cur want fuel pass m).Sound cur want ∧
      (carryLoop it cur want fuel pass m).Identity cur want := by
  have hpass : ∀ (pass : Nat) (m : Matching), m.Sound cur want ∧ m.Identity cur want →
      (carryPass it cur want pass m).1.Sound cur want ∧ (carryPass it cur want pass m).1.Identity cur want := by
    intro pass m h
    refine List.foldlRecOn (motive := fun st : Matching × Bool => st.1.Sound cur want ∧ st.1.Identity cur want) _ _ h
      fun st hst r hr => carryStep_sound ?_ hwant hst
    obtain ⟨id, hid⟩ := mem_visited.mp hr
    rw [hcur id r hid]
    exact hid
  induction fuel generalizing pass m with
  | zero => exact h
  | succ fuel ih =>
    have hnext := hpass pass m h
    have heq : carryLoop it cur want (fuel + 1) pass m = if (carryPass it cur want pass m).2 then
          carryLoop it cur want fuel (pass + 1) (carryPass it cur want pass m).1
        else (carryPass it cur want pass m).1 := rfl
    rw [heq]
    split
    · exact ih hnext
    · exact hnext

/-- **The matching is one to one**, and pairs every common ID with itself. -/
theorem matching_sound (hcur : Keyed cur) (hwant : Keyed want) {hints : List RenameHint}
    (h : matching it cur want hints = .ok m) : m.Sound cur want ∧ m.Identity cur want := by
  rw [matching] at h
  simp only [bind_ok] at h
  obtain ⟨res, hres, m', hm', heq⟩ := h
  cases heq
  obtain ⟨hs, hid⟩ := matchIdentity_sound it cur want
  exact carryLoop_sound hcur hwant
    (matchHints_sound (resolveHints_ok hcur hwant hres).1 hs hid hm')

end Matching

/-! ### Successful comparisons -/

theorem checkChanges_ok {i : Nat} {cs : List Change} {ids ids' : GoSet}
    (h : checkChanges i cs ids = .ok ids') : ∀ c ∈ cs, c.id ≠ [] ∧ c.shaped = true := by
  induction cs generalizing i ids with
  | nil => simp
  | cons c cs ih =>
    obtain ⟨u, hc, hrest⟩ := bind_ok.mp h
    rw [checkChange] at hc
    simp only [bind_ok, error_bind, guard_ok, not_or, Bool.not_eq_true, Bool.not_eq_false'] at hc
    obtain ⟨⟨hid, -⟩, -, hshape, -⟩ := hc
    intro c' hc'
    rcases mem_cons.mp hc' with rfl | hc'
    · exact ⟨hid, hshape⟩
    · exact ih hrest c' hc'

theorem ChangeSet.validate_ok {cs : ChangeSet} (h : cs.validate = .ok ()) :
    ∀ c ∈ cs.changes, c.id ≠ [] ∧ c.shaped = true := by
  rw [ChangeSet.validate] at h
  simp only [bind_ok, error_bind, guard_ok] at h
  obtain ⟨-, ids, hids, -⟩ := h
  exact checkChanges_ok hids

/-- The calls inside a successful `diff`. -/
structure DiffRun (it : MapIter RangeSite) (current desired : Document) (options : DiffOptions)
    (result : ChangeSet) where
  selCurrent : Document
  selDesired : Document
  m : Matching
  changes : List Change
  current_ok : select it .current current options.includes options.excludes = .ok selCurrent
  desired_ok : select it .desired desired options.includes options.excludes = .ok selDesired
  matching_ok : matching it (resourceMap selCurrent) (resourceMap selDesired)
    options.renameHints = .ok m
  changes_ok : unorderedChanges it (resourceMap selCurrent) (resourceMap selDesired) m = .ok changes
  order_ok : orderChanges it changes = .ok result.changes
  validate_ok : result.validate = .ok ()

theorem diff_ok {it : MapIter RangeSite} {current desired : Document} {options : DiffOptions}
    {result : ChangeSet} (h : diff it current desired options = .ok result) :
    Nonempty (DiffRun it current desired options result) := by
  rw [diff] at h
  simp only [bind_ok] at h
  obtain ⟨c, hc, d, hd, m, hm, cs, hcs, out, hout, u, hval, heq⟩ := h
  cases heq
  exact ⟨⟨c, d, m, cs, hc, hd, hm, hcs, hout, hval⟩⟩

end AutoSql.Schema
