/-
AutoSql/Migrate/Chain.lean

The manifests that are ever published form a chain.

Any number of processes run commands on one directory, one critical section after the
other, each of them stopped wherever it may be.  The world records what was requested
and what was published.  `Chained` is what every command preserves: each publication
replaced the one before it, and was requested by naming the digest of what it
replaced.  It rests on the compare-and-swap of `updateLocked` for the process that
makes the request, and on that of `recoverLocked` for a later one that finds the
journal.

A digest names a manifest, not a point in time.  If a manifest is published again, a
second request that names it is accepted too.
-/
import AutoSql.Migrate.Recover

namespace AutoSql.Migrate

open GoString Proc Fallible List

variable {isArtifact : GoString → Bool} {r : Request} {w s : World}

/-! ### The manifest is there -/

section NotExist

variable {α β : Type}

theorem bind_ne_notExist {x : Except ReadError α} {f : α → Except ReadError β} (hx : x ≠ .error .notExist)
    (hf : ∀ a, f a ≠ .error .notExist) : (x >>= f) ≠ .error .notExist := by
  cases x with
  | ok a => exact hf a
  | error e => exact fun h => hx (congrArg Except.error (Except.error.inj h))

theorem ite_ne_notExist {c : Prop} [Decidable c] {x y : Except ReadError α} (hx : x ≠ .error .notExist)
    (hy : y ≠ .error .notExist) : (if c then x else y) ≠ .error .notExist := by
  split_ifs
  · exact hx
  · exact hy

theorem checkParentOrder_ne_notExist (file : GoString) (prev : Option GoString) (ps : List GoString) :
    checkParentOrder file prev ps ≠ .error .notExist := by
  induction ps generalizing prev with
  | nil => exact nofun
  | cons p ps ih => exact ite_ne_notExist nofun (ite_ne_notExist nofun (ih _))

theorem checkEntry_ne_notExist (seen : Seen) (i : Nat) (prev : Option Migration) (r : ReadMigration) :
    checkEntry seen i prev r ≠ .error .notExist := by
  refine ite_ne_notExist nofun (ite_ne_notExist nofun ?_)
  rcases matchFile r.migration.file with - | ⟨version, name⟩
  · exact nofun
  dsimp only
  rcases parseVersion version with - | v
  · exact nofun
  refine ite_ne_notExist nofun <| ite_ne_notExist nofun <| ite_ne_notExist nofun <| ite_ne_notExist nofun <|
    ite_ne_notExist nofun <| ite_ne_notExist nofun <| ite_ne_notExist nofun <| ite_ne_notExist nofun <|
    ite_ne_notExist nofun <| ite_ne_notExist nofun <| ite_ne_notExist nofun ?_
  exact bind_ne_notExist (checkParentOrder_ne_notExist _ _ _) nofun

theorem checkEntries_ne_notExist (seen : Seen) (i : Nat) (prev : Option Migration) (es : List ReadMigration) :
    checkEntries seen i prev es ≠ .error .notExist := by
  induction es generalizing seen i prev with
  | nil => exact nofun
  | cons e es ih => exact bind_ne_notExist (checkEntry_ne_notExist _ _ _ _) fun _ => ih _ _ _

theorem chainsOf_ne_notExist (byVersion : GoMap Nat) (entries : List Migration) (i : Nat) (seen : GoSet) (ps : List GoString) :
    chainsOf byVersion entries i seen ps ≠ .error .notExist := by
  induction ps generalizing seen with
  | nil => rintro ⟨⟩
  | cons p ps ih =>
    rw [chainsOf]
    rcases byVersion.get? p with - | j
    · rintro ⟨⟩
    · refine ite_ne_notExist ?_ (bind_ne_notExist (ih _) fun _ => ?_) <;> rintro ⟨⟩

theorem checkLinks_ne_notExist (byVersion : GoMap Nat) (entries : List Migration) (i : Nat) (prev : Option Migration)
    (es : List Migration) : checkLinks byVersion entries i prev es ≠ .error .notExist := by
  induction es generalizing i prev with
  | nil => exact nofun
  | cons e es ih =>
    refine bind_ne_notExist (ite_ne_notExist nofun ?_) fun _ => ih _ _
    exact bind_ne_notExist (chainsOf_ne_notExist _ _ _ _ _) fun _ => ite_ne_notExist nofun (ite_ne_notExist nofun nofun)

theorem strictManifest_ne_notExist (raw : GoString) : strictManifest raw ≠ .error .notExist := by
  refine ite_ne_notExist nofun (ite_ne_notExist nofun ?_)
  rcases ReadManifest.unmarshal raw with - | m
  · exact nofun
  refine ite_ne_notExist nofun (ite_ne_notExist nofun (bind_ne_notExist ?_ fun _ => ?_))
  · exact bind_ne_notExist (checkEntries_ne_notExist _ _ _ _) fun _ =>
      bind_ne_notExist (checkLinks_ne_notExist _ _ _ _ _) fun _ => ite_ne_notExist nofun nofun
  · exact ite_ne_notExist nofun (ite_ne_notExist nofun nofun)

end NotExist
/-! ### What a request names -/

/-- The digest of the text of a manifest, of this version or of the legacy one. -/
def textDigest (raw : GoString) : Option GoString :=
  match strictManifest raw with
  | .ok m => some m.digest
  | .error _ => (parseLegacyManifest raw).toOption.map (·.digest)

/-- The request names the manifest that it replaces; it names none if there is none. -/
def Names (expected : GoString) : Option GoString → Prop
  | none => expected = []
  | some raw => expected ≠ [] ∧ textDigest raw = some expected

theorem ne_nil_of_matchDigest {s : GoString} (h : matchDigest s = true) : s ≠ [] := by
  rintro rfl
  cases h

variable {d : Dir} {files : List File} {expected : GoString} {man : Manifest}

theorem names_of_loadAt {m : ReadManifest} {raw : GoString} (h : d.loadAt = .ok (m, raw)) :
    Names m.digest (d.root.get? manifestFile) := by
  obtain ⟨hget, -, hstrict, -⟩ := loadAt_inv h
  rw [hget]
  refine ⟨ne_nil_of_matchDigest (matchDigest_of_loadAt h), ?_⟩
  rw [textDigest, hstrict]

theorem names_of_notExist (h : d.loadAt = .error .notExist) : Names [] (d.root.get? manifestFile) := by
  rw [Dir.loadAt, readAt_eq (by decide)] at h
  cases hget : d.root.get? manifestFile with
  | none => rfl
  | some raw =>
    rw [hget] at h
    refine absurd h (bind_ne_notExist (ite_ne_notExist ?_ ?_) fun raw => bind_ne_notExist (strictManifest_ne_notExist raw) fun _ => ?_)
    all_goals rintro ⟨⟩

theorem names_of_legacy {e : ReadError} {raw : GoString} {old : LegacyManifest} (hload : d.loadAt = .error e)
    (hraw : readAt d.root manifestFile maxManifest = .ok raw) (hold : parseLegacyManifest raw = .ok old)
    (hdigest : matchDigest old.digest = true) : Names old.digest (d.root.get? manifestFile) := by
  rw [(readAt_inv hraw).1]
  refine ⟨ne_nil_of_matchDigest hdigest, ?_⟩
  rw [Dir.loadAt, hraw] at hload
  have hstrict : ∀ m, strictManifest raw ≠ .ok m := by
    intro m hm
    have : (strictManifest raw >>= fun m => Except.ok (m, raw)) = .error e := hload
    rw [hm] at this
    cases this
  rw [textDigest]
  split
  · rename_i m hm
    exact absurd hm (hstrict m)
  · rw [hold]
    rfl

/-- What the compare-and-swap of an update establishes. -/
theorem names_of_checkCurrent {path : GoString} (h : d.checkCurrent isArtifact false path expected = .ok ()) :
    Names expected (d.root.get? manifestFile) := by
  rcases checkCurrent_ok h with ⟨m, raw, hload, -, hdigest, -⟩ | ⟨hno, -⟩ | ⟨-, hload, he⟩
  · exact hdigest ▸ names_of_loadAt hload
  · cases hno
  · exact he ▸ names_of_notExist hload

/-- What the compare-and-swap of a recovery establishes. -/
theorem names_of_isPublished {j : Journal} (h : d.isPublished isArtifact j = .ok false) :
    Names j.expectedDigest (d.root.get? manifestFile) := by
  rw [Dir.isPublished] at h
  split at h
  · rename_i m raw hload
    split_ifs at h with hsame hexpected
    · cases h
    · exact not_not.mp hexpected ▸ names_of_loadAt hload
  · rename_i e hload
    split_ifs at h with hkind hnone
    · obtain ⟨raw, hraw, h⟩ := bind_ok.mp h
      split at h
      · cases h
      · rename_i old hold
        rw [guard_ok, not_not] at h
        rw [← h.1]
        exact names_of_legacy hload hraw hold (matchDigest_of_legacy hold)
    · rw [hnone.2]
      exact names_of_notExist (hnone.1 ▸ hload)

/-! ### What one command adds -/

/-- The requests grow, the journal is that of a request, and at most one manifest is
published, by a request that names what it replaces. -/
structure Advance (isArtifact : GoString → Bool) (w s : World) : Prop where
  requested : w.requested ⊆ s.requested
  journal : s.get? .root journalFile = none ∨ ∃ r ∈ s.requested, Leftover isArtifact s r
  published : (s.published = w.published ∧ s.get? .root manifestFile = w.get? .root manifestFile) ∨
    ∃ r ∈ s.requested, s.published = w.published ++ [⟨w.get? .root manifestFile, canonical r.man⟩] ∧
      s.get? .root manifestFile = some (canonical r.man) ∧ Names r.expected (w.get? .root manifestFile)

theorem World.published_dropAll {l : List GoString} : (w.dropAll l).published = w.published := by
  induction l generalizing w with
  | nil => rfl
  | cons n l ih => exact ih

/-- Removing files keeps the manifest. -/
theorem Request.Sound.manifest_dropAll (hr : r.Sound isArtifact) {l : List GoString} (hl : l ⊆ r.cleanup) :
    (w.dropAll l).get? .root manifestFile = w.get? .root manifestFile := by
  rw [World.get?_dropAll, if_neg fun hmem => (hr.cleanup_ne (hl hmem)).2.1 rfl]

theorem Request.Left.advance (hr : r.Sound isArtifact) (h : r.Left w s) (hmem : r ∈ w.requested)
    (hnames : Names r.expected (w.get? .root manifestFile)) : Advance isArtifact w s := by
  have hmem' : r ∈ s.requested := h.requested ▸ hmem
  have hstaged : (r.staged w).get? .root manifestFile = w.get? .root manifestFile := by
    rw [Request.get?_staged, if_neg journalFile_ne.symm, if_neg (stagedFile_ne _).2.symm]
  have hrenamed : (r.renamed w).published = w.published ++ [⟨w.get? .root manifestFile, canonical r.man⟩] := by
    rw [← hstaged]
    rfl
  have hpublished : (r.renamed w).get? .root manifestFile = some (canonical r.man) := World.get?_publish.trans (if_pos rfl)
  refine ⟨h.requested ▸ List.Subset.refl _, ?_, ?_⟩
  · exact (h.journal hr).imp (fun h => h) fun hj => ⟨r, hmem', hr, hj⟩
  · cases h with
    | before hb => exact .inl ⟨hb.published, hb.root _ (stagedFile_ne _).2.symm journalFile_ne.symm⟩
    | staged _ => exact .inl ⟨rfl, hstaged⟩
    | renamed done rest _ hl =>
      refine .inr ⟨r, hmem', World.published_dropAll.trans hrenamed, ?_, hnames⟩
      rw [hr.manifest_dropAll (hl ▸ subset_append_left _ _), hpublished]
    | finished _ =>
      refine .inr ⟨r, hmem', World.published_dropAll.trans hrenamed, ?_, hnames⟩
      rw [Request.finished, World.get?_drop, if_neg journalFile_ne.symm, hr.manifest_dropAll (List.Subset.refl _), hpublished]

/-- Two requests whose journals are the same have the same manifest, for the same reason. -/
theorem Request.Resumes.same {r' : Request} {p : Bool} (hp : r.Resumes isArtifact w p) (hr : r.Sound isArtifact)
    (h : Leftover isArtifact w r') : r'.text = r.text ∧ r'.man = r.man ∧ r'.expected = r.expected := by
  obtain ⟨raw, hraw, hpre⟩ := h.journal
  rw [hp.journal] at hraw
  cases hraw
  have hparse := hr.parse_text hp.readable
  have htext : r.text = r'.text := parseJournal_prefix hpre hparse
  rw [htext] at hparse
  obtain ⟨hjournal, -⟩ := h.sound.of_parse hparse
  refine ⟨htext.symm, read_inj ?_, ?_⟩
  · exact (congrArg Journal.manifest hjournal).symm
  · exact (congrArg Journal.expectedDigest hjournal).symm

theorem Request.Resuming.advance {p : Bool} (hr : r.Sound isArtifact) (hp : r.Resumes isArtifact w p) (h : r.Resuming w p s)
    (hjournal : ∃ r' ∈ w.requested, Leftover isArtifact w r') : Advance isArtifact w s := by
  obtain ⟨r', hmem, hleft⟩ := hjournal
  obtain ⟨htext, hman, hexpected⟩ := hp.same hr hleft
  have hmem' : r' ∈ s.requested := h.requested ▸ hmem
  refine ⟨h.requested ▸ List.Subset.refl _, ?_, ?_⟩
  · refine (h.journal hr hp.journal).symm.imp (fun h => h) fun hj => ⟨r', hmem', hleft.sound, r.text, hj, ?_⟩
    exact htext ▸ prefix_rfl
  · -- only the rename changes the manifest
    have hkept : s.published = (r.resumed w p).published ∧ s.get? .root manifestFile = (r.resumed w p).get? .root manifestFile := by
      cases h with
      | resumed done rest hl =>
        exact ⟨World.published_dropAll, hr.manifest_dropAll (hl ▸ subset_append_left _ _)⟩
      | completed =>
        refine ⟨World.published_dropAll, ?_⟩
        rw [Request.completed, World.get?_drop, if_neg journalFile_ne.symm, hr.manifest_dropAll (List.Subset.refl _)]
    cases p with
    | true => exact .inl hkept
    | false =>
      have hnames : Names r'.expected (w.get? .root manifestFile) := by
        obtain ⟨x, -, hrest⟩ := bind_ok.mp hp.resumable
        obtain ⟨q, hq, hrest⟩ := bind_ok.mp hrest
        have hfalse : q = false := by
          cases q with
          | false => rfl
          | true => cases hrest
        rw [hfalse] at hq
        rw [hexpected]
        exact names_of_isPublished hq
      refine .inr ⟨r', hmem', ?_, ?_, hnames⟩
      · rw [hkept.1, hman]
        rfl
      · rw [hkept.2, hman]
        exact World.get?_publish.trans (if_pos rfl)

theorem UpdateStep.advance {allowLegacy : Bool} {path : GoString} {cleanup : List GoString}
    (h : UpdateStep isArtifact allowLegacy path expected files cleanup w s)
    (hjournal : w.get? .root journalFile = none ∨ ∃ r ∈ w.requested, Leftover isArtifact w r)
    (hlegacy : allowLegacy = true → matchDigest expected = true)
    (hcleanup : cleanup = [] ∨ allowLegacy = true ∧ cleanup = files.map File.name)
    (hnames : w.dir.checkCurrent isArtifact allowLegacy path expected = .ok () → Names expected (w.get? .root manifestFile)) :
    Advance isArtifact w s := by
  cases h with
  | same => exact ⟨List.Subset.refl _, hjournal, .inl ⟨rfl, rfl⟩⟩
  | refused _ =>
    refine ⟨subset_append_left _ _, ?_, .inl ⟨rfl, rfl⟩⟩
    exact hjournal.imp (fun h => h) fun ⟨r, hmem, hr⟩ => ⟨r, mem_append_left _ hmem, hr.request _⟩
  | @published man s hcand _ hcurrent hleft =>
    have hr := sound_requestOf (w := w) hcand hcurrent hlegacy hcleanup
    have hadv := hleft.advance hr (mem_append_right _ (mem_singleton_self _)) (hnames hcurrent)
    exact ⟨fun x hx => hadv.requested (mem_append_left _ hx), hadv.journal, hadv.published⟩
  | @resumed man r₀ p s hcand hleft _ _ _ hp hs =>
    have hfound : ∃ r ∈ (w.request (requestOf allowLegacy expected files man cleanup)).requested,
        Leftover isArtifact (w.request (requestOf allowLegacy expected files man cleanup)) r := by
      rcases hjournal with hnone | ⟨r, hmem, hr⟩
      · obtain ⟨raw, hraw, -⟩ := hleft.journal
        rw [hnone] at hraw
        cases hraw
      · exact ⟨r, mem_append_left _ hmem, hr.request _⟩
    have hadv := hs.advance hleft.sound hp hfound
    exact ⟨fun x hx => hadv.requested (mem_append_left _ hx), hadv.journal, hadv.published⟩

/-- Every command advances the history by at most one publication. -/
theorem Step.advance (h : Step isArtifact w s)
    (hjournal : w.get? .root journalFile = none ∨ ∃ r ∈ w.requested, Leftover isArtifact w r) : Advance isArtifact w s := by
  cases h with
  | same => exact ⟨List.Subset.refl _, hjournal, .inl ⟨rfl, rfl⟩⟩
  | updated h => exact h.advance hjournal (fun h => by cases h) (.inl rfl) names_of_checkCurrent
  | recovered hleft hp hs =>
    refine hs.advance hleft.sound hp (hjournal.resolve_left fun hnone => ?_)
    obtain ⟨raw, hraw, -⟩ := hleft.journal
    rw [hnone] at hraw
    cases hraw
  | copied hnone _ _ =>
    refine ⟨List.Subset.refl _, .inl ?_, .inl ⟨rfl, World.get?_put_ne copyFile_ne.2.1.symm⟩⟩
    rw [World.get?_put_ne copyFile_ne.1.symm]
    exact hnone
  | @migrated path raw old files s hnone hload hfiles h =>
    obtain ⟨e, he⟩ := hload
    obtain ⟨hraw, hold, hdigest⟩ := legacyFiles_ok hfiles
    have hnone' : (w.put .root copyFile raw).get? .root journalFile = none := by
      rw [World.get?_put_ne copyFile_ne.1.symm]
      exact hnone
    have hsame : (w.put .root copyFile raw).get? .root manifestFile = w.get? .root manifestFile :=
      World.get?_put_ne copyFile_ne.2.1.symm
    have hadv := h.advance (.inl hnone') (fun _ => hdigest) (.inr ⟨rfl, rfl⟩) fun _ => by
      rw [hsame]
      exact names_of_legacy he hraw hold hdigest
    refine ⟨hadv.requested, hadv.journal, ?_⟩
    rw [← hsame]
    exact hadv.published

/-! ### Every run -/

/-- What the manifest file has held, from the start on. -/
def World.history (first : Option GoString) (w : World) : List (Option GoString) :=
  first :: w.published.map fun p => some p.manifest

/-- The publications form a chain that starts with `first`. -/
structure Chained (isArtifact : GoString → Bool) (first : Option GoString) (w : World) : Prop where
  journal : w.get? .root journalFile = none ∨ ∃ r ∈ w.requested, Leftover isArtifact w r
  current : (w.history first).getLast? = some (w.get? .root manifestFile)
  replaced : w.published.map Publication.replaced = (w.history first).dropLast
  named : ∀ p ∈ w.published, ∃ r ∈ w.requested, p.manifest = canonical r.man ∧ Names r.expected p.replaced

theorem Advance.chained {first : Option GoString} (h : Advance isArtifact w s) (hw : Chained isArtifact first w) :
    Chained isArtifact first s := by
  have hnamed : ∀ p ∈ w.published, ∃ r ∈ s.requested, p.manifest = canonical r.man ∧ Names r.expected p.replaced := by
    intro p hp
    obtain ⟨r, hr, hrest⟩ := hw.named p hp
    exact ⟨r, h.requested hr, hrest⟩
  rcases h.published with ⟨hpub, hcur⟩ | ⟨r, hr, hpub, hcur, hnames⟩
  · refine ⟨h.journal, ?_, ?_, ?_⟩
    · rw [World.history, hpub, hcur]
      exact hw.current
    · rw [World.history, hpub]
      exact hw.replaced
    · rw [hpub]
      exact hnamed
  · have hhistory : s.history first = w.history first ++ [some (canonical r.man)] := by
      rw [World.history, hpub, map_append]
      rfl
    refine ⟨h.journal, ?_, ?_, ?_⟩
    · rw [hhistory, getLast?_concat, hcur]
    · rw [hhistory, dropLast_concat, hpub, map_append, hw.replaced]
      have hne : w.history first ≠ [] := by simp [World.history]
      have hlast : (w.history first).getLast hne = w.get? .root manifestFile := by
        have := hw.current
        exact Option.some.inj this
      rw [← hlast]
      exact dropLast_append_getLast hne
    · rw [hpub]
      exact forall_mem_append.mpr ⟨hnamed, forall_mem_singleton.mpr ⟨r, hr, rfl, hnames⟩⟩

/-- Commands of any number of processes, one critical section after the other, each
with the replies it gets. -/
def runAll (isArtifact : GoString → Bool) (w : World) (l : List (Command × (Nat → Reply))) : World :=
  l.foldl (fun w x => (x.1.run isArtifact ⟨w, x.2⟩).2.state) w

theorem chained_runAll {first : Option GoString} (hw : Chained isArtifact first w) (l : List (Command × (Nat → Reply))) :
    Chained isArtifact first (runAll isArtifact w l) := by
  induction l generalizing w with
  | nil => exact hw
  | cons x l ih =>
    refine ih ?_
    have hfound : Found isArtifact w := hw.journal.imp (fun h => h) fun ⟨r, _, hr⟩ => ⟨r, hr⟩
    have hstep : Step isArtifact w (x.1.run isArtifact ⟨w, x.2⟩).2.state :=
      (step_of_run (A := fun _ => True) hfound x.1).always (fun _ => trivial) rfl
    exact (hstep.advance hw.journal).chained hw

/-- Over every run: each manifest replaced the one that was published before it, and was
requested with the digest of that one, which is empty only if there was none.  If two
publications were requested with the same digest, a manifest of that digest was
published again in between. -/
theorem publications_chain (d : Dir) (hnone : d.root.get? journalFile = none) (l : List (Command × (Nat → Reply)))
    (w : World) (hw : w = runAll isArtifact ⟨d, [], []⟩ l) :
    (w.published.map Publication.replaced = (w.history (d.root.get? manifestFile)).dropLast) ∧
    (∀ p ∈ w.published, ∃ r ∈ w.requested, p.manifest = canonical r.man ∧ Names r.expected p.replaced) ∧
    ∀ (i j : Nat) (p q : Publication) (e : GoString), i < j → w.published[i]? = some p → w.published[j]? = some q →
      Names e p.replaced → Names e q.replaced →
      ∃ k, i ≤ k ∧ k < j ∧ ∃ x : Publication, w.published[k]? = some x ∧ textDigest x.manifest = some e := by
  have hstart : Chained isArtifact (d.root.get? manifestFile) ⟨d, [], []⟩ :=
    ⟨.inl hnone, rfl, rfl, fun p hp => nomatch hp⟩
  have hchain : Chained isArtifact (d.root.get? manifestFile) w := hw ▸ chained_runAll hstart l
  refine ⟨hchain.replaced, hchain.named, fun i j p q e hij hi hj hp hq => ?_⟩
  -- the manifest that `q` replaced is the one published just before
  obtain ⟨k, rfl⟩ : ∃ k, j = k + 1 := ⟨j - 1, by omega⟩
  have hlen : k + 1 < w.published.length := (List.getElem?_eq_some_iff.mp hj).1
  obtain ⟨x, hx⟩ : ∃ x, w.published[k]? = some x := ⟨_, List.getElem?_eq_getElem (by omega)⟩
  have hreplaced : q.replaced = some x.manifest := by
    have hkth := congrArg (·[k + 1]?) hchain.replaced
    simp only [getElem?_map, hj, Option.map_some] at hkth
    rw [getElem?_dropLast, if_pos (by simp [World.history]; omega), World.history, getElem?_cons_succ,
      getElem?_map, hx] at hkth
    exact Option.some.inj hkth
  rw [hreplaced] at hq
  exact ⟨k, by omega, by omega, x, hx, hq.2⟩

theorem publications_chain_first : ∃ w, w = runAll (fun _ => true) ⟨emptyDir, [], []⟩
      [(.update [] ⟨[], [oneFile []], []⟩, fun _ => .done)] ∧
    w.published.map Publication.replaced = (w.history none).dropLast ∧
    ∀ p ∈ w.published, ∃ r ∈ w.requested, p.manifest = canonical r.man ∧ Names r.expected p.replaced := by
  obtain ⟨hreplaced, hnamed, -⟩ := @publications_chain (fun _ => true) emptyDir rfl
    [(.update [] ⟨[], [oneFile []], []⟩, fun _ => .done)] _ rfl
  exact ⟨_, rfl, hreplaced, hnamed⟩

/-! ### A digest that is named twice -/

/-- The manifest of `files` is published, and nothing is pending. -/
structure Holding (isArtifact : GoString → Bool) (w : World) (files : List File) (man : Manifest) : Prop where
  candidate : candidate isArtifact files = .ok man
  readable : ∀ f ∈ files, f.Readable
  publishes : w.dir.Publishes files man
  journal : w.get? .root journalFile = none
  stage : ∀ g, w.get? .root (stagedFile g) = none

/-- What a finished update leaves. -/
theorem holding_finished (hcand : candidate isArtifact files = .ok man) (hread : ∀ f ∈ files, f.Readable)
    (hsql : w.dir.root.keys.find? isSQLName = none) (hstage : ∀ g, w.get? .root (stagedFile g) = none)
    (hr : r = requestOf false expected files man []) (hs : s = r.finished (w.request r)) :
    Holding isArtifact s files man ∧ s.published = w.published ++ [⟨w.get? .root manifestFile, canonical man⟩] ∧
      ∀ g, s.dir.generation g = if g = man.generation then some (stored files) else w.dir.generation g := by
  subst hr hs
  obtain ⟨hbuild, hsize⟩ := candidate_ok hcand
  obtain ⟨b⟩ := build_steps isArtifact hbuild
  generalize hreq : requestOf false expected files man [] = r
  have hman : r.man = man := hreq ▸ rfl
  have hcleanup : r.cleanup = [] := hreq ▸ rfl
  have hfiles : r.files = files := hreq ▸ rfl
  have hroot : ∀ n, (r.finished (w.request r)).get? .root n = if n = journalFile then none else
      if n = manifestFile then some (canonical man) else if n = stagedFile man.generation then none else w.get? .root n := by
    intro n
    rw [Request.finished, hcleanup, World.get?_drop, ← hman]
    split_ifs with h₁ h₂ h₃
    · rfl
    · exact World.get?_publish.trans (if_pos h₂)
    · exact World.get?_publish.trans ((if_neg h₂).trans (if_pos h₃))
    · refine World.get?_publish.trans ((if_neg h₂).trans ((if_neg h₃).trans ?_))
      rw [Request.get?_staged, if_neg h₁]
      exact if_neg h₃
  have hgeneration : ∀ g, (r.finished (w.request r)).dir.generation g =
      if g = man.generation then some (stored files) else w.dir.generation g := by
    intro g
    rw [Request.finished, hcleanup, ← hman, ← hfiles]
    exact Dir.generation_setFiles
  refine ⟨⟨hcand, hread, ?_, ?_, fun g => ?_⟩, ?_, hgeneration⟩
  · refine publishes_replaced b hsql ?_ ((hgeneration _).trans (if_pos rfl)) fun n h₁ h₂ h₃ => ?_
    · exact (hroot manifestFile).trans ((if_neg journalFile_ne.symm).trans (if_pos rfl))
    · exact (hroot n).trans ((if_neg h₃).trans ((if_neg h₁).trans (if_neg h₂)))
  · exact (hroot journalFile).trans (if_pos rfl)
  · rw [hroot, if_neg (stagedFile_ne g).1, if_neg (stagedFile_ne g).2, hstage, ite_self]
  · rw [Request.finished, hcleanup]
    show w.published ++ [⟨(r.staged (w.request r)).get? .root manifestFile, canonical r.man⟩] = _
    rw [Request.get?_staged, hman]
    rfl

/-- One update after another. -/
theorem Holding.update {cs : List File} {m : Manifest} (h : Holding isArtifact w cs m)
    (hcand : Migrate.candidate isArtifact files = .ok man) (hread : ∀ f ∈ files, f.Readable)
    (hgen : w.dir.generation man.generation = none ∨ w.dir.generation man.generation = some (stored files))
    (hs : s = (update isArtifact [] ⟨[], files, m.digest⟩ ⟨w, fun _ => .done⟩).2.state) :
    Holding isArtifact s files man ∧ s.published = w.published ++ [⟨some (canonical m), canonical man⟩] ∧
      ∀ g, s.dir.generation g = if g = man.generation then some (stored files) else w.dir.generation g := by
  obtain ⟨hbuild, hsize⟩ := candidate_ok hcand
  obtain ⟨hbuild₀, hsize₀⟩ := candidate_ok h.candidate
  obtain ⟨b⟩ := build_steps isArtifact hbuild
  obtain ⟨b₀⟩ := build_steps isArtifact hbuild₀
  have hstrict := (b₀.strictManifest_iff hsize₀).mpr (b₀.readable_iff.mpr h.readable)
  have hdigest : m.digest ≠ [] := by
    rw [b₀.digest_eq]
    exact ne_nil_of_matchDigest (matchDigest_digest _ _)
  have hcurrent : w.dir.checkCurrent isArtifact false [] m.digest = .ok () := by
    rw [Dir.checkCurrent, h.publishes.loadAt_ok hsize₀ hstrict]
    dsimp only
    rw [h.publishes.snapshotAt_ok b₀ hsize₀ hstrict]
    rw [if_neg hdigest]
    exact if_neg (not_not.mpr rfl)
  have hclear : (requestOf false m.digest files man []).Clear (w.request (requestOf false m.digest files man [])) := by
    refine ⟨fun n c hget => ?_, .inl (h.stage _)⟩
    have hfiles : (w.dir.files (.generation man.generation)).get? n = some c := hget
    rw [Dir.files] at hfiles
    rcases hgen with hg | hg
    · rw [hg] at hfiles
      cases hfiles
    · rw [hg] at hfiles
      exact (GoMap.get?_ofList_of_nodup b.nodup_parts).mp hfiles
  obtain ⟨-, hstate⟩ := update_done (y := ⟨w, fun _ => .done⟩) (fun _ => rfl) hcand h.journal hcurrent rfl hclear
  rw [← hs] at hstate
  have hmanifest : w.get? .root manifestFile = some (canonical m) := h.publishes.manifest
  rw [← hmanifest]
  exact holding_finished hcand hread h.publishes.noSQL h.stage rfl hstate

theorem Holding.names (h : Holding isArtifact w files man) : Names man.digest (some (canonical man)) := by
  obtain ⟨hbuild, hsize⟩ := candidate_ok h.candidate
  obtain ⟨b⟩ := build_steps isArtifact hbuild
  have hload := h.publishes.loadAt_ok hsize ((b.strictManifest_iff hsize).mpr (b.readable_iff.mpr h.readable))
  exact h.publishes.manifest ▸ names_of_loadAt hload

/-- A file that differs from `oneFile` in its text. -/
def otherFile : File := { name := str "1__a.sql", sql := str "SELECT 2;" }

/-- Three manifests of different generations: of no files, of one, and of another one. -/
theorem three_manifests : ∃ a c, candidate (fun _ => true) [] = .ok a ∧
    candidate (fun _ => true) [oneFile []] = .ok (oneManifest []) ∧ candidate (fun _ => true) [otherFile] = .ok c ∧
    a.generation ≠ (oneManifest []).generation ∧ a.generation ≠ c.generation ∧ (oneManifest []).generation ≠ c.generation := by
  have hall : (do
      let a ← candidate (fun _ => true) []
      let c ← candidate (fun _ => true) [otherFile]
      return decide (a.generation ≠ (oneManifest []).generation ∧ a.generation ≠ c.generation ∧
        (oneManifest []).generation ≠ c.generation)) = .ok true := by decide +kernel
  obtain ⟨a, ha, hall⟩ := bind_ok.mp hall
  obtain ⟨c, hc, hall⟩ := bind_ok.mp hall
  exact ⟨a, c, ha, candidate_of_build oneFile_plain.1 oneFile_plain.2, hc, of_decide_eq_true (Except.ok.inj hall)⟩

section Repeat

variable {fa fb fc : List File} {a b c : Manifest} (ha : candidate isArtifact fa = .ok a) (hb : candidate isArtifact fb = .ok b)
  (hc : candidate isArtifact fc = .ok c) (hra : ∀ f ∈ fa, f.Readable) (hrb : ∀ f ∈ fb, f.Readable) (hrc : ∀ f ∈ fc, f.Readable)
  (hab : a.generation ≠ b.generation) (hac : a.generation ≠ c.generation) (hbc : b.generation ≠ c.generation)
include ha hb hc hra hrb hrc hab hac hbc

/-- `a` is published, replaced by `b`, published again, and replaced by `c`. -/
theorem runAll_repeat : (∃ l, (runAll isArtifact ⟨emptyDir, [], []⟩ l).published =
      [⟨none, canonical a⟩, ⟨some (canonical a), canonical b⟩, ⟨some (canonical b), canonical a⟩,
        ⟨some (canonical a), canonical c⟩]) ∧ Names a.digest (some (canonical a)) ∧ canonical b ≠ canonical c := by
  have hrun : ∀ (w : World) (req : UpdateRequest), ((Command.update [] req).run isArtifact ⟨w, fun _ => .done⟩).2.state =
      (update isArtifact [] req ⟨w, fun _ => .done⟩).2.state := by
    intro w req
    rw [Command.run, state_discard]
  obtain ⟨h₁, hp₁, hg₁⟩ := holding_finished ha hra (w := ⟨emptyDir, [], []⟩) rfl (fun _ => rfl) rfl
    ((hrun _ _).trans (emptyDir_update ha).2)
  have hnew₂ : (((Command.update [] ⟨[], fa, []⟩).run isArtifact ⟨⟨emptyDir, [], []⟩, fun _ => .done⟩).2.state.dir.generation
      b.generation) = none := by
    rw [hg₁, if_neg hab.symm]
    rfl
  obtain ⟨h₂, hp₂, hg₂⟩ := h₁.update hb hrb (.inl hnew₂) (hrun _ _)
  obtain ⟨h₃, hp₃, hg₃⟩ := h₂.update ha hra (.inr (by rw [hg₂, if_neg hab, hg₁, if_pos rfl])) (hrun _ _)
  have hnew₄ : emptyDir.generation c.generation = none := rfl
  obtain ⟨h₄, hp₄, -⟩ := h₃.update hc hrc
    (.inl (by rw [hg₃, if_neg hac.symm, hg₂, if_neg hbc.symm, hg₁, if_neg hac.symm, hnew₄])) (hrun _ _)
  rw [hp₃, hp₂, hp₁] at hp₄
  let l : List (Command × (Nat → Reply)) :=
    [(.update [] ⟨[], fa, []⟩, fun _ => .done), (.update [] ⟨[], fb, a.digest⟩, fun _ => .done),
      (.update [] ⟨[], fa, b.digest⟩, fun _ => .done), (.update [] ⟨[], fc, a.digest⟩, fun _ => .done)]
  refine ⟨⟨l, hp₄⟩, h₁.names, fun hsame => ?_⟩
  obtain ⟨bb⟩ := build_steps _ (candidate_ok hb).1
  obtain ⟨bc⟩ := build_steps _ (candidate_ok hc).1
  exact hbc (congrArg Manifest.generation (bb.eq_of_canonical bc hrb hrc hsame))

end Repeat

/-- Two requests that name the same digest publish different manifests. -/
theorem publications_repeat : ∃ l : List (Command × (Nat → Reply)), ∃ p q : Publication, ∃ e : GoString,
    p ∈ (runAll (fun _ => true) ⟨emptyDir, [], []⟩ l).published ∧ q ∈ (runAll (fun _ => true) ⟨emptyDir, [], []⟩ l).published ∧
      Names e p.replaced ∧ Names e q.replaced ∧ p.manifest ≠ q.manifest := by
  obtain ⟨a, c, ha, hb, hc, hab, hac, hbc⟩ := three_manifests
  obtain ⟨⟨l, hall⟩, hnames, hne⟩ := runAll_repeat ha hb hc (fun f hf => nomatch hf) (by decide) (by decide) hab hac hbc
  refine ⟨l, ⟨some (canonical a), canonical (oneManifest [])⟩, ⟨some (canonical a), canonical c⟩, a.digest, ?_, ?_, hnames, hnames, hne⟩
  · rw [hall]
    exact .tail _ (.head _)
  · rw [hall]
    exact .tail _ (.tail _ (.tail _ (.head _)))

end AutoSql.Migrate
