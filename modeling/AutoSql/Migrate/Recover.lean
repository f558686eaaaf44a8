/-
AutoSql/Migrate/Recover.lean

An update whose journal is complete can be finished.

From the moment the journal is complete until it is removed the directory is in one of
the states of `Request.Journalled`, also if the finishing is interrupted in its turn.
`recoverLocked` reads the journal back and checks the generation, the published
manifest and the staged one; all of them are as the update has left them, so it
publishes the manifest and removes what is left (`Request.Completes`).

What it does not accept is a journal longer than `maxFile`, which the update may have
written for a manifest of up to `maxManifest` bytes, and a manifest that cannot be
read back.  `recover_iff` says that there is no other obstacle.
-/
import AutoSql.Lib.Cut
import AutoSql.Lib.JsonSize
import AutoSql.Migrate.Atomic

namespace AutoSql.Migrate

open GoString GoJson Proc Fallible List

variable {isArtifact : GoString → Bool} {r : Request} {w w₀ s s' : World} {S : Set GoString}

/-! ### The states with a complete journal -/

/-- The journal of `r` is complete and not removed. -/
inductive Request.Journalled (r : Request) (w₀ : World) : World → Prop
  | staged : Journalled r w₀ (r.staged w₀)
  | renamed (gone : List GoString) : gone ⊆ r.cleanup → Journalled r w₀ ((r.renamed w₀).dropAll gone)

/-- What was published when `r` was requested. -/
inductive Request.Admitted (isArtifact : GoString → Bool) (r : Request) (w₀ : World) : Prop
  | first : r.kind = .update → w₀.dir.loadAt = .error .notExist → r.expected = [] → Admitted isArtifact r w₀
  | next {m : ReadManifest} {raw : GoString} {x : ReadSnapshot} : r.kind = .update → w₀.dir.loadAt = .ok (m, raw) →
      w₀.dir.snapshotAt isArtifact = .ok x → m.digest = r.expected → Admitted isArtifact r w₀
  | legacy {e : ReadError} {raw : GoString} {old : LegacyManifest} : r.kind = .v0Migration → w₀.dir.loadAt = .error e →
      readAt w₀.dir.root manifestFile maxManifest = .ok raw → parseLegacyManifest raw = .ok old → old.digest = r.expected →
      Admitted isArtifact r w₀

/-- The circumstances under which the journal of `r` was written. -/
structure Request.Opened (isArtifact : GoString → Bool) (S : Set GoString) (r : Request) (w₀ : World) : Prop where
  sound : r.Sound isArtifact
  size : (canonical r.man).length ≤ maxManifest
  admitted : r.Admitted isArtifact w₀
  clear : r.Clear w₀
  hashed : w₀.dir.hashed ⊆ S

/-- What the finishing of `r` from `s` has to leave. -/
structure Request.Completes (r : Request) (s s' : World) : Prop where
  manifest : s'.get? .root manifestFile = some (canonical r.man)
  files : s'.dir.generation r.man.generation = some (stored r.files)
  cleanup : ∀ n ∈ r.cleanup, s'.get? .root n = none
  journal : s'.get? .root journalFile = none
  others : ∀ n, n ≠ manifestFile → n ≠ stagedFile r.man.generation → n ∉ r.cleanup → n ≠ journalFile →
    s'.get? .root n = s.get? .root n
  generations : s'.dir.generations = s.dir.generations

theorem Request.Sound.cleanup_update (h : r.Sound isArtifact) (hkind : r.kind = .update) : r.cleanup = [] := by
  rcases h.cleanup with h | ⟨h, -⟩
  · exact h
  · rw [hkind] at h
    cases h

theorem World.dropAll_append {l l' : List GoString} : (w.dropAll l).dropAll l' = w.dropAll (l ++ l') :=
  foldl_append.symm

theorem World.requested_dropAll {l : List GoString} : (w.dropAll l).requested = w.requested := by
  induction l generalizing w with
  | nil => rfl
  | cons n l ih => exact ih

theorem Request.generation_staged : (r.staged w₀).dir.generation r.man.generation = some (stored r.files) :=
  Dir.generation_setFiles.trans (if_pos rfl)

theorem Request.get?_staged (r : Request) (w₀ : World) (n : GoString) : (r.staged w₀).get? .root n = if n = journalFile then some r.text else
    if n = stagedFile r.man.generation then some (canonical r.man) else w₀.get? .root n := by
  show (GoMap.insert _ _ _).get? n = _
  rw [GoMap.get?_insert]
  congr 1
  show (GoMap.insert _ _ _).get? n = _
  rw [GoMap.get?_insert]
  rfl

namespace Request.Journalled

theorem generation (h : r.Journalled w₀ s) : s.dir.generation r.man.generation = some (stored r.files) := by
  cases h with
  | staged => exact r.generation_staged
  | renamed gone _ =>
    rw [Dir.generation, World.generations_dropAll]
    exact r.generation_staged

theorem journal (hr : r.Sound isArtifact) (h : r.Journalled w₀ s) : s.get? .root journalFile = some r.text := by
  have hstaged : (r.staged w₀).get? .root journalFile = some r.text := (r.get?_staged w₀ journalFile).trans (if_pos rfl)
  cases h with
  | staged => exact hstaged
  | renamed gone hgone =>
    rw [World.get?_dropAll, if_neg fun hmem => (hr.cleanup_ne (hgone hmem)).1 rfl]
    exact r.get?_resumed hstaged false

end Request.Journalled

/-! ### What is checked -/

variable {d : Dir} {path : GoString} {p : Bool} {files : List File} {replies : Nat → Reply}

theorem Dir.isPublished_congr {d' : Dir} {j : Journal} (hmanifest : d'.root.get? manifestFile = d.root.get? manifestFile)
    (hsnapshot : ∀ m raw, d.loadAt = .ok (m, raw) → d'.snapshotAt isArtifact = d.snapshotAt isArtifact) :
    d'.isPublished isArtifact j = d.isPublished isArtifact j := by
  have hread : readAt d'.root manifestFile maxManifest = readAt d.root manifestFile maxManifest := by
    rw [readAt_eq (by decide), readAt_eq (by decide), hmanifest]
  have hload : d'.loadAt = d.loadAt := by rw [Dir.loadAt, Dir.loadAt, hread]
  rw [Dir.isPublished, Dir.isPublished, hload]
  rcases hd : d.loadAt with e | ⟨m, raw⟩
  · dsimp only
    rw [hread]
  · dsimp only
    rw [hsnapshot m raw hd]

/-- Before the update the journal would have been accepted. -/
theorem Request.Admitted.isPublished (h : r.Admitted isArtifact w₀) :
    ∃ p, w₀.dir.isPublished isArtifact r.journal = .ok p ∧
      (p = true → r.kind = .update ∧ ∃ m raw x, w₀.dir.loadAt = .ok (m, raw) ∧ w₀.dir.snapshotAt isArtifact = .ok x ∧
        m.digest = r.man.digest) := by
  rw [Dir.isPublished]
  cases h with
  | first hkind hload hexpected =>
    rw [hload]
    dsimp only
    rw [if_neg (by simp [Request.journal, newJournal, hkind]), if_pos ⟨rfl, hexpected⟩]
    exact ⟨false, rfl, fun h => by cases h⟩
  | @next m raw x hkind hload hx hexpected =>
    have hexpected' : m.digest = r.journal.expectedDigest := hexpected
    rw [hload]
    dsimp only
    by_cases hsame : m.digest = r.journal.manifest.digest
    · rw [if_pos hsame]
      exact ⟨true, rfl, fun _ => ⟨hkind, m, raw, x, rfl, hx, hsame⟩⟩
    · rw [if_neg hsame, if_neg (not_not.mpr hexpected'), hx]
      exact ⟨false, rfl, fun h => by cases h⟩
  | @legacy e raw old hkind hload hraw hold hexpected =>
    have hkind' : r.journal.kind = .v0Migration := hkind
    rw [hload]
    dsimp only
    rw [if_pos hkind']
    refine ⟨false, bind_ok.mpr ⟨raw, hraw, ?_⟩, fun h => by cases h⟩
    rw [hold]
    exact if_neg (not_not.mpr hexpected)

/-- Once the manifest is published, it is recognised. -/
theorem isPublished_of_manifest (hr : r.Sound isArtifact) (hsize : (canonical r.man).length ≤ maxManifest)
    (hread : ∀ f ∈ r.files, f.Readable) (h : d.root.get? manifestFile = some (canonical r.man)) :
    d.isPublished isArtifact r.journal = .ok true := by
  obtain ⟨b⟩ := hr.steps
  have hload : d.loadAt = .ok (r.man.read, canonical r.man) := by
    rw [Dir.loadAt_eq h hsize, (b.strictManifest_iff hsize).mpr (b.readable_iff.mpr hread)]
    rfl
  rw [Dir.isPublished, hload]
  exact if_pos rfl

/-- Everything is as the update has left it, and stays so until the journal is removed. -/
theorem Request.Journalled.resumable (ho : r.Opened isArtifact S w₀) (hS : Sha256.CollisionFree (S ∪ r.man.read.hashed))
    (hread : ∀ f ∈ r.files, f.Readable) (h : r.Journalled w₀ s) :
    ∃ p, s.dir.resumable isArtifact r = .ok p ∧ (p = true → s.get? .root manifestFile = some (canonical r.man)) ∧
      ∀ gone ⊆ r.cleanup, r.Journalled w₀ ((r.resumed s p).dropAll gone) := by
  obtain ⟨hr, hsize, hadm, hclear, hd⟩ := ho
  have hd' : w₀.dir.hashed ⊆ S ∪ r.man.read.hashed := fun t ht => .inl (hd ht)
  have hman : r.man.read.hashed ⊆ S ∪ r.man.read.hashed := fun t ht => .inr ht
  obtain ⟨b⟩ := hr.steps
  have hverify : s.dir.verifyGenerationAt isArtifact r.man.read = .ok (stored r.files) := by
    rw [Dir.verifyGenerationAt, Dir.openGeneration_eq, show r.man.read.generation = r.man.generation from rfl, h.generation]
    exact verifyFiles_ok b
  have hresumable : ∀ p, s.dir.isPublished isArtifact r.journal = .ok p → (p = false → s.dir.checkStaged r.man.read = .ok ()) →
      s.dir.resumable isArtifact r = .ok p := by
    intro p hp hstaged
    rw [Dir.resumable, hverify]
    rw [hp]
    cases p with
    | true => rfl
    | false =>
      rw [hstaged rfl]
      rfl
  cases h with
  | renamed gone hgone =>
    have hmanifest : ((r.renamed w₀).dropAll gone).get? .root manifestFile = some (canonical r.man) := by
      rw [World.get?_dropAll, if_neg fun hmem => (hr.cleanup_ne (hgone hmem)).2.1 rfl]
      exact World.get?_publish.trans (if_pos rfl)
    refine ⟨true, hresumable true (isPublished_of_manifest hr hsize hread hmanifest) (fun h => by cases h), fun _ => hmanifest,
      fun gone' hgone' => ?_⟩
    show r.Journalled w₀ (((r.renamed w₀).dropAll gone).dropAll gone')
    rw [World.dropAll_append]
    exact .renamed _ (append_subset.mpr ⟨hgone, hgone'⟩)
  | staged =>
    obtain ⟨p, hp, htrue⟩ := hadm.isPublished
    have hsame : (r.staged w₀).dir.root.get? manifestFile = w₀.dir.root.get? manifestFile := by
      have := r.get?_staged w₀ manifestFile
      rwa [if_neg journalFile_ne.symm] at this
    have hpublished : (r.staged w₀).dir.isPublished isArtifact r.journal = .ok p := by
      rw [Dir.isPublished_congr hsame fun m raw hload => ?_, hp]
      have hkept := kept_fill (b.grown_stored hclear.fits)
      refine snapshot_kept b hread hS hd' hman (fun m raw hload => ?_) ⟨hkept.other, hkept.own⟩ fun n h₁ h₂ => ?_
      · cases hadm with
        | next _ _ hx _ => exact ⟨_, hx⟩
        | first _ h _ | legacy _ h _ _ _ => cases h.symm.trans hload
      have := r.get?_staged w₀ n
      rwa [if_neg h₂, if_neg h₁] at this
    have hstaged : (r.staged w₀).dir.checkStaged r.man.read = .ok () := by
      refine Dir.checkStaged_of_get? b.traverses_stagedFile hsize ?_
      have := r.get?_staged w₀ (stagedFile r.man.generation)
      rwa [if_pos rfl] at this
    refine ⟨p, hresumable p hpublished fun _ => hstaged, ?_⟩
    cases p with
    | false =>
      exact ⟨(fun h => by cases h), fun gone hgone => .renamed gone hgone⟩
    | true =>
      obtain ⟨hkind, m, raw, x, hload, hx, hdigest⟩ := htrue rfl
      refine ⟨fun _ => ?_, fun gone hgone => ?_⟩
      · -- the request is for the manifest that is published already
        obtain ⟨cs, m', hbuild, -, hcs, hpub, hload'⟩ := snapshot_inv hx
        obtain ⟨bc⟩ := build_steps isArtifact hbuild
        rw [hload'] at hload
        cases hload
        have hm : m' = r.man := bc.eq_of_digest b hS (fun t ht => hd' (.inl ⟨_, _, hload', ht⟩)) hman hcs hread hdigest
        rw [← hm]
        exact hsame.trans hpub.manifest
      · rw [hr.cleanup_update hkind, subset_nil] at hgone
        rw [hgone]
        exact .staged

/-- Finishing the update leaves what it has to. -/
theorem Request.Journalled.completes (hr : r.Sound isArtifact) (h : r.Journalled w₀ s)
    (hp : p = true → s.get? .root manifestFile = some (canonical r.man)) : r.Completes s (r.completed s p) := by
  have hcompleted : ∀ n, (r.completed s p).get? .root n =
      if n = journalFile then none else if n ∈ r.cleanup then none else (r.resumed s p).get? .root n := by
    intro n
    rw [Request.completed, World.get?_drop, World.get?_dropAll]
  have hgenerations : (r.completed s p).dir.generations = s.dir.generations := r.generations_completed
  refine ⟨?_, ?_, fun n hn => ?_, (hcompleted _).trans (if_pos rfl), fun n h₁ h₂ h₃ h₄ => ?_, hgenerations⟩
  · rw [hcompleted, if_neg fun hmem => (hr.cleanup_ne hmem).2.1 rfl]
    cases p with
    | true => exact hp rfl
    | false => exact World.get?_publish.trans (if_pos rfl)
  · rw [Dir.generation, hgenerations]
    exact h.generation
  · rw [hcompleted, if_pos hn, ite_self]
  · rw [hcompleted, if_neg h₄, if_neg h₃]
    cases p with
    | true => rfl
    | false =>
      refine World.get?_publish.trans ?_
      rw [if_neg h₁, if_neg h₂]

/-- Interrupted, the finishing leaves a state with a complete journal or without one. -/
theorem Request.Journalled.recover (ho : r.Opened isArtifact S w₀) (hS : Sha256.CollisionFree (S ∪ r.man.read.hashed))
    (h : r.Journalled w₀ s) (replies : Nat → Reply) : r.Journalled w₀ (recoverLocked isArtifact ⟨s, replies⟩).2.state ∨
      (recoverLocked isArtifact ⟨s, replies⟩).2.state.get? .root journalFile = none := by
  have hleftover : Leftover isArtifact s r := ⟨ho.sound, r.text, h.journal ho.sound, prefix_rfl⟩
  have hresuming : ∀ {p s'}, r.Resumes isArtifact s p → r.Resuming s p s' →
      r.Journalled w₀ s' ∨ s'.get? .root journalFile = none := by
    intro p s' hp hs'
    obtain ⟨q, hq, hmanifest, hclosed⟩ := h.resumable ho hS hp.readable
    rw [hp.resumable] at hq
    cases hq
    cases hs' with
    | resumed done rest hl => exact .inl (hclosed done (hl ▸ subset_append_left _ _))
    | completed => exact .inr (h.completes ho.sound hmanifest).journal
  exact (hleftover.recover (A := fun _ => True) (.inl h) hresuming).always (fun _ => trivial) rfl

/-- Without a journal there is nothing to finish. -/
theorem recoverLocked_none (h : s.get? .root journalFile = none) (replies : Nat → Reply) :
    (recoverLocked isArtifact ⟨s, replies⟩).2.state = s := by
  have hrec : Holds (fun _ => True) (· = s) (recoverLocked isArtifact) (fun _ => (· = s)) (· = s) := by
    refine Found.recover (.inl h) rfl fun _ hp => ?_
    rw [hp.journal] at h
    cases h
  exact hrec.always (fun _ => trivial) rfl

/-- The directory after attempts to finish an update, each of them interrupted. -/
def attempts (isArtifact : GoString → Bool) (s : World) (l : List (Nat → Reply)) : World :=
  l.foldl (fun s replies => (recoverLocked isArtifact ⟨s, replies⟩).2.state) s

theorem Request.Journalled.attempts (ho : r.Opened isArtifact S w₀) (hS : Sha256.CollisionFree (S ∪ r.man.read.hashed))
    (h : r.Journalled w₀ s) (l : List (Nat → Reply)) :
    r.Journalled w₀ (attempts isArtifact s l) ∨ (Migrate.attempts isArtifact s l).get? .root journalFile = none := by
  suffices hinv : ∀ s, (r.Journalled w₀ s ∨ s.get? .root journalFile = none) →
      r.Journalled w₀ (Migrate.attempts isArtifact s l) ∨ (Migrate.attempts isArtifact s l).get? .root journalFile = none from
    hinv s (.inl h)
  induction l with
  | nil => exact fun s hs => hs
  | cons replies l ih =>
    rintro s (hs | hs)
    · exact ih _ (hs.recover ho hS replies)
    · have hnone : (recoverLocked isArtifact ⟨s, replies⟩).2.state.get? .root journalFile = none := by
        rw [recoverLocked_none hs, hs]
      exact ih _ (.inr hnone)

/-! ### The run that wrote the journal -/

theorem Request.Left.requested (h : r.Left w₀ s) : s.requested = w₀.requested := by
  cases h with
  | before h => exact h.requested
  | staged _ => rfl
  | renamed | finished => exact World.requested_dropAll

theorem Request.Resuming.requested (h : r.Resuming w p s) : s.requested = w.requested := by
  have hresumed : (r.resumed w p).requested = w.requested := by cases p <;> rfl
  cases h with
  | resumed | completed => exact World.requested_dropAll.trans hresumed

/-- The journal stays as it is until it is removed. -/
theorem Request.Resuming.journal (hr : r.Sound isArtifact) (hw : w.get? .root journalFile = some r.text)
    (h : r.Resuming w p s) : s.get? .root journalFile = some r.text ∨ s.get? .root journalFile = none := by
  cases h with
  | resumed done rest hl =>
    have hnot : journalFile ∉ done := fun hmem => (hr.cleanup_ne (hl ▸ mem_append_left _ hmem)).1 rfl
    rw [World.get?_dropAll, if_neg hnot]
    exact .inl (r.get?_resumed hw p)
  | completed =>
    right
    rw [Request.completed, World.get?_drop, if_pos rfl]

theorem Request.Left.journal (hr : r.Sound isArtifact) (h : r.Left w₀ s) :
    s.get? .root journalFile = none ∨ ∃ raw, s.get? .root journalFile = some raw ∧ raw <+: r.text := by
  cases h with
  | before hb =>
    cases hraw : s.get? .root journalFile with
    | none => exact .inl rfl
    | some raw => exact .inr ⟨raw, rfl, (hb.journal raw hraw).1⟩
  | staged _ => exact .inr ⟨r.text, Request.Journalled.staged.journal hr, prefix_rfl⟩
  | renamed done rest _ hl =>
    have hj : r.Journalled w₀ ((r.renamed w₀).dropAll done) := .renamed done (hl ▸ subset_append_left _ _)
    exact .inr ⟨r.text, hj.journal hr, prefix_rfl⟩
  | finished _ =>
    left
    rw [Request.finished, World.get?_drop, if_pos rfl]

/-- A command leaves no journal but that of a request. -/
theorem UpdateStep.found {allowLegacy : Bool} {expected : GoString} {cleanup : List GoString}
    (h : UpdateStep isArtifact allowLegacy path expected files cleanup w s) (hfound : Found isArtifact w)
    (hlegacy : allowLegacy = true → matchDigest expected = true)
    (hcleanup : cleanup = [] ∨ allowLegacy = true ∧ cleanup = files.map File.name) : Found isArtifact s := by
  cases h with
  | same => exact hfound
  | refused _ => exact hfound.imp (fun h => h) fun ⟨r, h⟩ => ⟨r, h.request _⟩
  | published hcand _ hcurrent hleft =>
    have hr := sound_requestOf hcand hcurrent hlegacy hcleanup
    exact (hleft.journal hr).imp (fun h => h) fun h => ⟨_, hr, h⟩
  | resumed _ hleft _ _ _ hp hs =>
    exact (hs.journal hleft.sound hp.journal).symm.imp (fun h => h) fun h => ⟨_, hleft.sound, _, h, prefix_rfl⟩

theorem Step.found (h : Step isArtifact w s) (hfound : Found isArtifact w) : Found isArtifact s := by
  cases h with
  | same => exact hfound
  | updated h => exact h.found hfound (fun h => by cases h) (.inl rfl)
  | recovered hleft hp hs =>
    exact (hs.journal hleft.sound hp.journal).symm.imp (fun h => h) fun h => ⟨_, hleft.sound, _, h, prefix_rfl⟩
  | copied hnone _ _ =>
    left
    rw [World.get?_put_ne copyFile_ne.1.symm]
    exact hnone
  | migrated hnone _ hfiles h =>
    obtain ⟨-, -, hdigest⟩ := legacyFiles_ok hfiles
    refine h.found (.inl ?_) (fun _ => hdigest) (.inr ⟨rfl, rfl⟩)
    rw [World.get?_put_ne copyFile_ne.1.symm]
    exact hnone

/-- Attempts to finish an update make no request, and write no journal. -/
theorem attempts_journal (hfound : Found isArtifact s) (l : List (Nat → Reply)) :
    (attempts isArtifact s l).requested = s.requested ∧
      ((attempts isArtifact s l).get? .root journalFile = s.get? .root journalFile ∨
        (attempts isArtifact s l).get? .root journalFile = none) := by
  induction l generalizing s with
  | nil => exact ⟨rfl, .inl rfl⟩
  | cons replies l ih =>
    -- what one attempt does
    let P : World → Prop := fun s' => Found isArtifact s' ∧ s'.requested = s.requested ∧
      (s'.get? .root journalFile = s.get? .root journalFile ∨ s'.get? .root journalFile = none)
    have hone : Holds (fun _ => True) (· = s) (recoverLocked isArtifact) (fun _ => P) P := by
      refine hfound.recover ⟨hfound, rfl, .inl rfl⟩ fun h hp hs' => ?_
      refine ⟨(Step.recovered h hp hs').found hfound, hs'.requested, ?_⟩
      rw [hp.journal]
      exact hs'.journal h.sound hp.journal
    obtain ⟨hfound', hreq, hj⟩ := hone.always (y := ⟨s, replies⟩) (fun _ => trivial) rfl
    obtain ⟨hreq', hj'⟩ := ih hfound'
    refine ⟨hreq'.trans hreq, ?_⟩
    rcases hj' with hj' | hj'
    · exact hj.imp (fun h => hj'.trans h) fun h => hj'.trans h
    · exact .inr hj'

/-- The only request that has been made is the one whose journal is complete. -/
theorem UpdateStep.journalled {allowLegacy : Bool} {expected : GoString} {cleanup : List GoString}
    (h : UpdateStep isArtifact allowLegacy path expected files cleanup w s) (hnone : w.get? .root journalFile = none)
    (hreq : w.requested = []) (hr : r ∈ s.requested) (hjournal : s.get? .root journalFile = some r.text) :
    ∃ man, candidate isArtifact files = .ok man ∧ r = requestOf allowLegacy expected files man cleanup ∧
      w.dir.checkCurrent isArtifact allowLegacy path expected = .ok () ∧ r.Clear (w.request r) ∧ r.Journalled (w.request r) s := by
  cases h with
  | same =>
    rw [hreq] at hr
    cases hr
  | refused _ =>
    have : w.get? .root journalFile = some r.text := hjournal
    rw [hnone] at this
    cases this
  | resumed _ hleft =>
    obtain ⟨raw, hraw, -⟩ := hleft.journal
    rw [hnone] at hraw
    cases hraw
  | @published man s hcand _ hcurrent hleft =>
    have hsame : r = requestOf allowLegacy expected files man cleanup := by
      rw [hleft.requested, World.request, hreq] at hr
      exact mem_singleton.mp hr
    rw [← hsame] at hleft
    refine ⟨man, hcand, hsame, hcurrent, ?_⟩
    cases hleft with
    | before hb => exact absurd rfl (hb.journal _ hjournal).2
    | staged hc => exact ⟨hc, .staged⟩
    | renamed done rest hc hl => exact ⟨hc, .renamed done (hl ▸ subset_append_left _ _)⟩
    | finished hc =>
      rw [Request.finished, World.get?_drop] at hjournal
      cases hjournal

theorem Step.opened (h : Step isArtifact ⟨d, [], []⟩ s) (hnone : d.root.get? journalFile = none)
    (hr : r ∈ s.requested) (hjournal : s.get? .root journalFile = some r.text) :
    ∃ w₀, r.Opened isArtifact d.hashed w₀ ∧ r.Journalled w₀ s := by
  cases h with
  | same | copied => cases hr
  | recovered hleft =>
    obtain ⟨raw, hraw, -⟩ := hleft.journal
    rw [show World.get? ⟨d, [], []⟩ .root journalFile = none from hnone] at hraw
    cases hraw
  | @updated path req s hstep =>
    obtain ⟨man, hcand, rfl, hcurrent, hclear, hj⟩ := hstep.journalled hnone rfl hr hjournal
    refine ⟨_, ⟨sound_requestOf hcand hcurrent (fun h => by cases h) (.inl rfl), (candidate_ok hcand).2, ?_, hclear, ?_⟩, hj⟩
    · rcases checkCurrent_ok hcurrent with ⟨m, raw, hload, ⟨x, hx⟩, hdig, -⟩ | ⟨hno, -⟩ | ⟨-, hload, he⟩
      · exact .next rfl hload hx hdig
      · cases hno
      · exact .first rfl hload he
    · exact fun t ht => ht
  | @migrated path raw old files s _ hload hfiles hstep =>
    obtain ⟨e, he⟩ := hload
    obtain ⟨hraw, hold, hdigest⟩ := legacyFiles_ok hfiles
    -- the copy of the legacy manifest is the only file that has been written before
    have hget : ∀ n, n ≠ copyFile → (World.put ⟨d, [], []⟩ .root copyFile raw).dir.root.get? n = d.root.get? n := fun n hn =>
      World.get?_put_ne hn
    have hread : readAt (World.put ⟨d, [], []⟩ .root copyFile raw).dir.root manifestFile maxManifest =
        readAt d.root manifestFile maxManifest := by
      rw [readAt_eq (by decide), readAt_eq (by decide), hget _ copyFile_ne.2.1.symm]
    have hload : (World.put ⟨d, [], []⟩ .root copyFile raw).dir.loadAt = d.loadAt := by rw [Dir.loadAt, Dir.loadAt, hread]
    obtain ⟨man, hcand, rfl, hcurrent, hclear, hj⟩ :=
      hstep.journalled ((hget _ copyFile_ne.1.symm).trans hnone) rfl hr hjournal
    refine ⟨_, ⟨sound_requestOf hcand hcurrent (fun _ => hdigest) (.inr ⟨rfl, rfl⟩), (candidate_ok hcand).2, ?_, hclear, ?_⟩, hj⟩
    · exact .legacy rfl (hload.trans he) (hread.trans hraw) hold rfl
    · show (World.put ⟨d, [], []⟩ .root copyFile raw).dir.hashed ⊆ _
      simp only [Dir.hashed, hload, hget _ copyFile_ne.1.symm]
      exact Set.Subset.rfl

/-! ### The same command again -/

section Again

variable {d : Dir} {p : Bool}

theorem Request.completed_dir {r' : Request} : (r.completed (w.request r') p).dir = (r.completed w p).dir := by
  have hdrop : ∀ (l : List GoString) {w w' : World}, w.dir = w'.dir → (w.dropAll l).dir = (w'.dropAll l).dir := by
    intro l
    induction l with
    | nil => exact fun h => h
    | cons n l ih =>
      intro w w' h
      refine ih ?_
      show w.dir.setFiles .root _ = w'.dir.setFiles .root _
      rw [h]
  have hresumed : (r.resumed (w.request r') p).dir = (r.resumed w p).dir := by cases p <;> rfl
  show ((World.dropAll _ _).dir.setFiles .root _) = (World.dropAll _ _).dir.setFiles .root _
  rw [hdrop r.cleanup hresumed]

theorem Request.Resumes.unique {q : Bool} (hq : r.Resumes isArtifact s q) (hp : r.Resumes isArtifact s p) : q = p :=
  Except.ok.inj (hq.resumable.symm.trans hp.resumable)

theorem update_again {req : UpdateRequest} {man : Manifest} (hcand : candidate isArtifact req.files = .ok man)
    (hversion : req.manifestVersion = [] ∨ req.manifestVersion = manifestVersion)
    (hreq : r = requestOf false req.expected req.files man []) (hr : r.Sound isArtifact) (hp : r.Resumes isArtifact s p) :
    (update isArtifact path req ⟨s, fun _ => .done⟩).2.state.dir = (r.completed s p).dir := by
  have hpending := hr.pending hp.journal hp.readable (hp.size.trans (by decide : maxFile ≤ maxManifest))
    (str "retain and inspect the exact journal")
  have hleftover : Leftover isArtifact s r := ⟨hr, r.text, hp.journal, prefix_rfl⟩
  have hupdate : Holds (· = .done) (· = s) (update isArtifact path req) (fun _ s' => s' = r.completed (s.request r) p) fun _ => False := by
    refine holds_inspect (fun _ _ => (holds_update_again hcand hreq hleftover hpending).mono (fun _ hs => hs) ?_ ?_) fun e he => ?_
    · rintro _ s' ⟨-, -, -, -, q, hq, rfl⟩
      have : q = p := hq.unique ⟨hp.journal, hp.size, hp.readable, hp.resumable⟩
      rw [this]
    · rintro s' ⟨hf | hno | hne | hne | hne, -⟩
      · exact not_faulty hf
      · exact hno p ⟨hp.journal, hp.size, hp.readable, hp.resumable⟩
      · exact hne (hreq ▸ rfl)
      · exact hne (hreq ▸ rfl)
      · exact hne rfl
    · rw [if_neg (by tauto)] at he
      cases he
  obtain ⟨_, -, hs⟩ := hupdate.returns (fun _ h => h) (y := ⟨s, fun _ => .done⟩) (fun _ => rfl) rfl
  rw [hs]
  exact r.completed_dir

theorem migrateManifest_again (hr : r.Sound isArtifact) (hp : r.Resumes isArtifact s p) :
    (migrateManifest isArtifact path legacyVersion ⟨s, fun _ => .done⟩).2.state.dir = (r.completed s p).dir := by
  have hrec := holds_recover (A := (· = .done)) ⟨hr, r.text, hp.journal, prefix_rfl⟩
  have hraw : readAt s.dir.root journalFile maxManifest = .ok r.text :=
    readAt_ok (by decide) hp.journal (hp.size.trans (by decide : maxFile ≤ maxManifest))
  have hmigrate : Leaves (· = .done) (· = s) (migrateManifest isArtifact path legacyVersion) (· = r.completed s p) := by
    refine holds_inspect (fun journal hjournal => ?_) fun e he => ?_
    · rw [Dir.hasJournal, hraw] at hjournal
      cases hjournal
      refine (hrec.mono (fun _ hs => hs) (fun _ _ hs => hs) ?_).bind fun _ => .of_state ?_
      · rintro s' ⟨hf | hno, -⟩
        · exact absurd hf not_faulty
        · exact absurd hp (hno p)
      · rintro s' ⟨q, hq, rfl⟩
        have : q = p := hq.unique hp
        rw [this]
        exact holds_inspect (fun _ _ => .pure _ fun _ hs => hs) fun _ _ => rfl
    · rw [Dir.hasJournal, hraw] at he
      cases he
  rw [hmigrate.always (fun _ => rfl) rfl]

end Again

/-! ### Every run -/

/-- What an update requests. -/
theorem update_requests (hnone : d.root.get? journalFile = none) {req : UpdateRequest}
    (hr : r ∈ (update isArtifact path req ⟨⟨d, [], []⟩, replies⟩).2.state.requested)
    (hjournal : (update isArtifact path req ⟨⟨d, [], []⟩, replies⟩).2.state.get? .root journalFile = some r.text) :
    (req.manifestVersion = [] ∨ req.manifestVersion = manifestVersion) ∧
      ∃ man, candidate isArtifact req.files = .ok man ∧ r = requestOf false req.expected req.files man [] := by
  have hlocked : Leaves (fun _ => True) (· = ⟨d, [], []⟩) (updateLocked isArtifact false path req.expected req.files [])
      (UpdateStep isArtifact false path req.expected req.files [] ⟨d, [], []⟩) :=
    holds_updateLocked (.inl hnone) (fun h => by cases h) (.inl rfl)
  let E : World → Prop := fun s => s.requested = [] ∨ (req.manifestVersion = [] ∨ req.manifestVersion = manifestVersion) ∧
    UpdateStep isArtifact false path req.expected req.files [] ⟨d, [], []⟩ s
  have hupdate : Leaves (fun _ => True) (· = ⟨d, [], []⟩) (update isArtifact path req) E := by
    refine holds_inspect (fun _ hok => ?_) fun _ _ => .inl rfl
    rw [guard_ok] at hok
    have hversion : req.manifestVersion = [] ∨ req.manifestVersion = manifestVersion := by
      by_contra hno
      push Not at hno
      exact hok.1 hno
    exact hlocked.imp fun _ hs => .inr ⟨hversion, hs⟩
  rcases hupdate.always (y := ⟨⟨d, [], []⟩, replies⟩) (fun _ => trivial) rfl with hno | ⟨hversion, hstep⟩
  · rw [hno] at hr
    cases hr
  · obtain ⟨man, hcand, hsame, -⟩ := hstep.journalled hnone rfl hr hjournal
    exact ⟨hversion, man, hcand, hsame⟩

/-- Only the migration of a legacy manifest requests anything. -/
theorem migrateManifest_requests {source : GoString}
    (hr : r ∈ (migrateManifest isArtifact path source ⟨⟨d, [], []⟩, replies⟩).2.state.requested) : source = legacyVersion := by
  by_contra hne
  have hsame : Leaves (fun _ => True) (· = ⟨d, [], []⟩) (migrateManifest isArtifact path source) (· = ⟨d, [], []⟩) := by
    rw [migrateManifest]
    split_ifs
    · exact holds_inspect (fun _ _ => .pure _ fun _ hs => hs) fun _ _ => rfl
    · exact .fail fun _ hs => hs
  rw [hsame.always (fun _ => trivial) rfl] at hr
  cases hr

/-- A journal is complete after a command only if the command made the request, and
then the same command finishes it. -/
theorem Command.opened (hnone : d.root.get? journalFile = none) {c : Command}
    {l : List (Nat → Reply)} (hs : s = attempts isArtifact (c.run isArtifact ⟨⟨d, [], []⟩, replies⟩).2.state l)
    (hr : r ∈ s.requested) (hjournal : s.get? .root journalFile = some r.text)
    (hS : Sha256.CollisionFree (d.hashed ∪ r.man.read.hashed)) :
    ∃ w₀, r.Opened isArtifact d.hashed w₀ ∧ r.Journalled w₀ s ∧
      ∀ p, r.Resumes isArtifact s p → (c.run isArtifact ⟨s, fun _ => .done⟩).2.state.dir = (r.completed s p).dir := by
  have hnone' : World.get? ⟨d, [], []⟩ .root journalFile = none := hnone
  have hstep : Step isArtifact ⟨d, [], []⟩ (c.run isArtifact ⟨⟨d, [], []⟩, replies⟩).2.state :=
    (step_of_run (A := fun _ => True) (.inl hnone') c).always (fun _ => trivial) rfl
  obtain ⟨hreq, hj⟩ := attempts_journal (hstep.found (.inl hnone')) l
  rw [← hs] at hreq hj
  rw [hreq] at hr
  have hjournal₁ : (c.run isArtifact ⟨⟨d, [], []⟩, replies⟩).2.state.get? .root journalFile = some r.text := by
    rcases hj with h | h
    · rw [← h, hjournal]
    · rw [h] at hjournal
      cases hjournal
  obtain ⟨w₀, ho, hw₀⟩ := hstep.opened hnone hr hjournal₁
  refine ⟨w₀, ho, ?_, fun p hp => ?_⟩
  · rw [hs]
    refine (hw₀.attempts ho hS l).resolve_right fun h => ?_
    rw [← hs, hjournal] at h
    cases h
  · cases c with
    | recover =>
      rw [show (Command.recover.run isArtifact) = recoverLocked isArtifact from rfl, recoverLocked_none hnone'] at hr
      cases hr
    | update path req =>
      rw [Command.run, state_discard] at hr hjournal₁ ⊢
      obtain ⟨hversion, man, hcand, hsame⟩ := update_requests hnone hr hjournal₁
      exact update_again hcand hversion hsame ho.sound hp
    | migrateManifest path source =>
      rw [Command.run, state_discard] at hr ⊢
      rw [migrateManifest_requests hr]
      exact migrateManifest_again ho.sound hp

/-- The journal is complete, after a command and any number of attempts to finish what
it has left, all of them interrupted wherever it may be.  One attempt that is not
interrupted finishes the update, and the same command does so too, if and only if the
journal is not too long and its manifest can be read back. -/
theorem recover_iff (d : Dir) (hnone : d.root.get? journalFile = none) (c : Command) (replies : Nat → Reply)
    (l : List (Nat → Reply)) (r : Request) (s : World)
    (hs : s = attempts isArtifact (c.run isArtifact ⟨⟨d, [], []⟩, replies⟩).2.state l) (hr : r ∈ s.requested)
    (hjournal : s.get? .root journalFile = some r.text) (hS : Sha256.CollisionFree (d.hashed ∪ r.man.read.hashed)) :
    ((recoverLocked isArtifact ⟨s, fun _ => .done⟩).1 = .ok () ∧
        r.Completes s (recoverLocked isArtifact ⟨s, fun _ => .done⟩).2.state ∧
        (c.run isArtifact ⟨s, fun _ => .done⟩).2.state.dir = (recoverLocked isArtifact ⟨s, fun _ => .done⟩).2.state.dir) ↔
      r.text.length ≤ maxFile ∧ ∀ f ∈ r.files, f.Readable := by
  obtain ⟨w₀, ho, hj, hc⟩ := Command.opened hnone hs hr hjournal hS
  have hleftover : Leftover isArtifact s r := ⟨ho.sound, r.text, hjournal, prefix_rfl⟩
  have hrec := holds_recover (A := (· = .done)) hleftover
  constructor
  · rintro ⟨hok, -, -⟩
    obtain ⟨p, hp, -⟩ := hrec.of_ok (fun _ => rfl) rfl hok
    exact ⟨hp.size, hp.readable⟩
  · rintro ⟨hlen, hread⟩
    obtain ⟨p, hres, hmanifest, -⟩ := hj.resumable ho hS hread
    have hp : r.Resumes isArtifact s p := ⟨hjournal, hlen, hread, hres⟩
    have hfail : ∀ s', ¬ ((Faulty (· = .done) ∨ ∀ p, ¬ r.Resumes isArtifact s p) ∧
        (s' = s ∨ ∃ p, r.Resumes isArtifact s p ∧ r.Resuming s p s')) := fun _ h => h.1.elim not_faulty fun hno => hno p hp
    obtain ⟨⟨⟩, hok, q, hq, hstate⟩ := hrec.returns hfail (y := ⟨s, fun _ => .done⟩) (fun _ => rfl) rfl
    have hqp : q = p := hq.unique hp
    rw [hqp] at hstate
    rw [hstate]
    exact ⟨hok, hj.completes ho.sound hmanifest, hc p hp⟩

/-! ### Stopping with a complete journal -/

theorem finite_inspect {α : Type} (f : Dir → Except ReadError α) : Finite (inspect f) := by
  refine .bind .look fun w => ?_
  split
  · exact .pure _
  · exact .fail _

theorem finite_writeNew (p : Place) (name bytes : GoString) : Finite (writeNew p name bytes) := by
  have hunlink : Finite (unlink p name) := by
    refine .bind .look fun w => ?_
    split_ifs
    · exact .bind (.call _ _) fun _ => .pure _
    · exact .bind (.ask _) fun _ => .pure _
  refine .bind (.bind .look fun w => ?_) fun isNew => ?_
  · split_ifs
    · exact .bind (.ask _) fun _ => .pure _
    · exact .bind (.call _ _) fun _ => .pure _
  · split_ifs
    · refine .bind (.onError ?_ fun e => ?_) fun _ => .pure _
      · exact .bind (.forEach (fun _ => .call _ _) _) fun _ => .bind (.ask _) fun _ => .ask _
      · exact .bind (.onError (.bind hunlink fun _ => .pure _) fun _ => .pure _) fun _ => .fail _
    · exact .pure _

theorem finite_writeAt (p : Place) (name bytes : GoString) : Finite (writeAt p name bytes) := by
  refine .bind (finite_writeNew p name bytes) fun isNew => ?_
  split_ifs
  · exact .pure _
  · exact .fail _

theorem finite_ensureFileAt (p : Place) (name bytes : GoString) : Finite (ensureFileAt p name bytes) := by
  refine .bind (finite_writeNew p name bytes) fun isNew => ?_
  split_ifs
  · exact .pure _
  · exact finite_inspect _

theorem finite_store (g : GoString) (files : List File) : Finite (store g files) := by
  have hfile : ∀ guidance name bytes, Finite (storeFile g guidance name bytes) := by
    intro guidance name bytes
    refine .bind .look fun w => ?_
    split
    · split_ifs
      · exact .fail _
      · exact .pure _
    · exact finite_writeAt _ _ _
    · exact .fail _
  refine .bind (.call _ _) fun _ => .bind (.ask _) fun _ => .bind (.call _ _) fun _ => .bind (.ask _) fun _ => ?_
  refine .bind (.forEach (fun f => .bind (hfile _ _ _) fun _ => .onlyIf (hfile _ _ _)) _) fun _ => ?_
  exact .bind (finite_inspect _) fun _ => .bind (.ask _) fun _ => .ask _

/-- An update can be stopped when its journal is complete. -/
theorem cuts_publish (hr : r.Sound isArtifact) (hclear : r.Clear w₀) (hjournal : w₀.get? .root journalFile = none) :
    Cuts (publish r) w₀ (r.staged w₀) := by
  obtain ⟨b⟩ := hr.steps
  have hstore : Holds (· = .done) (· = w₀) (store r.man.generation r.files)
      (fun _ s => Fits (w₀.dir.files (.generation r.man.generation)) r.files ∧ s = r.filled w₀) (fun _ => False) :=
    holds_store rfl (fun h => (h.elim not_faulty fun hno => hno hclear.fits).elim) b
  refine .second (finite_store _ _) hstore (fun _ h => h) ?_
  rintro _ s₁ ⟨-, rfl⟩
  have hensure : Holds (· = .done) (· = r.filled w₀) (ensureFileAt .root (stagedFile r.man.generation) (canonical r.man))
      (fun _ s => ((r.filled w₀).get? .root (stagedFile r.man.generation) = none ∨
        (r.filled w₀).get? .root (stagedFile r.man.generation) = some (canonical r.man)) ∧
          s = (r.filled w₀).put .root (stagedFile r.man.generation) (canonical r.man)) (fun _ => False) := by
    refine holds_ensureFileAt Dir.open_root (fun hA => absurd hA not_faulty) ?_
    rintro (h | ⟨c, hc, hne⟩)
    · rw [b.traverses_stagedFile] at h
      cases h
    · have hget : (r.filled w₀).get? .root (stagedFile r.man.generation) = w₀.get? .root (stagedFile r.man.generation) := rfl
      rw [hget] at hc
      rcases hclear.stage with h | h
      · rw [h] at hc
        cases hc
      · rw [h] at hc
        exact hne (Option.some.inj hc).symm
  refine .second (finite_ensureFileAt _ _ _) hensure (fun _ h => h) ?_
  rintro _ s₁ ⟨-, rfl⟩
  have hnone : ((r.filled w₀).put .root (stagedFile r.man.generation) (canonical r.man)).get? .root journalFile = none := by
    rw [World.get?_put_ne (stagedFile_ne _).1.symm]
    exact hjournal
  have hwrite : Holds (· = .done) (· = (r.filled w₀).put .root (stagedFile r.man.generation) (canonical r.man))
      (writeAt .root journalFile r.text) (fun _ s => ((r.filled w₀).put .root (stagedFile r.man.generation) (canonical r.man)).get?
        .root journalFile = none ∧ s = r.staged w₀) (fun _ => False) := by
    refine holds_writeAt Dir.open_root (fun hA => absurd hA not_faulty) fun h => ?_
    rw [hnone] at h
    cases h
  refine .second (finite_writeAt _ _ _) hwrite (fun _ h => h) ?_
  rintro _ s₁ ⟨-, rfl⟩
  exact .first .call

/-- A first update can be stopped when its journal is complete. -/
theorem cuts_emptyDir {man : Manifest} (hcand : candidate isArtifact files = .ok man) :
    Cuts ((Command.update [] ⟨[], files, []⟩).run isArtifact) ⟨emptyDir, [], []⟩
      ((requestOf false [] files man []).staged ⟨emptyDir, [requestOf false [] files man []], []⟩) := by
  have hpass : ∀ {α : Type} {f : Dir → Except ReadError α} {a : α} {w : World}, f w.dir = .ok a →
      Holds (· = .done) (· = w) (inspect f) (fun x s => a = x ∧ s = w) (fun _ => False) := by
    intro α f a w hf
    refine holds_inspect_last (fun x hx => ?_) fun e he => ?_
    · exact ⟨Except.ok.inj (hf.symm.trans hx), rfl⟩
    · rw [hf] at he
      cases he
  refine .first (.second (finite_inspect _) (hpass rfl) (fun _ h => h) ?_)
  rintro _ _ ⟨-, rfl⟩
  refine .second (finite_inspect _) (hpass hcand) (fun _ h => h) ?_
  rintro _ _ ⟨rfl, rfl⟩
  have hkeep : Holds (· = .done) (· = ⟨emptyDir, [], []⟩) (keep (·.request (requestOf false [] files man [])) : Proc World DirError Unit)
      (fun _ s => s = ⟨emptyDir, [requestOf false [] files man []], []⟩) (fun _ => False) := by
    refine .keep fun s hs => ?_
    rw [hs]
    rfl
  refine .second (.keep _) hkeep (fun _ h => h) ?_
  rintro _ _ rfl
  refine .second (finite_inspect _) (hpass (pending_none rfl _ _)) (fun _ h => h) ?_
  rintro _ _ ⟨rfl, rfl⟩
  refine .second (finite_inspect _) (hpass rfl) (fun _ h => h) ?_
  rintro _ _ ⟨-, rfl⟩
  exact .first (cuts_publish (emptyDir_sound hcand) emptyDir_clear rfl)

theorem recover_iff_first : ∃ replies s r,
    s = attempts (fun _ => true) ((Command.update [] ⟨[], [oneFile []], []⟩).run (fun _ => true)
      ⟨⟨emptyDir, [], []⟩, replies⟩).2.state [] ∧ r ∈ s.requested ∧ s.get? .root journalFile = some r.text ∧
    (recoverLocked (fun _ => true) ⟨s, fun _ => .done⟩).1 = .ok () := by
  obtain ⟨hbuild, hsize⟩ := oneFile_plain
  obtain ⟨hfree, hlen⟩ := oneManifest_texts
  obtain ⟨replies, -, hstate⟩ := cuts_emptyDir (candidate_of_build hbuild hsize)
  have hjournal := (Request.get?_staged (requestOf false [] [oneFile []] (oneManifest []) [])
    ⟨emptyDir, [requestOf false [] [oneFile []] (oneManifest []) []], []⟩ journalFile).trans (if_pos rfl)
  refine ⟨replies, _, requestOf false [] [oneFile []] (oneManifest []) [], hstate.symm, mem_singleton_self _, hjournal, ?_⟩
  refine ((recover_iff emptyDir rfl _ replies [] _ _ hstate.symm (mem_singleton_self _) hjournal ?_).mpr ⟨hlen, by decide⟩).1
  exact hfree.mono (Set.union_subset_union_right _ fun t ht => .inl ht)

/-! ### A journal that is too long -/

section TooLong

open Json

/-- A file is read without looking at the range it covers. -/
theorem parseFile_covered (f : File) (c : GoString) : parseFile isArtifact { f with coveredFrom := c } =
    (parseFile isArtifact f).map fun e => { e with coveredFrom := c } := by
  simp only [parseFile]
  by_cases htext : textOk f.sql = true
  · by_cases htrav : traverses f.name = true
    · simp only [htext, htrav, not_true_eq_false, if_false, if_true]
      rfl
    · rw [if_neg (not_not.mpr htext), if_neg (not_not.mpr htext), if_neg htrav, if_neg htrav]
      rcases matchFile f.name with - | ⟨version, name⟩
      · rfl
      dsimp only
      rcases (parseVersion version).mapError _ with - | v
      · rfl
      rcases parseDirectives f.sql with - | dirs
      · rfl
      rcases (Source.splitSQL f.name f.sql).mapError _ with - | split
      · rfl
      have hartifact : artifactOk isArtifact { f with coveredFrom := c } = artifactOk isArtifact f := rfl
      rw [hartifact]
      split_ifs <;> rfl
  · simp only [htext]
    rfl

/-- The manifest of one file. -/
theorem build_single {f : File} {e : Migration} (hparse : parseFile isArtifact f = .ok e) (hkind : e.kind ≠ checkpoint)
    (hparents : e.parents = []) (hlinear : e.nonLinear = false) :
    ∃ g x d, matchGeneration g = true ∧ matchDigest x = true ∧ matchDigest d = true ∧
      build isArtifact [f] = .ok ⟨manifestVersion, g, [{ e with chainDigest := x }], d⟩ := by
  have hparsed : parseFiles isArtifact GoMap.empty GoMap.empty [f] = .ok [e] := by
    rw [parseFiles, hparse]
    rfl
  have hlinked : Linked (versionIndex [e]) [] e { e with chainDigest := chainDigest e [] } := by
    refine ⟨fun h => absurd h hkind, ?_, ?_, ?_, ?_, ?_, ?_⟩
    · rw [defaultParents, hparents]
      rfl
    · rw [hparents]
      exact nodup_nil
    · rw [hparents]
      exact fun p hp => absurd hp not_mem_nil
    · exact iff_of_true hparents hlinear
    · exact fun h => absurd hparents h
    · show _ = ({ e with chainDigest := chainDigest e (parentChains (versionIndex [e]) [] e.parents) } : Migration)
      rw [hparents]
      rfl
  have hlink : linkAll (versionIndex [e]) [] [e] = .ok [{ e with chainDigest := chainDigest e [] }] := by
    rw [linkAll, link_ok.mpr hlinked]
    rfl
  let man : Manifest := ⟨manifestVersion, generationOf [{ e with chainDigest := chainDigest e [] }],
    [{ e with chainDigest := chainDigest e [] }], []⟩
  refine ⟨man.generation, chainDigest e [], manifestDigest man, matchGeneration_hexEncode _, matchDigest_digest _ _,
    matchDigest_digest _ _, ?_⟩
  have hsorted : build isArtifact [f] = (do
      let entries ← linkAll (versionIndex [e]) [] [e]
      let man : Manifest := ⟨manifestVersion, generationOf entries, entries, []⟩
      return { man with digest := manifestDigest man }) := by
    rw [build, hparsed]
    rfl
  rw [hsorted, hlink]
  rfl

theorem length_of_matchDigest {s : GoString} (h : matchDigest s = true) : s.length = 71 := by
  rw [matchDigest, Bool.and_eq_true, GoString.hasPrefix, isPrefixOf_iff_prefix, matchGeneration, Bool.and_eq_true, beq_iff_eq] at h
  obtain ⟨hpre, hlen, -⟩ := h
  have h7 : (str "sha256:").length = 7 := by decide
  have := hpre.length_le
  rw [length_drop] at hlen
  omega

/-- The text of a manifest with one entry, by the range that the entry covers. -/
theorem length_canonical_covered (e : Migration) (c : GoString) {g x d : GoString} (hg : matchGeneration g = true)
    (hx : matchDigest x = true) (hd : matchDigest d = true) :
    (canonical ⟨manifestVersion, g, [{ e with coveredFrom := c, chainDigest := x }], d⟩).length ≤
      size e.json + (quote c).length + 2000 := by
  have hg' : (quote g).length ≤ 6 * 64 + 2 := by
    rw [matchGeneration, Bool.and_eq_true, beq_iff_eq] at hg
    exact hg.1 ▸ length_quote_le g
  have hx' : (quote x).length ≤ 6 * 71 + 2 := length_of_matchDigest hx ▸ length_quote_le x
  have hd' : (quote d).length ≤ 6 * 71 + 2 := length_of_matchDigest hd ▸ length_quote_le d
  have hcovered : sizeMembers (omitEmpty (str "covered_from") c) ≤ 16 + (quote c).length := by
    have hname : (quote (str "covered_from")).length = 14 := by decide
    rw [omitEmpty]
    split_ifs
    · exact Nat.zero_le _
    · simp only [sizeMembers, size, hname]
      omega
  have hentry : size ({ e with coveredFrom := c, chainDigest := x } : Migration).json ≤
      size e.json + (quote c).length + (quote x).length + 16 := by
    simp only [Migration.json, size, sizeMembers_append, sizeMembers]
    omega
  have hnames : (quote (str "version")).length = 9 ∧ (quote manifestVersion).length = 32 ∧ (quote (str "generation")).length = 12 ∧
      (quote (str "entries")).length = 9 ∧ (quote (str "digest")).length = 8 := by decide
  obtain ⟨h₁, h₂, h₃, h₄, h₅⟩ := hnames
  refine (length_encode_le _).trans ?_
  simp only [Manifest.json, size, sizeMembers, map_cons, map_nil, sizeElems, h₁, h₂, h₃, h₄, h₅]
  omega

/-- The journal of a manifest is longer than what any entry covers. -/
theorem length_text_covered {e : Migration} (he : e ∈ r.man.entries) (hne : e.coveredFrom ≠ []) :
    (quote e.coveredFrom).length ≤ r.text.length := by
  have hfield : (str "covered_from", Json.str e.coveredFrom) ∈ omitEmpty (str "covered_from") e.coveredFrom := by
    rw [omitEmpty, if_neg hne]
    exact mem_singleton_self _
  have hentry : (quote e.coveredFrom).length ≤ e.json.encode.length := by
    refine length_member_le (p := (str "covered_from", Json.str e.coveredFrom)) ?_
    rw [mem_append, mem_append, mem_append, mem_append]
    exact .inl (.inl (.inl (.inr hfield)))
  have hentries : e.json.encode.length ≤ (Json.arr (r.man.entries.map Migration.json)).encode.length :=
    length_elem_le (mem_map_of_mem he)
  have hman : (Json.arr (r.man.entries.map Migration.json)).encode.length ≤ r.man.json.encode.length :=
    length_member_le (p := (str "entries", _)) (by simp)
  have htext : r.man.json.encode.length ≤ r.text.length := by
    have hjson : r.man.read.json = r.man.json := ReadManifest.json_read r.man
    have hmem : (str "manifest", r.man.read.json) ∈ present r.journal.fields := .tail _ (.tail _ (.tail _ (.head _)))
    rw [← hjson]
    exact length_member_le hmem
  omega

theorem length_quote_replicate (n : Nat) : (quote (List.replicate n 0x61)).length = n + 2 := by
  rw [quote_plain]
  · simp
  · intro b hb
    rw [eq_of_mem_replicate hb]
    decide

def wideFile : File := { oneFile [] with coveredFrom := List.replicate (9 <<< 20) 0x61 }

theorem wideFile_built : ∃ man, build (fun _ => true) [wideFile] = .ok man ∧ (canonical man).length ≤ maxManifest ∧
    ∃ e ∈ man.entries, e.coveredFrom = wideFile.coveredFrom := by
  have hone : ∃ e, parseFile (fun _ => true) (oneFile []) = .ok e ∧ e.kind ≠ checkpoint ∧ e.parents = [] ∧ e.nonLinear = false ∧
      size e.json ≤ 2000 := by
    have hok : (match parseFile (fun _ => true) (oneFile []) with
      | .ok e => decide (e.kind ≠ checkpoint ∧ e.parents = [] ∧ e.nonLinear = false ∧ size e.json ≤ 2000)
      | .error _ => false) = true := by decide +kernel
    split at hok
    · rename_i e he
      exact ⟨e, he, of_decide_eq_true hok⟩
    · cases hok
  obtain ⟨e, hparse, hkind, hparents, hlinear, hsize⟩ := hone
  have hwide : parseFile (fun _ => true) wideFile = .ok { e with coveredFrom := wideFile.coveredFrom } := by
    rw [wideFile, parseFile_covered, hparse]
    rfl
  obtain ⟨g, x, d, hg, hx, hd, hbuild⟩ := build_single hwide hkind hparents hlinear
  refine ⟨_, hbuild, ?_, _, mem_singleton_self _, rfl⟩
  have hquote : (quote wideFile.coveredFrom).length = 9 <<< 20 + 2 := length_quote_replicate _
  have := length_canonical_covered e wideFile.coveredFrom hg hx hd
  refine this.trans ?_
  have hmax : maxManifest = 16777216 := rfl
  have hnine : 9 <<< 20 = 9437184 := rfl
  omega

/-- The journal of a manifest that is not too long can be too long to be read back. -/
theorem recover_refused : ∃ replies s r,
    s = ((Command.update [] ⟨[], [wideFile], []⟩).run (fun _ => true) ⟨⟨emptyDir, [], []⟩, replies⟩).2.state ∧
    r ∈ s.requested ∧ s.get? .root journalFile = some r.text ∧
    build (fun _ => true) r.files = .ok r.man ∧ (canonical r.man).length ≤ maxManifest ∧ (∀ f ∈ r.files, f.Readable) ∧
    (recoverLocked (fun _ => true) ⟨s, fun _ => .done⟩).1 ≠ .ok () := by
  obtain ⟨man, hbuild, hsize, e, he, hcovered⟩ := wideFile_built
  have hcand := candidate_of_build hbuild hsize
  obtain ⟨replies, -, hstate⟩ := cuts_emptyDir hcand
  have hjournal := (Request.get?_staged (requestOf false [] [wideFile] man [])
    ⟨emptyDir, [requestOf false [] [wideFile] man []], []⟩ journalFile).trans (if_pos rfl)
  refine ⟨replies, _, requestOf false [] [wideFile] man [], hstate.symm, mem_singleton_self _, hjournal, hbuild, hsize, ?_, ?_⟩
  · intro f hf
    rw [mem_singleton.mp hf]
    exact .inr ⟨rfl, Utf8.valid_of_ascii fun b hb => by rw [eq_of_mem_replicate hb]; decide, rfl, rfl, rfl⟩
  · intro hok
    have hrec := holds_recover (A := (· = .done)) ⟨emptyDir_sound hcand, _, hjournal, prefix_rfl⟩
    obtain ⟨p, hp, -⟩ := hrec.of_ok (fun _ => rfl) rfl hok
    have hquote : (quote e.coveredFrom).length = 9 <<< 20 + 2 := hcovered ▸ length_quote_replicate _
    have hne : e.coveredFrom ≠ [] := by
      intro h
      rw [h] at hquote
      cases hquote
    have hlen := (length_text_covered he hne).trans hp.size
    rw [hquote] at hlen
    exact absurd hlen (by decide)

end TooLong

end AutoSql.Migrate
