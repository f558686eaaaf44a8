/-
AutoSql/Migrate/Commands.lean

What a command can leave behind.

`Step` lists every way in which one critical section can change a directory,
whatever the faults: it is refused, it is left somewhere on the way of an update
(`Request.Left`), or somewhere on the way of finishing the update of a journal that
it found (`Request.Resuming`).  `step_of_run` is the one theorem about all runs of
all commands; the properties of directories are derived from it.

The journal that a command finds must be the journal of a request, complete or not
(`Leftover`); a journal is written by nothing else.
-/
import AutoSql.Migrate.Progress

namespace AutoSql.Migrate

open GoString Proc Fallible

variable {isArtifact : GoString → Bool} {A : Reply → Prop} {w : World} {r : Request}

/-! ### Finishing an update -/

/-- What `recoverLocked` looks at, once it has read the journal of `r`: whether the
manifest is the published one already, unless something is not as it was left. -/
def Dir.resumable (isArtifact : GoString → Bool) (d : Dir) (r : Request) : Except ReadError Bool := do
  let _ ← d.verifyGenerationAt isArtifact r.man.read
  let published ← d.isPublished isArtifact r.journal
  if published then .ok true
  else do
    d.checkStaged r.man.read
    .ok false

namespace Request

variable (r : Request)

/-- The manifest is published. -/
def resumed (w : World) (published : Bool) : World :=
  if published then w else w.publish (stagedFile r.man.generation) (canonical r.man)

/-- The files to remove are gone, and the journal. -/
def completed (w : World) (published : Bool) : World :=
  ((r.resumed w published).dropAll r.cleanup).drop .root journalFile

/-- The update of the journal can be finished from here. -/
structure Resumes (isArtifact : GoString → Bool) (w : World) (published : Bool) : Prop where
  journal : w.get? .root journalFile = some r.text
  size : r.text.length ≤ maxFile
  readable : ∀ f ∈ r.files, f.Readable
  resumable : w.dir.resumable isArtifact r = .ok published

/-- Where the finishing of an update can be left. -/
inductive Resuming (w : World) (published : Bool) : World → Prop
  | resumed (done rest : List GoString) : r.cleanup = done ++ rest →
      Resuming w published ((r.resumed w published).dropAll done)
  | completed : Resuming w published (r.completed w published)

end Request

/-- The journal of `r`, or a part of it, is in the directory. -/
structure Leftover (isArtifact : GoString → Bool) (w : World) (r : Request) : Prop where
  sound : r.Sound isArtifact
  journal : ∃ raw, w.get? .root journalFile = some raw ∧ raw <+: r.text

theorem Request.cleanup_journal (r : Request) : r.journal.cleanup.getD [] = r.cleanup := by
  rw [Request.journal, newJournal]
  split_ifs with h
  · exact h.symm
  · rfl

theorem World.generations_dropAll {names : List GoString} : (w.dropAll names).dir.generations = w.dir.generations := by
  induction names generalizing w with
  | nil => rfl
  | cons n names ih => exact ih

theorem Request.generations_completed {published : Bool} :
    (r.completed w published).dir.generations = w.dir.generations := by
  show ((r.resumed w published).dropAll r.cleanup).dir.generations = _
  rw [World.generations_dropAll]
  cases published <;> rfl

/-- What is found of the journal of `r`. -/
theorem Leftover.pending (h : Leftover isArtifact w r) {limit : Nat} {guidance : GoString} {x : Option Journal}
    (hp : w.dir.pending limit guidance = .ok x) :
    x = some r.journal ∧ w.get? .root journalFile = some r.text ∧ r.text.length ≤ limit ∧ ∀ f ∈ r.files, f.Readable := by
  obtain ⟨raw, hraw, hpre⟩ := h.journal
  have hread : readAt w.dir.root journalFile limit = if limit < raw.length then .error .invalid else .ok raw := by
    have hget : w.dir.root.get? journalFile = some raw := hraw
    rw [readAt_eq (by decide), hget]
  rw [Dir.pending, hread] at hp
  by_cases hlen : limit < raw.length
  · rw [if_pos hlen] at hp
    cases hp
  · rw [if_neg hlen] at hp
    dsimp only at hp
    split at hp
    · cases hp
    · rename_i j hj
      have hfull := parseJournal_prefix hpre hj
      rw [hfull] at hj hraw hlen
      obtain ⟨rfl, hread⟩ := h.sound.of_parse hj
      exact ⟨(Except.ok.inj hp).symm, hraw, not_lt.mp hlen, hread⟩

/-- A complete journal of a request that can be read back is found. -/
theorem Request.Sound.pending (h : r.Sound isArtifact) (hjournal : w.get? .root journalFile = some r.text)
    (hread : ∀ f ∈ r.files, f.Readable) {limit : Nat} (hlen : r.text.length ≤ limit) (guidance : GoString) :
    w.dir.pending limit guidance = .ok (some r.journal) := by
  have hraw : readAt w.dir.root journalFile limit = .ok r.text := readAt_ok (by decide) hjournal hlen
  rw [Dir.pending, hraw]
  dsimp only
  rw [h.parse_text hread]

theorem pending_none (h : w.get? .root journalFile = none) (limit : Nat) (guidance : GoString) :
    w.dir.pending limit guidance = .ok none := by
  have hget : w.dir.root.get? journalFile = none := h
  rw [Dir.pending, readAt_eq (by decide), hget]

/-- The journal is there as long as it is not the turn of the journal. -/
theorem Request.get?_resumed (hjournal : w.get? .root journalFile = some r.text) (published : Bool) :
    (r.resumed w published).get? .root journalFile = some r.text := by
  cases published with
  | true => exact hjournal
  | false =>
    show (GoMap.insert _ _ _).get? journalFile = _
    rw [GoMap.get?_insert_ne journalFile_ne, GoMap.get?_erase]
    exact hjournal

variable {d : Dir} {man : Manifest} {files : List File} {path raw : GoString}

theorem Dir.checkStaged_ok (h : d.checkStaged man.read = .ok ()) :
    d.root.get? (stagedFile man.generation) = some (canonical man) := by
  rw [checkStaged] at h
  split at h
  · cases h
  · rename_i raw hraw
    have hget : d.root.get? (stagedFile man.generation) = some raw := (readAt_inv hraw).1
    rw [guard_ok, not_not] at h
    rw [hget, h.1]
    exact congrArg some (canonical_read man)

theorem Dir.checkStaged_of_get? (htrav : traverses (stagedFile man.generation) = false)
    (hsize : (canonical man).length ≤ maxManifest) (h : d.root.get? (stagedFile man.generation) = some (canonical man)) :
    d.checkStaged man.read = .ok () := by
  have hraw : readAt d.root (stagedFile man.read.generation) maxManifest = .ok (canonical man) := readAt_ok htrav h hsize
  rw [checkStaged, hraw]
  exact if_neg (not_not.mpr (canonical_read man).symm)

/-- Finishing the update of a journal. -/
theorem holds_recover (h : Leftover isArtifact w r) :
    Holds A (· = w) (recoverLocked isArtifact) (fun _ s => ∃ p, r.Resumes isArtifact w p ∧ s = r.completed w p)
      (fun s => (Faulty A ∨ ∀ p, ¬ r.Resumes isArtifact w p) ∧ (s = w ∨ ∃ p, r.Resumes isArtifact w p ∧ r.Resuming w p s)) := by
  refine holds_inspect (fun x hx => ?_) fun e he => ⟨.inr fun p hp => ?_, .inl rfl⟩
  · obtain ⟨rfl, hjournal, hlen, hread⟩ := h.pending hx
    -- until the rename nothing is written, so every refusal leaves the directory as it was
    have hrefused : ∀ {e}, w.dir.resumable isArtifact r = .error e → ∀ p, ¬ r.Resumes isArtifact w p := by
      intro e he p hp
      rw [hp.resumable] at he
      cases he
    have hverify : ∀ {x}, w.dir.verifyGenerationAt isArtifact r.man.read = .error x → ∃ e, w.dir.resumable isArtifact r = .error e := by
      intro x hx
      rw [Dir.resumable, hx]
      exact ⟨x, rfl⟩
    refine holds_inspect (fun files hfiles => ?_) fun e he => ⟨.inr ?_, .inl rfl⟩
    swap
    · obtain ⟨x, hx⟩ := hverify he
      exact hrefused hx
    have hresumable : w.dir.resumable isArtifact r = (do
        let published ← w.dir.isPublished isArtifact r.journal
        if published then .ok true
        else do
          w.dir.checkStaged r.man.read
          .ok false) := by
      have : w.dir.verifyGenerationAt isArtifact r.man.read = .ok files := hfiles
      rw [Dir.resumable, this]
      rfl
    refine holds_inspect (fun p hp => ?_) fun e he => ⟨.inr ?_, .inl rfl⟩
    swap
    · have : w.dir.isPublished isArtifact r.journal = .error e := he
      rw [this] at hresumable
      exact hrefused hresumable
    have hfinish : r.Resumes isArtifact w p → Holds A (· = r.resumed w p) (finish (r.journal.cleanup.getD []))
        (fun _ s => ∃ p, r.Resumes isArtifact w p ∧ s = r.completed w p)
        (fun s => (Faulty A ∨ ∀ p, ¬ r.Resumes isArtifact w p) ∧ (s = w ∨ ∃ p, r.Resumes isArtifact w p ∧ r.Resuming w p s)) := by
      intro hres
      rw [r.cleanup_journal]
      refine (holds_finish (Option.isSome_iff_exists.mpr ⟨_, r.get?_resumed hjournal p⟩) (fun hc => (h.sound.cleanup_ne hc).1 rfl)
        fun hA => ⟨fun done rest hl => ⟨.inl hA, .inr ⟨p, hres, .resumed done rest hl⟩⟩, .inl hA, .inr ⟨p, hres, .completed⟩⟩).post ?_
      intro _ s hs
      exact ⟨p, hres, hs⟩
    have hp' : w.dir.isPublished isArtifact r.journal = .ok p := hp
    rw [hp'] at hresumable
    cases p with
    | true => exact holds_seq (.pure () fun s hs => hs) (hfinish ⟨hjournal, hlen, hread, hresumable⟩)
    | false =>
      refine Holds.seq (M := fun s => r.Resumes isArtifact w false ∧ s = r.resumed w false) ?_ (Holds.of_pre hfinish)
      · refine holds_inspect (fun _ hs => ?_) fun e he => ⟨.inr ?_, .inl rfl⟩
        · have hs' : w.dir.checkStaged r.man.read = .ok () := hs
          have hres : r.Resumes isArtifact w false := by
            refine ⟨hjournal, hlen, hread, ?_⟩
            rw [hresumable]
            rw [hs']
            rfl
          have hnext : Faulty A → (Faulty A ∨ ∀ p, ¬ r.Resumes isArtifact w p) ∧
              (r.resumed w false = w ∨ ∃ p, r.Resumes isArtifact w p ∧ r.Resuming w p (r.resumed w false)) := fun hA =>
            ⟨.inl hA, .inr ⟨false, hres, .resumed [] _ rfl⟩⟩
          refine holds_seq (holds_rename (Dir.checkStaged_ok hs') fun hA => ⟨⟨.inl hA, .inl rfl⟩, hnext hA⟩) ?_
          exact (holds_sync hnext).post fun _ s hs => ⟨hres, hs⟩
        · have hs' : w.dir.checkStaged r.man.read = .error e := he
          have : w.dir.resumable isArtifact r = .error e := by
            rw [hresumable]
            rw [hs']
            rfl
          exact hrefused this
  · rw [h.sound.pending hp.journal hp.readable hp.size] at he
    cases he

/-! ### Updating -/

theorem Leftover.request (h : Leftover isArtifact w r) (r' : Request) : Leftover isArtifact (w.request r') r :=
  ⟨h.sound, h.journal⟩

theorem candidate_ok (h : candidate isArtifact files = .ok man) :
    build isArtifact files = .ok man ∧ (canonical man).length ≤ maxManifest := by
  obtain ⟨m, hm, h⟩ := bind_ok.mp h
  rw [guard_ok, not_lt] at h
  cases h.2
  rw [mapError_ok] at hm
  exact ⟨hm, h.1⟩

theorem candidate_of_build (h : build isArtifact files = .ok man)
    (hsize : (canonical man).length ≤ maxManifest) : candidate isArtifact files = .ok man := by
  rw [candidate, h]
  exact if_neg (not_lt.mpr hsize)

/-- A manifest that was accepted has the digest of its text. -/
theorem matchDigest_of_loadAt {m : ReadManifest} (h : d.loadAt = .ok (m, raw)) : matchDigest m.digest = true := by
  obtain ⟨raw', -, h⟩ := bind_ok.mp h
  obtain ⟨m', hm, h⟩ := bind_ok.mp h
  cases h
  rw [strictManifest, guard_ok, guard_ok] at hm
  obtain ⟨-, -, hm⟩ := hm
  split at hm
  · cases hm
  · simp only [guard_ok, bind_ok, not_not] at hm
    obtain ⟨-, -, -, -, hdig, -, hm⟩ := hm
    rw [← Except.ok.inj hm, ← hdig]
    exact matchDigest_digest _ _

/-- What the compare-and-swap establishes. -/
theorem checkCurrent_ok {allowLegacy : Bool} {expected : GoString}
    (h : d.checkCurrent isArtifact allowLegacy path expected = .ok ()) :
    (∃ m raw, d.loadAt = .ok (m, raw) ∧ (∃ s, d.snapshotAt isArtifact = .ok s) ∧ m.digest = expected ∧ expected ≠ []) ∨
      allowLegacy = true ∧ (∃ e, d.loadAt = .error e) ∨
      allowLegacy = false ∧ d.loadAt = .error .notExist ∧ expected = [] := by
  rw [Dir.checkCurrent] at h
  split at h
  · rename_i m raw hload
    split at h
    · cases h
    · rename_i s hs
      simp only [guard_ok, not_not] at h
      exact .inl ⟨m, raw, hload, ⟨s, hs⟩, h.2.1, h.1⟩
  · rename_i e hload
    cases allowLegacy with
    | true => exact .inr (.inl ⟨rfl, e, hload⟩)
    | false =>
      rw [if_neg (by decide)] at h
      simp only [guard_ok, not_not] at h
      exact .inr (.inr ⟨rfl, h.1 ▸ hload, h.2.1⟩)

section Update

variable {allowLegacy : Bool} {path expected : GoString} {files : List File} {cleanup : List GoString} {man : Manifest}

theorem sound_requestOf (hcand : candidate isArtifact files = .ok man)
    (hcurrent : w.dir.checkCurrent isArtifact allowLegacy path expected = .ok ())
    (hlegacy : allowLegacy = true → matchDigest expected = true)
    (hcleanup : cleanup = [] ∨ allowLegacy = true ∧ cleanup = files.map File.name) :
    (requestOf allowLegacy expected files man cleanup).Sound isArtifact where
  built := (candidate_ok hcand).1
  declared := by cases allowLegacy <;> rfl
  expected := by
    rcases checkCurrent_ok hcurrent with ⟨m, raw, hload, -, hdig, -⟩ | ⟨hl, -⟩ | ⟨-, -, he⟩
    · exact .inr (hdig ▸ matchDigest_of_loadAt hload)
    · exact .inr (hlegacy hl)
    · exact .inl he
  cleanup := hcleanup.imp_right fun h => ⟨by rw [h.1]; rfl, h.2⟩

variable (hcand : candidate isArtifact files = .ok man) (hreq : r = requestOf allowLegacy expected files man cleanup)
include hcand hreq

/-- The steps of `updateLocked` up to the reading of the journal. -/
theorem holds_update {E : World → Prop} {Q : Manifest → World → Prop} {x : Option Journal}
    (hpending : w.dir.pending maxManifest (str "retain and inspect the exact journal") = .ok x)
    (hnew : x = none → w.dir.checkCurrent isArtifact allowLegacy path expected = .ok () →
      Holds A (· = w.request r) (publish r) (fun _ => Q man) E)
    (hold : ∀ j, x = some j → j.manifest.digest = man.digest ∧ j.expectedDigest = expected ∧ j.kind = r.kind →
      Holds A (· = w.request r) (do recoverLocked isArtifact; let _ ← inspect (·.verifyGenerationAt isArtifact man.read); pure man) Q E)
    (hE : (x = none ∧ w.dir.checkCurrent isArtifact allowLegacy path expected ≠ .ok ()) ∨
      (∃ j, x = some j ∧ ¬ (j.manifest.digest = man.digest ∧ j.expectedDigest = expected ∧ j.kind = r.kind)) → E (w.request r)) :
    Holds A (· = w) (updateLocked isArtifact allowLegacy path expected files cleanup) Q E := by
  refine holds_inspect (fun m hm => ?_) fun e he => absurd he (by simp [hcand])
  rw [hcand] at hm
  cases hm
  rw [← hreq]
  have hkeep : Holds A (· = w) (keep (·.request r) : Proc World DirError Unit) (fun _ => (· = w.request r)) E :=
    .keep fun s hs => hs ▸ rfl
  refine holds_seq hkeep (holds_inspect (fun y hy => ?_) fun e he => ?_)
  · have hxy : x = y := Except.ok.inj (hpending.symm.trans hy)
    subst hxy
    cases x with
    | none =>
      refine holds_inspect (fun _ hc => ?_) fun e he => hE (.inl ⟨rfl, fun hc => ?_⟩)
      · exact (hnew rfl hc).bind fun _ => .pure man fun s hs => hs
      · rw [show (w.request r).dir = w.dir from rfl, hc] at he
        cases he
    | some j =>
      refine holds_inspect (fun _ hm => ?_) fun e he => hE (.inr ⟨j, rfl, fun hm => ?_⟩)
      · rw [guard_ok] at hm
        refine hold j rfl ?_
        by_contra hne
        exact hm.1 (by tauto)
      · rw [if_neg (by tauto)] at he
        cases he
  · rw [show (w.request r).dir = w.dir from rfl, hpending] at he
    cases he

/-- An update of a directory without a journal. -/
theorem holds_update_new (hjournal : w.get? .root journalFile = none)
    (hcurrent : w.dir.checkCurrent isArtifact allowLegacy path expected = .ok ()) (hr : r.Sound isArtifact) :
    Holds A (· = w) (updateLocked isArtifact allowLegacy path expected files cleanup)
      (fun m s => m = man ∧ r.Clear (w.request r) ∧ s = r.finished (w.request r))
      (fun s => (Faulty A ∨ ¬ r.Clear (w.request r)) ∧ r.Left (w.request r) s) := by
  refine holds_update hcand hreq (pending_none hjournal _ _) (fun _ _ => ?_) (fun j hj => nomatch hj) ?_
  · have hjournal' : (w.request r).get? .root journalFile = none := hjournal
    exact (holds_publishing hr hjournal').post fun _ s hs => ⟨rfl, hs⟩
  · rintro (⟨-, h⟩ | ⟨j, hj, -⟩)
    · exact absurd hcurrent h
    · cases hj

/-- An update that finds the journal of `r₀`. -/
theorem holds_update_again {r₀ : Request} (h : Leftover isArtifact w r₀)
    (hpending : w.dir.pending maxManifest (str "retain and inspect the exact journal") = .ok (some r₀.journal)) :
    Holds A (· = w) (updateLocked isArtifact allowLegacy path expected files cleanup)
      (fun m s => m = man ∧ r₀.man.digest = man.digest ∧ r₀.expected = expected ∧ r₀.kind = r.kind ∧
        ∃ p, r₀.Resumes isArtifact (w.request r) p ∧ s = r₀.completed (w.request r) p)
      (fun s => (Faulty A ∨ (∀ p, ¬ r₀.Resumes isArtifact (w.request r) p) ∨ r₀.man ≠ man ∨ r₀.expected ≠ expected ∨ r₀.kind ≠ r.kind) ∧
        (s = w.request r ∨ r₀.man.digest = man.digest ∧ r₀.expected = expected ∧ r₀.kind = r.kind ∧
          ∃ p, r₀.Resumes isArtifact (w.request r) p ∧ r₀.Resuming (w.request r) p s)) := by
  refine holds_update hcand hreq hpending (fun hx => nomatch hx) ?_ ?_
  · intro j hj hmatch
    cases hj
    obtain ⟨hdigest, hexpected, hkind⟩ := hmatch
    have hrec := holds_recover (A := A) (h.request r)
    refine (hrec.mono (fun _ hs => hs) (fun _ _ hs => hs) ?_).bind fun _ => .of_state ?_
    · rintro s ⟨hf, hs⟩
      exact ⟨hf.imp_right .inl, hs.imp_right fun hs => ⟨hdigest, hexpected, hkind, hs⟩⟩
    · rintro s ⟨p, hp, rfl⟩
      refine holds_inspect (fun _ _ => .pure man fun s hs => ⟨rfl, hdigest, hexpected, hkind, p, hp, hs⟩) fun e he =>
        ⟨.inr (.inr (.inl fun hman => ?_)), .inr ⟨hdigest, hexpected, hkind, p, hp, .completed⟩⟩
      -- the generation is the one that was verified before
      have hgenerations : (r₀.completed (w.request r) p).dir.generations = w.dir.generations := r₀.generations_completed
      obtain ⟨x, hx, -⟩ := bind_ok.mp hp.resumable
      rw [hman] at hx
      rw [Dir.verifyGenerationAt, Dir.openGeneration, hgenerations] at he
      rw [Dir.verifyGenerationAt, Dir.openGeneration, show (w.request r).dir = w.dir from rfl, he] at hx
      cases hx
  · rintro (⟨hx, -⟩ | ⟨j, hj, hne⟩)
    · cases hx
    · cases hj
      refine ⟨.inr (.inr ?_), .inl rfl⟩
      by_contra hno
      push Not at hno
      exact hne ⟨congrArg Manifest.digest hno.1, hno.2.1, hno.2.2⟩

end Update

/-- An update of a directory without a journal, if nothing fails. -/
theorem update_done {expected : GoString} {y : Sys World}
    (hdone : ∀ n, y.replies n = .done) (hcand : candidate isArtifact files = .ok man)
    (hjournal : y.state.get? .root journalFile = none)
    (hcurrent : y.state.dir.checkCurrent isArtifact false path expected = .ok ())
    (hreq : r = requestOf false expected files man []) (hclear : r.Clear (y.state.request r)) :
    (update isArtifact path ⟨[], files, expected⟩ y).1 = .ok man ∧
      (update isArtifact path ⟨[], files, expected⟩ y).2.state = r.finished (y.state.request r) := by
  have hr : r.Sound isArtifact := hreq ▸ sound_requestOf hcand hcurrent (fun h => by cases h) (.inl rfl)
  have hupdate : Holds (· = .done) (· = y.state) (update isArtifact path ⟨[], files, expected⟩)
      (fun m s => m = man ∧ r.Clear (y.state.request r) ∧ s = r.finished (y.state.request r))
      (fun s => (Faulty (· = .done) ∨ ¬ r.Clear (y.state.request r)) ∧ r.Left (y.state.request r) s) :=
    holds_inspect (fun _ _ => holds_update_new hcand hreq hjournal hcurrent hr) fun e he => by cases he
  obtain ⟨m, hm, rfl, -, hs⟩ := hupdate.returns (fun s hs => hs.1.elim not_faulty fun h => h hclear) hdone rfl
  exact ⟨hm, hs⟩

/-! ### Every run -/

/-- How `updateLocked` can leave a directory. -/
inductive UpdateStep (isArtifact : GoString → Bool) (allowLegacy : Bool) (path expected : GoString) (files : List File)
    (cleanup : List GoString) (w : World) : World → Prop
  | same : UpdateStep isArtifact allowLegacy path expected files cleanup w w
  | refused {man : Manifest} : candidate isArtifact files = .ok man →
      UpdateStep isArtifact allowLegacy path expected files cleanup w (w.request (requestOf allowLegacy expected files man cleanup))
  | published {man : Manifest} {s : World} : candidate isArtifact files = .ok man → w.get? .root journalFile = none →
      w.dir.checkCurrent isArtifact allowLegacy path expected = .ok () →
      (requestOf allowLegacy expected files man cleanup).Left (w.request (requestOf allowLegacy expected files man cleanup)) s →
      UpdateStep isArtifact allowLegacy path expected files cleanup w s
  | resumed {man : Manifest} {r₀ : Request} {p : Bool} {s : World} : candidate isArtifact files = .ok man →
      Leftover isArtifact w r₀ → r₀.man.digest = man.digest → r₀.expected = expected → r₀.kind = journalKind allowLegacy →
      r₀.Resumes isArtifact (w.request (requestOf allowLegacy expected files man cleanup)) p →
      r₀.Resuming (w.request (requestOf allowLegacy expected files man cleanup)) p s →
      UpdateStep isArtifact allowLegacy path expected files cleanup w s

/-- There is no journal, or one that a request has left. -/
def Found (isArtifact : GoString → Bool) (w : World) : Prop :=
  w.get? .root journalFile = none ∨ ∃ r, Leftover isArtifact w r

section UpdateStep

variable {allowLegacy : Bool} {path expected : GoString} {files : List File} {cleanup : List GoString}

theorem holds_updateLocked (hfound : Found isArtifact w) (hlegacy : allowLegacy = true → matchDigest expected = true)
    (hcleanup : cleanup = [] ∨ allowLegacy = true ∧ cleanup = files.map File.name) :
    Leaves A (· = w) (updateLocked isArtifact allowLegacy path expected files cleanup)
      (UpdateStep isArtifact allowLegacy path expected files cleanup w) := by
  rcases hcand : candidate isArtifact files with e | man
  · refine holds_inspect (fun m hm => ?_) fun _ _ => .same
    rw [hcand] at hm
    cases hm
  rcases hp : w.dir.pending maxManifest (str "retain and inspect the exact journal") with e | x
  · -- the journal is not accepted
    have hkeep : Holds A (· = w) (keep (·.request (requestOf allowLegacy expected files man cleanup)) : Proc World DirError Unit)
        (fun _ => (· = w.request (requestOf allowLegacy expected files man cleanup)))
        (UpdateStep isArtifact allowLegacy path expected files cleanup w) := .keep fun s hs => hs ▸ rfl
    refine holds_inspect (fun m hm => ?_) fun _ _ => .same
    rw [hcand] at hm
    cases hm
    refine holds_seq hkeep (holds_inspect (fun y hy => ?_) fun _ _ => .refused hcand)
    rw [show (World.request w _).dir = w.dir from rfl, hp] at hy
    cases hy
  rcases hfound with hnone | ⟨r₀, h⟩
  · by_cases hcurrent : w.dir.checkCurrent isArtifact allowLegacy path expected = .ok ()
    · have hr := sound_requestOf hcand hcurrent hlegacy hcleanup
      refine (holds_update_new hcand rfl hnone hcurrent hr).mono (fun _ hs => hs) ?_ fun s hs => .published hcand hnone hcurrent hs.2
      rintro m s ⟨-, hclear, rfl⟩
      exact .published hcand hnone hcurrent (.finished hclear)
    · refine holds_update hcand rfl (pending_none hnone _ _) (fun _ hc => absurd hc hcurrent) (fun j hj => nomatch hj) fun _ => .refused hcand
  · obtain ⟨rfl, -⟩ := h.pending hp
    refine (holds_update_again hcand rfl h hp).mono (fun _ hs => hs) ?_ ?_
    · rintro m s ⟨-, hdig, hexp, hkind, p, hres, rfl⟩
      exact .resumed hcand h hdig hexp hkind hres .completed
    · rintro s ⟨-, rfl | ⟨hdig, hexp, hkind, p, hres, hs⟩⟩
      · exact .refused hcand
      · exact .resumed hcand h hdig hexp hkind hres hs

end UpdateStep

/-- The copy of the legacy manifest. -/
def copyFile : GoString := manifestFile ++ str ".v0"

/-- How a command can leave a directory. -/
inductive Step (isArtifact : GoString → Bool) (w : World) : World → Prop
  | same : Step isArtifact w w
  | updated {path : GoString} {req : UpdateRequest} {s : World} :
      UpdateStep isArtifact false path req.expected req.files [] w s → Step isArtifact w s
  | recovered {r : Request} {p : Bool} {s : World} : Leftover isArtifact w r → r.Resumes isArtifact w p →
      r.Resuming w p s → Step isArtifact w s
  | copied {raw q : GoString} : w.get? .root journalFile = none → q <+: raw → w.get? .root copyFile = none →
      Step isArtifact w (w.put .root copyFile q)
  | migrated {path raw : GoString} {old : LegacyManifest} {files : List File} {s : World} :
      w.get? .root journalFile = none → (∃ e, w.dir.loadAt = .error e) → w.dir.legacyFiles = .ok (raw, old, files) →
      UpdateStep isArtifact true path old.digest files (files.map File.name) (w.put .root copyFile raw) s → Step isArtifact w s

theorem copyFile_ne : copyFile ≠ journalFile ∧ copyFile ≠ manifestFile ∧ traverses copyFile = false := by decide

theorem matchDigest_of_legacy {old : LegacyManifest} (h : parseLegacyManifest raw = .ok old) :
    matchDigest old.digest = true := by
  rw [parseLegacyManifest, guard_ok] at h
  obtain ⟨-, h⟩ := h
  split at h
  · cases h
  · simp only [guard_ok, bind_ok, not_not] at h
    obtain ⟨-, hdig, -, -, h⟩ := h
    rw [← Except.ok.inj h, ← hdig]
    exact matchDigest_digest _ _

/-- What is known of a legacy manifest. -/
theorem legacyFiles_ok {old : LegacyManifest} (h : d.legacyFiles = .ok (raw, old, files)) :
    readAt d.root manifestFile maxManifest = .ok raw ∧ parseLegacyManifest raw = .ok old ∧ matchDigest old.digest = true := by
  obtain ⟨raw', hraw, h⟩ := bind_ok.mp h
  obtain ⟨old', hold, h⟩ := bind_ok.mp h
  obtain ⟨files', -, h⟩ := bind_ok.mp h
  cases h
  exact ⟨hraw, hold, matchDigest_of_legacy hold⟩

theorem Leftover.recover {P : World → Prop} (h : Leftover isArtifact w r) (hsame : P w)
    (hresuming : ∀ {p s}, r.Resumes isArtifact w p → r.Resuming w p s → P s) :
    Leaves A (· = w) (recoverLocked isArtifact) P := by
  refine (holds_recover h).mono (fun _ hs => hs) ?_ ?_
  · rintro _ s ⟨p, hp, rfl⟩
    exact hresuming hp .completed
  · rintro s ⟨-, rfl | ⟨p, hp, hs⟩⟩
    · exact hsame
    · exact hresuming hp hs

/-- What holds before the finishing, and wherever it can be left, holds after it. -/
theorem Found.recover {P : World → Prop} (hfound : Found isArtifact w) (hsame : P w)
    (hresuming : ∀ {r p s}, Leftover isArtifact w r → r.Resumes isArtifact w p → r.Resuming w p s → P s) :
    Leaves A (· = w) (recoverLocked isArtifact) P := by
  rcases hfound with hnone | ⟨r, h⟩
  · refine holds_inspect (fun x hx => ?_) fun _ _ => hsame
    rw [pending_none hnone] at hx
    cases hx
    exact .pure () fun s hs => hs ▸ hsame
  · exact h.recover hsame (hresuming h)

theorem holds_migrateManifest {source : GoString} (hfound : Found isArtifact w) :
    Leaves A (· = w) (migrateManifest isArtifact path source) (Step isArtifact w) := by
  have hverify : ∀ {s}, Step isArtifact w s → Leaves A (· = s) (verify isArtifact) (Step isArtifact w) :=
    fun hs => holds_inspect (fun _ _ => .pure _ fun s' hs' => hs' ▸ hs) fun _ _ => hs
  unfold migrateManifest
  split_ifs
  · exact hverify .same
  · exact .fail fun s hs => hs ▸ .same
  refine holds_inspect (fun journal hjournal => ?_) fun _ _ => .same
  cases journal with
  | true => exact (hfound.recover .same .recovered).bind fun _ => .of_state fun s hs => hverify hs
  | false =>
    have hnone : w.get? .root journalFile = none := by
      rw [Dir.hasJournal, readAt_eq (by decide)] at hjournal
      cases hget : w.dir.root.get? journalFile with
      | none => exact hget
      | some b =>
        rw [hget] at hjournal
        dsimp only at hjournal
        split_ifs at hjournal
        cases hjournal
    refine holds_look ?_
    split
    · exact hverify .same
    · rename_i e hload
      refine holds_inspect (fun x hx => ?_) fun _ _ => .same
      obtain ⟨raw, old, files⟩ := x
      obtain ⟨-, -, hdigest⟩ := legacyFiles_ok hx
      have hcopy : Holds A (· = w) (ensureFileAt .root copyFile raw)
          (fun _ s => (w.get? .root copyFile = none ∨ w.get? .root copyFile = some raw) ∧ s = w.put .root copyFile raw)
          (Step isArtifact w) :=
        holds_ensureFileAt Dir.open_root (fun _ => ⟨.same, fun hnew q hq => .copied hnone hq hnew⟩) fun _ => .same
      refine hcopy.bind fun _ => Holds.of_pre fun _ => ?_
      have hnone' : (w.put .root copyFile raw).get? .root journalFile = none := by
        rw [World.get?_put_ne copyFile_ne.1.symm]
        exact hnone
      have hupdate : Leaves A (· = w.put .root copyFile raw)
          (updateLocked isArtifact true path old.digest files (files.map File.name))
          (UpdateStep isArtifact true path old.digest files (files.map File.name) (w.put .root copyFile raw)) :=
        holds_updateLocked (.inl hnone') (fun _ => hdigest) (.inr ⟨rfl, rfl⟩)
      exact (hupdate.imp fun s hs => .migrated hnone ⟨e, hload⟩ hx hs).bind fun man => .pure _ fun s hs => hs

/-- Whatever the faults, a command leaves the directory in one of the ways listed. -/
theorem step_of_run (hfound : Found isArtifact w) (c : Command) :
    Leaves A (· = w) (c.run isArtifact) (Step isArtifact w) := by
  cases c with
  | update path req =>
    have hupdate : Leaves A (· = w) (updateLocked isArtifact false path req.expected req.files [])
        (UpdateStep isArtifact false path req.expected req.files [] w) := holds_updateLocked hfound (fun h => by cases h) (.inl rfl)
    refine Holds.bind (Q := fun _ => Step isArtifact w) ?_ fun _ => .pure () fun _ hs => hs
    exact holds_inspect (fun _ _ => hupdate.imp fun _ => .updated) fun _ _ => .same
  | recover =>
    exact hfound.recover .same .recovered
  | migrateManifest path source =>
    exact (holds_migrateManifest hfound).bind fun _ => .pure () fun _ hs => hs

end AutoSql.Migrate
