/-
AutoSql/Executor/Rules.lean

What each part of a run does to the core, that is to the database, the open
transaction and the log of sent SQL.

Most parts leave the core as it is: the audit, the checks before the first step,
the prechecks.  Their rules are therefore about an arbitrary assertion `R` on the
core, which holds before and after; what they demand of `E`, the assertion about
runs that end early, says when the part can end the run.
-/
import AutoSql.Executor.Run

namespace AutoSql.Executor

open Artifacts Proc Option

variable {σ α β : Type} {b : Backend σ} {cfg : Config} {a : VerifiedArtifact}

/-- `Holds` for assertions on the core. -/
def On (A : Reply → Prop) (R : Core σ → Prop) (p : Exec σ α) (Q : α → Core σ → Prop) (E : Core σ → Prop) : Prop :=
  Holds A (fun w => R w.core) p (fun x w => Q x w.core) fun w => E w.core

namespace On

variable {A : Reply → Prop} {R R' E E' : Core σ → Prop} {p : Exec σ α} {Q Q' : α → Core σ → Prop}

/-! ### Structural rules -/

theorem mono (h : On A R p Q E) (hR : ∀ c, R' c → R c) (hQ : ∀ x c, Q x c → Q' x c) (hE : ∀ c, E c → E' c) :
    On A R' p Q' E' :=
  Holds.mono h (fun _ => hR _) (fun _ _ => hQ _ _) fun _ => hE _

variable {e : Failure} {guidance step type : GoString} {T : β → Core σ → Prop}

theorem bind {f : α → Exec σ β} (hp : On A R p Q E) (hf : ∀ x, On A (Q x) (f x) T E) : On A R (p >>= f) T E :=
  Holds.bind hp hf

theorem seq {q : Exec σ Unit} {M : Core σ → Prop} {f : Unit → Exec σ β}
    (hq : On A R q (fun _ => M) E) (hf : On A M (f ()) T E) : On A R (q >>= f) T E :=
  Holds.seq hq hf

theorem pure (x : α) (h : ∀ c, R c → Q x c) : On A R (pure x : Exec σ α) Q E := Holds.pure x fun _ => h _

theorem fail (h : ∀ c, R c → E c) : On A R (fail e : Exec σ α) Q E := Holds.fail fun _ => h _

/-- Facts that do not depend on the state. -/
theorem of_pre {fact : Prop} (h : fact → On A R p Q E) : On A (fun c => fact ∧ R c) p Q E := Holds.of_pre h

/-- A point that is not reached. -/
theorem absurd (h : ∀ c, ¬ R c) : On A R p Q E := Holds.absurd.pre fun _ hw => h _ hw

/-- Reading the core, and going on with what was read. -/
theorem look {f : World σ → Exec σ β} (hf : ∀ w, On A (fun c => c = w.core ∧ R c) (f w) T E) :
    On A R (Proc.look >>= f) T E := by
  refine Holds.bind (Q := fun w w' => w'.core = w.core ∧ R w'.core) (Holds.look fun w hw => ⟨rfl, hw⟩) ?_
  exact fun w => hf w

/-- A change of what the executor keeps besides the core. -/
theorem keep {f : World σ → World σ} (hf : ∀ w, (f w).core = w.core) :
    On A R (Proc.keep f : Exec σ Unit) (fun _ => R) E :=
  Holds.keep fun w hw => by rwa [hf w]

theorem ask (hE : Faulty A → ∀ c, R c → E c) : On A R (Proc.ask e : Exec σ Unit) (fun _ => R) E :=
  Holds.ask (fun _ => id) fun hf w => hE hf w.core

theorem onlyIf {c : Prop} [Decidable c] {q : Exec σ Unit} {Q : Unit → Core σ → Prop} (hq : c → On A R q Q E)
    (hn : ¬ c → ∀ k, R k → Q () k) : On A R (Proc.onlyIf c q) Q E :=
  Holds.onlyIf hq fun hc _ => hn hc _

theorem onError {h : Failure → Exec σ α} {F : Core σ → Prop} (hp : On A R p Q F) (hE : ∀ c, F c → E c)
    (hh : ∀ e, On A F (h e) Q E) : On A R (Proc.onError p h) Q E :=
  Holds.onError hp (fun _ => hE _) hh

/-- The handler adds nothing to what is known of an early end. -/
theorem recover {h : Failure → Exec σ α} (hp : On A R p Q E) (hh : ∀ e, On A E (h e) Q E) :
    On A R (Proc.onError p h) Q E :=
  onError hp (fun _ => id) hh

theorem forEach {f : β → Exec σ Unit} {l : List β} (I : List β → Core σ → Prop)
    (step : ∀ done x rest, l = done ++ x :: rest → On A (I done) (f x) (fun _ => I (done ++ [x])) E) :
    On A (I []) (Proc.forEach f l) (fun _ => I l) E :=
  Holds.forEach (fun done (w : World σ) => I done w.core) step

/-- A loop whose steps keep an assertion keeps it. -/
theorem forEach_keeps {f : β → Exec σ Unit} {l : List β} (step : ∀ x ∈ l, On A R (f x) (fun _ => R) E) :
    On A R (Proc.forEach f l) (fun _ => R) E := by
  refine forEach (fun _ => R) fun done x rest hl => step x ?_
  simp [hl]

/-- A call that changes the core. -/
theorem call {f : Core σ → Option (Core σ)} {Q : Unit → Core σ → Prop}
    (hdone : ∀ c, R c → ∀ c', f c = some c' → Q () c') (hrefused : ∀ c, R c → f c = none → E c)
    (hfault : Faulty A → ∀ c, R c → E c ∧ ∀ c', f c = some c' → E c') :
    On A R (Proc.call (fun w => w.onCore f) e : Exec σ Unit) Q E := by
  refine Holds.call ?_ ?_ ?_
  · intro w hw w' h
    obtain ⟨c', hc', rfl⟩ := map_eq_some_iff.mp h
    exact hdone _ hw c' hc'
  · intro w hw h
    exact hrefused _ hw (map_eq_none_iff.mp h)
  · intro hf w hw
    obtain ⟨before, after⟩ := hfault hf _ hw
    refine ⟨before, fun w' h => ?_⟩
    obtain ⟨c', hc', rfl⟩ := map_eq_some_iff.mp h
    exact after c' hc'

theorem statement {f : Data σ → Option (Data σ)} {Q : Unit → Core σ → Prop}
    (hdone : ∀ c, R c → ∀ d, f c.data = some d → Q () (c.store d)) (hrefused : ∀ c, R c → f c.data = none → E c)
    (hfault : Faulty A → ∀ c, R c → E c ∧ ∀ d, f c.data = some d → E (c.store d)) : On A R (statement f e) Q E := by
  refine call ?_ ?_ ?_
  · intro c hc c' h
    obtain ⟨d, hd, rfl⟩ := map_eq_some_iff.mp h
    exact hdone c hc d hd
  · intro c hc h
    exact hrefused c hc (map_eq_none_iff.mp h)
  · intro hf c hc
    obtain ⟨before, after⟩ := hfault hf c hc
    refine ⟨before, fun c' h => ?_⟩
    obtain ⟨d, hd, rfl⟩ := map_eq_some_iff.mp h
    exact after d hd

/-! ### Parts that leave the core as it is -/

/-- The clock gives one of its readings. -/
theorem now_clock : On A R (now cfg) (fun t c => (∃ n, t = cfg.clock n) ∧ R c) E := by
  refine look fun w => ?_
  refine seq (M := fun c => c = w.core ∧ R c) (keep fun _ => rfl) ?_
  exact pure _ fun _ h => ⟨⟨_, rfl⟩, h.2⟩

theorem audit (hE : Faulty A → ∀ c, R c → E c) : On A R (audit cfg a type step guidance) (fun _ => R) E := by
  refine onlyIf (fun _ => now_clock.bind fun t => ?_) fun _ _ => id
  refine Holds.call ?_ (fun _ _ h => nomatch h) ?_
  · rintro w hw w' ⟨⟩
    exact hw.2
  · intro hf w hw
    refine ⟨hE hf _ hw.2, ?_⟩
    rintro w' ⟨⟩
    exact hE hf _ hw.2

theorem refuse {Q : Unit → Core σ → Prop} (hE : ∀ c, R c → E c) : On A R (refuse cfg a type guidance e) Q E :=
  (audit fun _ => hE).seq (fail hE)

theorem failWith {Q : Unit → Core σ → Prop} (hE : ∀ c, R c → E c) :
    On A R (failWith cfg a type step guidance e) Q E := by
  refine seq (M := R) ?_ (fail hE)
  exact onError (audit fun _ _ => id) hE fun _ => fail hE

theorem uncertain {Q : Unit → Core σ → Prop} (hE : ∀ c, R c → E c) : On A R (uncertain cfg a step guidance) Q E := by
  refine seq (M := R) ?_ (failWith hE)
  exact keep fun _ => rfl

theorem auditApplied (hE : Faulty A → ∀ c, R c → E c) :
    On A R (auditApplied cfg a type step guidance) (fun _ => R) E := by
  refine onError (F := fun c => Faulty A ∧ R c) (audit fun hf c hc => ⟨hf, hc⟩) (fun c h => hE h.1 c h.2) fun _ => ?_
  refine seq (M := fun c => Faulty A ∧ R c) ?_ (fail fun c h => hE h.1 c h.2)
  exact keep fun _ => rfl

/-- A rollback ends the run; what becomes of the transaction must not matter. -/
theorem rollbackPhase {Q : Unit → Core σ → Prop} (hE : ∀ c, E c → E { c with tx := none }) :
    On A E (rollbackPhase cfg a e) Q E := by
  refine seq (M := E) (recover ?_ fun _ => ?_) ?_
  · refine onlyIf (fun _ => ?_) fun _ _ => id
    refine call ?_ (fun _ _ h => nomatch h) fun _ c hc => ⟨hc, ?_⟩
    · rintro c hc c' ⟨⟩
      exact hE c hc
    · rintro c' ⟨⟩
      exact hE c hc
  · refine seq (M := E) (keep fun _ => rfl) ?_
    exact seq (M := E) (recover (audit fun _ _ => id) fun _ => fail fun _ => id) (fail fun _ => id)
  · exact seq (M := E) (recover (audit fun _ _ => id) fun _ => fail fun _ => id) (fail fun _ => id)

end On

/-! ### Before the first step -/

/-- The run may go on to the live state. -/
structure Admitted (cfg : Config) (a : VerifiedArtifact) : Prop where
  identity : a.databaseIdentity ≠ []
  environment : a.targetEnvironment ≠ []
  free : cfg.contended = false
  created : ∀ n, ¬ cfg.clock n < a.createdAt
  unexpired : ∀ n, cfg.clock n < a.expiresAt

/-- Some row of this artifact and attempt is intended and not confirmed. -/
def Unconfirmed (cfg : Config) (a : VerifiedArtifact) (d : Data σ) : Prop :=
  ∃ r ∈ d.rows, ofAttempt cfg a r ∧ r.state = .intended

namespace On

variable {A : Reply → Prop} {R E : Core σ → Prop}

theorem lock (hE : Faulty A ∨ ¬ Admitted cfg a → ∀ c, R c → E c) : On A R (lock cfg a) (fun _ => R) E := by
  refine seq (M := R) ?_ ?_
  · refine onlyIf (fun h => fail (hE (.inr ?_))) fun _ _ => id
    exact fun ok => h.elim ok.identity ok.environment
  refine onlyIf (fun _ => ?_) fun _ _ => id
  refine onError (F := fun c => (Faulty A ∨ ¬ Admitted cfg a) ∧ R c) ?_ (fun c h => hE h.1 c h.2) fun e => ?_
  · refine seq (M := R) (ask fun h c hc => ⟨.inl h, hc⟩) ?_
    refine onlyIf (fun h => fail fun c hc => ⟨.inr fun ok => ?_, hc⟩) fun _ _ => id
    simp [ok.free] at h
  · have h : ∀ c, (Faulty A ∨ ¬ Admitted cfg a) ∧ R c → E c := fun c h => hE h.1 c h.2
    exact (audit fun _ => h).seq (fail h)

theorem reauthorize (hE : Faulty A → ∀ c, R c → E c) : On A R (reauthorize cfg a) (fun _ => R) E := by
  refine onlyIf (fun _ => ?_) fun _ _ => id
  refine onError (F := fun c => Faulty A ∧ R c) (ask fun h c hc => ⟨h, hc⟩) (fun c h => hE h.1 c h.2) fun _ => ?_
  exact refuse fun c h => hE h.1 c h.2

theorem checkExpiry (hE : Faulty A ∨ ¬ Admitted cfg a → ∀ c, R c → E c) :
    On A R (checkExpiry cfg a) (fun _ => R) E := by
  refine now_clock.bind fun t => onlyIf (fun h => refuse ?_) fun _ _ h => h.2
  rintro c ⟨⟨n, rfl⟩, hc⟩
  refine hE (.inr fun ok => ?_) c hc
  exact h.elim (ok.created n) fun h => h (ok.unexpired n)

/-- Up to the inspection of the live state a run does nothing to the core. -/
theorem prepare (hE : Faulty A ∨ ¬ Admitted cfg a → ∀ c, R c → E c) : On A R (prepare cfg a) (fun _ => R) E := by
  have hf : Faulty A → ∀ c, R c → E c := fun h => hE (.inl h)
  refine seq (M := R) (keep fun _ => rfl) ?_
  refine seq (M := R) (audit hf) ?_
  refine seq (M := R) (onlyIf (fun _ => ask hf) fun _ _ => id) ?_
  refine seq (M := R) (lock hE) ?_
  refine seq (M := R) (audit hf) ?_
  exact seq (M := R) (reauthorize hf) (checkExpiry hE)

theorem readState (hE : Faulty A → ∀ c, R c → E c) :
    On A R (readState b) (fun s c => s = b.inspect c.data.schema ∧ R c) E := by
  refine seq (M := R) (ask hE) ?_
  refine look fun w => pure _ ?_
  rintro c ⟨rfl, hc⟩
  exact ⟨rfl, hc⟩

theorem ensureHistory (hE : Faulty A → ∀ c, R c → E c) : On A R ensureHistory (fun _ => R) E :=
  seq (M := R) (ask hE) (ask hE)

theorem refuseUncertain (hE : ∀ c, R c → Faulty A ∨ Unconfirmed cfg a c.data → E c) :
    On A R (refuseUncertain cfg a) (fun _ c => ¬ Unconfirmed cfg a c.data ∧ R c) E := by
  refine seq (M := R) (ask fun hf c hc => hE c hc (.inl hf)) ?_
  refine look fun w => onlyIf (fun h => refuse ?_) ?_
  · rintro c ⟨rfl, hc⟩
    exact hE _ hc (.inr h)
  · rintro h c ⟨rfl, hc⟩
    exact ⟨h, hc⟩

theorem confirmedSteps (hE : ∀ c, R c → (Faulty A ∨ ∃ e, confirmedRows cfg a c.data.rows = .error e) → E c) :
    On A R (confirmedSteps cfg a) (fun m c => confirmedRows cfg a c.data.rows = .ok m ∧ R c) E := by
  refine seq (M := R) (ask fun hf c hc => hE c hc (.inl hf)) ?_
  refine look fun w => ?_
  cases h : confirmedRows cfg a w.core.data.rows with
  | ok m =>
    refine pure m ?_
    rintro c ⟨rfl, hc⟩
    exact ⟨h, hc⟩
  | error e =>
    refine fail ?_
    rintro c ⟨rfl, hc⟩
    exact hE _ hc (.inr ⟨e, h⟩)

/-- The prechecks read; they end the run if one fails. -/
theorem runChecks {checks : List Assertion}
    (hE : ∀ c, R c → (Faulty A ∨ ∃ x ∈ checks, ¬ b.observe x c.data.schema ≤ x.maxAllowed) → E c) :
    On A R (runChecks b checks) (fun _ => R) E := by
  refine forEach_keeps fun x hx => ?_
  refine seq (M := R) (ask fun hf c hc => hE c hc (.inl hf)) ?_
  refine look fun w => ?_
  refine seq (M := fun c => c = w.core ∧ R c) (keep fun _ => rfl) ?_
  refine onlyIf (fun h => fail ?_) fun _ _ h => h.2
  rintro c ⟨rfl, hc⟩
  exact hE _ hc (.inr ⟨x, hx, h⟩)

theorem finish (hE : Faulty A → ∀ c, R c → E c) : On A R (finish cfg a) (fun _ => R) E := by
  refine look fun w => ?_
  have h : ∀ c, Faulty A ∧ R c → E c := fun c h => hE h.1 c h.2
  refine onError ?_ h fun _ => ?_
  · exact (audit (R := R) fun hf c hc => ⟨hf, hc⟩).mono (fun _ h => h.2) (fun _ _ => id) fun _ => id
  refine seq (M := fun c => Faulty A ∧ R c) (onlyIf (fun _ => ?_) fun _ _ => id) (fail h)
  exact seq (M := fun c => Faulty A ∧ R c) (keep fun _ => rfl) (fail h)

end On

end AutoSql.Executor
