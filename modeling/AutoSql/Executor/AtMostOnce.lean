/-
AutoSql/Executor/AtMostOnce.lean

No step is executed twice, whatever happens to the runs.

Every effect has a row in the history, and the primary key allows one row for each
step.  The invariant (`Safe`) says this of the database, and that every statement sent
outside a transaction has its row there.  It follows from what a run does to the data
(`Stopped`): the work of a run has no rows yet, each effect is one of this work, and a
run that ends early loses its transaction.

An intended row that was not confirmed stays as it is: later runs of the same artifact
and attempt are refused by it, and other runs do not touch it.
-/
import AutoSql.Executor.Exact

namespace AutoSql.Executor

open Artifacts Proc List

variable {σ : Type} {b : Backend σ} {cfg : Config} {a : VerifiedArtifact} {d d₀ : Data σ} {k : Key} {w : World σ} {q : Request σ}

/-! ### The invariant -/

structure Sound (d : Data σ) : Prop where
  keys : (d.rows.map Row.key).Nodup
  once : d.effects.Nodup
  logged : ∀ k ∈ d.effects, k ∈ d.rows.map Row.key

/-- The database is sound, and what was sent outside a transaction has its row. -/
structure Safe (c : Core σ) : Prop where
  sound : Sound c.db
  sent : ∀ s ∈ c.sent, s.inside = false → s.key ∈ c.db.rows.map Row.key
  tx : c.tx = none

/-- The work that is left has no rows. -/
theorem workOf_fresh {confirmed : GoSet} (hpk : (d₀.rows.map Row.key).Nodup) (hu : ¬ Unconfirmed cfg a d₀)
    (hc : confirmedRows cfg a d₀.rows = .ok confirmed) :
    (d₀.rows.map Row.key ++ (workOf a confirmed a.plan.phases).map (workKey cfg a)).Nodup := by
  refine nodup_append.mpr ⟨hpk, List.Nodup.of_map Key.stepID ?_, ?_⟩
  · rw [map_map]
    exact (workOf_ids confirmed).symm ▸ a.valid.2.2.2.1.filter _
  · rintro k hk k' hk' rfl
    obtain ⟨r, hr, rfl⟩ := mem_map.mp hk
    obtain ⟨x, hx, hkey⟩ := mem_map.mp hk'
    have hof : ofAttempt cfg a r := ⟨(congrArg Key.artifactDigest hkey).symm, (congrArg Key.attempt hkey).symm⟩
    have hstep : x.2.id = r.stepID := congrArg Key.stepID hkey
    cases hs : r.state with
    | intended => exact hu ⟨r, hr, hof, hs⟩
    | confirmed =>
      have hmem : r ∈ d₀.rows.filter fun r => ofAttempt cfg a r ∧ r.state = .confirmed :=
        mem_filter.mpr ⟨hr, decide_eq_true ⟨hof, hs⟩⟩
      have hhas := ((confirmedRows_ok hc).mem _).mpr (mem_map_of_mem hmem)
      rw [← hstep, (mem_workOf hx).2.2.2.2] at hhas
      cases hhas

/-- The rows and the effects of a run are those of beginnings of the work. -/
theorem Reached.parts {work : List Work} (h : Reached b cfg a work d₀ d) :
    ∃ l l' : List Work, l <+: work ∧ l' <+: l ∧ d.rows.map Row.key = d₀.rows.map Row.key ++ l.map (workKey cfg a) ∧
      d.effects = d₀.effects ++ l'.map (workKey cfg a) := by
  rcases h with ⟨done, rest, rfl, hd⟩ | ⟨done, x, rest, rfl, hd⟩
  · exact ⟨done, done, prefix_append _ _, prefix_rfl, by rw [hd.rows, map_append, map_map]; rfl, hd.effects⟩
  · obtain ⟨l', hl', heffects, -⟩ := hd.effects
    refine ⟨done ++ [x], l', ⟨rest, by simp⟩, ?_, by rw [hd.rows]; simp [Function.comp_def], heffects⟩
    rcases hl' with rfl | rfl
    · exact prefix_append _ _
    · exact prefix_rfl

theorem Sound.progress (hd : Sound d₀) (h : Progress b cfg a d₀ d) : Sound d := by
  rcases h with rfl | ⟨hu, confirmed, hc, hr⟩
  · exact hd
  obtain ⟨l, l', hl, hl', hrows, heffects⟩ := hr.parts
  have hnew : (d₀.rows.map Row.key ++ l.map (workKey cfg a)).Nodup :=
    (workOf_fresh hd.keys hu hc).sublist ((Sublist.refl _).append (hl.sublist.map _))
  refine ⟨hrows ▸ hnew, ?_, ?_⟩
  · obtain ⟨-, hn, hdisj⟩ := nodup_append.mp hnew
    rw [heffects, nodup_append]
    exact ⟨hd.once, hn.sublist (hl'.sublist.map _), fun k hk k' hk' => hdisj k (hd.logged k hk) k' (map_subset _ hl'.subset hk')⟩
  · rw [heffects, hrows]
    intro k hk
    rcases mem_append.mp hk with hk | hk
    · exact mem_append_left _ (hd.logged k hk)
    · exact mem_append_right _ (map_subset _ hl'.subset hk)

/-- A run adds rows and changes none of those that were there. -/
theorem Progress.rows (h : Progress b cfg a d₀ d) : d₀.rows <+: d.rows := by
  rcases h with rfl | ⟨-, -, -, ⟨_, _, -, hd⟩ | ⟨_, _, _, -, hd⟩⟩
  · exact prefix_rfl
  · exact hd.rows ▸ prefix_append _ _
  · exact hd.rows ▸ prefix_append _ _

/-! ### Sequences of runs -/

def HasIntended (k : Key) (d : Data σ) : Prop := ∃ r ∈ d.rows, r.key = k ∧ r.state = .intended

/-- The run is one of the key's artifact and attempt. -/
def Concerns (cfg : Config) (a : VerifiedArtifact) (k : Key) : Prop :=
  k.artifactDigest = a.digest ∧ k.attempt = cfg.attempt

/-- Whatever its replies are, a run leaves the database safe and intended rows as they are;
it sends nothing if there is one of its artifact and attempt. -/
theorem after_safe (h : Safe w.core) :
    Safe (after b w q).core ∧ (HasIntended k w.core.db → HasIntended k (after b w q).core.db ∧
      (Concerns q.config q.artifact k → (after b w q).core.sent = w.core.sent)) := by
  obtain ⟨hp, hkept, hsent⟩ := after_stopped (b := b) (q := q) h.tx
  have hrows : w.core.db.rows <+: (after b w q).core.db.rows := hp.rows
  have hsound : Sound (q.data w) := ⟨h.sound.keys, h.sound.once, h.sound.logged⟩
  refine ⟨⟨hsound.progress hp, fun s hs hi => ?_, rfl⟩, ?_⟩
  · exact (hkept.sent s hs hi).elim (fun hs => map_subset _ hrows.subset (h.sent s hs hi)) id
  · rintro ⟨r, hr, rfl, hs⟩
    exact ⟨⟨r, hrows.subset hr, rfl, hs⟩, fun hk => hsent ⟨r, hr, hk, hs⟩⟩

theorem afterAll_safe (h : Safe w.core) (qs : List (Request σ)) :
    Safe (afterAll b w qs).core ∧ (HasIntended k w.core.db → HasIntended k (afterAll b w qs).core.db) := by
  induction qs generalizing w with
  | nil => exact ⟨h, id⟩
  | cons q qs ih =>
    obtain ⟨hsafe, hi⟩ := after_safe (b := b) (q := q) (k := k) h
    exact ⟨(ih hsafe).1, fun h => (ih hsafe).2 (hi h).1⟩

/-- Over every sequence of runs, each ending anywhere, the SQL of a step takes effect
at most once.  If the SQL of a step was sent outside a transaction and its row was not
confirmed, no later run of that artifact and attempt sends the SQL of any step. -/
theorem at_most_once (b : Backend σ) (schema : σ) (rows : List Row) (hpk : (rows.map Row.key).Nodup)
    (qs : List (Request σ)) : (afterAll b (start schema rows) qs).core.db.effects.Nodup ∧
      ∀ k, ⟨k, false⟩ ∈ (afterAll b (start schema rows) qs).core.sent →
        (∀ r ∈ (afterAll b (start schema rows) qs).core.db.rows, r.key = k → r.state ≠ .confirmed) →
        ∀ (between : List (Request σ)) (q : Request σ), Concerns q.config q.artifact k →
          (afterAll b (start schema rows) (qs ++ between ++ [q])).core.sent =
            (afterAll b (start schema rows) (qs ++ between)).core.sent := by
  have hstart : Safe (start schema rows).core := ⟨⟨hpk, nodup_nil, nofun⟩, nofun, rfl⟩
  have hsafe := (afterAll_safe (b := b) (k := ⟨[], [], 0⟩) hstart qs).1
  refine ⟨hsafe.sound.once, fun k hsent hrow between q hk => ?_⟩
  have hi : HasIntended k (afterAll b (start schema rows) qs).core.db := by
    obtain ⟨r, hr, hrk⟩ := mem_map.mp (hsafe.sent _ hsent rfl)
    refine ⟨r, hr, hrk, ?_⟩
    cases hs : r.state with
    | intended => rfl
    | confirmed => exact absurd hs (hrow r hr hrk)
  obtain ⟨hw, hi'⟩ := afterAll_safe (b := b) (k := k) hsafe between
  unfold afterAll at hw hi' hi ⊢
  rw [foldl_append, foldl_append]
  exact ((after_safe hw).2 (hi' hi)).2 hk

/-! ### A plan of steps that each move the schema on

The schema is a number, every step adds one, and the fingerprint is the plan's source
at zero, its target from `len` on, and something else between. -/

def sampleFingerprint (c : UInt8) : GoString := str "sha256:" ++ List.replicate 64 c

def samplePlan (steps : List Step) : Plan :=
  ⟨sampleFingerprint 0x61, sampleFingerprint 0x62, steps, phases steps, str "plan"⟩

def sampleArtifact (steps : List Step) (valid : (samplePlan steps).Valid) : VerifiedArtifact where
  plan := samplePlan steps
  checksDigest := []
  sourceRevision := str "rev"
  targetEnvironment := str "prod"
  databaseIdentity := str "db"
  guardrailDigest := str "bundle"
  metadata := GoMap.empty
  digest := str "digest"
  createdAt := 0
  expiresAt := 10
  valid := valid

def sampleBackend (len : Nat) : Backend Nat where
  exec := fun _ n => some (n + 1)
  inspect := fun n =>
    ⟨sampleFingerprint (if n = 0 then 0x61 else if n < len then 0x63 else 0x62), str "rev", str "prod", str "db"⟩
  observe := fun _ _ => 0

def sampleConfig (borrowed : Bool) : Config where
  audits := false
  lockedSession := true
  lockAlreadyHeld := true
  borrowed := borrowed
  reauthorizes := false
  confirms := false
  attempt := 1
  clock := fun _ => 1
  contended := false
  attempt_pos := le_refl 1
  held_locked := fun _ => rfl
  borrowed_locked := fun _ => rfl

/-- A run whose call number `n` gets the reply `r`; the others are done. -/
def sampleRequest (a : VerifiedArtifact) (borrowed : Bool) (n : Nat) (r : Reply) : Request Nat :=
  ⟨sampleConfig borrowed, a, [], fun i => if i = n then r else .done, id⟩

def concurrentStep : Step := ⟨str "step:1", str "create index concurrently", .executable, .prohibited⟩

theorem concurrent_valid : (samplePlan [concurrentStep]).Valid := by decide +kernel

def concurrentArtifact : VerifiedArtifact := sampleArtifact [concurrentStep] concurrent_valid

def concurrentKey : Key := ⟨str "digest", str "step:1", 1⟩

/-- A run that stops while the SQL is sent, and one that is refused. -/
theorem at_most_once_stopped :
    (afterAll (sampleBackend 1) (start 0 []) [sampleRequest concurrentArtifact false 6 (.stopped true)]).core.sent =
        [⟨concurrentKey, false⟩] ∧ (afterAll (sampleBackend 1) (start 0 [])
        [sampleRequest concurrentArtifact false 6 (.stopped true), sampleRequest concurrentArtifact false 0 .done]).core.sent =
        [⟨concurrentKey, false⟩] := by
  have first : (afterAll (sampleBackend 1) (start 0 []) [sampleRequest concurrentArtifact false 6 (.stopped true)]).core.sent =
        [⟨concurrentKey, false⟩] ∧
      ∀ r ∈ (afterAll (sampleBackend 1) (start 0 []) [sampleRequest concurrentArtifact false 6 (.stopped true)]).core.db.rows,
        r.key = concurrentKey → r.state ≠ .confirmed := by decide +kernel
  refine ⟨first.1, ?_⟩
  have h := (at_most_once (sampleBackend 1) 0 [] nodup_nil
    [sampleRequest concurrentArtifact false 6 (.stopped true)]).2 concurrentKey (by rw [first.1]; simp) first.2 []
    (sampleRequest concurrentArtifact false 0 .done) ⟨rfl, rfl⟩
  exact h.trans first.1

/-- With a caller's transaction the intent is lost together with the statement: a run
that failed while it sent the SQL of a nontransactional step leaves no row, and the next
run sends that SQL again. -/
theorem sent_again : let failed := sampleRequest concurrentArtifact true 6 (.failed false)
    let next := sampleRequest concurrentArtifact false 0 .done
    (afterAll (sampleBackend 1) (start 0 []) [failed]).core.sent = [⟨concurrentKey, true⟩] ∧
      (afterAll (sampleBackend 1) (start 0 []) [failed]).core.db.rows = [] ∧
      (afterAll (sampleBackend 1) (start 0 []) [failed, next]).core.sent =
        [⟨concurrentKey, true⟩, ⟨concurrentKey, false⟩] := by decide +kernel

end AutoSql.Executor
