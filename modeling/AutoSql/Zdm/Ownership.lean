/-
AutoSql/Zdm/Ownership.lean

Who owns a target.

Each package keeps one row for a target and environment, with the digest of the
specification that wrote it.  No statement of any package removes a row or changes its
digest, so a target belongs to the first specification for good, also when its migration
is complete or rolled back: `second_start_refused` is such a case.

`first_owns` is what does hold.  After calls that all returned without an error, a new
call of a package runs its phases if it is the first of its package, returns the recorded
status if the first one had the same digest, and is refused otherwise.

The calls are made one after the other here, so their runs are computed (`Prog.alone`):
`Settled` is what every call that returns leaves behind, and `enters_start` and its
companions bring a call to the point where it has its lock and the control schema is
there.  `took` says what one call leaves behind, and `Driven.rows` what a sequence does.
-/
import AutoSql.Zdm.Lifecycle

namespace AutoSql.Zdm

open List Prog Option
open Function (update update_self update_eq_self update_of_ne update_apply)

/-! ### Sequences of calls -/

def Call.kind : Call → Kind
  | .start _ _ => .start
  | .complete _ _ => .contract
  | .rollback _ _ => .rollback

def Call.digest : Call → GoString
  | .start s _ | .complete s _ | .rollback s _ => s.digest

/-- The call returns without an error; what the outside answers may have changed before it. -/
def Succeeds (cfg : Kind → Config) (c : Call) (w w' : World) : Prop :=
  ∃ o w₁, (c.program (cfg c.kind) 0).alone (exec 0) { w with outside := o } = (some (.ok ()), w₁) ∧ w' = close 0 w₁

/-- The calls are made one after the other, and all of them return without an error. -/
inductive Driven (cfg : Kind → Config) : World → List Call → World → Prop
  | nil (w : World) : Driven cfg w [] w
  | cons {w w' w'' : World} {c : Call} {cs : List Call} : Succeeds cfg c w w' → Driven cfg w' cs w'' → Driven cfg w (c :: cs) w''

/-- The caller's functions that have been called. -/
def actionsOf (l : List Event) : List Action :=
  l.filterMap fun
    | .entered _ a _ => some a
    | _ => none

@[simp] theorem actionsOf_append (l l' : List Event) : actionsOf (l ++ l') = actionsOf l ++ actionsOf l' := filterMap_append

/-! ### The control schemas -/

def Kind.marker : Kind → GoString
  | .start => Start.marker
  | .contract => Contract.marker
  | .rollback => Rollback.marker

/-- The control schema of a package. -/
def controlSchema (cfg : Kind → Config) (k : Kind) : GoString := ((cfg k).withSchema k.defaultSchema).schema

/-- The schema is not there or belongs to the package, and so does its table. -/
structure Ours (cfg : Kind → Config) (k : Kind) (c : Catalog) : Prop where
  schema : c.schemas (controlSchema cfg k) = none ∨ c.schemas (controlSchema cfg k) = some (some k.marker)
  table : k ≠ .rollback → c.tables (controlSchema cfg k, str "operations") = none ∨
    c.tables (controlSchema cfg k, str "operations") = some (some (k.marker ++ str ":" ++ str "operations"))

/-- `c'` differs from `c` in schema `s` only. -/
def SameElsewhere (s : GoString) (c c' : Catalog) : Prop :=
  (∀ s', s' ≠ s → c'.schemas s' = c.schemas s') ∧ ∀ s' t, s' ≠ s → c'.tables (s', t) = c.tables (s', t)

variable {w w' : World} {cfg : Kind → Config} {k : Kind} {α ρ σ : Type} {c : Call} {dig : ρ → GoString} {p : Program σ α}

/-- What a sequence of calls leaves behind: no lock is held, and every control schema is in order. -/
structure Settled (cfg : Kind → Config) (w : World) : Prop where
  locks : ∀ key, w.locks key = none
  ours : ∀ k, Ours cfg k w.catalog

/-- Rows, answers and actions are as before. -/
structure Untouched (w w' : World) : Prop where
  starts : w'.starts = w.starts
  contracts : w'.contracts = w.contracts
  rollbacks : w'.rollbacks = w.rollbacks
  outside : w'.outside = w.outside
  effects : w'.effects = w.effects
  actions : actionsOf w'.log = actionsOf w.log

theorem Untouched.trans {w'' : World} (h : Untouched w w') (h' : Untouched w' w'') : Untouched w w'' :=
  ⟨h'.starts.trans h.starts, h'.contracts.trans h.contracts, h'.rollbacks.trans h.rollbacks, h'.outside.trans h.outside,
    h'.effects.trans h.effects, h'.actions.trans h.actions⟩

section Schema

variable {σ : Type} [Inhabited σ] {w : World} {schema table marker detail : GoString}

theorem runs_ensureSchema (h : w.catalog.schemas schema = none ∨ w.catalog.schemas schema = some (some marker)) :
    (ensureSchema schema marker : Program σ Unit).Runs (exec 0) w fun r w' => ∃ u, r = .ok u ∧
      w' = { w with catalog := w.catalog.setSchema schema (some marker) } := by
  refine Runs.stmt rfl ?_
  rcases h with h | h
  · simp only [id_eq, h]
    refine Runs.stmt rfl (Runs.stmt rfl (Runs.pure ⟨(), rfl, ?_⟩))
    simp [Catalog.setSchema]
  · simp only [id_eq, h, ne_eq, not_true_eq_false, if_false]
    refine Runs.pure ⟨(), rfl, ?_⟩
    rw [Catalog.setSchema, ← h, update_eq_self]

theorem runs_ensureTable (h : w.catalog.tables (schema, table) = none ∨ w.catalog.tables (schema, table) = some (some marker)) :
    (ensureTable schema table marker detail : Program σ Unit).Runs (exec 0) w fun r w' => ∃ u, r = .ok u ∧
      w' = { w with catalog := w.catalog.setTable (schema, table) (some marker) } := by
  refine Runs.stmt rfl ?_
  rcases h with h | h
  · simp only [id_eq, h]
    refine Runs.stmt rfl (Runs.stmt rfl (Runs.pure ⟨(), rfl, ?_⟩))
    simp [Catalog.setTable]
  · simp only [id_eq, h, ne_eq, not_true_eq_false, if_false]
    refine Runs.pure ⟨(), rfl, ?_⟩
    rw [Catalog.setTable, ← h, update_eq_self]

end Schema

/-! ### The way to the lock -/

/-- A call has its lock, and its control schema is there. -/
structure Entered (cfg : Kind → Config) (w w' : World) : Prop where
  untouched : Untouched w w'
  locks : ∀ key, w'.locks key = none ∨ w'.locks key = some 0
  ours : ∀ k, Ours cfg k w'.catalog

section Enter

variable {cfg : Kind → Config} {w : World} {k : Kind}

/-- What taking a free lock does. -/
theorem takeLock_free {i : Nat} {key : GoString} (h : w.locks key = none) :
    (w.takeLock i key).locks = update w.locks key (some i) ∧ (w.takeLock i key).catalog = w.catalog ∧ Untouched w (w.takeLock i key) := by
  rw [World.takeLock, if_pos (.inl h)]
  exact ⟨rfl, rfl, rfl, rfl, rfl, rfl, rfl, by simp [World.record, actionsOf]⟩

/-- What releasing it does. -/
theorem releaseLock_own {i : Nat} {key : GoString} (h : w.locks key = some i) :
    (w.releaseLock i key).locks = update w.locks key none ∧ (w.releaseLock i key).catalog = w.catalog ∧
      Untouched w (w.releaseLock i key) := by
  rw [World.releaseLock, if_pos h]
  exact ⟨rfl, rfl, rfl, rfl, rfl, rfl, rfl, rfl⟩

variable (hdistinct : Function.Injective (controlSchema cfg))

include hdistinct

/-- A change of the own schema leaves all schemas in order. -/
theorem ours_of_own {c c' : Catalog} (h : ∀ k, Ours cfg k c)
    (hsame : SameElsewhere (controlSchema cfg k) c c') (hown : Ours cfg k c') (k' : Kind) : Ours cfg k' c' := by
  by_cases hk : k' = k
  · exact hk ▸ hown
  · have hne : controlSchema cfg k' ≠ controlSchema cfg k := fun he => hk (hdistinct he)
    exact ⟨by simpa only [hsame.1 _ hne] using (h k').schema, by simpa only [hsame.2 _ _ hne] using (h k').table⟩

variable {σ : Type} [Inhabited σ]

/-- The catalog after `ensure`. -/
theorem ours_ensure (h : ∀ k, Ours cfg k w.catalog) (k' : Kind) :
    Ours cfg k' ⟨update w.catalog.schemas (controlSchema cfg k) (some (some k.marker)),
      update w.catalog.tables (controlSchema cfg k, str "operations") (some (some (k.marker ++ str ":" ++ str "operations")))⟩ := by
  refine ours_of_own (k := k) hdistinct h ⟨fun s' hs => ?_, fun s' t hs => ?_⟩ ⟨.inr ?_, fun _ => .inr ?_⟩ k'
  · exact update_of_ne hs _ _
  · exact update_of_ne (fun he => hs (congrArg Prod.fst he)) _ _
  · exact update_self _ _ _
  · exact update_self _ _ _

/-- The way of a start or a completion. -/
theorem runs_acquire (h : Settled cfg w) (hk : k ≠ .rollback) (taken : Error) (detail : GoString) :
    (acquire 0 k.version taken (Zdm.ensure k.marker (str "operations") detail (controlSchema cfg k))
      ((cfg k).withSchema k.defaultSchema) : Program σ Unit).Runs (exec 0) w fun r w' => ∃ u, r = .ok u ∧ Entered cfg w w' := by
  generalize hc : (cfg k).withSchema k.defaultSchema = c
  have hne := initDomain_ne_domain k.version c
  -- the lock of the target
  obtain ⟨hlocks₁, hcat₁, hun₁⟩ := takeLock_free (h.locks (domain k.version c))
  refine Runs.stmt rfl ?_
  generalize w.takeLock 0 (domain k.version c) = w₁ at *
  rw [hlocks₁, update_self]
  -- the lock of the schema
  have hfree : w₁.locks (initDomain k.version c) = none := by
    rw [hlocks₁, update_of_ne hne]
    exact h.locks _
  obtain ⟨hlocks₂, hcat₂, hun₂⟩ := takeLock_free hfree
  refine Runs.stmt (if_pos (.inl hfree)) ?_
  generalize w₁.takeLock 0 (initDomain k.version c) = w₂ at *
  have hcat : w₂.catalog = w.catalog := hcat₂.trans hcat₁
  refine Runs.seq (M := fun _ w' => Untouched w₂ w' ∧ w'.locks = w₂.locks ∧ ∀ k, Ours cfg k w'.catalog) (Runs.onError ?_) ?_
  · refine Runs.seq (runs_ensureSchema (hcat ▸ (h.ours k).schema)) ?_
    rintro _ w₃ rfl
    refine (runs_ensureTable (hcat ▸ (h.ours k).table hk)).mono ?_
    rintro _ w₄ ⟨u, rfl, rfl⟩
    exact ⟨u, rfl, ⟨rfl, rfl, rfl, rfl, rfl, rfl⟩, rfl, ours_ensure hdistinct (hcat ▸ h.ours)⟩
  · rintro _ w₃ ⟨hun₃, hlocks₃, hours⟩
    have hown : w₃.locks (initDomain k.version c) = some 0 := by
      rw [hlocks₃, hlocks₂, update_self]
    obtain ⟨hlocks₄, hcat₄, hun₄⟩ := releaseLock_own hown
    refine Runs.stmt rfl (Runs.pure ⟨(), rfl, ((hun₁.trans hun₂).trans hun₃).trans hun₄, fun key => ?_, hcat₄ ▸ hours⟩)
    rw [hlocks₄, hlocks₃, hlocks₂, hlocks₁]
    simp only [update_apply, h.locks]
    split_ifs <;> simp

/-- The control schema of the rollback package. -/
theorem runs_ensureRollback (h : ∀ k, Ours cfg k w.catalog) :
    (Rollback.ensure ((cfg .rollback).withSchema Rollback.defaultSchema)).Runs (exec 0) w fun r w' => ∃ u, r = .ok u ∧
      Untouched w w' ∧ w'.locks = w.locks ∧ ∀ k, Ours cfg k w'.catalog := by
  refine Runs.seq (runs_ensureSchema (h .rollback).schema) ?_
  rintro _ w₁ rfl
  refine Runs.bind (Runs.stmt rfl (Runs.pure ?_))
  refine Runs.stmt rfl (Runs.pure ⟨(), rfl, ⟨rfl, rfl, rfl, rfl, rfl, rfl⟩, rfl, ?_⟩)
  refine ours_of_own hdistinct h ⟨fun s' hs => ?_, fun s' t hs => ?_⟩ ⟨.inr ?_, nofun⟩
  · rw [Catalog.createTable_schemas, Catalog.createTable_schemas]
    exact update_of_ne hs _ _
  · have hne : ∀ t', (s', t) ≠ (controlSchema cfg .rollback, t') := fun t' he => hs (congrArg Prod.fst he)
    exact (Catalog.createTable_tables _ (hne _)).trans (Catalog.createTable_tables _ (hne _))
  · rw [Catalog.createTable_schemas, Catalog.createTable_schemas]
    exact update_self _ _ _

/-- A call of `StartWithHooks` gets to its lock. -/
theorem enters_start (h : Settled cfg w) {c : Config}
    (hc : Start.defaults (cfg .start) = .ok c) {s : Start.Spec} (hs : s.validate = .ok ()) (actions : Start.Actions) (hooks : Start.Hooks) :
    ∃ w₁, Entered cfg w w₁ ∧
      (Start.startWithHooks 0 (cfg .start) s actions hooks).alone (exec 0) w = (Start.serve c s actions hooks).alone (exec 0) w₁ := by
  obtain ⟨r, w₁, hr, u, rfl, hent⟩ := runs_acquire (σ := Start.Status) (k := .start) hdistinct h nofun .busy (str "operations table collision")
  refine ⟨w₁, hent, ?_⟩
  obtain rfl := defaults_ok hc
  rw [Start.startWithHooks, hc, hs]
  exact (Prog.alone_stmt rfl).trans ((Prog.alone_stmt rfl).trans (Prog.alone_bind_ok hr))

/-- A call of `Complete` gets to its lock. -/
theorem enters_completion (h : Settled cfg w) {c : Config}
    (hc : Contract.defaults (cfg .contract) = .ok c) {s : Contract.Spec} (hs : s.validate = .ok ()) (a : Approval) :
    ∃ w₁, Entered cfg w w₁ ∧
      (Contract.complete 0 (cfg .contract) s a).alone (exec 0) w = (Contract.serve c s a).alone (exec 0) w₁ := by
  obtain ⟨r, w₁, hr, u, rfl, hent⟩ := runs_acquire (σ := Contract.Status) (k := .contract) hdistinct h nofun
    (.refused (str "completion already active")) (str "operations table collision")
  refine ⟨w₁, hent, ?_⟩
  obtain rfl := defaults_ok hc
  rw [Contract.complete, hc, hs]
  exact (Prog.alone_stmt rfl).trans (Prog.alone_bind_ok hr)

/-- A call of `Rollback` gets to its lock. -/
theorem enters_rollback (h : Settled cfg w) {c : Config}
    (hc : Rollback.defaults (cfg .rollback) = .ok c) {s : Rollback.Spec} (hs : s.validate = .ok ()) (a : Rollback.Authorization) :
    ∃ w₁, Entered cfg w w₁ ∧
      (Rollback.rollback 0 (cfg .rollback) s a).alone (exec 0) w = (Rollback.serve c s a).alone (exec 0) w₁ := by
  obtain rfl := defaults_ok hc
  rw [Rollback.rollback, hc, hs]
  obtain ⟨hlocks, hcat, hun⟩ := takeLock_free (i := 0) (h.locks (domain Rollback.version ((cfg .rollback).withSchema Rollback.defaultSchema)))
  obtain ⟨r, w₁, hr, u, rfl, hun₁, hlocks₁, hours⟩ := runs_ensureRollback hdistinct (hcat.symm ▸ h.ours)
  refine ⟨w₁, ⟨hun.trans hun₁, fun key => ?_, hours⟩, ?_⟩
  · rw [hlocks₁, hlocks]
    simp only [update_apply, h.locks]
    split_ifs <;> simp
  · refine (Prog.alone_stmt rfl).trans ((Prog.alone_stmt rfl).trans ?_)
    rw [hlocks, update_self]
    exact Prog.alone_bind_ok hr

end Enter

/-! ### Rows -/

/-- Where a package keeps the row of the target. -/
def rowKey (cfg : Kind → Config) (k : Kind) : Key := ((cfg k).withSchema k.defaultSchema).key

/-- The recorded digest, and whether the operation is complete. -/
def recorded (cfg : Kind → Config) : Kind → World → Option (GoString × Bool)
  | .start, w => (w.starts (rowKey cfg .start)).map fun r => (r.specDigest, decide (r.state = .complete))
  | .contract, w => (w.contracts (rowKey cfg .contract)).map fun r => (r.specDigest, decide (r.state = .complete))
  | .rollback, w => (w.rollbacks (rowKey cfg .rollback)).map fun r => (r.specDigest, decide (r.state = .complete))

theorem Untouched.recorded (h : Untouched w w') (k : Kind) : recorded cfg k w' = recorded cfg k w := by
  cases k
  · simp only [Zdm.recorded, h.starts]
  · simp only [Zdm.recorded, h.contracts]
  · simp only [Zdm.recorded, h.rollbacks]

/-- What the statements of package `k` do: the rows of other packages stay, and no digest changes. -/
structure KeepsRows (cfg : Kind → Config) (k : Kind) (w w' : World) : Prop where
  own : ∀ d b, recorded cfg k w = some (d, b) → ∃ b', recorded cfg k w' = some (d, b')
  others : ∀ k', k' ≠ k → recorded cfg k' w' = recorded cfg k' w
  catalog : w'.catalog = w.catalog
  locks : w'.locks = w.locks
  effects : w'.effects = w.effects

theorem KeepsRows.refl (cfg : Kind → Config) (k : Kind) (w : World) : KeepsRows cfg k w w :=
  ⟨fun _ b h => ⟨b, h⟩, fun _ _ => rfl, rfl, rfl, rfl⟩

theorem KeepsRows.trans {w'' : World} (h : KeepsRows cfg k w w') (h' : KeepsRows cfg k w' w'') :
    KeepsRows cfg k w w'' := by
  refine ⟨fun d b hd => ?_, fun k' hk => (h'.others k' hk).trans (h.others k' hk), h'.catalog.trans h.catalog, h'.locks.trans h.locks,
    h'.effects.trans h.effects⟩
  obtain ⟨b', hb'⟩ := h.own d b hd
  exact h'.own d b' hb'

/-- A statement that keeps the digest of its row. -/
def RowStmt.Keeps {ρ : Type} (dig : ρ → GoString) : RowStmt ρ → Prop
  | .update f => ∀ r, dig (f r) = dig r
  | _ => True

/-- The row of package `k` or nothing. -/
def RowStmt.Own {ρ : Type} (dig : ρ → GoString) (here : Prop) : RowStmt ρ → Prop
  | .select => True
  | s => here ∧ s.Keeps dig

/-- The statements of package `k` when it has its lock. -/
def owns (cfg : Kind → Config) (k : Kind) : Statement → Prop
  | .session | .leave | .enter _ _ | .inspect | .gate _ _ | .check _ _ _ | .verify | .eligible | .audit _ => True
  | .start key s => s.Own (·.specDigest) (k = .start ∧ key = rowKey cfg .start)
  | .contractInsert key _ _ => k = .contract ∧ key = rowKey cfg .contract
  | .contract key s => s.Own (·.specDigest) (k = .contract ∧ key = rowKey cfg .contract)
  | .rollback key s => s.Own (·.specDigest) (k = .rollback ∧ key = rowKey cfg .rollback)
  | _ => False

variable {t : Key → Option ρ}

/-- A select leaves the table as it is; another statement keeps the digest of the row. -/
theorem RowStmt.Own.cases {here : Prop} {s : RowStmt ρ} {k : Key}
    (h : s.Own dig here) : Function.update t k (s.exec (t k)) = t ∨
      here ∧ ∀ r, t k = some r → ∃ r', s.exec (t k) = some r' ∧ dig r' = dig r := by
  cases s with
  | select => exact .inl (update_eq_self k t)
  | insert r₀ =>
    refine .inr ⟨h.1, fun r hr => ⟨r, ?_, rfl⟩⟩
    rw [hr]
    rfl
  | update f =>
    refine .inr ⟨h.1, fun r hr => ⟨f r, ?_, h.2 r⟩⟩
    rw [hr]
    rfl

/-- The digest of the row stays. -/
theorem summary_kept {done : ρ → Bool} {s : RowStmt ρ} {key : Key} {d : GoString} {b : Bool}
    (h : ∀ r, t key = some r → ∃ r', s.exec (t key) = some r' ∧ dig r' = dig r) (hd : (t key).map (fun r => (dig r, done r)) = some (d, b)) :
    ∃ b', (update t key (s.exec (t key)) key).map (fun r => (dig r, done r)) = some (d, b') := by
  obtain ⟨r, hr, hrd⟩ := map_eq_some_iff.mp hd
  obtain ⟨r', hr', hd'⟩ := h r hr
  refine ⟨done r', ?_⟩
  rw [update_self, hr', map_some, hd', (Prod.mk.inj hrd).1]

/-- An update that completes the operation. -/
theorem summary_done {done : ρ → Prop} [DecidablePred done] {f : ρ → ρ} {key : Key} {d : GoString} {b : Bool}
    (hf : ∀ r, dig (f r) = dig r ∧ done (f r)) (hd : (t key).map (fun r => (dig r, decide (done r))) = some (d, b)) :
    (update t key ((RowStmt.update f).exec (t key)) key).map (fun r => (dig r, decide (done r))) = some (d, true) := by
  obtain ⟨r, hr, hrd⟩ := map_eq_some_iff.mp hd
  simp [RowStmt.exec, hr, hf r, (Prod.mk.inj hrd).1]

/-- After an insertion there is a row, the old one if there was one. -/
theorem row_inserted (t : Key → Option ρ) (key : Key) (r₀ : ρ) :
    ∃ r, update t key ((RowStmt.insert r₀).exec (t key)) key = some r ∧ ∀ r', t key = some r' → r' = r := by
  cases hrow : t key with
  | none => exact ⟨r₀, update_self _ _ _, fun r' h => by cases h⟩
  | some r => exact ⟨r, update_self _ _ _, fun r' h => (some.inj h).symm⟩

/-- The recorded digest, if there was no row but `r`. -/
theorem summary_first {done : ρ → Bool} {row : Option ρ} {r : ρ} (h : ∀ r', row = some r' → r' = r) (d : GoString) (b : Bool)
    (hd : row.map (fun r => (dig r, done r)) = some (d, b)) : d = dig r := by
  obtain ⟨r', hr', he⟩ := map_eq_some_iff.mp hd
  rw [← (Prod.mk.inj he).1, h r' hr']

theorem owns_exec {st : Statement} (hst : owns cfg k st) (he : exec 0 st w = some w') : KeepsRows cfg k w w' := by
  -- a statement that touches no row
  have hfree : w'.starts = w.starts → w'.contracts = w.contracts → w'.rollbacks = w.rollbacks → w'.catalog = w.catalog →
      w'.locks = w.locks → w'.effects = w.effects → KeepsRows cfg k w w' := by
    intro h₁ h₂ h₃ h₄ h₅ h₆
    have hsame : ∀ k', recorded cfg k' w' = recorded cfg k' w := by
      intro k'
      cases k' <;> simp only [recorded, h₁, h₂, h₃]
    exact ⟨fun d b hd => ⟨b, (hsame k).trans hd⟩, fun k' _ => hsame k', h₄, h₅, h₆⟩
  cases st with
  | start key s =>
    cases he
    rcases RowStmt.Own.cases hst with hsame | ⟨⟨rfl, rfl⟩, hkeep⟩
    · exact hfree hsame rfl rfl rfl rfl rfl
    · refine ⟨fun d b hd => summary_kept hkeep hd, fun k' hk => ?_, rfl, rfl, rfl⟩
      cases k' with
      | start => exact absurd rfl hk
      | contract | rollback => rfl
  | contractInsert key r v =>
    obtain ⟨rfl, rfl⟩ := hst
    simp only [exec] at he
    cases hrow : w.contracts (rowKey cfg .contract) with
    | some r' =>
      rw [hrow] at he
      cases he
      exact hfree rfl rfl rfl rfl rfl rfl
    | none =>
      rw [hrow] at he
      cases he
      refine ⟨fun d b hd => ?_, fun k' hk => ?_, rfl, rfl, rfl⟩
      · simp [recorded, hrow] at hd
      · cases k' with
        | contract => exact absurd rfl hk
        | start | rollback => rfl
  | contract key s =>
    cases he
    rcases RowStmt.Own.cases hst with hsame | ⟨⟨rfl, rfl⟩, hkeep⟩
    · exact hfree rfl hsame rfl rfl rfl rfl
    · refine ⟨fun d b hd => summary_kept hkeep hd, fun k' hk => ?_, rfl, rfl, rfl⟩
      cases k' with
      | contract => exact absurd rfl hk
      | start | rollback => rfl
  | rollback key s =>
    cases he
    rcases RowStmt.Own.cases (t := w.rollbacks) hst with hsame | ⟨⟨rfl, rfl⟩, hkeep⟩
    · exact hfree rfl rfl hsame rfl rfl rfl
    · refine ⟨fun d b hd => summary_kept hkeep hd, fun k' hk => ?_, rfl, rfl, rfl⟩
      cases k' with
      | rollback => exact absurd rfl hk
      | start | contract => rfl
  | check n sql after =>
    obtain ⟨b, -, rfl⟩ := map_eq_some_iff.mp he
    exact hfree rfl rfl rfl rfl rfl rfl
  | session | leave | enter | inspect | gate | verify | eligible | audit =>
    cases he
    exact hfree rfl rfl rfl rfl rfl rfl
  | _ => exact hst.elim

theorem keeps_of_only {a : α} (hp : p.Only (owns cfg k)) (h : p.alone (exec 0) w = (some (.ok a), w')) : KeepsRows cfg k w w' :=
  Only.yields (KeepsRows.refl cfg k) KeepsRows.trans owns_exec hp w a w' h

/-- Statements that only read. -/
def reads : Statement → Prop
  | .session | .start _ .select | .contract _ .select | .rollback _ .select => True
  | _ => False

theorem exec_reads {st : Statement} (h : reads st) : exec 0 st w = some w := by
  match st, h with
  | .session, _ => rfl
  | .start _ .select, _ | .contract _ .select, _ | .rollback _ .select, _ => simp only [exec, RowStmt.exec, update_eq_self]

theorem eq_of_reads {st : Statement} (he : exec 0 st w = some w') (h : reads st) : w = w' :=
  some.inj ((exec_reads h).symm.trans he)

theorem yields_reads {Q : World → Prop} (hp : p.Only reads) (h : Q w) : p.Yields (exec 0) w fun _ w' => Q w' := by
  intro a w' ha
  suffices hsame : w' = w from hsame ▸ h
  refine Only.yields (R := fun w w' => w' = w) (fun _ => rfl) (fun h h' => h'.trans h) (fun hst he => ?_) hp w a w' ha
  exact (eq_of_reads he hst).symm

/-- What a call does under its lock: it refuses the row of another digest, reports a complete one and works on others. -/
theorem yields_owned [Inhabited σ] {w₀ : World} {d d₁ : GoString} {done : Prop} [Decidable done] {e : Error} {status work : Program σ α}
    (hrec : recorded cfg k w = some (d₁, decide done)) (hbefore : d₁ = d → ∀ d' b, recorded cfg k w₀ = some (d', b) → d' = d)
    (hstatus : status.Only reads)
    (hwork : ∀ b, recorded cfg k w = some (d, b) → work.Yields (exec 0) w fun _ w' => recorded cfg k w' = some (d, true)) :
    (if d₁ ≠ d then giveUp e else if done then status else work).Yields (exec 0) w
      fun _ w' => recorded cfg k w' = some (d, true) ∧ ∀ d' b, recorded cfg k w₀ = some (d', b) → d' = d := by
  split_ifs with hd hdone
  · exact Yields.fail
  · obtain rfl := not_not.mp hd
    exact yields_reads hstatus ⟨by simpa [hdone] using hrec, hbefore rfl⟩
  · obtain rfl := not_not.mp hd
    exact fun a w' h => ⟨hwork _ hrec a w' h, hbefore rfl⟩

/-! ### What a call comes to -/

/-- A first call runs the functions `phases` of the caller and returns without an error; a call with the
digest of the first one returns without an error and runs nothing; any other is refused and runs nothing. -/
def Outcome {σ α : Type} [Inhabited σ] (first : Option GoString) (d : GoString) (refusal : Error) (phases : List Action) (w : World)
    (res : Except (σ × Error) α) (w' : World) : Prop :=
  match first with
  | none => (∃ a, res = .ok a) ∧ actionsOf w'.log = actionsOf w.log ++ phases
  | some d₁ =>
    if d₁ = d then (∃ a, res = .ok a) ∧ actionsOf w'.log = actionsOf w.log
    else res = .error (default, refusal) ∧ actionsOf w'.log = actionsOf w.log

section Outcome

variable {σ α : Type} [Inhabited σ] {d d₁ : GoString} {refusal : Error} {phases : List Action} {w w' : World} {res : Except (σ × Error) α}

theorem Outcome.again (hd : d₁ = d) (h : ∃ a, res = .ok a) (ha : actionsOf w'.log = actionsOf w.log) :
    Outcome (some d₁) d refusal phases w res w' := by
  simp only [Outcome, if_pos hd]
  exact ⟨h, ha⟩

theorem Outcome.refused (hd : d₁ ≠ d) (h : res = .error (default, refusal)) (ha : actionsOf w'.log = actionsOf w.log) :
    Outcome (some d₁) d refusal phases w res w' := by
  simp only [Outcome, if_neg hd]
  exact ⟨h, ha⟩

end Outcome

/-! ### Starts -/

theorem allows_start (cfg : Kind → Config) (s : Start.Spec) : Start.Allows (owns cfg .start) ((cfg .start).withSchema Start.defaultSchema) s :=
  ⟨trivial, fun _ => trivial, ⟨⟨rfl, rfl⟩, trivial⟩, fun _ hf => ⟨⟨rfl, rfl⟩, hf⟩⟩

/-- An update of a row that is there. -/
theorem exec_update_start {c : Config} {r : StartRow} (hr : w.starts c.key = some r) (f : StartRow → StartRow) :
    exec 0 (Start.update c f) w = some { w with starts := update w.starts c.key (some (f r)) } := by
  simp only [Start.update, exec, RowStmt.exec, hr, map_some]

section Start

variable {c : Config} {s : Start.Spec} {w : World} {r : StartRow}

theorem runs_startStatus (hc : Start.defaults c = .ok c) (hs : s.validate = .ok ()) (hr : w.starts c.key = some r)
    (hd : r.specDigest = s.digest) :
    (Start.statusOf c s).Runs (exec 0) w fun res w' => ∃ st, res = .ok st ∧ w' = w := by
  rw [Start.statusOf, hc, hs]
  refine Runs.stmt rfl (Runs.stmt (exec_reads trivial) ?_)
  simp only [hr, hd, ne_eq, not_true_eq_false, if_false]
  exact Runs.pure ⟨_, rfl, rfl⟩

/-- A function of the caller that succeeds. -/
theorem runs_act [Inhabited σ] (a : Action) (v : GoString) : (act a v : Program σ Unit).Runs (exec 0) w fun res w' => ∃ u, res = .ok u ∧
    w'.starts = w.starts ∧ w'.contracts = w.contracts ∧ w'.rollbacks = w.rollbacks ∧ w'.outside = w.effects a w.outside ∧
    w'.effects = w.effects ∧ actionsOf w'.log = actionsOf w.log ++ [a] := by
  refine Runs.always rfl (Runs.stmt rfl (Runs.pure ⟨(), rfl, rfl, rfl, rfl, rfl, rfl, ?_⟩))
  simp [World.enter, World.record, actionsOf]

/-- The functions of the caller in a phase. -/
def phaseActions : StartPhase → List Action
  | .recordIntent | .complete => []
  | p => [.start p]

theorem runs_phases {hooked : Bool} {d : GoString} (l : List StartPhase) (n : Nat) (hr : ∃ r, w.starts c.key = some r ∧ r.specDigest = d) :
    (Start.runPhases c s (Start.Actions.single s.newVersion) (Start.Hooks.single hooked) n l).Runs (exec 0) w
      fun res w' => ∃ u, res = .ok u ∧ (∃ r, w'.starts c.key = some r ∧ r.specDigest = d) ∧
        actionsOf w'.log = actionsOf w.log ++ l.flatMap phaseActions := by
  induction l generalizing n w with
  | nil => exact Runs.pure ⟨(), rfl, hr, by simp⟩
  | cons p l ih =>
    obtain ⟨r, hr, rfl⟩ := hr
    refine Runs.seq (M := fun _ w' => (∃ r', w'.starts c.key = some r' ∧ r'.specDigest = r.specDigest) ∧
      actionsOf w'.log = actionsOf w.log ++ phaseActions p) ?_ fun _ w₁ h₁ => ?_
    · refine Runs.stmt (exec_update_start hr _) ?_
      refine Runs.seq (M := fun _ w' => (∃ r', w'.starts c.key = some r' ∧ r'.specDigest = r.specDigest) ∧
        actionsOf w'.log = actionsOf w.log ++ phaseActions p) (Runs.onError ?_) fun _ w₁ h₁ => ?_
      · have hsilent : ((Start.Actions.single s.newVersion).of p = pure () ∧ phaseActions p = []) ∨
            ((Start.Actions.single s.newVersion).of p = act (.start p) s.newVersion ∧ phaseActions p = [.start p]) := by
          cases p <;> first | exact .inl ⟨rfl, rfl⟩ | exact .inr ⟨rfl, rfl⟩
        rcases hsilent with ⟨hp, hpa⟩ | ⟨hp, hpa⟩
        · rw [hp, hpa]
          exact Runs.pure ⟨(), rfl, ⟨_, update_self _ _ _, rfl⟩, by simp⟩
        · rw [hp, hpa]
          refine (runs_act _ _).mono ?_
          rintro _ w₂ ⟨u, rfl, hst, -, -, -, -, hact⟩
          exact ⟨u, rfl, ⟨_, (congrFun hst _).trans (update_self _ _ _), rfl⟩, hact⟩
      · obtain ⟨⟨r₁, hr₁, hd₁⟩, hact⟩ := h₁
        refine Runs.stmt (exec_update_start hr₁ _) ?_
        have hend : (∃ r', update w₁.starts c.key (some { r₁ with progress := n + 1 }) c.key = some r' ∧ r'.specDigest = r.specDigest) ∧
            actionsOf w₁.log = actionsOf w.log ++ phaseActions p := ⟨⟨_, update_self _ _ _, hd₁⟩, hact⟩
        cases hooked with
        | false => exact Runs.pure ⟨(), rfl, hend⟩
        | true => exact Runs.onError (Runs.stmt rfl (Runs.pure ⟨(), rfl, hend⟩))
    · refine (ih (n + 1) h₁.1).mono ?_
      rintro _ w₂ ⟨u, rfl, hr₂, hact⟩
      exact ⟨u, rfl, hr₂, by rw [hact, h₁.2, flatMap_cons, append_assoc]⟩

/-- What a start comes to once it has its lock, if what is recorded is complete. -/
theorem runs_serveStart (hc : Start.defaults c = .ok c) (hs : s.validate = .ok ()) (hooked : Bool)
    (hcomplete : ∀ r, w.starts c.key = some r → r.state = .complete) :
    (Start.serve c s (Start.Actions.single s.newVersion) (Start.Hooks.single hooked)).Runs (exec 0) w
      (Outcome ((w.starts c.key).map (·.specDigest)) s.digest (.invalid (str "another migration owns target/environment"))
        (Start.phases.flatMap phaseActions) w) := by
  cases hrow : w.starts c.key with
  | none =>
    have hinsert : exec 0 (.start c.key (.insert (Start.newRow s))) w =
        some { w with starts := update w.starts c.key (some (Start.newRow s)) } := by
      simp only [exec, RowStmt.exec, hrow]
    refine Runs.stmt hinsert (Runs.stmt (exec_reads trivial) ?_)
    simp only [update_self, Start.newRow, ne_eq, not_true_eq_false, if_false, reduceCtorEq]
    refine Runs.seq (runs_phases _ _ ⟨_, update_self _ _ _, rfl⟩) ?_
    rintro _ w₁ ⟨⟨r, hr, hd⟩, hact⟩
    refine Runs.stmt (exec_update_start hr _) ((runs_startStatus hc hs (update_self _ _ _) (by exact hd)).mono ?_)
    rintro _ w₂ ⟨st, rfl, rfl⟩
    exact ⟨⟨st, rfl⟩, hact⟩
  | some r =>
    have hinsert : exec 0 (.start c.key (.insert (Start.newRow s))) w = some w := by
      have hsame : RowStmt.exec (.insert (Start.newRow s)) (w.starts c.key) = w.starts c.key := by rw [hrow]; rfl
      simp only [exec, hsame, update_eq_self]
    refine Runs.stmt hinsert (Runs.stmt (exec_reads trivial) ?_)
    simp only [hrow, hcomplete r hrow, map_some]
    split_ifs with hd
    · exact Runs.fail (Outcome.refused hd rfl rfl)
    · refine (runs_startStatus hc hs hrow (not_not.mp hd)).mono ?_
      rintro _ w₂ ⟨st, rfl, rfl⟩
      exact Outcome.again (not_not.mp hd) ⟨st, rfl⟩ rfl

/-- A start that returns without an error leaves a complete row with its digest, which was there before if any was. -/
theorem yields_serveStart (hooked : Bool) :
    (Start.serve ((cfg .start).withSchema Start.defaultSchema) s (Start.Actions.single s.newVersion) (Start.Hooks.single hooked)).Yields (exec 0) w
      fun _ w' => recorded cfg .start w' = some (s.digest, true) ∧ ∀ d b, recorded cfg .start w = some (d, b) → d = s.digest := by
  refine Yields.stmt fun w₁ hw₁ => Yields.stmt fun w₂ hw₂ => ?_
  obtain rfl := eq_of_reads hw₂ trivial
  -- the row is the recorded one, or the new one if there was none
  obtain ⟨r, hr, hold⟩ : ∃ r, w₁.starts (rowKey cfg .start) = some r ∧ ∀ r', w.starts (rowKey cfg .start) = some r' → r' = r := by
    cases hw₁
    exact row_inserted _ _ _
  have hrec : recorded cfg .start w₁ = some (r.specDigest, decide (r.state = .complete)) := by rw [recorded, hr, map_some]
  have hstatus : (Start.statusOf ((cfg .start).withSchema Start.defaultSchema) s).Only reads :=
    Start.only_statusOf trivial (fun _ => trivial) _ _
  rw [show w₁.starts ((cfg .start).withSchema Start.defaultSchema).key = some r from hr]
  refine yields_owned hrec (fun hd => hd ▸ summary_first hold) hstatus fun b hrec => ?_
  refine Yields.bind fun _ w₂ hw₂ => Yields.stmt fun w₃ hw₃ => ?_
  have hkeep : KeepsRows cfg .start w₁ w₂ := by
    refine keeps_of_only (Start.only_runPhases (allows_start cfg s) ?_ ?_ _ _) hw₂
    · exact Start.only_single (fun _ => trivial) trivial
    · exact fun hook hh => Start.only_hook trivial hook hh
  obtain ⟨b, hb⟩ := hkeep.own _ _ hrec
  cases hw₃
  exact yields_reads hstatus (summary_done (fun _ => ⟨rfl, rfl⟩) hb)

end Start

/-! ### Completions -/

theorem allows_contract (cfg : Kind → Config) (s : Contract.Spec) : Contract.Allows (owns cfg .contract) ((cfg .contract).withSchema Contract.defaultSchema) s :=
  ⟨trivial, trivial, fun _ _ => trivial, trivial, fun _ _ => trivial, fun _ _ _ => trivial, trivial, fun _ => trivial, ⟨rfl, rfl⟩,
    fun _ hf => ⟨⟨rfl, rfl⟩, hf⟩⟩

/-- `G n` holds of the answers of the outside after `n` steps: the gates are open, and executing the
next step makes its check true. -/
structure Cooperates (s : Contract.Spec) (a : Approval) (effects : Action → Outside → Outside) (G : Nat → Outside → Prop) : Prop where
  gates : ∀ n o, G n o → Contract.Open o.evidence a s o.clock
  step : ∀ n x o, s.steps[n]? = some x → G n o → o.check x.checkSQL = some false ∧
    (effects (.contract n) o).check x.checkSQL = some true ∧ G (n + 1) (effects (.contract n) o)

section Completion

variable {c : Config} {s : Contract.Spec} {a : Approval} {w : World} {r : ContractRow}

theorem runs_contractStatus (hc : Contract.defaults c = .ok c) (hs : s.validate = .ok ()) (hr : w.contracts c.key = some r)
    (hd : r.specDigest = s.digest) :
    (Contract.statusOf c s).Runs (exec 0) w fun res w' => ∃ st, res = .ok st ∧ w' = w := by
  rw [Contract.statusOf, hc, hs]
  refine Runs.stmt rfl (Runs.stmt (exec_reads trivial) ?_)
  simp only [hr, hd, ne_eq, not_true_eq_false, if_false]
  split_ifs
  · exact Runs.pure ⟨_, rfl, rfl⟩
  · exact Runs.pure ⟨_, rfl, rfl⟩

/-- What is known between two statements of the loop: the row has its digest, the outside answers `o`, and
the functions `acts` of the caller have been called. -/
structure Along (c : Config) (d : GoString) (effects : Action → Outside → Outside) (o : Outside) (acts : List Action) (w : World) : Prop where
  row : ∃ r, w.contracts c.key = some r ∧ r.specDigest = d
  effects : w.effects = effects
  outside : w.outside = o
  actions : actionsOf w.log = acts

variable {d : GoString} {effects : Action → Outside → Outside} {o : Outside} {acts : List Action}

theorem Along.record (h : Along c d effects o acts w) {e : Event} (he : actionsOf [e] = []) : Along c d effects o acts (w.record e) :=
  ⟨h.row, h.effects, h.outside, by simp [World.record, he, h.actions]⟩

/-- An update of the row. -/
theorem Along.update {β : Type} (h : Along c d effects o acts w) {f : ContractRow → ContractRow} (hf : ∀ r, (f r).specDigest = r.specDigest)
    {g : World → Program Contract.Status β} {Q : Except (Contract.Status × Error) β → World → Prop}
    (hg : ∀ w', Along c d effects o acts w' → (g w').Runs (exec 0) w' Q) : (sql (Contract.update c f) >>= g).Runs (exec 0) w Q := by
  obtain ⟨r, hr, hd⟩ := h.row
  have he : exec 0 (Contract.update c f) w = some { w with contracts := Function.update w.contracts c.key (some (f r)) } := by
    simp only [Contract.update, exec, RowStmt.exec, hr, map_some]
  refine Runs.stmt he (hg _ ⟨⟨f r, update_self _ _ _, (hf r).trans hd⟩, h.effects, h.outside, h.actions⟩)

theorem runs_step {G : Nat → Outside → Prop} (hG : Cooperates s a effects G) {n : Nat} {x : Contract.Step} (hx : s.steps[n]? = some x)
    (ho : G n o) (h : Along c d effects o acts w) :
    (Contract.runStep c s a n x).Runs (exec 0) w fun res w' => ∃ u, res = .ok u ∧
      Along c d effects (effects (.contract n) o) (acts ++ [.contract n]) w' := by
  obtain ⟨hfalse, htrue, -⟩ := hG.step n x o hx ho
  refine Runs.seq (M := fun _ w' => Along c d effects o acts w') ?_ fun _ w₁ h₁ => ?_
  · -- the gates are open
    refine Runs.stmt rfl (Runs.always rfl ?_)
    have hopen := Contract.gate_eq_nil.mpr (hG.gates n o ho)
    simp only [World.record_outside, h.outside, hopen, ne_eq, not_true_eq_false, if_false]
    exact Runs.pure ⟨(), rfl, (h.record rfl).record rfl⟩
  have hbefore : exec 0 (.check n x.checkSQL false) w₁ = some (w₁.record (.checked 0 n false false)) := by
    simp only [exec, h₁.outside, hfalse, map_some]
  have h₁' : Along c d effects o acts (w₁.record (.checked 0 n false false)) := h₁.record rfl
  refine Runs.stmt hbefore (h₁'.update (by exact fun _ => rfl) fun w₂ h₂ => ?_)
  have hcheck : (w₁.record (.checked 0 n false false)).outside.check x.checkSQL = some false := by rw [World.record_outside, h₁.outside, hfalse]
  rw [hcheck]
  refine Runs.seq (M := fun _ w' => Along c d effects (effects (.contract n) o) (acts ++ [.contract n]) w') ?_ fun _ w₃ h₃ => ?_
  · refine Runs.onError ((runs_act _ _).mono ?_)
    rintro _ w₃ ⟨u, rfl, -, hc, -, hout, heff, hact⟩
    refine ⟨u, rfl, hc ▸ h₂.row, heff.trans h₂.effects, ?_, ?_⟩
    · rw [hout, h₂.effects, h₂.outside]
    · rw [hact, h₂.actions]
  refine Runs.seq (M := fun _ w' => Along c d effects (effects (.contract n) o) (acts ++ [.contract n]) w') ?_ fun _ w₄ h₄ => ?_
  · have hafter : exec 0 (.check n x.checkSQL true) w₃ = some (w₃.record (.checked 0 n true true)) := by
      simp only [exec, h₃.outside, htrue, map_some]
    refine Runs.onError (Runs.stmt hafter ?_)
    simp only [World.record_outside, h₃.outside, htrue, ne_eq, not_true_eq_false, if_false]
    exact Runs.pure ⟨(), rfl, h₃.record rfl⟩
  · exact h₄.update (by exact fun _ => rfl) fun w₅ h₅ => Runs.pure ⟨(), rfl, h₅⟩

theorem runs_steps {G : Nat → Outside → Prop} (hG : Cooperates s a effects G) (l : List Contract.Step) (n : Nat) (hl : s.steps.drop n = l)
    (ho : G n o) (h : Along c d effects o acts w) :
    (Contract.runSteps c s a n l).Runs (exec 0) w fun res w' => ∃ u, res = .ok u ∧
      ∃ o', Along c d effects o' (acts ++ (List.range' n l.length).map .contract) w' := by
  induction l generalizing n o acts w with
  | nil => exact Runs.pure ⟨(), rfl, o, by simpa using h⟩
  | cons x l ih =>
    have hx : s.steps[n]? = some x := by
      rw [← head?_drop, hl]
      rfl
    refine Runs.seq (runs_step hG hx ho h) fun _ w₁ h₁ => ?_
    refine (ih (n + 1) ?_ (hG.step n x o hx ho).2.2 h₁).mono ?_
    · rw [← tail_drop, hl]
      rfl
    · rintro _ w₂ ⟨u, rfl, o', h₂⟩
      refine ⟨u, rfl, o', ?_⟩
      simpa [range'_succ] using h₂

/-- What a completion comes to once it has its lock, if what is recorded is complete. -/
theorem runs_serveCompletion (hc : Contract.defaults c = .ok c) (hs : s.validate = .ok ())
    (hcoop : ∃ G, G 0 w.outside ∧ Cooperates s a w.effects G) (hcomplete : ∀ r, w.contracts c.key = some r → r.state = .complete) :
    (Contract.serve c s a).Runs (exec 0) w (Outcome ((w.contracts c.key).map (·.specDigest)) s.digest
      (.refused (str "different contract plan owns target")) ((List.range s.steps.length).map .contract) w) := by
  cases hrow : w.contracts c.key with
  | none =>
    obtain ⟨G, hG₀, hG⟩ := hcoop
    let r₀ : ContractRow := ⟨s.digest, .pending, 0, [], []⟩
    let w₁ : World := ({ w with contracts := update w.contracts c.key (some r₀) } : World).record (.contractStarted s.newVersion)
    have hinsert : exec 0 (.contractInsert c.key r₀ s.newVersion) w = some w₁ := by
      simp only [exec, hrow, w₁]
    have hrow₁ : w₁.contracts c.key = some r₀ := update_self _ _ _
    refine Runs.stmt hinsert (Runs.stmt (exec_reads trivial) ?_)
    simp only [hrow₁, r₀, ne_eq, not_true_eq_false, if_false, reduceCtorEq]
    have h₁ : Along c s.digest w.effects w.outside (actionsOf w.log) w₁ :=
      ⟨⟨r₀, hrow₁, rfl⟩, rfl, rfl, by simp [w₁, World.record, actionsOf]⟩
    refine Runs.seq (runs_steps hG _ 0 rfl hG₀ h₁) ?_
    rintro _ w₂ ⟨o', h₂⟩
    refine Runs.seq (M := fun _ w' => w' = w₂.record (.verified 0)) (Runs.onError ?_) ?_
    · exact Runs.stmt rfl (Runs.pure ⟨(), rfl, rfl⟩)
    rintro _ w₃ rfl
    have h₃ : Along c s.digest w.effects o' _ (w₂.record (.verified 0)) := h₂.record rfl
    refine h₃.update (by exact fun _ => rfl) fun w₄ h₄ => ?_
    obtain ⟨r, hr, hd⟩ := h₄.row
    refine (runs_contractStatus hc hs hr hd).mono ?_
    rintro _ w₅ ⟨st, rfl, rfl⟩
    refine ⟨⟨st, rfl⟩, ?_⟩
    rw [h₄.actions, range_eq_range']
    rfl
  | some r =>
    have hinsert : exec 0 (.contractInsert c.key ⟨s.digest, .pending, 0, [], []⟩ s.newVersion) w = some w := by
      simp only [exec, hrow]
    refine Runs.stmt hinsert (Runs.stmt (exec_reads trivial) ?_)
    simp only [hrow, hcomplete r hrow, map_some]
    split_ifs with hd
    · exact Runs.fail (Outcome.refused hd rfl rfl)
    · refine (runs_contractStatus hc hs hrow (not_not.mp hd)).mono ?_
      rintro _ w₂ ⟨st, rfl, rfl⟩
      exact Outcome.again (not_not.mp hd) ⟨st, rfl⟩ rfl

/-- A completion that returns without an error leaves a complete row with its digest, which was there before if any was. -/
theorem yields_serveCompletion :
    (Contract.serve ((cfg .contract).withSchema Contract.defaultSchema) s a).Yields (exec 0) w
      fun _ w' => recorded cfg .contract w' = some (s.digest, true) ∧ ∀ d b, recorded cfg .contract w = some (d, b) → d = s.digest := by
  refine Yields.stmt fun w₁ hw₁ => Yields.stmt fun w₂ hw₂ => ?_
  obtain rfl := eq_of_reads hw₂ trivial
  obtain ⟨r, hr, hold⟩ : ∃ r, w₁.contracts (rowKey cfg .contract) = some r ∧ ∀ r', w.contracts (rowKey cfg .contract) = some r' → r' = r := by
    have hw₁ : exec 0 (.contractInsert (rowKey cfg .contract) _ _) w = some w₁ := hw₁
    simp only [exec] at hw₁
    cases hrow : w.contracts (rowKey cfg .contract) with
    | none =>
      rw [hrow] at hw₁
      cases hw₁
      exact ⟨_, update_self _ _ _, fun r' h => by cases h⟩
    | some r =>
      rw [hrow] at hw₁
      cases hw₁
      exact ⟨r, hrow, fun r' h => (some.inj h).symm⟩
  have hrec : recorded cfg .contract w₁ = some (r.specDigest, decide (r.state = .complete)) := by rw [recorded, hr, map_some]
  have hstatus : (Contract.statusOf ((cfg .contract).withSchema Contract.defaultSchema) s).Only reads :=
    Contract.only_statusOf trivial (fun _ => trivial) _ _
  have hallows := allows_contract cfg s
  rw [show w₁.contracts ((cfg .contract).withSchema Contract.defaultSchema).key = some r from hr]
  refine yields_owned hrec (fun hd => hd ▸ summary_first hold) hstatus fun b hrec => ?_
  refine Yields.bind fun _ w₂ hw₂ => Yields.bind fun _ w₃ hw₃ => Yields.stmt fun w₄ hw₄ => ?_
  -- the final inspection, with what follows if it fails
  have hverify : KeepsRows cfg .contract w₂ w₃ := by
    refine keeps_of_only ?_ hw₃
    refine Only.onError ?_ fun _ => (Contract.only_interrupt hallows _ _).bind fun _ => Only.bind ?_ fun _ => trivial
    · exact (Only.stmt (by trivial)).bind fun _ => trivial
    · exact only_orZero (Contract.only_statusOf hallows.session hallows.select _ _)
  obtain ⟨b, hb⟩ := ((keeps_of_only (Contract.only_runSteps hallows _ _) hw₂).trans hverify).own _ _ hrec
  cases hw₄
  exact yields_reads hstatus (summary_done (fun _ => ⟨rfl, rfl⟩) hb)

end Completion

/-! ### Rollbacks -/

theorem allows_rollback (cfg : Kind → Config) (s : Rollback.Spec) : Rollback.Allows (owns cfg .rollback) ((cfg .rollback).withSchema Rollback.defaultSchema) s :=
  ⟨trivial, trivial, fun _ _ => trivial, fun _ => trivial, fun _ => trivial, ⟨⟨rfl, rfl⟩, trivial⟩, fun _ hf => ⟨⟨rfl, rfl⟩, hf⟩⟩

theorem exec_update_rollback {c : Config} {r : RollbackRow} (hr : w.rollbacks c.key = some r) (f : RollbackRow → RollbackRow) :
    exec 0 (Rollback.update c f) w = some { w with rollbacks := update w.rollbacks c.key (some (f r)) } := by
  simp only [Rollback.update, exec, RowStmt.exec, hr, map_some]

section Rollback

variable {c : Config} {s : Rollback.Spec} {a : Rollback.Authorization} {w : World} {r : RollbackRow}

theorem runs_rollbackStatus (hc : Rollback.defaults c = .ok c) (hr : w.rollbacks c.key = some r) (hd : r.specDigest = s.digest) :
    (Rollback.statusOf c s).Runs (exec 0) w fun res w' => ∃ st, res = .ok st ∧ w' = w := by
  rw [Rollback.statusOf, hc]
  refine Runs.stmt rfl (Runs.stmt (exec_reads trivial) ?_)
  simp only [hr, hd, ne_eq, not_true_eq_false, if_false]
  exact Runs.pure ⟨_, rfl, rfl⟩

theorem runs_rollbackPhases {d : GoString} (l : List RollbackPhase) (hr : ∃ r, w.rollbacks c.key = some r ∧ r.specDigest = d) :
    (Rollback.runPhases c s l).Runs (exec 0) w fun res w' => ∃ u, res = .ok u ∧ (∃ r, w'.rollbacks c.key = some r ∧ r.specDigest = d) ∧
      actionsOf w'.log = actionsOf w.log ++ l.map .rollback := by
  induction l generalizing w with
  | nil => exact Runs.pure ⟨(), rfl, hr, by simp⟩
  | cons p l ih =>
    obtain ⟨r, hr, rfl⟩ := hr
    refine Runs.seq (M := fun _ w' => (∃ r', w'.rollbacks c.key = some r' ∧ r'.specDigest = r.specDigest) ∧
      actionsOf w'.log = actionsOf w.log ++ [.rollback p]) ?_ fun _ w₁ h₁ => ?_
    · refine Runs.attempt (exec_update_rollback hr _) (Runs.seq (Runs.onError (runs_act _ _)) ?_)
      rintro _ w₂ ⟨-, -, hrow, -, -, hact⟩
      have hr₂ := (congrFun hrow c.key).trans (update_self _ _ _)
      exact Runs.stmt (exec_update_rollback hr₂ _) (Runs.pure ⟨(), rfl, ⟨_, update_self _ _ _, rfl⟩, hact⟩)
    · refine (ih h₁.1).mono ?_
      rintro _ w₂ ⟨u, rfl, hr₂, hact⟩
      exact ⟨u, rfl, hr₂, by rw [hact, h₁.2, append_assoc]; rfl⟩

/-- What a rollback comes to once it has its lock, if it is eligible and what is recorded is complete. -/
theorem runs_serveRollback (hc : Rollback.defaults c = .ok c) (heligible : Rollback.eligibilityBlockers w.outside.eligibility a = [])
    (hcomplete : ∀ r, w.rollbacks c.key = some r → r.state = .complete) :
    (Rollback.serve c s a).Runs (exec 0) w (Outcome ((w.rollbacks c.key).map (·.specDigest)) s.digest
      (.refused (str "different operation owns target")) (Rollback.steps.map .rollback) w) := by
  cases hrow : w.rollbacks c.key with
  | none =>
    refine Runs.stmt (exec_reads trivial) ?_
    rw [hrow]
    refine Runs.stmt rfl ?_
    rw [if_neg (not_not.mpr heligible)]
    have hinsert : exec 0 (.rollback c.key (.insert ⟨s.digest, .running, .withdrawNew, []⟩)) w =
        some { w with rollbacks := update w.rollbacks c.key (some ⟨s.digest, .running, .withdrawNew, []⟩) } := by
      simp only [exec, RowStmt.exec, hrow]
    refine Runs.stmt hinsert (Runs.stmt (exec_reads trivial) ?_)
    simp only [update_self, ne_eq, not_true_eq_false, if_false, reduceCtorEq]
    refine Runs.seq (runs_rollbackPhases _ ⟨_, update_self _ _ _, rfl⟩) ?_
    rintro _ w₁ ⟨⟨r, hr, hd⟩, hact⟩
    refine Runs.seq (M := fun _ w' => w'.rollbacks c.key = some r ∧ w'.log = w₁.log) ⟨_, _, rfl, _, rfl, hr, rfl⟩ ?_
    rintro _ w₂ ⟨hr₂, hlog⟩
    refine Runs.stmt (exec_update_rollback hr₂ _) ?_
    refine (runs_rollbackStatus hc (update_self _ _ _) (by exact hd)).mono ?_
    rintro _ w₃ ⟨st, rfl, rfl⟩
    exact ⟨⟨st, rfl⟩, hlog ▸ hact⟩
  | some r =>
    refine Runs.stmt (exec_reads trivial) ?_
    rw [hrow]
    by_cases hd : r.specDigest = s.digest
    · simp only [Rollback.existing, hd, hcomplete r hrow, ne_eq, not_true_eq_false, if_false, decide_true]
      refine (runs_rollbackStatus hc hrow hd).mono ?_
      rintro _ w₂ ⟨st, rfl, rfl⟩
      exact Outcome.again hd ⟨st, rfl⟩ rfl
    · simp only [Rollback.existing, hd, ne_eq, not_false_eq_true, if_true]
      exact Runs.fail (Outcome.refused hd rfl rfl)

theorem only_serveRollback (hallows : Rollback.Allows (owns cfg .rollback) c s) : (Rollback.serve c s a).Only (owns cfg .rollback) := by
  refine (only_sql (hallows.select _)).bind fun w => (only_lift _).bind fun complete => ?_
  split_ifs
  · exact Rollback.only_statusOf hallows.session hallows.select _ _
  · refine (Only.stmt (by trivial)).bind fun w => ?_
    split_ifs
    · trivial
    · exact Rollback.only_proceed hallows _ _

/-- A rollback that returns without an error leaves a complete row with its digest, which was there before if any was. -/
theorem yields_serveRollback :
    (Rollback.serve ((cfg .rollback).withSchema Rollback.defaultSchema) s a).Yields (exec 0) w
      fun _ w' => recorded cfg .rollback w' = some (s.digest, true) ∧ ∀ d b, recorded cfg .rollback w = some (d, b) → d = s.digest := by
  have hstatus : (Rollback.statusOf ((cfg .rollback).withSchema Rollback.defaultSchema) s).Only reads :=
    Rollback.only_statusOf trivial (fun _ => trivial) _ _
  have hallows := allows_rollback cfg s
  refine Yields.stmt fun w₁ hw₁ => ?_
  obtain rfl := eq_of_reads hw₁ trivial
  -- the first look at the row
  have hbefore : ∀ b, Rollback.existing s (w.rollbacks (rowKey cfg .rollback)) = .ok b →
      (∀ d b', recorded cfg .rollback w = some (d, b') → d = s.digest) ∧ (b = true → recorded cfg .rollback w = some (s.digest, true)) := by
    intro b hb
    cases hrow : w.rollbacks (rowKey cfg .rollback) with
    | none =>
      rw [hrow] at hb
      cases hb
      exact ⟨fun d b' hd => by simp [recorded, hrow] at hd, by rintro ⟨⟩⟩
    | some r =>
      rw [hrow, Rollback.existing] at hb
      split_ifs at hb with hd
      cases hb
      refine ⟨fun d b' hdb => ?_, fun hcomplete => ?_⟩
      · obtain ⟨r', hr', he⟩ := map_eq_some_iff.mp hdb
        rw [hrow] at hr'
        cases hr'
        rw [← (Prod.mk.inj he).1, not_not.mp hd]
      · simp only [recorded, hrow, map_some, not_not.mp hd, hcomplete]
  show Yields (exec 0) (lift (Rollback.existing s (w.rollbacks (rowKey cfg .rollback))) >>= _) w _
  cases hex : Rollback.existing s (w.rollbacks (rowKey cfg .rollback)) with
  | error e => exact Yields.fail
  | ok complete =>
    obtain ⟨hdigest, hdone⟩ := hbefore complete hex
    show Yields (exec 0) (if _ then _ else _) w _
    split_ifs with hcomplete
    · exact yields_reads hstatus ⟨hdone hcomplete, hdigest⟩
    refine Yields.stmt fun w₁ hw₁ => ?_
    split_ifs
    · exact Yields.fail
    refine Yields.stmt fun w₁ hw₁ => Yields.stmt fun w₂ hw₂ => ?_
    obtain rfl := eq_of_reads hw₂ trivial
    obtain ⟨r, hr⟩ : ∃ r, w₁.rollbacks (rowKey cfg .rollback) = some r := by
      cases hw₁
      exact (row_inserted _ _ _).imp fun _ h => h.1
    have hrec : recorded cfg .rollback w₁ = some (r.specDigest, decide (r.state = .complete)) := by rw [recorded, hr, map_some]
    rw [show w₁.rollbacks ((cfg .rollback).withSchema Rollback.defaultSchema).key = some r from hr]
    refine yields_owned hrec (fun _ => hdigest) hstatus fun b hrec => ?_
    refine Yields.bind fun _ w₂ hw₂ => Yields.stmt fun w₃ hw₃ => Yields.stmt fun w₄ hw₄ => ?_
    obtain ⟨b, hb⟩ := ((keeps_of_only (Rollback.only_runPhases hallows _) hw₂).trans (owns_exec (hallows.audit _) hw₃)).own _ _ hrec
    cases hw₄
    exact yields_reads hstatus (summary_done (fun _ => ⟨rfl, rfl⟩) hb)

end Rollback

/-! ### One call after the other -/

/-- What a call that returns without an error leaves behind. -/
structure Took (cfg : Kind → Config) (c : Call) (w w' : World) : Prop where
  settled : Settled cfg w'
  own : recorded cfg c.kind w' = some (c.digest, true)
  same : ∀ d b, recorded cfg c.kind w = some (d, b) → d = c.digest
  others : ∀ k, k ≠ c.kind → recorded cfg k w' = recorded cfg k w
  effects : w'.effects = w.effects

/-- Rows stay when a connection is closed. -/
theorem recorded_close (cfg : Kind → Config) (k : Kind) (w : World) : recorded cfg k (close 0 w) = recorded cfg k w := by
  cases k <;> rfl

theorem took_of_serve {w₁ w₂ : World} {serve : Program σ α} (hent : Entered cfg w w₁)
    (hrun : p.alone (exec 0) w = serve.alone (exec 0) w₁) (honly : serve.Only (owns cfg c.kind))
    (hyields : serve.Yields (exec 0) w₁ fun _ w' => recorded cfg c.kind w' = some (c.digest, true) ∧
      ∀ d b, recorded cfg c.kind w₁ = some (d, b) → d = c.digest)
    (h : p.forget.alone (exec 0) w = (some (.ok ()), w₂)) : Took cfg c w (close 0 w₂) := by
  obtain ⟨hw₂, hok⟩ := Prog.alone_forget (exec 0) p w
  rw [h] at hw₂ hok
  obtain ⟨a, ha⟩ := hok.mp rfl
  have hserve : serve.alone (exec 0) w₁ = (some (.ok a), w₂) := by
    rw [← hrun]
    exact Prod.ext ha hw₂.symm
  obtain ⟨hown, hsame⟩ := hyields a w₂ hserve
  have hkeep := keeps_of_only honly hserve
  refine ⟨⟨fun key => ?_, fun k => ?_⟩, (recorded_close cfg _ w₂).trans hown, ?_, fun k hk => ?_,
    hkeep.effects.trans hent.untouched.effects⟩
  · show (if w₂.locks key = some 0 then none else w₂.locks key) = none
    rw [hkeep.locks]
    rcases hent.locks key with hkey | hkey <;> simp [hkey]
  · show Ours cfg k w₂.catalog
    rw [hkeep.catalog]
    exact hent.ours k
  · rwa [← hent.untouched.recorded]
  · rw [recorded_close, hkeep.others k hk, hent.untouched.recorded]

theorem Settled.outside (h : Settled cfg w) (o : Outside) : Settled cfg { w with outside := o } := ⟨h.locks, h.ours⟩

theorem recorded_outside (cfg : Kind → Config) (k : Kind) (w : World) (o : Outside) : recorded cfg k { w with outside := o } = recorded cfg k w := by
  cases k <;> rfl

/-- A call does not return without an error unless its configuration and its specification are valid. -/
theorem valid_of_alone [Inhabited σ] {cfg : Except Error Config} {valid : Except Error Unit} {rest : Config → Program σ α}
    (h : (lift cfg >>= fun c => lift valid >>= fun _ => rest c).forget.alone (exec 0) w = (some (.ok ()), w')) :
    (∃ c, cfg = .ok c) ∧ valid = .ok () := by
  obtain ⟨-, hok⟩ := Prog.alone_forget (exec 0) (lift cfg >>= fun c => lift valid >>= fun _ => rest c) w
  rw [h] at hok
  obtain ⟨a, ha⟩ := hok.mp rfl
  cases cfg with
  | error e => cases ha
  | ok c =>
    cases valid with
    | error e => cases ha
    | ok u => exact ⟨⟨c, rfl⟩, rfl⟩

theorem took (hdistinct : Function.Injective (controlSchema cfg)) (h : Settled cfg w)
    (hs : Succeeds cfg c w w') : Took cfg c w w' := by
  obtain ⟨o, w₁, hrun, rfl⟩ := hs
  have h₀ := h.outside o
  suffices htook : Took cfg c { w with outside := o } (close 0 w₁) from
    ⟨htook.settled, htook.own, by simpa only [recorded_outside] using htook.same, by simpa only [recorded_outside] using htook.others,
      htook.effects⟩
  cases c with
  | start s hooked =>
    obtain ⟨⟨c, hc⟩, hv⟩ := valid_of_alone hrun
    obtain ⟨w₂, hent, heq⟩ := enters_start hdistinct h₀ hc hv (Start.Actions.single s.newVersion) (Start.Hooks.single hooked)
    obtain rfl := defaults_ok hc
    refine took_of_serve hent heq (Start.only_serve (allows_start cfg s) ?_ ?_) (yields_serveStart hooked) hrun
    · exact Start.only_single (fun _ => trivial) trivial
    · exact fun hook hh => Start.only_hook trivial hook hh
  | complete s a =>
    obtain ⟨⟨c, hc⟩, hv⟩ := valid_of_alone hrun
    obtain ⟨w₂, hent, heq⟩ := enters_completion hdistinct h₀ hc hv a
    obtain rfl := defaults_ok hc
    exact took_of_serve hent heq (Contract.only_serve (allows_contract cfg s)) yields_serveCompletion hrun
  | rollback s a =>
    obtain ⟨⟨c, hc⟩, hv⟩ := valid_of_alone hrun
    obtain ⟨w₂, hent, heq⟩ := enters_rollback hdistinct h₀ hc hv a
    obtain rfl := defaults_ok hc
    exact took_of_serve hent heq (only_serveRollback (allows_rollback cfg s)) yields_serveRollback hrun

/-- The digest of the first call of the package. -/
def firstOf (k : Kind) (cs : List Call) : Option GoString := (cs.find? fun c => decide (c.kind = k)).map Call.digest

/-- The row of a package is the row of its first call, and complete. -/
theorem Driven.rows (hdistinct : Function.Injective (controlSchema cfg)) {cs : List Call}
    (hd : Driven cfg w cs w') (h : Settled cfg w) (hall : ∀ k d b, recorded cfg k w = some (d, b) → b = true) :
    Settled cfg w' ∧ w'.effects = w.effects ∧ ∀ k, recorded cfg k w' = (recorded cfg k w).or ((firstOf k cs).map fun d => (d, true)) := by
  induction hd with
  | nil w => exact ⟨h, rfl, fun k => by simp [firstOf]⟩
  | @cons w w₁ w' c cs hs _ ih =>
    have htook := took hdistinct h hs
    obtain ⟨hsettled, heffects, hrows⟩ := ih htook.settled fun k d b hk => by
      by_cases hkind : k = c.kind
      · rw [hkind, htook.own] at hk
        exact (Prod.mk.inj (some.inj hk)).2.symm
      · exact hall k d b (htook.others k hkind ▸ hk)
    refine ⟨hsettled, heffects.trans htook.effects, fun k => (hrows k).trans ?_⟩
    by_cases hkind : k = c.kind
    · -- the row was there with this digest, or this call wrote it
      subst hkind
      have hfirst : firstOf c.kind (c :: cs) = some c.digest := by simp [firstOf]
      rw [htook.own, hfirst]
      cases hrow : recorded cfg c.kind w with
      | none => rfl
      | some r =>
        obtain ⟨d, b⟩ := r
        rw [hall _ d b hrow, htook.same d b hrow]
        rfl
    · rw [htook.others k hkind]
      simp [firstOf, Ne.symm hkind]

/-- A row that is complete, by its summary. -/
theorem complete_of_summary {done : ρ → Prop} [DecidablePred done] {row : Option ρ} {first : Option GoString}
    (h : row.map (fun r => (dig r, decide (done r))) = first.map fun d => (d, true)) :
    row.map dig = first ∧ ∀ r, row = some r → done r := by
  cases row with
  | none => cases first with
    | none => exact ⟨rfl, nofun⟩
    | some d => cases h
  | some r => cases first with
    | none => cases h
    | some d =>
      obtain ⟨hd, hdone⟩ := Prod.mk.inj (some.inj h)
      refine ⟨congrArg some hd, fun r' hr' => ?_⟩
      cases hr'
      exact of_decide_eq_true hdone

/-- A call comes to what its part under the lock comes to. -/
theorem Outcome.of_entered [Inhabited σ] {first : Option GoString} {d : GoString} {refusal : Error}
    {phases : List Action} {w₁ : World} {o : Outside} {serve : Program σ α} (hent : Entered cfg { w with outside := o } w₁)
    (heq : p.alone (exec 0) { w with outside := o } = serve.alone (exec 0) w₁)
    (h : serve.Runs (exec 0) w₁ (Outcome first d refusal phases w₁)) :
    p.Runs (exec 0) { w with outside := o } (Outcome first d refusal phases w) := by
  obtain ⟨r, w₂, hr, hout⟩ := h
  exact ⟨r, w₂, heq.trans hr, by simpa only [Outcome, hent.untouched.actions] using hout⟩

/-- A target belongs to the first specification of each package.  After any sequence of calls that all return
without an error, a further call runs its phases if no call of its package came before; it returns the
recorded status if the first one had the same digest; and it is refused, and runs nothing, if not. -/
theorem first_owns (cfg : Kind → Config) (hdistinct : Function.Injective (controlSchema cfg)) {w₀ w : World} {cs : List Call}
    (h₀ : Settled cfg w₀) (hnew : ∀ k, recorded cfg k w₀ = none) (hd : Driven cfg w₀ cs w) (o : Outside) :
    (∀ c s hooked, Start.defaults (cfg .start) = .ok c → s.validate = .ok () →
      (Start.startWithHooks 0 (cfg .start) s (Start.Actions.single s.newVersion) (Start.Hooks.single hooked)).Runs (exec 0) { w with outside := o }
        (Outcome (firstOf .start cs) s.digest (.invalid (str "another migration owns target/environment"))
          (Start.phases.flatMap phaseActions) w)) ∧
    (∀ c s a, Contract.defaults (cfg .contract) = .ok c → s.validate = .ok () → (∃ G, G 0 o ∧ Cooperates s a w₀.effects G) →
      (Contract.complete 0 (cfg .contract) s a).Runs (exec 0) { w with outside := o }
        (Outcome (firstOf .contract cs) s.digest (.refused (str "different contract plan owns target"))
          ((List.range s.steps.length).map .contract) w)) ∧
    (∀ c s a, Rollback.defaults (cfg .rollback) = .ok c → s.validate = .ok () → Rollback.eligibilityBlockers o.eligibility a = [] →
      (Rollback.rollback 0 (cfg .rollback) s a).Runs (exec 0) { w with outside := o }
        (Outcome (firstOf .rollback cs) s.digest (.refused (str "different operation owns target"))
          (Rollback.steps.map .rollback) w)) := by
  obtain ⟨hsettled, heffects, hrows⟩ := hd.rows hdistinct h₀ fun k d b hk => by simp [hnew k] at hk
  have hrows : ∀ k, recorded cfg k w = (firstOf k cs).map fun d => (d, true) := by
    intro k
    rw [hrows k, hnew k, none_or]
  have hsettled := hsettled.outside o
  refine ⟨fun c s hooked hc hs => ?_, fun c s a hc hs hcoop => ?_, fun c s a hc hs heligible => ?_⟩
  · obtain ⟨w₁, hent, heq⟩ := enters_start hdistinct hsettled hc hs (Start.Actions.single s.newVersion) (Start.Hooks.single hooked)
    obtain ⟨hfirst, hcomplete⟩ := complete_of_summary (hrows .start)
    obtain rfl := defaults_ok hc
    refine Outcome.of_entered hent heq ?_
    rw [← hfirst, ← show w₁.starts = w.starts from hent.untouched.starts]
    exact runs_serveStart (defaults_again hc) hs hooked fun r hr => hcomplete r (by rw [← hr, hent.untouched.starts]; rfl)
  · obtain ⟨w₁, hent, heq⟩ := enters_completion hdistinct hsettled hc hs a
    obtain ⟨hfirst, hcomplete⟩ := complete_of_summary (hrows .contract)
    obtain rfl := defaults_ok hc
    refine Outcome.of_entered hent heq ?_
    rw [← hfirst, ← show w₁.contracts = w.contracts from hent.untouched.contracts]
    refine runs_serveCompletion (defaults_again hc) hs ?_ fun r hr => hcomplete r (by rw [← hr, hent.untouched.contracts]; rfl)
    rw [hent.untouched.outside, hent.untouched.effects]
    exact heffects ▸ hcoop
  · obtain ⟨w₁, hent, heq⟩ := enters_rollback hdistinct hsettled hc hs a
    obtain ⟨hfirst, hcomplete⟩ := complete_of_summary (hrows .rollback)
    obtain rfl := defaults_ok hc
    refine Outcome.of_entered hent heq ?_
    rw [← hfirst, ← show w₁.rollbacks = w.rollbacks from hent.untouched.rollbacks]
    refine runs_serveRollback (defaults_again hc) ?_ fun r hr => hcomplete r (by rw [← hr, hent.untouched.rollbacks]; rfl)
    rw [hent.untouched.outside]
    exact heligible

/-- The outside answers as in the samples; a step of a completion makes its check true. -/
def sampleWorld : World :=
  World.fresh (Contract.sampleOutside false) fun a o => if a.kind = .contract then Contract.sampleOutside true else o

def sampleConfigs : Kind → Config := fun _ => Contract.sampleConfig

def nextStart : Start.Spec := Start.new (str "release_three") (List.replicate 64 0x62) (str "v2") (str "v3")

/-- The world after a call. -/
def after (c : Call) (w : World) : World := close 0 ((c.program (sampleConfigs c.kind) 0).alone (exec 0) w).2

/-- A call that returns without an error, as computed. -/
theorem succeeds_after
    (h : ((c.program (sampleConfigs c.kind) 0).alone (exec 0) w).1 = some (.ok ())) : Succeeds sampleConfigs c w (after c w) :=
  ⟨w.outside, _, Prod.ext h rfl, rfl⟩

theorem sampleSchemas_distinct : Function.Injective (controlSchema sampleConfigs) := by
  have hall : ∀ k k', controlSchema sampleConfigs k = controlSchema sampleConfigs k' → k = k' := by decide +kernel
  exact fun k k' => hall k k'

/-- The sample step makes its check true, and the gates stay open. -/
theorem sample_cooperates : Cooperates Contract.sampleSpec ⟨Contract.sampleSpec.digest, str "ada", str "approved", 1, 10⟩ sampleWorld.effects
    fun n o => o = Contract.sampleOutside (decide (0 < n)) := by
  refine ⟨fun n o ho => ?_, fun n x o hx ho => ?_⟩
  · subst ho
    refine Contract.gate_eq_nil.mp ?_
    show Contract.gate (Contract.sampleOutside false).evidence _ _ (Contract.sampleOutside false).clock = []
    decide +kernel
  · cases n with
    | zero =>
      subst ho
      exact ⟨rfl, rfl, rfl⟩
    | succ n => cases hx

/-- After a start, another start is refused, and the first completion and the first rollback run. -/
theorem first_owns_sample : ∃ w, Driven sampleConfigs sampleWorld [sampleStart] w ∧
    (Start.startWithHooks 0 Contract.sampleConfig nextStart (Start.Actions.single nextStart.newVersion) none).Runs (exec 0)
      { w with outside := Contract.sampleOutside false }
      (Outcome (some sampleStart.digest) nextStart.digest (.invalid (str "another migration owns target/environment"))
        (Start.phases.flatMap phaseActions) w) ∧
    (Contract.complete 0 Contract.sampleConfig Contract.sampleSpec ⟨Contract.sampleSpec.digest, str "ada", str "approved", 1, 10⟩).Runs (exec 0)
      { w with outside := Contract.sampleOutside false }
      (Outcome none sampleCompletion.digest (.refused (str "different contract plan owns target")) [.contract 0] w) ∧
    (Rollback.rollback 0 Contract.sampleConfig (Rollback.new (str "release_two") (List.replicate 64 0x61) (str "v1") (str "v2"))
        ⟨str "ada", str "broken", false, 1⟩).Runs (exec 0) { w with outside := Contract.sampleOutside false }
      (Outcome none sampleRollback.digest (.refused (str "different operation owns target")) (Rollback.steps.map .rollback) w) := by
  have hd : Driven sampleConfigs sampleWorld [sampleStart] (after sampleStart sampleWorld) :=
    .cons (succeeds_after (by decide +kernel)) (.nil _)
  obtain ⟨hstart, hcomplete, hrollback⟩ := first_owns sampleConfigs sampleSchemas_distinct ⟨fun _ => rfl, fun _ => ⟨.inl rfl, fun _ => .inl rfl⟩⟩
    (fun k => by cases k <;> rfl) hd (Contract.sampleOutside false)
  refine ⟨_, hd, hstart _ nextStart false rfl (by decide +kernel), ?_, ?_⟩
  · exact hcomplete _ Contract.sampleSpec _ rfl (by decide +kernel)
      ⟨fun n o => o = Contract.sampleOutside (decide (0 < n)), rfl, sample_cooperates⟩
  · exact hrollback _ _ _ rfl (by decide +kernel) (by decide +kernel)

/-- A migration is started and completed; the next start with a valid specification is refused. -/
theorem second_start_refused : ∃ w, Driven sampleConfigs sampleWorld [sampleStart, sampleCompletion] w ∧ nextStart.validate = .ok () ∧
    ((Start.startWithHooks 0 (sampleConfigs .start) nextStart (Start.Actions.single nextStart.newVersion) none).alone (exec 0) w).1 =
      some (.error (default, .invalid (str "another migration owns target/environment"))) := by
  have hruns : ((sampleStart.program (sampleConfigs .start) 0).alone (exec 0) sampleWorld).1 = some (.ok ()) ∧
      ((sampleCompletion.program (sampleConfigs .contract) 0).alone (exec 0) (after sampleStart sampleWorld)).1 = some (.ok ()) ∧
      ((Start.startWithHooks 0 (sampleConfigs .start) nextStart (Start.Actions.single nextStart.newVersion) none).alone (exec 0)
        (after sampleCompletion (after sampleStart sampleWorld))).1 =
          some (.error (default, .invalid (str "another migration owns target/environment"))) := by decide +kernel
  obtain ⟨hstart, hcompletion, hnext⟩ := hruns
  exact ⟨_, .cons (succeeds_after hstart) (.cons (succeeds_after hcompletion) (.nil _)), by decide +kernel, hnext⟩

end AutoSql.Zdm
