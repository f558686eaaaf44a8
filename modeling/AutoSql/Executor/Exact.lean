/-
AutoSql/Executor/Exact.lean

Exactly what the phases do to the data.

`Executed done d₀ d`: the steps of `done` ran in order from `d₀`, each has its
confirmed row, and nothing else happened.  A run that comes to the end of the phases
has executed all the work that was left to do.  A run that ends early has executed a
beginning of it, and at most one further step may have been started (`Begun`), whose
row then is intended.

A run ends early only for a reason: a fault, a step whose SQL fails, a row that is
there already, or a precheck that fails.  `Smooth` says that there is none of them.

Every judgement about the phases carries `Kept`, what is sent and what stays of the
rows, so that one walk through the run (`Stopped` is its result) serves all results.
-/
import AutoSql.Executor.Rules
import AutoSql.Lib.Fallible

namespace AutoSql.Executor

open Artifacts Proc List

variable {σ : Type} {b : Backend σ} {cfg : Config} {a : VerifiedArtifact} {A : Reply → Prop}

/-! ### The core under a statement -/

@[simp] theorem Core.data_store (c : Core σ) (d : Data σ) : (c.store d).data = d := by
  unfold Core.store Core.data
  cases h : c.tx <;> rfl

@[simp] theorem Core.isSome_store (c : Core σ) (d : Data σ) : (c.store d).tx.isSome = c.tx.isSome := by
  unfold Core.store
  cases h : c.tx <;> rfl

variable {c : Core σ} {d d' : Data σ} {r : Row} {s : Step}

theorem Core.store_some (h : c.tx.isSome = true) (d : Data σ) : c.store d = { c with tx := some d } := by
  obtain ⟨d', hd⟩ := Option.isSome_iff_exists.mp h
  simp [Core.store, hd]

theorem Core.data_none (h : c.tx = none) : c.data = c.db := by simp [Core.data, h]

/-- The primary key refuses a row whose key is there. -/
theorem addRow_some (h : addRow r d = some d') :
    r.key ∉ d.rows.map Row.key ∧ d' = { d with rows := d.rows ++ [r] } := by
  unfold addRow at h
  split_ifs at h with hr
  exact ⟨hr, (Option.some.inj h).symm⟩

theorem confirmRow_some (h : confirmRow r d = some d') :
    r ∈ d.rows ∧ d' = { d with rows := d.rows.map fun x => if x = r then { x with state := .confirmed } else x } := by
  unfold confirmRow at h
  split_ifs at h with hr
  exact ⟨hr, (Option.some.inj h).symm⟩

theorem effect_some (h : effect b cfg a s d = some d') : ∃ schema, b.exec s.sql d.schema = some schema ∧
      d' = { d with schema := schema, effects := d.effects ++ [stepKey cfg a s] } := by
  obtain ⟨schema, hs, rfl⟩ := Option.map_eq_some_iff.mp h
  exact ⟨schema, hs, rfl⟩

/-- A confirmation changes no key. -/
theorem confirmRow_keys (h : confirmRow r d = some d') : d'.rows.map Row.key = d.rows.map Row.key := by
  obtain ⟨-, rfl⟩ := confirmRow_some h
  rw [map_map]
  apply map_congr_left
  intro x _
  show Row.key (if x = r then { x with state := .confirmed } else x) = x.key
  split_ifs <;> rfl

theorem addRow_keys (h : addRow r d = some d') : d.rows.map Row.key ⊆ d'.rows.map Row.key := by
  obtain ⟨-, rfl⟩ := addRow_some h
  rw [map_append]
  exact subset_append_left _ _

theorem effect_keys (h : effect b cfg a s d = some d') : d.rows.map Row.key ⊆ d'.rows.map Row.key := by
  obtain ⟨_, -, rfl⟩ := effect_some h
  exact Subset.refl _

/-- What was sent outside a transaction is in `l` or has its row in the database, and the
open transaction has lost no row. -/
structure Kept (l : List Sent) (c : Core σ) : Prop where
  sent : ∀ s ∈ c.sent, s.inside = false → s ∈ l ∨ s.key ∈ c.db.rows.map Row.key
  rows : c.db.rows.map Row.key ⊆ c.data.rows.map Row.key

variable {l : List Sent}

theorem Kept.store (h : Kept l c) (hk : c.data.rows.map Row.key ⊆ d.rows.map Row.key) : Kept l (c.store d) := by
  cases ht : c.tx with
  | none =>
    rw [show c.store d = { c with db := d } by simp [Core.store, ht]]
    rw [Core.data_none ht] at hk
    exact ⟨fun s hs hi => (h.sent s hs hi).imp_right fun hr => hk hr, by simp [Core.data, ht]⟩
  | some _ =>
    rw [Core.store_some (by simp [ht])]
    exact ⟨h.sent, List.Subset.trans h.rows hk⟩

theorem Kept.send (h : Kept l c) {x : Sent} (hx : x.inside = false → x.key ∈ c.db.rows.map Row.key) :
    Kept l { c with sent := c.sent ++ [x] } := by
  refine ⟨fun s hs hi => ?_, h.rows⟩
  rcases mem_append.mp hs with hs | hs
  · exact h.sent s hs hi
  · rw [mem_singleton.mp hs] at hi ⊢
    exact .inr (hx hi)

theorem Kept.commit (h : Kept l c) : Kept l { c with db := c.data, tx := none } :=
  ⟨fun s hs hi => (h.sent s hs hi).imp_right fun hr => h.rows hr, Subset.refl _⟩

theorem Kept.close (h : Kept l c) : Kept l { c with tx := none } := ⟨h.sent, Subset.refl _⟩

/-! ### Work that is done -/

/-- A step in its phase. -/
abbrev Work := Phase × Step

def confirmedRow (cfg : Config) (a : VerifiedArtifact) (x : Work) : Row := historyRow cfg a x.2 x.1 .confirmed

def intendedRow (cfg : Config) (a : VerifiedArtifact) (x : Work) : Row := historyRow cfg a x.2 x.1 .intended

def workKey (cfg : Config) (a : VerifiedArtifact) (x : Work) : Key := stepKey cfg a x.2

@[simp] theorem confirmedRow_key (x : Work) : (confirmedRow cfg a x).key = workKey cfg a x := rfl

@[simp] theorem intendedRow_key (x : Work) : (intendedRow cfg a x).key = workKey cfg a x := rfl

/-- The SQL of the steps, one after another. -/
def execAll (b : Backend σ) (work : List Work) (schema : σ) : Option σ :=
  work.foldlM (fun s x => b.exec x.2.sql s) schema

theorem execAll_append (l₁ l₂ : List Work) (schema : σ) :
    execAll b (l₁ ++ l₂) schema = (execAll b l₁ schema).bind (execAll b l₂) := by
  unfold execAll
  rw [foldlM_append]
  rfl

theorem execAll_singleton (x : Work) (schema : σ) : execAll b [x] schema = b.exec x.2.sql schema := by
  simp [execAll]

structure Executed (b : Backend σ) (cfg : Config) (a : VerifiedArtifact) (done : List Work) (d₀ d : Data σ) : Prop where
  rows : d.rows = d₀.rows ++ done.map (confirmedRow cfg a)
  effects : d.effects = d₀.effects ++ done.map (workKey cfg a)
  schema : execAll b done d₀.schema = some d.schema

theorem Executed.nil (d : Data σ) : Executed b cfg a [] d d := ⟨by simp, by simp, rfl⟩

theorem Executed.append {l₁ l₂ : List Work} {d₀ d₁ d₂ : Data σ} (h₁ : Executed b cfg a l₁ d₀ d₁)
    (h₂ : Executed b cfg a l₂ d₁ d₂) : Executed b cfg a (l₁ ++ l₂) d₀ d₂ where
  rows := by rw [h₂.rows, h₁.rows, map_append, append_assoc]
  effects := by rw [h₂.effects, h₁.effects, map_append, append_assoc]
  schema := by rw [execAll_append, h₁.schema]; exact h₂.schema

/-- A step after `done` was started and is not confirmed. -/
structure Begun (b : Backend σ) (cfg : Config) (a : VerifiedArtifact) (done : List Work) (x : Work) (d₀ d : Data σ) :
    Prop where
  rows : d.rows = d₀.rows ++ (done.map (confirmedRow cfg a) ++ [intendedRow cfg a x])
  effects : ∃ l, (l = done ∨ l = done ++ [x]) ∧ d.effects = d₀.effects ++ l.map (workKey cfg a) ∧
    execAll b l d₀.schema = some d.schema

/-- How far a run through `work` has come. -/
def Reached (b : Backend σ) (cfg : Config) (a : VerifiedArtifact) (work : List Work) (d₀ d : Data σ) : Prop :=
  (∃ done rest, work = done ++ rest ∧ Executed b cfg a done d₀ d) ∨
    ∃ done x rest, work = done ++ x :: rest ∧ Begun b cfg a done x d₀ d

/-- Nothing ends the run before the work is done. -/
structure Smooth (A : Reply → Prop) (b : Backend σ) (cfg : Config) (a : VerifiedArtifact) (checks : List Assertion)
    (work : List Work) (d₀ : Data σ) : Prop where
  faultless : ¬ Faulty A
  executes : (execAll b work d₀.schema).isSome = true
  keys : (d₀.rows.map Row.key ++ work.map (workKey cfg a)).Nodup
  checks : ∀ x ∈ checks, b.observe x d₀.schema ≤ x.maxAllowed

section Steps

variable {checks : List Assertion} {work : List Work} {d₀ : Data σ}

/-- What holds where a run ends early. -/
def Ended (A : Reply → Prop) (b : Backend σ) (cfg : Config) (a : VerifiedArtifact) (checks : List Assertion)
    (work : List Work) (l : List Sent) (d₀ : Data σ) (c : Core σ) : Prop :=
  ¬ Smooth A b cfg a checks work d₀ ∧ Reached b cfg a work d₀ c.db ∧ Kept l c

/-- A caller's transaction is open and hides the run from the database. -/
structure Shape (cfg : Config) (l : List Sent) (d₀ : Data σ) (c : Core σ) : Prop where
  tx : c.tx.isSome = cfg.borrowed
  db : cfg.borrowed = true → c.db = d₀
  kept : Kept l c

variable {done rest : List Work} {x : Work} {confirmed : GoSet} {checksPending : Bool}

theorem Ended.of_faulty (hf : Faulty A) (hc : Reached b cfg a work d₀ c.db ∧ Kept l c) :
    Ended A b cfg a checks work l d₀ c := ⟨fun h => h.faultless hf, hc⟩

theorem reached_executed (hw : work = done ++ rest)
    (h : Executed b cfg a done d₀ d) : Reached b cfg a work d₀ d := .inl ⟨done, rest, hw, h⟩

theorem reached_refl : Reached b cfg a work d₀ d₀ := reached_executed (nil_append work).symm (Executed.nil d₀)

/-- What the statements see is in the database, or a caller's transaction is open. -/
theorem Shape.data_eq (h : Shape cfg l d₀ c) (hb : cfg.borrowed = false) : c.data = c.db :=
  Core.data_none (Option.not_isSome_iff_eq_none.mp (by rw [h.tx, hb]; simp))

theorem Shape.reached (h : Shape cfg l d₀ c) (hd : Reached b cfg a work d₀ c.data) : Reached b cfg a work d₀ c.db := by
  cases hb : cfg.borrowed with
  | true =>
    rw [h.db hb]
    exact reached_refl
  | false => rwa [h.data_eq hb] at hd

theorem Shape.store (h : Shape cfg l d₀ c) (hk : c.data.rows.map Row.key ⊆ d.rows.map Row.key) :
    Shape cfg l d₀ (c.store d) := by
  refine ⟨by rw [Core.isSome_store, h.tx], fun hb => ?_, h.kept.store hk⟩
  rw [Core.store_some (by rw [h.tx, hb])]
  exact h.db hb

/-- The SQL of the next step is executed, or the run is not smooth. -/
theorem Smooth.exec (h : Smooth A b cfg a checks work d₀)
    (hw : work = done ++ x :: rest) (hd : Executed b cfg a done d₀ d) : effect b cfg a x.2 d ≠ none := by
  intro hn
  have he := h.executes
  have hx : b.exec x.2.sql d.schema = none := Option.map_eq_none_iff.mp hn
  rw [hw, ← singleton_append, execAll_append, hd.schema, Option.bind_some, execAll_append, execAll_singleton, hx] at he
  simp at he

/-- The row of the next step is not there, or the run is not smooth. -/
theorem Smooth.row (h : Smooth A b cfg a checks work d₀)
    (hw : work = done ++ x :: rest) (hd : d.rows = d₀.rows ++ done.map (confirmedRow cfg a)) :
    workKey cfg a x ∉ d.rows.map Row.key := by
  have hk := h.keys
  rw [hw, map_append, ← append_assoc] at hk
  have hn := disjoint_of_nodup_append hk
  rw [hd, map_append, map_map]
  exact fun hx => hn hx mem_cons_self

/-! ### One step -/

/-- The data at the end of a step outside transactions. -/
theorem executed_nontransactional {d₁ d₂ d₃ : Data σ} (h₁ : addRow (intendedRow cfg a x) d = some d₁)
    (h₂ : effect b cfg a x.2 d₁ = some d₂) (h₃ : confirmRow (intendedRow cfg a x) d₂ = some d₃) :
    Executed b cfg a [x] d d₃ := by
  obtain ⟨hnew, rfl⟩ := addRow_some h₁
  obtain ⟨schema, hs, rfl⟩ := effect_some h₂
  obtain ⟨-, rfl⟩ := confirmRow_some h₃
  refine ⟨?_, rfl, by rw [execAll_singleton]; exact hs⟩
  -- only the new row is equal to the intended one
  have old : ∀ r ∈ d.rows, (if r = intendedRow cfg a x then { r with state := .confirmed } else r) = r := by
    intro r hr
    refine if_neg ?_
    rintro rfl
    exact hnew (mem_map_of_mem hr)
  rw [map_append, map_congr_left old, map_id', map_singleton, if_pos rfl]
  rfl

/-- Inside a transaction: the database is as it was when the phase began. -/
def Inside (b : Backend σ) (cfg : Config) (a : VerifiedArtifact) (work : List Work) (l : List Sent) (d₀ : Data σ)
    (done : List Work) (c : Core σ) : Prop :=
  c.tx.isSome = true ∧ Executed b cfg a done d₀ c.data ∧ Reached b cfg a work d₀ c.db ∧
    (cfg.borrowed = true → c.db = d₀) ∧ Kept l c

theorem transactionalStep_exact (hw : work = done ++ x :: rest) :
    On A (Inside b cfg a work l d₀ done) (transactionalStep b cfg a x.1 x.2)
      (fun _ => Inside b cfg a work l d₀ (done ++ [x])) (Ended A b cfg a checks work l d₀) := by
  -- statements inside the transaction do not touch the database
  let T : Core σ → Prop := fun c =>
    c.tx.isSome = true ∧ Reached b cfg a work d₀ c.db ∧ (cfg.borrowed = true → c.db = d₀) ∧ Kept l c
  have store : ∀ c, T c → ∀ d, c.data.rows.map Row.key ⊆ d.rows.map Row.key → T (c.store d) := by
    rintro c ⟨ht, hr, hb, hk⟩ d hd
    have hkept := hk.store hd
    rw [Core.store_some ht] at hkept ⊢
    exact ⟨rfl, hr, hb, hkept⟩
  have faulty : Faulty A → ∀ c, T c → Ended A b cfg a checks work l d₀ c :=
    fun hf c hc => .of_faulty hf ⟨hc.2.1, hc.2.2.2⟩
  let M : Core σ → Prop := fun c => T c ∧ ∃ d, Executed b cfg a done d₀ d ∧ effect b cfg a x.2 d = some c.data
  refine On.seq (M := M) ?_ ?_
  · refine On.recover ?_ fun _ => On.failWith fun _ => id
    refine On.seq (M := Inside b cfg a work l d₀ done)
      (Holds.keep fun w ⟨ht, hd, hr, hb, hk⟩ => ⟨ht, hd, hr, hb, hk.send nofun⟩) ?_
    refine On.statement ?_ ?_ ?_
    · rintro c ⟨ht, hd, hr⟩ d he
      exact ⟨store c ⟨ht, hr⟩ d (effect_keys he), c.data, hd, by rw [Core.data_store]; exact he⟩
    · rintro c ⟨ht, hd, hr⟩ he
      exact ⟨fun h => h.exec hw hd he, hr.1, hr.2.2⟩
    · rintro hf c ⟨ht, hd, hr⟩
      exact ⟨faulty hf c ⟨ht, hr⟩, fun d he => faulty hf _ (store c ⟨ht, hr⟩ d (effect_keys he))⟩
  · refine On.recover ?_ fun _ => On.failWith fun _ => id
    refine On.statement ?_ ?_ ?_
    · rintro c ⟨hc, d, hd, he⟩ d' ha
      have hs := store c hc d' (addRow_keys ha)
      refine ⟨hs.1, ?_, hs.2⟩
      rw [Core.data_store]
      obtain ⟨schema, hexec, hdata⟩ := effect_some he
      rw [hdata] at ha
      obtain ⟨-, rfl⟩ := addRow_some ha
      exact hd.append ⟨rfl, rfl, by rw [execAll_singleton]; exact hexec⟩
    · rintro c ⟨hc, d, hd, he⟩ ha
      obtain ⟨_, -, he⟩ := effect_some he
      refine ⟨fun h => h.row hw hd.rows ?_, hc.2.1, hc.2.2.2⟩
      by_contra hn
      rw [he] at ha
      exact nomatch (if_neg hn).symm.trans ha
    · rintro hf c ⟨hc, -⟩
      exact ⟨faulty hf c hc, fun d ha => faulty hf _ (store c hc d (addRow_keys ha))⟩

/-- Between two steps: what is done, as the statements see it. -/
def At (b : Backend σ) (cfg : Config) (a : VerifiedArtifact) (l : List Sent) (d₀ : Data σ) (done : List Work) (c : Core σ) :
    Prop :=
  Shape cfg l d₀ c ∧ Executed b cfg a done d₀ c.data

theorem At.reached (h : At b cfg a l d₀ done c) (hw : work = done ++ rest) :
    Reached b cfg a work d₀ c.db ∧ Kept l c := ⟨h.1.reached (reached_executed hw h.2), h.1.kept⟩

theorem nontransactionalStep_exact (hw : work = done ++ x :: rest) :
    On A (At b cfg a l d₀ done) (nontransactionalStep b cfg a x.1 x.2) (fun _ => At b cfg a l d₀ (done ++ [x]))
      (Ended A b cfg a checks work l d₀) := by
  have hw' : work = (done ++ [x]) ++ rest := by simpa using hw
  -- the row is intended; the row is intended and the SQL took effect
  let M₁ : Core σ → Prop := fun c => Shape cfg l d₀ c ∧
    ∃ d, Executed b cfg a done d₀ d ∧ addRow (intendedRow cfg a x) d = some c.data
  let M₂ : Core σ → Prop := fun c => Shape cfg l d₀ c ∧
    ∃ d d₁, Executed b cfg a done d₀ d ∧ addRow (intendedRow cfg a x) d = some d₁ ∧ effect b cfg a x.2 d₁ = some c.data
  have begun₁ : ∀ c, M₁ c → Reached b cfg a work d₀ c.db ∧ Kept l c := by
    rintro c ⟨hs, d, hd, ha⟩
    refine ⟨hs.reached (.inr ⟨done, x, rest, hw, ?_, done, .inl rfl, ?_⟩), hs.kept⟩
    · rw [(addRow_some ha).2, ← append_assoc, ← hd.rows]
    · rw [(addRow_some ha).2]
      exact ⟨hd.effects, hd.schema⟩
  have begun₂ : ∀ c, M₂ c → Reached b cfg a work d₀ c.db ∧ Kept l c := by
    rintro c ⟨hs, d, d₁, hd, ha, he⟩
    obtain ⟨schema, hx, he⟩ := effect_some he
    rw [(addRow_some ha).2] at hx he
    refine ⟨hs.reached (.inr ⟨done, x, rest, hw, ?_, done ++ [x], .inr rfl, ?_, ?_⟩), hs.kept⟩
    · rw [he, ← append_assoc, ← hd.rows]
    · rw [he, map_append, ← append_assoc, ← hd.effects]
      rfl
    · rw [execAll_append, hd.schema, Option.bind_some, execAll_singleton, he]
      exact hx
  have unsure : ∀ {guidance : GoString} {Q : Unit → Core σ → Prop}, On A (Ended A b cfg a checks work l d₀)
      (uncertain cfg a x.2.id guidance) Q (Ended A b cfg a checks work l d₀) := On.uncertain fun _ => id
  have intend : ∀ c, At b cfg a l d₀ done c → ∀ d, addRow (intendedRow cfg a x) c.data = some d → M₁ (c.store d) :=
    fun c hc d ha => ⟨hc.1.store (addRow_keys ha), c.data, hc.2, by rw [Core.data_store]; exact ha⟩
  refine On.seq (M := M₁) ?_ ?_
  · refine On.statement intend ?_ fun hf c hc =>
      ⟨.of_faulty hf (hc.reached hw), fun d ha => .of_faulty hf (begun₁ _ (intend c hc d ha))⟩
    intro c hc ha
    refine ⟨fun h => h.row hw hc.2.rows ?_, hc.reached hw⟩
    by_contra hn
    exact nomatch (if_neg hn).symm.trans ha
  refine On.seq (M := M₁) (On.audit fun hf c hc => .of_faulty hf (begun₁ c hc)) ?_
  have run : ∀ c, M₁ c → ∀ d, effect b cfg a x.2 c.data = some d → M₂ (c.store d) := by
    rintro c ⟨hs, d₁, hd, ha⟩ d he
    exact ⟨hs.store (effect_keys he), d₁, c.data, hd, ha, by rw [Core.data_store]; exact he⟩
  refine On.seq (M := M₂) ?_ ?_
  · refine On.recover ?_ fun _ => unsure
    refine On.seq (M := M₁) (Holds.keep ?_) ?_
    · -- sent outside a transaction, the statement has its row in the database
      rintro w ⟨hs, d, hd, ha⟩
      refine ⟨⟨hs.tx, hs.db, hs.kept.send fun hi => ?_⟩, d, hd, ha⟩
      rw [← hs.data_eq hi, (addRow_some ha).2, map_append]
      exact mem_append_right _ mem_cons_self
    refine On.statement run ?_ fun hf c hc =>
      ⟨.of_faulty hf (begun₁ c hc), fun d he => .of_faulty hf (begun₂ _ (run c hc d he))⟩
    intro c hc he
    refine ⟨fun h => ?_, begun₁ c hc⟩
    -- the row changes nothing for the SQL
    obtain ⟨-, d, hd, ha⟩ := hc
    rw [(addRow_some ha).2] at he
    exact h.exec hw hd (Option.map_eq_none_iff.mpr (Option.map_eq_none_iff.mp he))
  refine On.seq (M := M₂) ?_ ?_
  · refine On.onlyIf (fun _ => ?_) fun _ _ => id
    exact On.recover (On.ask fun hf c hc => .of_faulty hf (begun₂ c hc)) fun _ => unsure
  have confirm : ∀ c, M₂ c → ∀ d, confirmRow (intendedRow cfg a x) c.data = some d →
      At b cfg a l d₀ (done ++ [x]) (c.store d) := by
    rintro c ⟨hs, d, d₁, hd, ha, he⟩ d' hc
    refine ⟨hs.store (confirmRow_keys hc ▸ Subset.refl _), ?_⟩
    rw [Core.data_store]
    exact hd.append (executed_nontransactional ha he hc)
  refine On.seq (M := At b cfg a l d₀ (done ++ [x])) ?_ ?_
  · refine On.recover ?_ fun _ => unsure
    refine On.statement confirm ?_ fun hf c hc =>
      ⟨.of_faulty hf (begun₂ c hc), fun d h => .of_faulty hf ((confirm c hc d h).reached hw')⟩
    rintro c ⟨hs, d, d₁, hd, ha, he⟩ hn
    obtain ⟨_, -, he⟩ := effect_some he
    have hmem : intendedRow cfg a x ∈ c.data.rows := by
      rw [he, (addRow_some ha).2]
      simp
    exact nomatch (if_pos hmem).symm.trans hn
  refine On.seq (M := At b cfg a l d₀ (done ++ [x])) ?_ ?_
  · refine On.recover ?_ fun _ => unsure
    refine On.seq (M := At b cfg a l d₀ (done ++ [x])) (On.ask fun hf c hc => .of_faulty hf (hc.reached hw')) (On.look fun w => ?_)
    refine On.onlyIf (fun hn => On.absurd ?_) fun _ c hc => hc.2
    rintro c ⟨rfl, -, hd⟩
    refine hn ⟨confirmedRow cfg a x, ?_, rfl, rfl, rfl⟩
    rw [hd.rows]
    simp
  refine On.seq (M := At b cfg a l d₀ (done ++ [x])) (On.keep fun _ => rfl) ?_
  exact On.auditApplied fun hf c hc => .of_faulty hf (hc.reached hw')

/-! ### The phases -/

/-- The steps of a phase that are left to do. -/
def phaseWork (a : VerifiedArtifact) (confirmed : GoSet) (p : Phase) : List Work :=
  (pending a confirmed p.stepIDs).map fun s => (p, s)

/-- All that is left to do. -/
def workOf (a : VerifiedArtifact) (confirmed : GoSet) (ps : List Phase) : List Work := ps.flatMap (phaseWork a confirmed)

/-- The prechecks run before the first step. -/
theorem runChecks_exact {R : Core σ → Prop}
    (hR : ∀ c, R c → c.data.schema = d₀.schema ∧ Reached b cfg a work d₀ c.db ∧ Kept l c) :
    On A R (runChecks b checks) (fun _ => R) (Ended A b cfg a checks work l d₀) := by
  refine On.runChecks fun c hc h => ⟨fun hs => ?_, (hR c hc).2⟩
  rcases h with hf | ⟨x, hx, hn⟩
  · exact hs.faultless hf
  · rw [(hR c hc).1] at hn
    exact hn (hs.checks x hx)

theorem Executed.schema_nil (h : Executed b cfg a [] d₀ d) : d.schema = d₀.schema :=
  (Option.some.inj h.schema).symm

/-- The loop over the steps of a phase. -/
theorem On.phase {p : Phase} {f : Step → Exec σ Unit} {I : List Work → Core σ → Prop} {E : Core σ → Prop}
    (hw : work = done ++ (phaseWork a confirmed p ++ rest))
    (step : ∀ {ds s t}, work = ds ++ (p, s) :: t → On A (I ds) (f s) (fun _ => I (ds ++ [(p, s)])) E) :
    On A (I done) (Proc.forEach f (pending a confirmed p.stepIDs)) (fun _ => I (done ++ phaseWork a confirmed p)) E := by
  refine (On.forEach (fun ds => I (done ++ ds.map fun s => (p, s))) ?_).mono (fun c h => by simpa using h) (fun _ _ => id)
    (fun _ => id)
  intro ds s ss hss
  rw [map_append, ← append_assoc]
  refine step (t := ss.map (fun s => (p, s)) ++ rest) ?_
  rw [hw, phaseWork, hss]
  simp

theorem transactionalPhase_exact {p : Phase}
    (hw : work = done ++ (phaseWork a confirmed p ++ rest)) (hc : checksPending = true → done = []) :
    On A (At b cfg a l d₀ done) (transactionalPhase b cfg a confirmed checks checksPending p)
      (fun _ => At b cfg a l d₀ (done ++ phaseWork a confirmed p)) (Ended A b cfg a checks work l d₀) := by
  have hw' : work = (done ++ phaseWork a confirmed p) ++ rest := by rw [hw, append_assoc]
  refine On.seq (M := At b cfg a l d₀ done) (On.audit fun hf c hc => .of_faulty hf (hc.reached hw)) ?_
  refine On.seq (M := Inside b cfg a work l d₀ done) ?_ ?_
  · have inside : ∀ c, At b cfg a l d₀ done c → cfg.borrowed = false →
        Inside b cfg a work l d₀ done { c with tx := some c.db } := by
      rintro c ⟨hs, hd⟩ hb
      rw [hs.data_eq hb] at hd
      exact ⟨rfl, hd, reached_executed hw hd, fun h => by simp [hb] at h, hs.kept.sent, Subset.refl _⟩
    refine On.onlyIf (fun hb => ?_) fun hb c hc => ⟨?_, hc.2, (hc.reached hw).1, hc.1.db, hc.1.kept⟩
    · refine On.recover ?_ fun _ => On.failWith fun _ => id
      refine On.call ?_ (fun _ _ h => nomatch h) fun hf c hc => ⟨.of_faulty hf (hc.reached hw), ?_⟩
      · rintro c hc c' ⟨⟩
        exact inside c hc hb
      · rintro c' ⟨⟩
        exact .of_faulty hf ⟨(inside c hc hb).2.2.1, (inside c hc hb).2.2.2.2⟩
    · rw [hc.1.tx]
      simpa using hb
  refine On.seq (M := Inside b cfg a work l d₀ (done ++ phaseWork a confirmed p)) ?_ ?_
  · refine On.recover ?_ fun e => ?_
    · refine On.seq (M := Inside b cfg a work l d₀ done) ?_ ?_
      · refine On.onlyIf (fun hp => ?_) fun _ _ => id
        refine On.recover ?_ fun _ => On.failWith fun _ => id
        refine runChecks_exact fun c h => ⟨?_, h.2.2.1, h.2.2.2.2⟩
        have hd := h.2.1
        rw [hc hp] at hd
        exact hd.schema_nil
      · exact On.phase hw fun {_ s _} => transactionalStep_exact (x := (p, s))
    · exact On.rollbackPhase fun _ h => ⟨h.1, h.2.1, h.2.2.close⟩
  refine On.look fun w => ?_
  have committed : ∀ c, Inside b cfg a work l d₀ (done ++ phaseWork a confirmed p) c → cfg.borrowed = false →
      At b cfg a l d₀ (done ++ phaseWork a confirmed p) { c with db := c.data, tx := none } :=
    fun c hc hb => ⟨⟨by simp [hb], fun h => by simp [hb] at h, hc.2.2.2.2.commit⟩, hc.2.1⟩
  refine On.seq (M := At b cfg a l d₀ (done ++ phaseWork a confirmed p)) ?_ ?_
  · refine On.onlyIf (fun hb => ?_) fun hb c hc => ⟨⟨?_, hc.2.2.2.2.1, hc.2.2.2.2.2⟩, hc.2.2.1⟩
    · refine On.recover ?_ fun _ => On.uncertain fun _ => id
      refine On.call ?_ (fun _ _ h => nomatch h) fun hf c hc => ⟨.of_faulty hf ⟨hc.2.2.2.1, hc.2.2.2.2.2⟩, ?_⟩
      · rintro c ⟨-, hc⟩ c' ⟨⟩
        exact committed c hc hb
      · rintro c' ⟨⟩
        exact .of_faulty hf ((committed c hc.2 hb).reached hw')
    · rw [hc.2.1]
      simpa using hb
  refine On.seq (M := At b cfg a l d₀ (done ++ phaseWork a confirmed p)) (On.keep fun _ => rfl) ?_
  refine On.onlyIf (fun _ => ?_) fun _ _ => id
  refine On.seq (M := At b cfg a l d₀ (done ++ phaseWork a confirmed p))
    (On.auditApplied fun hf c hc => .of_faulty hf (hc.reached hw')) ?_
  exact On.forEach_keeps fun _ _ => On.auditApplied fun hf c hc => .of_faulty hf (hc.reached hw')

theorem nontransactionalPhase_exact {p : Phase}
    (hw : work = done ++ (phaseWork a confirmed p ++ rest)) (hc : checksPending = true → done = []) :
    On A (At b cfg a l d₀ done) (nontransactionalPhase b cfg a confirmed checks checksPending p)
      (fun _ => At b cfg a l d₀ (done ++ phaseWork a confirmed p)) (Ended A b cfg a checks work l d₀) := by
  refine On.seq (M := At b cfg a l d₀ done) ?_ ?_
  · refine On.onlyIf (fun hp => runChecks_exact fun c h => ⟨?_, h.reached hw⟩) fun _ _ => id
    have hd := h.2
    rw [hc hp] at hd
    exact hd.schema_nil
  · exact On.phase hw fun {_ s _} => nontransactionalStep_exact (x := (p, s))

theorem runPhases_exact {ps : List Phase}
    (hw : work = done ++ workOf a confirmed ps) (hc : checksPending = true → done = []) :
    On A (At b cfg a l d₀ done) (runPhases b cfg a confirmed checks checksPending ps) (fun _ => At b cfg a l d₀ work)
      (Ended A b cfg a checks work l d₀) := by
  induction ps generalizing done checksPending with
  | nil =>
    have hd : done = work := by simpa [workOf] using hw.symm
    exact On.pure () fun c h => hd ▸ h
  | cons p ps ih =>
    have hw' : work = done ++ (phaseWork a confirmed p ++ workOf a confirmed ps) := hw
    refine On.seq (M := At b cfg a l d₀ (done ++ phaseWork a confirmed p)) ?_
      (ih (by rw [hw', append_assoc]) fun h => nomatch h)
    unfold runPhase
    cases p.transaction with
    | required => exact transactionalPhase_exact hw' hc
    | prohibited => exact nontransactionalPhase_exact hw' hc

end Steps

/-! ### Whole runs -/

/-- The run comes to the end without a refusal. -/
structure Welcome (A : Reply → Prop) (b : Backend σ) (cfg : Config) (a : VerifiedArtifact) (checks : List Assertion)
    (d₀ : Data σ) : Prop where
  faultless : ¬ Faulty A
  admitted : Admitted cfg a
  executes : atTarget a (b.inspect d₀.schema) = false → atSource a (b.inspect d₀.schema) = true ∧
    ¬ Unconfirmed cfg a d₀ ∧ ∃ confirmed, confirmedRows cfg a d₀.rows = .ok confirmed ∧
      Smooth A b cfg a checks (workOf a confirmed a.plan.phases) d₀

/-- What a run has done where it ends: nothing, or some of the work. -/
def Progress (b : Backend σ) (cfg : Config) (a : VerifiedArtifact) (d₀ d : Data σ) : Prop :=
  d = d₀ ∨ (¬ Unconfirmed cfg a d₀ ∧ ∃ confirmed, confirmedRows cfg a d₀.rows = .ok confirmed ∧
    Reached b cfg a (workOf a confirmed a.plan.phases) d₀ d)

/-- What a run has done that returned no error. -/
def Success (b : Backend σ) (cfg : Config) (a : VerifiedArtifact) (d₀ d : Data σ) : Prop :=
  (atTarget a (b.inspect d₀.schema) = true ∧ d = d₀) ∨
    (atTarget a (b.inspect d₀.schema) = false ∧ ¬ Unconfirmed cfg a d₀ ∧
      ∃ confirmed, confirmedRows cfg a d₀.rows = .ok confirmed ∧
        Executed b cfg a (workOf a confirmed a.plan.phases) d₀ d)

theorem Success.progress {d₀ d : Data σ} (h : Success b cfg a d₀ d) : Progress b cfg a d₀ d := by
  rcases h with ⟨-, h⟩ | ⟨-, hu, m, hm, h⟩
  · exact .inl h
  · exact .inr ⟨hu, m, hm, reached_executed (append_nil _).symm h⟩

/-- What holds at every end of a run: a row of the attempt that is not confirmed keeps it
from sending anything. -/
def Stopped (b : Backend σ) (cfg : Config) (a : VerifiedArtifact) (l : List Sent) (d₀ : Data σ) (c : Core σ) : Prop :=
  Progress b cfg a d₀ c.db ∧ Kept l c ∧ (Unconfirmed cfg a d₀ → c.sent = l)

theorem applyAuthorized_exact (checks : List Assertion) (d₀ : Data σ) :
    On A (fun c => Shape cfg l d₀ c ∧ c.data = d₀ ∧ c.db = d₀ ∧ c.sent = l) (applyAuthorized b cfg a checks)
      (fun _ c => Shape cfg l d₀ c ∧ Success b cfg a d₀ c.data ∧ (Unconfirmed cfg a d₀ → c.sent = l))
      (fun c => ¬ Welcome A b cfg a checks d₀ ∧ Stopped b cfg a l d₀ c) := by
  let S : Core σ → Prop := fun c => Shape cfg l d₀ c ∧ c.data = d₀ ∧ c.db = d₀ ∧ c.sent = l
  have refused : ¬ Welcome A b cfg a checks d₀ → ∀ c, S c → ¬ Welcome A b cfg a checks d₀ ∧ Stopped b cfg a l d₀ c :=
    fun h c hc => ⟨h, .inl hc.2.2.1, hc.1.kept, fun _ => hc.2.2.2⟩
  have faulty : Faulty A → ∀ c, S c → ¬ Welcome A b cfg a checks d₀ ∧ Stopped b cfg a l d₀ c :=
    fun hf => refused fun h => h.faultless hf
  refine On.seq (M := S) (On.prepare fun h => refused fun hw => ?_) ?_
  · exact h.elim hw.faultless fun h => h hw.admitted
  refine (On.readState faulty).bind fun state => ?_
  refine On.onlyIf (fun htarget => ?_) ?_
  swap
  · rintro htarget c ⟨rfl, hs, hd, -, hl⟩
    exact ⟨hs, .inl ⟨by rw [hd] at htarget; simpa using htarget, hd⟩, fun _ => hl⟩
  -- from here on the state that was read is the one of the data
  let S' : Core σ → Prop := fun c => atTarget a (b.inspect d₀.schema) = false ∧ S c
  refine On.seq (M := S') ?_ ?_
  · refine On.onlyIf (fun hsource => On.refuse ?_) ?_
    · rintro c ⟨rfl, hc⟩
      rw [hc.2.1] at htarget hsource
      refine refused (fun hw => ?_) c hc
      simp [(hw.executes htarget).1] at hsource
    · rintro - c ⟨rfl, hc⟩
      rw [hc.2.1] at htarget
      exact ⟨htarget, hc⟩
  refine On.seq (M := S') (On.ensureHistory fun hf c hc => faulty hf c hc.2) ?_
  refine (On.refuseUncertain ?_).bind fun _ => ?_
  · rintro c ⟨ht, hc⟩ (hf | hu)
    · exact faulty hf c hc
    · rw [hc.2.1] at hu
      exact refused (fun hw => (hw.executes ht).2.1 hu) c hc
  refine (On.confirmedSteps ?_).bind fun confirmed => ?_
  · rintro c ⟨-, ht, hc⟩ (hf | ⟨e, he⟩)
    · exact faulty hf c hc
    · rw [hc.2.1] at he
      refine refused (fun hw => ?_) c hc
      obtain ⟨m, hm, -⟩ := (hw.executes ht).2.2
      exact nomatch he.symm.trans hm
  -- the loop over the phases, with the facts that were read
  let facts : Prop := atTarget a (b.inspect d₀.schema) = false ∧ ¬ Unconfirmed cfg a d₀ ∧
    confirmedRows cfg a d₀.rows = .ok confirmed
  have finished : facts → ∀ c, At b cfg a l d₀ (workOf a confirmed a.plan.phases) c →
      Shape cfg l d₀ c ∧ Success b cfg a d₀ c.data ∧ (Unconfirmed cfg a d₀ → c.sent = l) :=
    fun hf c hc => ⟨hc.1, .inr ⟨hf.1, hf.2.1, confirmed, hf.2.2, hc.2⟩, fun hu => absurd hu hf.2.1⟩
  refine (On.of_pre (R := S) fun hf : facts => ?_).mono ?_ (fun _ _ => id) fun _ => id
  swap
  · rintro c ⟨hm, hu, ht, hs⟩
    rw [hs.2.1] at hm hu
    exact ⟨⟨ht, hu, hm⟩, hs⟩
  have early : ∀ c, Ended A b cfg a checks (workOf a confirmed a.plan.phases) l d₀ c →
      ¬ Welcome A b cfg a checks d₀ ∧ Stopped b cfg a l d₀ c := by
    rintro c ⟨hn, hr, hk⟩
    refine ⟨fun hw => hn ?_, .inr ⟨hf.2.1, confirmed, hf.2.2, hr⟩, hk, fun hu => absurd hu hf.2.1⟩
    obtain ⟨m, hm, hsm⟩ := (hw.executes hf.1).2.2
    rw [hf.2.2, Except.ok.injEq] at hm
    rwa [hm]
  have phases : On A (At b cfg a l d₀ []) (runPhases b cfg a confirmed checks true a.plan.phases)
      (fun _ => At b cfg a l d₀ (workOf a confirmed a.plan.phases))
      (Ended A b cfg a checks (workOf a confirmed a.plan.phases) l d₀) := runPhases_exact rfl fun _ => rfl
  refine On.seq (M := At b cfg a l d₀ (workOf a confirmed a.plan.phases)) (phases.mono ?_ (fun _ _ => id) early) ?_
  · rintro c ⟨hs, hd, -⟩
    exact ⟨hs, by rw [hd]; exact Executed.nil d₀⟩
  refine On.onlyIf (fun _ => ?_) fun _ => finished hf
  refine (On.finish (R := At b cfg a l d₀ (workOf a confirmed a.plan.phases)) fun hfault c hc => ?_).mono (fun _ => id)
    (fun _ => finished hf) fun _ => id
  have hr := hc.reached (append_nil _).symm
  exact ⟨fun hw => hw.faultless hfault, .inr ⟨hf.2.1, confirmed, hf.2.2, hr.1⟩, hr.2, fun hu => absurd hu hf.2.1⟩

theorem session_exact (checks : List Assertion) (d₀ : Data σ) :
    On A (fun c => c.db = d₀ ∧ c.tx = none ∧ c.sent = l) (session b cfg a checks)
      (fun _ c => Success b cfg a d₀ c.db ∧ Stopped b cfg a l d₀ c)
      (fun c => ¬ Welcome A b cfg a checks d₀ ∧ Stopped b cfg a l d₀ c) := by
  refine On.seq (M := fun c => Shape cfg l d₀ c ∧ c.data = d₀ ∧ c.db = d₀ ∧ c.sent = l) ?_ ?_
  · refine On.onlyIf (fun hb => Holds.keep ?_) ?_
    · rintro w ⟨hd, -, rfl⟩
      exact ⟨⟨hb.symm, fun _ => hd, fun s hs _ => .inl hs, Subset.refl _⟩, hd, hd, rfl⟩
    · rintro hb c ⟨hd, ht, rfl⟩
      have hdata := Core.data_none ht
      refine ⟨⟨by rw [ht]; simpa using hb, fun h => absurd h hb, fun s hs _ => .inl hs, ?_⟩, by rw [hdata, hd], hd, rfl⟩
      rw [hdata]
      exact Subset.refl _
  refine On.seq (applyAuthorized_exact checks d₀) ?_
  refine On.onlyIf (fun hb => ?_) ?_
  · refine On.call ?_ (fun _ _ h => nomatch h) ?_
    · rintro c ⟨hshape, hs, hu⟩ c' ⟨⟩
      exact ⟨hs, hs.progress, hshape.kept.commit, hu⟩
    · rintro hf c ⟨hshape, hs, hu⟩
      refine ⟨⟨fun hw => hw.faultless hf, .inl (hshape.db hb), hshape.kept, hu⟩, ?_⟩
      rintro c' ⟨⟩
      exact ⟨fun hw => hw.faultless hf, hs.progress, hshape.kept.commit, hu⟩
  · rintro hb c ⟨hshape, hs, hu⟩
    rw [hshape.data_eq (by simpa using hb)] at hs
    exact ⟨hs, hs.progress, hshape.kept, hu⟩

/-- The data a request starts from. -/
def Request.data (w : World σ) (q : Request σ) : Data σ := (w.drift q.drift).core.db

variable {w : World σ} {q : Request σ}

theorem after_success (ht : w.core.tx = none) (hok : (outcome b w q).1 = .ok ()) :
    Success b q.config q.artifact (q.data w) (after b w q).core.db :=
  ((session_exact (A := fun _ => True) q.checks (q.data w)).of_ok (y := ⟨w.drift q.drift, q.replies⟩)
    (fun _ => trivial) ⟨rfl, ht, rfl⟩ hok).1

theorem after_stopped (ht : w.core.tx = none) :
    Stopped b q.config q.artifact w.core.sent (q.data w) (after b w q).core :=
  have h := ((session_exact (A := fun _ => True) q.checks (q.data w)).mono (fun _ => id) (fun _ _ h => h.2)
    fun _ h => h.2).always (y := ⟨w.drift q.drift, q.replies⟩) (fun _ => trivial) ⟨rfl, ht, rfl⟩
  ⟨h.1, h.2.1.close, h.2.2⟩

/-! ### The work that is left -/

/-- A step that is executed, by its ID. -/
def executes (a : VerifiedArtifact) (id : GoString) : Bool := (a.plan.stepOf id).any fun s => s.kind = .executable

theorem pending_ids (confirmed : GoSet) (ids : List GoString) :
    (pending a confirmed ids).map Step.id = ids.filter fun id => ¬ GoSet.has confirmed id ∧ executes a id := by
  unfold pending
  induction ids with
  | nil => rfl
  | cons id ids ih =>
    by_cases hc : GoSet.has confirmed id = true
    · simpa [hc] using ih
    · cases hs : a.plan.stepOf id with
      | none => simpa [hc, hs, executes] using ih
      | some s =>
        have hid := (Plan.stepOf_some hs).2
        by_cases hk : s.kind = .executable
        · simpa [hc, hs, hk, executes, hid, Option.filter] using ih
        · simpa [hc, hs, hk, executes, Option.filter] using ih

theorem workOf_ids (confirmed : GoSet) : (workOf a confirmed a.plan.phases).map (fun x => x.2.id) =
      (a.plan.steps.map Step.id).filter fun id => ¬ GoSet.has confirmed id ∧ executes a id := by
  rw [← a.valid.stepIDs, filter_flatMap, workOf, map_flatMap]
  congr 1
  funext p
  rw [phaseWork, map_map, ← pending_ids]
  rfl

variable {confirmed : GoSet}

theorem mem_workOf {x : Work} (h : x ∈ workOf a confirmed a.plan.phases) :
    x.1 ∈ a.plan.phases ∧ x.2.id ∈ x.1.stepIDs ∧ x.2 ∈ a.plan.steps ∧ x.2.kind = .executable ∧
      GoSet.has confirmed x.2.id = false := by
  obtain ⟨p, hp, hx⟩ := mem_flatMap.mp h
  obtain ⟨s, hs, rfl⟩ := mem_map.mp hx
  obtain ⟨id, hid, hf⟩ := mem_filterMap.mp hs
  obtain ⟨hid, hc⟩ := mem_filter.mp hid
  obtain ⟨hs, hk⟩ := Option.filter_eq_some_iff.mp hf
  obtain ⟨hmem, rfl⟩ := Plan.stepOf_some hs
  exact ⟨hp, hid, hmem, by simpa using hk, by simpa using hc⟩

/-- The rows of the work are bound to the artifact. -/
theorem bindingMatches_confirmedRow {x : Work} (hx : x ∈ workOf a confirmed a.plan.phases) :
    bindingMatches a (confirmedRow cfg a x) = true := by
  obtain ⟨hp, hid, hs, hk, -⟩ := mem_workOf hx
  have hne : x.1.id ≠ [] := by
    have hph := a.valid.2.2.2.2
    rw [hph] at hp
    exact phase_id_ne hp
  have hstep : (confirmedRow cfg a x).stepID = x.2.id := rfl
  simp only [bindingMatches, hstep, a.valid.stepOf_mem hs, a.valid.phaseOf_mem hp hid, decide_eq_true_eq]
  exact ⟨(a.valid.2.2.1 x.2 hs).1, hne, by simp [hk], rfl, rfl, rfl, rfl, rfl, rfl, rfl⟩

/-- What the confirmed rows of an attempt are if they can be read. -/
structure ReadRows (a : VerifiedArtifact) (l : List Row) (confirmed : GoSet) : Prop where
  bound : ∀ r ∈ l, bindingMatches a r = true
  nodup : (l.map Row.stepID).Nodup
  mem : ∀ id, GoSet.has confirmed id = true ↔ id ∈ l.map Row.stepID

theorem ReadRows.add {l : List Row} {r : Row} {out out' : GoSet} (h : ReadRows a l out) (hr : addConfirmed a out r = .ok out') :
    ReadRows a (l ++ [r]) out' := by
  unfold addConfirmed at hr
  rw [Fallible.guard_ok, Fallible.guard_ok] at hr
  obtain ⟨hb, hn, hr⟩ := hr
  cases hr
  have hnew : r.stepID ∉ l.map Row.stepID := fun hm => hn ((h.mem _).mpr hm)
  refine ⟨?_, by simpa using h.nodup.concat hnew, fun id => ?_⟩
  · rw [forall_mem_append, forall_mem_singleton]
    exact ⟨h.bound, by simpa using hb⟩
  · rw [GoSet.has_add, h.mem]
    simp [or_comm]

theorem confirmedRows_ok {rows : List Row} (h : confirmedRows cfg a rows = .ok confirmed) :
    ReadRows a (rows.filter fun r => ofAttempt cfg a r ∧ r.state = .confirmed) confirmed :=
  Fallible.foldlM_inv h ⟨by simp, by simp, by simp⟩ fun _ _ _ _ hd => hd.add

/-- Conversely, rows that are bound and of different steps can be read. -/
theorem foldlM_addConfirmed_ok {l : List Row} {out : GoSet} (hb : ∀ r ∈ l, bindingMatches a r = true)
    (hfresh : out.Fresh (l.map Row.stepID)) : ∃ confirmed, l.foldlM (addConfirmed a) out = .ok confirmed := by
  induction l generalizing out with
  | nil => exact ⟨out, rfl⟩
  | cons r l ih =>
    rw [forall_mem_cons] at hb
    rw [map_cons, GoSet.fresh_cons] at hfresh
    have hr : addConfirmed a out r = .ok (GoSet.add out r.stepID) := by
      simp [addConfirmed, hb.1, hfresh.1]
    rw [foldlM_cons, hr]
    exact ih hb.2 hfresh.2

end AutoSql.Executor
