/-
AutoSql/Fleet/Tenants.lean

Package `tenantfleet`: a rollout over the databases of many tenants, one tenant
after the other.

`discover` makes the snapshot, `execute` runs over its tenants in the order of their
names.  A tenant that the resume map has as passed or skipped is left as it is; if a
tenant has failed, all tenants behind the canaries are skipped; the others are applied.

The second half is about sequences of runs.  The results of a run are the resume map
of the next one (`resumeOf`), and from some run on nothing fails any more.  Such a
sequence ends with all tenants passed, each applied once, if and only if the first run
skips nobody (`converges_iff`): a tenant that is skipped stays skipped
(`skipped_forever`), and as long as nobody is skipped a run applies exactly the tenants
that have not passed (`Clean.step`).
-/
import AutoSql.Lib.Fallible
import AutoSql.Lib.GoJson
import AutoSql.Lib.Sha256

namespace AutoSql.TenantFleet

open GoJson List
open Fallible (failIf bind_ok)

inductive Err
  | invalid
  | duplicate (id : GoString)
  | limit
  | canceled
  deriving DecidableEq

structure Tenant where
  id : GoString
  targetID : GoString
  environment : GoString
  connectionRef : GoString
  policyDigest : GoString
  active : Bool
  labels : GoMap GoString
  deriving DecidableEq

def Tenant.validate (t : Tenant) : Bool :=
  !(t.id = [] || t.targetID = [] || t.environment = [] || t.connectionRef = [] || t.policyDigest = [])

def Tenant.json (t : Tenant) : Json :=
  .obj ([(str "tenant_id", .str t.id), (str "target_id", .str t.targetID), (str "environment", .str t.environment),
    (str "connection_ref", .str t.connectionRef), (str "policy_digest", .str t.policyDigest), (str "active", .bool t.active)] ++
    if t.labels.size = 0 then [] else [(str "labels", stringMap t.labels)])

structure Snapshot where
  id : GoString
  tenants : List Tenant
  retired : List Tenant

/-- `sort.Slice` by the name of the tenant. -/
def sortTenants (l : List Tenant) : List Tenant := l.insertionSort fun a b => GoString.le a.id b.id = true

/-- The loop of `discover`: the active tenants and the retired ones. -/
def collect : List Tenant → List Tenant → List Tenant → Except Err (List Tenant × List Tenant)
  | [], out, retired => .ok (out, retired)
  | t :: l, out, retired =>
    if !t.validate then .error .invalid
    else if !t.active then collect l out (retired ++ [t])
    else if t.id ∈ out.map Tenant.id then .error (.duplicate t.id)
    else collect l (out ++ [t]) retired

/-- `providers` holds what each provider answers. -/
def discover (providers : List (Except Err (List Tenant))) (max : Int) : Except Err Snapshot :=
  if providers = [] ∨ max ≤ 0 then .error .invalid
  else do
    let all ← providers.mapM id
    let (out, retired) ← collect all.flatten [] []
    failIf ((out.length : Int) > max) .limit
    pure
      { id := str "sha256:" ++ GoString.hexEncode (Sha256.sum256 (Json.arr ((sortTenants out).map Tenant.json)).encode)
        tenants := sortTenants out
        retired := sortTenants retired }

structure PolicyOverride where
  tenantID : GoString := []
  policyDigest : GoString := []
  requireApproval : Bool := false
  approved : Bool := false

inductive State
  | pending
  | running
  | passed
  | failed
  | skipped
  deriving DecidableEq

structure Result where
  tenantID : GoString
  targetID : GoString
  policyDigest : GoString := []
  approvalRequired : Bool := false
  approvalGranted : Bool := false
  state : State
  error : GoString := []
  deriving DecidableEq

structure RolloutConfig where
  maxConcurrent : Int
  canaryCount : Int
  overrides : GoMap PolicyOverride
  resume : GoMap Result

structure Report where
  snapshotID : GoString
  results : List Result
  status : GoString
  deriving DecidableEq

/-- Whether `Apply` returns nil when it is called for the tenant at a position.  In one run it is
called at most once for each position, so this is any executor. -/
abbrev Executor := Nat → Tenant → PolicyOverride → Bool

/-- A call of `Apply` and whether it returned nil. -/
structure Call where
  tenant : GoString
  ok : Bool
  deriving DecidableEq

def hasFailed (rs : List Result) : Bool := rs.any fun r => r.state = .failed

/-- The resume test of `execute`. -/
def Result.final (r : Result) : Bool := r.state = .passed || r.state = .skipped

section Execute

variable (ctx : Nat → Bool) (c : RolloutConfig) (x : Executor)

/-- `c.Overrides[t.ID]`. -/
def RolloutConfig.override (t : Tenant) : PolicyOverride := (c.overrides.get? t.id).getD {}

/-- No approval is missing, and the executor does not fail. -/
def succeeds (i : Nat) (t : Tenant) : Bool :=
  let override := c.override t
  !(override.requireApproval && !override.approved) && x i t override

/-- What is recorded for a tenant that is not skipped. -/
def attempted (i : Nat) (t : Tenant) : Result :=
  let override := c.override t
  let r : Result :=
    { tenantID := t.id, targetID := t.targetID, policyDigest := t.policyDigest, approvalRequired := override.requireApproval
      approvalGranted := !override.requireApproval || override.approved, state := .passed }
  if succeeds c x i t then r else { r with state := .failed, error := str "tenant apply failed" }

/-- `Apply` is not called for a tenant that is not approved. -/
def callOf (i : Nat) (t : Tenant) : Option Call :=
  let override := c.override t
  if override.requireApproval && !override.approved then none else some ⟨t.id, x i t override⟩

/-- The body of the loop of `execute` for the tenant at position `i`, after `results`. -/
def visit (i : Nat) (t : Tenant) (results : List Result) : Except Err (Result × Option Call) :=
  match (c.resume.get? t.id).filter Result.final with
  | some old => .ok (old, none)
  | none =>
    if c.canaryCount > 0 ∧ (i : Int) ≥ c.canaryCount ∧ hasFailed results then
      .ok ({ tenantID := t.id, targetID := t.targetID, state := .skipped }, none)
    else if ctx i then .error .canceled
    else .ok (attempted c x i t, callOf c x i t)

def visitAll : Nat → List Tenant → List Result → Except Err (List (Result × Option Call))
  | _, [], _ => .ok []
  | i, t :: ts, results => do
    let r ← visit ctx c x i t results
    let rest ← visitAll (i + 1) ts (results ++ [r.1])
    .ok (r :: rest)

def status (results : List Result) : GoString :=
  if hasFailed results then str "failed" else if results.any fun r => r.state = .skipped then str "partial" else str "passed"

/-- `Execute`, with the calls it makes. -/
def execute (s : Snapshot) (x : Option Executor) : Except Err (Report × List Call) :=
  match x with
  | none => .error .invalid
  | some x =>
    if c.maxConcurrent ≤ 0 ∨ c.canaryCount < 0 ∨ c.canaryCount > s.tenants.length then .error .invalid
    else do
      let out ← visitAll ctx c x 0 (sortTenants s.tenants) []
      let results := out.map Prod.fst
      .ok (⟨s.id, results, status results⟩, out.filterMap Prod.snd)

end Execute

/-! ### Discovery -/

theorem perm_sortTenants (l : List Tenant) : (sortTenants l).Perm l := perm_insertionSort _ l

theorem nodup_collect {l out retired : List Tenant} {r : List Tenant × List Tenant} (h : collect l out retired = .ok r)
    (hout : (out.map Tenant.id).Nodup) : (r.1.map Tenant.id).Nodup := by
  induction l generalizing out retired with
  | nil =>
    cases h
    exact hout
  | cons t l ih =>
    rw [collect] at h
    split_ifs at h with h₁ h₂ h₃
    · exact ih h hout
    · refine ih h ?_
      rw [map_append, nodup_append]
      refine ⟨hout, by simp, ?_⟩
      rintro a ha b hb rfl
      obtain rfl : a = t.id := by simpa using hb
      exact h₃ ha

/-- A snapshot has no two tenants of one name. -/
theorem nodup_discover {providers : List (Except Err (List Tenant))} {max : Int} {s : Snapshot} (h : discover providers max = .ok s) :
    (s.tenants.map Tenant.id).Nodup := by
  rw [discover] at h
  split_ifs at h
  obtain ⟨all, -, h⟩ := bind_ok.mp h
  obtain ⟨⟨out, retired⟩, hr, h⟩ := bind_ok.mp h
  obtain ⟨-, h⟩ := Fallible.failIf_bind_ok.mp h
  cases h
  exact ((perm_sortTenants out).map Tenant.id).nodup_iff.mpr (nodup_collect hr nodup_nil)

/-! ### One run -/

section Run

variable {ctx : Nat → Bool} {c : RolloutConfig} {x : Executor}

variable {i : Nat} {results : List Result} {t : Tenant} {ts : List Tenant} {out : List (Result × Option Call)}
  {r : Result × Option Call}

theorem length_visitAll (h : visitAll ctx c x i ts results = .ok out) : out.length = ts.length := by
  induction ts generalizing i results out with
  | nil =>
    cases h
    rfl
  | cons t ts ih =>
    obtain ⟨r, -, h⟩ := bind_ok.mp h
    obtain ⟨rest, hrest, h⟩ := bind_ok.mp h
    cases h
    simp [ih hrest]

/-- What the loop does at its position `j`. -/
theorem visitAll_get (h : visitAll ctx c x i ts results = .ok out) {j : Nat} (ht : ts[j]? = some t) :
    ∃ r, out[j]? = some r ∧ visit ctx c x (i + j) t (results ++ (out.map Prod.fst).take j) = .ok r := by
  induction ts generalizing i results out j with
  | nil => simp at ht
  | cons t' ts ih =>
    obtain ⟨r, hr, h⟩ := bind_ok.mp h
    obtain ⟨rest, hrest, h⟩ := bind_ok.mp h
    cases h
    cases j with
    | zero =>
      obtain rfl : t' = t := by simpa using ht
      exact ⟨r, rfl, by simpa using hr⟩
    | succ j =>
      obtain ⟨r', hr', hv⟩ := ih hrest (by simpa using ht)
      refine ⟨r', by simpa using hr', ?_⟩
      rw [show i + (j + 1) = i + 1 + j by omega]
      simpa using hv

/-- The three ends of a visit: the tenant is final, it is skipped, or it is attempted. -/
theorem visit_cases (h : visit ctx c x i t results = .ok r) :
    (c.resume.get? t.id = some r.1 ∧ r.1.final = true ∧ r.2 = none) ∨
      (∀ old, c.resume.get? t.id = some old → old.final = false) ∧
        ((c.canaryCount > 0 ∧ (i : Int) ≥ c.canaryCount ∧ hasFailed results = true) ∧ r.1.tenantID = t.id ∧ r.1.state = .skipped ∧ r.2 = none ∨
          ¬ (c.canaryCount > 0 ∧ (i : Int) ≥ c.canaryCount ∧ hasFailed results = true) ∧ r = (attempted c x i t, callOf c x i t)) := by
  unfold visit at h
  split at h
  · next old hold =>
    cases h
    obtain ⟨hget, hfinal⟩ := Option.filter_eq_some_iff.mp hold
    exact .inl ⟨hget, hfinal, rfl⟩
  · next hnone =>
    refine .inr ⟨fun old hold => by simpa [hold] using hnone, ?_⟩
    split_ifs at h with h₁ h₂
    · cases h
      exact .inl ⟨h₁, rfl, rfl, rfl⟩
    · cases h
      exact .inr ⟨h₁, rfl⟩

@[simp] theorem attempted_tenantID (i : Nat) (t : Tenant) : (attempted c x i t).tenantID = t.id := by
  unfold attempted
  split_ifs <;> rfl

theorem attempted_state (i : Nat) (t : Tenant) : (attempted c x i t).state = if succeeds c x i t then .passed else .failed := by
  unfold attempted
  split_ifs <;> rfl

theorem tenant_of_callOf {a : Call} (h : callOf c x i t = some a) : a.tenant = t.id := by
  simp only [callOf] at h
  split_ifs at h
  cases h
  rfl

/-- The call for a tenant returns nil exactly if the tenant passes. -/
theorem callOf_ok (i : Nat) (t : Tenant) : callOf c x i t = some ⟨t.id, true⟩ ↔ succeeds c x i t = true := by
  unfold callOf succeeds
  by_cases h : ((c.override t).requireApproval && !(c.override t).approved) = true
  · simp [h]
  · simp [h]

/-- A map in which every result is filed under its own tenant. -/
def Keyed (m : GoMap Result) : Prop := ∀ k r, m.get? k = some r → r.tenantID = k

theorem visit_tenantID (hc : Keyed c.resume)
    (h : visit ctx c x i t results = .ok r) : r.1.tenantID = t.id ∧ ∀ a, r.2 = some a → a.tenant = t.id := by
  rcases visit_cases h with ⟨hget, -, hr⟩ | ⟨-, ⟨-, hid, -, hr⟩ | ⟨-, rfl⟩⟩
  · exact ⟨hc _ _ hget, by simp [hr]⟩
  · exact ⟨hid, by simp [hr]⟩
  · exact ⟨attempted_tenantID i t, fun a ha => tenant_of_callOf ha⟩

/-- A run writes one result for each tenant, in their order. -/
theorem map_tenantID_visitAll (hc : Keyed c.resume)
    (h : visitAll ctx c x i ts results = .ok out) : out.map (fun r => r.1.tenantID) = ts.map Tenant.id := by
  refine ext_getElem? fun j => ?_
  rw [getElem?_map, getElem?_map]
  cases ht : ts[j]? with
  | none =>
    have hlen := length_visitAll h
    have : out[j]? = none := by
      rw [getElem?_eq_none_iff] at ht ⊢
      omega
    rw [this]
    rfl
  | some t =>
    obtain ⟨r, hr, hv⟩ := visitAll_get h ht
    rw [hr]
    exact congrArg some (visit_tenantID hc hv).1

/-- The calls of a run for one tenant are those of its visit. -/
theorem count_visitAll (hc : Keyed c.resume)
    (h : visitAll ctx c x i ts results = .ok out) (hnodup : (ts.map Tenant.id).Nodup) {j : Nat}
    (ht : ts[j]? = some t) (hr : out[j]? = some r) :
    (out.filterMap Prod.snd).count ⟨t.id, true⟩ = if r.2 = some ⟨t.id, true⟩ then 1 else 0 := by
  induction ts generalizing i results out j with
  | nil => simp at ht
  | cons t' ts ih =>
    obtain ⟨r', hr', h⟩ := bind_ok.mp h
    obtain ⟨rest, hrest, h⟩ := bind_ok.mp h
    cases h
    obtain ⟨hnot, hnodup⟩ := nodup_cons.mp hnodup
    -- no call of a later visit is for a tenant that is not among the later ones
    have hlater : ∀ k, k ∉ ts.map Tenant.id → (rest.filterMap Prod.snd).count ⟨k, true⟩ = 0 := by
      intro k hk
      refine count_eq_zero.mpr fun hmem => ?_
      obtain ⟨o, ho, hcall⟩ := mem_filterMap.mp hmem
      obtain ⟨n, hn⟩ := getElem?_of_mem ho
      have hlt : n < ts.length := length_visitAll hrest ▸ (List.getElem?_eq_some_iff.mp hn).1
      obtain ⟨o', ho', hv⟩ := visitAll_get hrest (getElem?_eq_getElem hlt)
      obtain rfl : o = o' := Option.some.inj (hn.symm.trans ho')
      have hid : k = ts[n].id := (visit_tenantID hc hv).2 _ hcall
      exact hk (hid ▸ mem_map_of_mem (getElem_mem hlt))
    cases j with
    | zero =>
      obtain rfl : t' = t := by simpa using ht
      obtain rfl : r' = r := by simpa using hr
      cases hcall : r'.2 with
      | none => simp [hcall, hlater _ hnot]
      | some a => simp [hcall, count_cons, hlater _ hnot]
    | succ j =>
      have ht' : ts[j]? = some t := by simpa using ht
      have hne : t'.id ≠ t.id := fun he => hnot (he ▸ mem_map_of_mem (mem_of_getElem? ht'))
      have hhead : ∀ a, r'.2 = some a → a ≠ ⟨t.id, true⟩ := by
        rintro a ha rfl
        exact hne ((visit_tenantID hc hr').2 _ ha).symm
      have hrec := ih hrest hnodup ht' (by simpa using hr)
      cases hcall : r'.2 with
      | none => simpa [hcall] using hrec
      | some a => simpa [hcall, count_cons, hhead a hcall] using hrec

end Run

/-! ### Sequences of runs -/

/-- What can differ from run to run. -/
structure Run where
  ctx : Nat → Bool
  maxConcurrent : Int
  overrides : GoMap PolicyOverride
  executor : Executor

def Run.config (r : Run) (canaryCount : Int) (resume : GoMap Result) : RolloutConfig :=
  ⟨r.maxConcurrent, canaryCount, r.overrides, resume⟩

/-- The results of a run as a resume map. -/
def resumeOf (results : List Result) : GoMap Result := GoMap.index Result.tenantID results

/-- The resume map of run `n`: there is nothing to resume in the first one. -/
def resumeAt (reports : Nat → Report) : Nat → GoMap Result
  | 0 => .empty
  | n + 1 => resumeOf (reports n).results

/-- Runs that all return a report, each of them resuming the one before it. -/
structure Sequence (s : Snapshot) (canaryCount : Int) where
  runs : Nat → Run
  reports : Nat → Report
  calls : Nat → List Call
  returned : ∀ n, execute (runs n).ctx ((runs n).config canaryCount (resumeAt reports n)) s (some (runs n).executor) =
    .ok (reports n, calls n)

namespace Sequence

variable {s : Snapshot} {canaryCount : Int} (q : Sequence s canaryCount)

def resume (n : Nat) : GoMap Result := resumeAt q.reports n

/-- No approval is missing in run `n` for the tenant at position `i`, and the executor does not fail. -/
def succeeds (n i : Nat) (t : Tenant) : Bool := TenantFleet.succeeds ((q.runs n).config canaryCount (q.resume n)) (q.runs n).executor i t

/-- The state of a tenant before run `n`. -/
def state (n : Nat) (id : GoString) : Option State := ((q.resume n).get? id).map Result.state

/-- How often a tenant has been applied successfully before run `n`. -/
def successes (n : Nat) (id : GoString) : Nat := ((List.range n).map fun k => (q.calls k).count ⟨id, true⟩).sum

/-- After finitely many runs every tenant has passed and has been applied successfully exactly
once, and this stays so. -/
def Converges : Prop :=
  ∃ n, ∀ m ≥ n, ∀ t ∈ s.tenants, q.state m t.id = some .passed ∧ q.successes m t.id = 1

theorem successes_succ (n : Nat) (id : GoString) : q.successes (n + 1) id = q.successes n id + (q.calls n).count ⟨id, true⟩ := by
  simp [successes, range_succ]

theorem keyed_resume (n : Nat) : Keyed (q.resume n) := by
  intro k r h
  cases n with
  | zero => cases h
  | succ n => exact (GoMap.get?_index h).2

theorem canaryCount_nonneg (q : Sequence s canaryCount) : 0 ≤ canaryCount := by
  have h := q.returned 0
  unfold execute at h
  split_ifs at h with hbad
  simp only [Run.config] at hbad
  omega

theorem loop (n : Nat) : ∃ out,
    visitAll (q.runs n).ctx ((q.runs n).config canaryCount (q.resume n)) (q.runs n).executor 0 (sortTenants s.tenants) [] = .ok out ∧
      (q.reports n).results = out.map Prod.fst ∧ q.calls n = out.filterMap Prod.snd := by
  have h := q.returned n
  unfold execute at h
  split_ifs at h
  obtain ⟨out, hout, h⟩ := bind_ok.mp h
  simp only [Except.ok.injEq, Prod.mk.injEq] at h
  obtain ⟨hrep, hcalls⟩ := h
  exact ⟨out, hout, by rw [← hrep], hcalls.symm⟩

theorem length_results (n : Nat) : (q.reports n).results.length = s.tenants.length := by
  obtain ⟨out, hout, hres, -⟩ := q.loop n
  rw [hres, length_map, length_visitAll hout]
  exact (perm_sortTenants _).length_eq

variable {j n : Nat} {t : Tenant}

/-- What run `n` does at position `j`. -/
theorem visited (hs : (s.tenants.map Tenant.id).Nodup) (n : Nat) (ht : (sortTenants s.tenants)[j]? = some t) :
    ∃ r, visit (q.runs n).ctx ((q.runs n).config canaryCount (q.resume n)) (q.runs n).executor j t ((q.reports n).results.take j) = .ok r ∧
      (q.reports n).results[j]? = some r.1 ∧ (q.resume (n + 1)).get? t.id = some r.1 ∧
      (q.calls n).count ⟨t.id, true⟩ = if r.2 = some ⟨t.id, true⟩ then 1 else 0 := by
  obtain ⟨out, hout, hres, hcalls⟩ := q.loop n
  have hkeyed : Keyed ((q.runs n).config canaryCount (q.resume n)).resume := q.keyed_resume n
  have hsorted : ((sortTenants s.tenants).map Tenant.id).Nodup := ((perm_sortTenants _).map Tenant.id).nodup_iff.mpr hs
  obtain ⟨r, hr, hv⟩ := visitAll_get hout ht
  have hget : (out.map Prod.fst)[j]? = some r.1 := by rw [getElem?_map, hr]; rfl
  refine ⟨r, ?_, by rw [hres, hget], ?_, ?_⟩
  · rw [hres]
    rw [Nat.zero_add] at hv
    exact hv
  · show (resumeOf (q.reports n).results).get? t.id = some r.1
    rw [hres, ← (visit_tenantID hkeyed hv).1]
    refine GoMap.get?_index_of_nodup ?_ (mem_of_getElem? hget)
    rw [map_map]
    exact map_tenantID_visitAll hkeyed hout ▸ hsorted
  · rw [hcalls]
    exact count_visitAll hkeyed hout hsorted ht hr

/-! ### Nobody is skipped -/

/-- The tenant has passed after one successful call, or there has been none. -/
def Clean (n : Nat) (t : Tenant) : Prop :=
  q.state n t.id = some .passed ∧ q.successes n t.id = 1 ∨
    (q.state n t.id = none ∨ q.state n t.id = some .failed) ∧ q.successes n t.id = 0

theorem clean_zero (t : Tenant) : q.Clean 0 t := .inr ⟨.inl rfl, rfl⟩

variable {q} (hs : (s.tenants.map Tenant.id).Nodup)
include hs

/-- The step lemma: a run that does not skip a tenant applies it unless it has passed. -/
theorem Clean.step (ht : (sortTenants s.tenants)[j]? = some t) (h : q.Clean n t)
    (hskip : ¬ (canaryCount > 0 ∧ (j : Int) ≥ canaryCount ∧ hasFailed ((q.reports n).results.take j) = true)) :
    q.Clean (n + 1) t ∧ (q.state n t.id = some .passed ∨ q.succeeds n j t = true → q.state (n + 1) t.id = some .passed) := by
  obtain ⟨r, hv, -, hget, hcount⟩ := q.visited hs n ht
  have hstate : q.state (n + 1) t.id = some r.1.state := by rw [state, hget]; rfl
  have hsucc := q.successes_succ n t.id
  rcases visit_cases hv with ⟨hold, hfinal, hnone⟩ | ⟨hold, ⟨hbad, -⟩ | ⟨-, rfl⟩⟩
  · -- a final result is a passed one, and it is kept
    have hn : q.state n t.id = some r.1.state := congrArg (Option.map Result.state) hold
    rw [hnone] at hcount
    unfold Clean at h ⊢
    rw [hsucc, hcount, hstate, ← hn]
    refine ⟨h, fun _ => ?_⟩
    rcases h with h | ⟨h | h, -⟩
    · exact h.1
    · rw [hn] at h
      cases h
    · rw [hn, Option.some.injEq] at h
      simp [Result.final, h] at hfinal
  · exact absurd hbad hskip
  · -- the tenant is attempted, so it had not passed
    have hnot : q.state n t.id ≠ some .passed := by
      intro hp
      obtain ⟨old, hget, hp⟩ := Option.map_eq_some_iff.mp hp
      have := hold old hget
      simp [Result.final, hp] at this
    have h0 : q.successes n t.id = 0 := by
      rcases h with h | h
      · exact absurd h.1 hnot
      · exact h.2
    simp only [callOf_ok] at hcount
    rw [attempted_state] at hstate
    unfold Clean
    rw [hsucc, hcount, hstate, h0]
    show _ ∧ (_ ∨ TenantFleet.succeeds _ _ _ _ = true → _)
    by_cases hok : TenantFleet.succeeds ((q.runs n).config canaryCount (q.resume n)) (q.runs n).executor j t = true
    · simp [hok]
    · simp [hok, hnot]

/-- What a run needs so that it skips nobody: there are no canaries, all tenants are canaries, or
nobody but the last tenant fails. -/
def Spares (q : Sequence s canaryCount) (n : Nat) : Prop :=
  canaryCount = 0 ∨ (s.tenants.length : Int) ≤ canaryCount ∨
    ∀ i t, i + 1 < s.tenants.length → (sortTenants s.tenants)[i]? = some t → q.state n t.id = some .passed ∨ q.succeeds n i t = true

theorem hasFailed_take (h : ∀ i t, i < j → (sortTenants s.tenants)[i]? = some t → q.state (n + 1) t.id = some .passed) :
    hasFailed ((q.reports n).results.take j) = false := by
  rw [hasFailed, any_eq_false]
  intro r hr
  obtain ⟨i, hi⟩ := getElem?_of_mem hr
  rw [getElem?_take] at hi
  split_ifs at hi with hij
  have hlt : i < (sortTenants s.tenants).length := by
    rw [(perm_sortTenants _).length_eq, ← q.length_results n]
    exact (List.getElem?_eq_some_iff.mp hi).1
  have ht := getElem?_eq_getElem hlt
  obtain ⟨o, -, hres, hget, -⟩ := q.visited hs n ht
  obtain rfl : r = o.1 := Option.some.inj (hi.symm.trans hres)
  have hstate := h i _ hij ht
  rw [state, hget] at hstate
  simp [Option.some.inj hstate]

/-- The tenant at position `j` is not skipped. -/
theorem Spares.not_skipped (h : q.Spares n) (hclean : ∀ t ∈ s.tenants, q.Clean n t) (hj : j < s.tenants.length) :
    ¬ (canaryCount > 0 ∧ (j : Int) ≥ canaryCount ∧ hasFailed ((q.reports n).results.take j) = true) := by
  rcases h with h | h | h
  · omega
  · omega
  · -- the tenants before the last one pass, by induction on their position
    have hpassed : ∀ i t, i + 1 < s.tenants.length → (sortTenants s.tenants)[i]? = some t → q.state (n + 1) t.id = some .passed := by
      intro i
      induction i using Nat.strong_induction_on with
      | _ i ih =>
        intro t hi ht
        refine ((hclean t ((perm_sortTenants _).mem_iff.mp (mem_of_getElem? ht))).step hs ht ?_).2 (h i t hi ht)
        rw [hasFailed_take hs fun i' t' hi' ht' => ih i' hi' t' (by omega) ht']
        simp
    rw [hasFailed_take hs fun i t hi ht => hpassed i t (by omega) ht]
    simp

/-- The step lemma for all tenants. -/
theorem Spares.step (h : q.Spares n) (hclean : ∀ t ∈ s.tenants, q.Clean n t) :
    q.Spares (n + 1) ∧ (∀ t ∈ s.tenants, q.Clean (n + 1) t) ∧
      ∀ j t, (sortTenants s.tenants)[j]? = some t → q.state n t.id = some .passed ∨ q.succeeds n j t = true →
        q.state (n + 1) t.id = some .passed := by
  have hstep : ∀ j t, (sortTenants s.tenants)[j]? = some t → q.Clean (n + 1) t ∧
      (q.state n t.id = some .passed ∨ q.succeeds n j t = true → q.state (n + 1) t.id = some .passed) := by
    intro j t ht
    refine (hclean t ((perm_sortTenants _).mem_iff.mp (mem_of_getElem? ht))).step hs ht (h.not_skipped hs hclean ?_)
    rw [← (perm_sortTenants _).length_eq]
    exact (List.getElem?_eq_some_iff.mp ht).1
  refine ⟨?_, fun t ht => ?_, fun j t ht => (hstep j t ht).2⟩
  · rcases h with h | h | h
    · exact .inl h
    · exact .inr (.inl h)
    · exact .inr (.inr fun i t hi ht => .inl ((hstep i t ht).2 (h i t hi ht)))
  · obtain ⟨j, hj⟩ := getElem?_of_mem ((perm_sortTenants _).mem_iff.mpr ht)
    exact (hstep j t hj).1

/-- The run lemma: if the first run skips nobody, no run does. -/
theorem Spares.all (h : q.Spares 0) (n : Nat) : q.Spares n ∧ ∀ t ∈ s.tenants, q.Clean n t := by
  induction n with
  | zero => exact ⟨h, fun t _ => q.clean_zero t⟩
  | succ n ih =>
    obtain ⟨hspares, hclean, -⟩ := ih.1.step hs ih.2
    exact ⟨hspares, hclean⟩

/-! ### Somebody is skipped -/

/-- The tenants before the last one that fail in the first run make it skip the last one. -/
theorem skips_last (hcanary : 0 < canaryCount) (hlen : canaryCount < s.tenants.length) {i : Nat} {t' : Tenant}
    (hi : i + 1 < s.tenants.length) (ht : (sortTenants s.tenants)[i]? = some t) (hfails : q.succeeds 0 i t = false)
    (ht' : (sortTenants s.tenants)[s.tenants.length - 1]? = some t') : q.state 1 t'.id = some .skipped := by
  have hfailed : hasFailed ((q.reports 0).results.take (s.tenants.length - 1)) = true := by
    obtain ⟨r, hv, hres, -⟩ := q.visited hs 0 ht
    rcases visit_cases hv with ⟨hold, -⟩ | ⟨-, ⟨⟨-, -, hbefore⟩, -⟩ | ⟨-, rfl⟩⟩
    · cases hold
    · -- the tenant is itself skipped because of one before it
      obtain ⟨r', hr', hstate⟩ := any_eq_true.mp hbefore
      exact any_eq_true.mpr ⟨r', take_subset_take_left _ (show i ≤ s.tenants.length - 1 by omega) hr', hstate⟩
    · have hmem : attempted ((q.runs 0).config canaryCount (q.resume 0)) (q.runs 0).executor i t ∈
          (q.reports 0).results.take (s.tenants.length - 1) := by
        refine mem_of_getElem? (i := i) ?_
        rw [getElem?_take_of_lt (by omega)]
        exact hres
      refine any_eq_true.mpr ⟨_, hmem, ?_⟩
      have hstate := attempted_state (c := (q.runs 0).config canaryCount (q.resume 0)) (x := (q.runs 0).executor) i t
      rw [show TenantFleet.succeeds _ _ i t = false from hfails] at hstate
      simpa using hstate
  obtain ⟨r, hv, -, hget, -⟩ := q.visited hs 0 ht'
  rw [state, hget]
  rcases visit_cases hv with ⟨hold, -⟩ | ⟨-, ⟨-, -, hstate, -⟩ | ⟨hno, -⟩⟩
  · cases hold
  · exact congrArg some hstate
  · refine absurd ⟨hcanary, ?_, hfailed⟩ hno
    show canaryCount ≤ _
    omega

/-- The resume test takes a skipped tenant as done. -/
theorem skipped_forever {m : Nat} (hnm : n ≤ m) (ht : (sortTenants s.tenants)[j]? = some t)
    (h : q.state n t.id = some .skipped) : q.state m t.id = some .skipped := by
  induction m, hnm using Nat.le_induction with
  | base => exact h
  | succ m _ ih =>
    obtain ⟨old, hold, hstate⟩ := Option.map_eq_some_iff.mp ih
    obtain ⟨r, hv, -, hget, -⟩ := q.visited hs m ht
    rw [state, hget]
    rcases visit_cases hv with ⟨hold', -, -⟩ | ⟨hno, -⟩
    · obtain rfl : old = r.1 := Option.some.inj (hold.symm.trans hold')
      exact congrArg some hstate
    · have := hno old hold
      simp [Result.final, hstate] at this

omit hs in
/-- A sequence of runs that do not fail any more from some run on converges exactly if its first run skips nobody. -/
theorem converges_iff (hs : (s.tenants.map Tenant.id).Nodup) (q : Sequence s canaryCount)
    (hgood : ∃ N, ∀ n ≥ N, ∀ i t, (sortTenants s.tenants)[i]? = some t → q.succeeds n i t = true) :
    q.Converges ↔ canaryCount = 0 ∨ (s.tenants.length : Int) ≤ canaryCount ∨
      ∀ i t, i + 1 < s.tenants.length → (sortTenants s.tenants)[i]? = some t → q.succeeds 0 i t = true := by
  constructor
  · rintro ⟨n, hn⟩
    by_contra! hno
    obtain ⟨hcanary, hlen, i, t, hi, ht, hfails⟩ := hno
    have hlast : s.tenants.length - 1 < (sortTenants s.tenants).length := by
      rw [(perm_sortTenants _).length_eq]
      omega
    have ht' := getElem?_eq_getElem hlast
    have hmem := (perm_sortTenants _).mem_iff.mp (mem_of_getElem? ht')
    have hpos : 0 < canaryCount := lt_of_le_of_ne q.canaryCount_nonneg (Ne.symm hcanary)
    have hskipped := skips_last hs hpos hlen hi ht (by simpa using hfails) ht'
    have := skipped_forever hs (le_max_left 1 n) ht' hskipped
    rw [(hn (max 1 n) (le_max_right 1 n) _ hmem).1] at this
    cases this
  · intro h
    have hspares : q.Spares 0 := by
      rcases h with h | h | h
      · exact .inl h
      · exact .inr (.inl h)
      · exact .inr (.inr fun i t hi ht => .inr (h i t hi ht))
    obtain ⟨N, hN⟩ := hgood
    refine ⟨N + 1, fun m hm t ht => ?_⟩
    obtain ⟨j, hj⟩ := getElem?_of_mem ((perm_sortTenants _).mem_iff.mpr ht)
    obtain ⟨m, rfl⟩ : ∃ k, m = k + 1 := ⟨m - 1, by omega⟩
    obtain ⟨hm₁, hm₂⟩ := hspares.all hs m
    obtain ⟨-, hclean, hpassed⟩ := hm₁.step hs hm₂
    have hstate := hpassed j t hj (.inr (hN m (by omega) j t hj))
    refine ⟨hstate, ?_⟩
    rcases hclean t ht with hc | ⟨hc, -⟩
    · exact hc.2
    · simp [hstate] at hc

end Sequence

/-! ### Two tenants, one of them a canary -/

def sampleTenant (id : GoString) : Tenant :=
  ⟨id, str "db-" ++ id, str "prod", str "env://" ++ id, str "default", true, .empty⟩

def sampleSnapshot : Snapshot := ⟨str "sha256:00", [sampleTenant (str "a"), sampleTenant (str "b")], []⟩

/-- A run in which the executor fails at the positions `fails`. -/
def sampleRun (fails : List Nat) : Run := ⟨fun _ => false, 1, .empty, fun i _ _ => i ∉ fails⟩

def sampleResult (id : GoString) (state : State) : Result :=
  { tenantID := id, targetID := str "db-" ++ id, policyDigest := str "default", approvalGranted := true, state }

def failedResult (id : GoString) : Result := { sampleResult id .failed with error := str "tenant apply failed" }

def skippedResult (id : GoString) : Result := { tenantID := id, targetID := str "db-" ++ id, state := .skipped }

def sampleReport (a b : Result) : Report := ⟨str "sha256:00", [a, b], status [a, b]⟩

/-- The second tenant fails in the first run. -/
def lastFails : Sequence sampleSnapshot 1 where
  runs
    | 0 => sampleRun [1]
    | _ => sampleRun []
  reports
    | 0 => sampleReport (sampleResult (str "a") .passed) (failedResult (str "b"))
    | _ => sampleReport (sampleResult (str "a") .passed) (sampleResult (str "b") .passed)
  calls
    | 0 => [⟨str "a", true⟩, ⟨str "b", false⟩]
    | 1 => [⟨str "b", true⟩]
    | _ => []
  returned
    | 0 => by decide +kernel
    | 1 => by decide +kernel
    | _ + 2 => by
      let r := sampleReport (sampleResult (str "a") .passed) (sampleResult (str "b") .passed)
      show execute (sampleRun []).ctx ((sampleRun []).config 1 (resumeOf r.results)) sampleSnapshot (some (sampleRun []).executor) = .ok (r, [])
      decide +kernel

/-- The canary fails in the first run. -/
def canaryFails : Sequence sampleSnapshot 1 where
  runs
    | 0 => sampleRun [0]
    | _ => sampleRun []
  reports
    | 0 => sampleReport (failedResult (str "a")) (skippedResult (str "b"))
    | _ => sampleReport (sampleResult (str "a") .passed) (skippedResult (str "b"))
  calls
    | 0 => [⟨str "a", false⟩]
    | 1 => [⟨str "a", true⟩]
    | _ => []
  returned
    | 0 => by decide +kernel
    | 1 => by decide +kernel
    | _ + 2 => by
      let r := sampleReport (sampleResult (str "a") .passed) (skippedResult (str "b"))
      show execute (sampleRun []).ctx ((sampleRun []).config 1 (resumeOf r.results)) sampleSnapshot (some (sampleRun []).executor) = .ok (r, [])
      decide +kernel

theorem lastFails_converges : lastFails.Converges := by
  refine (Sequence.converges_iff (by decide +kernel) lastFails ⟨1, fun n hn i t _ => ?_⟩).mpr (.inr (.inr fun i t hi _ => ?_))
  · obtain ⟨n, rfl⟩ : ∃ k, n = k + 1 := ⟨n - 1, by omega⟩
    rfl
  · obtain rfl : i = 0 := by
      simp only [sampleSnapshot, length_cons, length_nil] at hi
      omega
    rfl

/-- From the second run on nothing fails, and the second tenant is never applied. -/
theorem canaryFails_strands_tenant : (∀ n ≥ 1, ∀ i t, canaryFails.succeeds n i t = true) ∧
    (∀ n ≥ 1, canaryFails.state n (str "b") = some .skipped ∧ canaryFails.successes n (str "b") = 0) ∧ ¬ canaryFails.Converges := by
  have hstate : ∀ n ≥ 1, canaryFails.state n (str "b") = some .skipped := by
    intro n hn
    match n, hn with
    | 1, _ => decide +kernel
    | _ + 2, _ =>
      show ((resumeOf (sampleReport (sampleResult (str "a") .passed) (skippedResult (str "b"))).results).get? (str "b")).map Result.state = _
      decide +kernel
  refine ⟨fun n hn i t => ?_, fun n hn => ⟨hstate n hn, ?_⟩, ?_⟩
  · obtain ⟨n, rfl⟩ : ∃ k, n = k + 1 := ⟨n - 1, by omega⟩
    rfl
  · refine sum_eq_zero fun c hc => ?_
    obtain ⟨k, -, rfl⟩ := mem_map.mp hc
    match k with
    | 0 => decide +kernel
    | 1 => decide +kernel
    | _ + 2 => rfl
  · rintro ⟨n, hn⟩
    have h := (hn (max 1 n) (le_max_right 1 n) (sampleTenant (str "b")) (by decide +kernel)).1
    rw [show (sampleTenant (str "b")).id = str "b" from rfl, hstate _ (le_max_left 1 n)] at h
    cases h

end AutoSql.TenantFleet
