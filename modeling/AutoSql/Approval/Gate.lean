/-
AutoSql/Approval/Gate.lean

The gate in front of an apply.

`guardedApply` decides about a request, records the decision, looks at the clock
once more and only then calls the mutation.  The authority is asked once for each
actor and once for each approval of the request, so it is modelled by its answers;
the clock by the instants it shows at the four places where it is read.  The context
may end at each place where it is looked at, every append to the trail may fail with
or without effect, and the program may stop at any of these calls.

Main result: `guardedApply_guarded`.
-/
import AutoSql.Approval.Trail
import AutoSql.Lib.Fallible
import AutoSql.Lib.Proc
import AutoSql.Lib.Text

namespace AutoSql.Approvals

open Proc Fallible List GoMap

/-! ### Requests and policies -/

/-- `RiskLow` and `RiskCritical`, the least and the greatest risk. -/
def riskLow : Int := 0
def riskCritical : Int := 3

structure Plan where
  digest : GoString
  environment : GoString
  author : GoString
  risk : Int
  expiresAt : Instant

structure Approval where
  planDigest : GoString
  environment : GoString
  approver : GoString
  approvedAt : Instant
  expiresAt : Instant
  proof : GoString

structure Identity where
  id : GoString
  roles : List GoString
  emergencyAuthority : Bool

structure VerifiedApproval where
  identity : Identity
  planDigest : GoString
  environment : GoString
  approvedAt : Instant
  expiresAt : Instant

/-- The answers of the authority; that about an approval may depend on its position in the request. -/
structure IdentityAuthority where
  resolveActor : GoString → Option Identity
  verifyApproval : Nat → Approval → Option VerifiedApproval

structure Requirement where
  minimumRisk : Int
  approverCount : Int
  roles : List GoString

structure EnvironmentPolicy where
  allowed : Bool
  requirements : List Requirement

structure EmergencyOverride where
  identity : GoString
  reason : GoString

structure Request where
  plan : Plan
  approvals : List Approval
  override : Option EmergencyOverride
  requestedBy : GoString

structure Decision where
  emergency : Bool
  approvers : List GoString
  reason : GoString
  expiresAt : GoMap Instant

/-- `quoted` is the verb `%q` of `fmt`. -/
structure Gate where
  policy : GoMap EnvironmentPolicy
  authority : Option IdentityAuthority
  quoted : GoString → GoString

/-! ### The decision -/

def blank (s : GoString) : Bool := Text.trimSpace s = []

/-- A time is in force at an instant: it is after it. -/
def expired (t at_ : Instant) : Bool := !(at_ < t)

def Plan.expired (p : Plan) (at_ : Instant) : Bool := p.expiresAt ≠ 0 && Approvals.expired p.expiresAt at_

def hasAllRoles (got want : List GoString) : Bool := want.all fun w => got.contains w

/-- The entry of `valid` for one identity. -/
structure Valid where
  identity : Identity
  expiresAt : Instant

/-- The conditions under which an approval is passed over. -/
def skipped (req : Request) (instant : Instant) (a : Approval) (v : VerifiedApproval) : Bool :=
  v.identity.id ≠ a.approver || v.planDigest ≠ req.plan.digest || v.environment ≠ req.plan.environment ||
    instant < v.approvedAt || expired v.expiresAt instant || v.identity.id = req.plan.author || v.identity.id = req.requestedBy

/-- One round of the loop over the approvals. -/
def addValid (authority : IdentityAuthority) (req : Request) (instant : Instant) (valid : GoMap Valid) (a : Approval × Nat) :
    GoMap Valid :=
  if a.1.approver = [] then valid
  else
    match authority.verifyApproval a.2 a.1 with
    | none => valid
    | some v => if skipped req instant a.1 v then valid else valid.insert v.identity.id ⟨v.identity, v.expiresAt⟩

def validApprovals (authority : IdentityAuthority) (req : Request) (instant : Instant) : GoMap Valid :=
  req.approvals.zipIdx.foldl (addValid authority req instant) .empty

/-- The approvers that are eligible so far, and when their approvals expire. -/
structure Eligible where
  names : GoSet
  expiresAt : GoMap Instant

def Eligible.add (e : Eligible) (v : Valid) : Eligible :=
  ⟨GoSet.add e.names v.identity.id, e.expiresAt.insert v.identity.id v.expiresAt⟩

/-- The approvals that count for a requirement.  (The source goes through the map in no particular order.) -/
def qualified (valid : GoMap Valid) (r : Requirement) : List Valid :=
  (valid.entries.map Prod.snd).filter fun v => hasAllRoles v.identity.roles r.roles

/-- One round of the loop over the requirements. -/
def checkRequirement (req : Request) (valid : GoMap Valid) (e : Eligible) (r : Requirement) : Except GoString Eligible :=
  if r.minimumRisk < riskLow ∨ riskCritical < r.minimumRisk ∨ r.approverCount < 0 then .error (str "invalid approval requirement")
  else if r.roles.any blank then .error (str "approval roles cannot be empty")
  else if req.plan.risk < r.minimumRisk then .ok e
  else if ((qualified valid r).length : Int) < r.approverCount then
    .error (str "requires " ++ GoString.itoa r.approverCount ++ str " eligible approvers with roles [" ++
      GoString.join (str " ") r.roles ++ str "]")
  else .ok ((qualified valid r).foldl Eligible.add e)

/-- The identity of an actor, if the authority knows it under that name. -/
def resolve (authority : IdentityAuthority) (name reason : GoString) : Except GoString Identity :=
  match authority.resolveActor name with
  | some i => if i.id = name then .ok i else .error reason
  | none => .error reason

def Gate.environmentPolicy (g : Gate) (environment : GoString) : Except GoString EnvironmentPolicy :=
  match g.policy.get? environment with
  | some ep => if ep.allowed then .ok ep else .error (str "environment " ++ g.quoted environment ++ str " is not allowed")
  | none => .error (str "environment " ++ g.quoted environment ++ str " is not allowed")

/-- The last part of the decision: the emergency override, or the approvals. -/
def decideFor (authority : IdentityAuthority) (req : Request) (requester : Identity) (ep : EnvironmentPolicy) (instant : Instant) :
    Except GoString Decision :=
  match req.override with
  | some o => do
    failIf (blank o.identity ∨ blank o.reason) (str "emergency identity and reason are required")
    failIf (o.identity ≠ req.requestedBy ∨ !requester.emergencyAuthority) (str "requester is not authorized for emergency override")
    return ⟨true, [], o.reason, .empty⟩
  | none => do
    let e ← ep.requirements.foldlM (checkRequirement req (validApprovals authority req instant)) ⟨.empty, .empty⟩
    return ⟨false, GoString.sortStrings e.names.keys, [], e.expiresAt⟩

/-- `Gate.evaluateFor` after its look at the context; an error is the reason of a denial. -/
def Gate.evaluateFor (g : Gate) (req : Request) (instant : Instant) (observation : Bool) : Except GoString Decision := do
  failIf (blank req.plan.digest ∨ blank req.plan.environment ∨ blank req.plan.author ∨ blank req.requestedBy)
    (str "plan digest, environment, author, and requester are required")
  failIf (req.plan.author = req.requestedBy) (str "plan author and apply requester must be different")
  failIf (req.plan.risk < riskLow ∨ riskCritical < req.plan.risk) (str "invalid plan risk")
  match g.authority with
  | none => .error (str "trusted identity authority is required")
  | some authority => do
    let _ ← resolve authority req.plan.author (str "plan author identity is not trusted")
    let requester ← resolve authority req.requestedBy (str "apply requester identity is not trusted")
    let ep ← g.environmentPolicy req.plan.environment
    failIf (!observation && req.plan.expired instant) (str "plan has expired")
    decideFor authority req requester ep instant

/-- The plan and all approvals that were counted are in force. -/
def approvalsFresh (req : Request) (d : Decision) (at_ : Instant) : Bool :=
  !req.plan.expired at_ && (d.emergency || d.approvers.all fun a =>
    match d.expiresAt.get? a with
    | some t => !expired t at_
    | none => false)

/-! ### The apply -/

/-- Why there is no decision to apply. -/
inductive Refusal
  | ctx
  | denied (reason : GoString)

def Refusal.reason : Refusal → GoString
  | .ctx => []
  | .denied reason => reason

inductive Error
  | noMutation
  | ctx
  | audit
  | refused (r : Refusal)
  | expired
  | mutation

/-- The trail, and for each call of the mutation what was on the trail then. -/
structure World where
  events : List Event
  mutations : List (List Event)

def applyDenied : GoString := str "apply_denied"
def applyAuthorized : GoString := str "apply_authorized"

/-- The event that records a decision. -/
def decisionEvent (req : Request) (at_ : Instant) : Except Refusal Decision → Event
  | .ok d =>
    { time := at_, type := applyAuthorized, planDigest := req.plan.digest, environment := req.plan.environment,
      actor := if d.emergency then (req.override.map EmergencyOverride.identity).getD req.requestedBy else req.requestedBy,
      reason := d.reason, approvers := d.approvers, emergency := d.emergency, allowed := true }
  | .error r =>
    { time := at_, type := applyDenied, planDigest := req.plan.digest, environment := req.plan.environment,
      actor := req.requestedBy, reason := r.reason, approvers := [], emergency := false, allowed := false }

/-- `AuditTrail.AppendDurable`. -/
def appendDurable (e : Event) : Proc World Error Unit := call (fun w => some { w with events := w.events ++ [e] }) .audit

/-- The call of the mutation, with its own error. -/
def mutate : Proc World Error Unit := do
  keep fun w => { w with mutations := w.mutations ++ [w.events] }
  ask .mutation

/-- `Gate.GuardedApply` once the decision is recorded. -/
def applyDecided (req : Request) (d : Decision) (now : Nat → Instant) : Proc World Error Unit := do
  ask .ctx
  if approvalsFresh req d (now 2) then do
    ask .ctx
    mutate
  else do
    appendDurable { decisionEvent req (now 1) (.ok d) with
      time := now 3, type := applyDenied, allowed := false, reason := str "authorization expired before mutation" }
    fail .expired

/-- The decision, unless the context has ended. -/
def Gate.decision (g : Gate) (req : Request) (instant : Instant) (alive : Bool) : Except Refusal Decision :=
  if alive then (g.evaluateFor req instant false).mapError .denied else .error .ctx

def Gate.applyRecorded (g : Gate) (req : Request) (now : Nat → Instant) (alive : Bool) : Proc World Error Unit := do
  appendDurable (decisionEvent req (now 1) (g.decision req (now 0) alive))
  match g.decision req (now 0) alive with
  | .error r => fail (.refused r)
  | .ok d => applyDecided req d now

/-- `Gate.GuardedApply`; the two flags say whether there is a mutation and a trail. -/
def Gate.guardedApply (g : Gate) (req : Request) (now : Nat → Instant) (mutation trail : Bool) : Proc World Error Unit :=
  if !mutation then fail .noMutation
  else do
    ask .ctx
    let alive ← attempt some .ctx
    if !trail then fail .audit else g.applyRecorded req now alive

/-! ### What a decision means -/

variable {g : Gate} {req : Request} {authority : IdentityAuthority} {instant : Instant}

/-- The approval that an entry of `valid` comes from. -/
structure Approved (authority : IdentityAuthority) (req : Request) (instant : Instant) (id : GoString) (v : VerifiedApproval) :
    Prop where
  verified : ∃ i a, req.approvals[i]? = some a ∧ authority.verifyApproval i a = some v
  identity : v.identity.id = id
  planDigest : v.planDigest = req.plan.digest
  environment : v.environment = req.plan.environment
  unexpired : instant < v.expiresAt
  author : id ≠ req.plan.author
  requester : id ≠ req.requestedBy

/-- Every entry of `valid` comes from an approval of the request. -/
theorem validApprovals_approved {id : GoString} {x : Valid} (h : (validApprovals authority req instant).get? id = some x) :
    ∃ v, Approved authority req instant id v ∧ x = ⟨v.identity, v.expiresAt⟩ := by
  have hinv : ∀ id x, (validApprovals authority req instant).get? id = some x →
      ∃ v, Approved authority req instant id v ∧ x = ⟨v.identity, v.expiresAt⟩ := by
    refine List.foldlRecOn (motive := fun m : GoMap Valid => ∀ id x, m.get? id = some x →
      ∃ v, Approved authority req instant id v ∧ x = ⟨v.identity, v.expiresAt⟩) _ _ ?_ ?_
    · exact fun id x h => nomatch h
    · rintro m hm ⟨a, i⟩ ha id x hx
      unfold addValid at hx
      split_ifs at hx
      · exact hm id x hx
      · split at hx
        · exact hm id x hx
        · rename_i v hv
          split_ifs at hx with hskip
          · exact hm id x hx
          · rw [get?_insert] at hx
            split_ifs at hx with hid
            · simp only [skipped, expired, Bool.or_eq_true, decide_eq_true_eq, not_or, Bool.not_eq_true', decide_eq_false_iff_not, not_not] at hskip
              cases hx
              subst hid
              exact ⟨v, ⟨⟨i, a, mk_mem_zipIdx_iff_getElem?.mp ha, hv⟩, rfl, by tauto, by tauto, by tauto, by tauto, by tauto⟩, rfl⟩
            · exact hm id x hx
  exact hinv id x h

section Requirements

variable {valid : GoMap Valid} {r : Requirement} {rs : List Requirement} {e e' : Eligible} {l : List Valid} {id : GoString}

/-- Entries are found under the names of their identities. -/
def Named (valid : GoMap Valid) : Prop := ∀ id x, valid.get? id = some x → x.identity.id = id

theorem named_validApprovals : Named (validApprovals authority req instant) := by
  intro id x hx
  obtain ⟨v, hv, rfl⟩ := validApprovals_approved hx
  exact hv.identity

theorem mem_qualified (hn : Named valid) {x : Valid} :
    x ∈ qualified valid r ↔ valid.get? x.identity.id = some x ∧ ∀ role ∈ r.roles, role ∈ x.identity.roles := by
  have hroles : hasAllRoles x.identity.roles r.roles = true ↔ ∀ role ∈ r.roles, role ∈ x.identity.roles := by simp [hasAllRoles]
  rw [qualified, mem_filter, mem_map, hroles]
  refine and_congr_left fun _ => ⟨?_, fun h => ⟨(_, x), get?_eq_some.mp h, rfl⟩⟩
  rintro ⟨⟨id, x'⟩, hx, rfl⟩
  have hget := get?_eq_some.mpr hx
  rwa [hn id x' hget]

/-- Different approvals that count come from different identities. -/
theorem nodup_qualified (hn : Named valid) : ((qualified valid r).map fun x => x.identity.id).Nodup := by
  have hkeys : valid.entries.map (fun p => p.2.identity.id) = valid.keys := by
    refine map_congr_left fun p hp => ?_
    exact hn p.1 p.2 (get?_eq_some.mpr hp)
  have hnodup : ((valid.entries.map Prod.snd).map fun x => x.identity.id).Nodup := by
    rw [map_map]
    exact hkeys ▸ valid.nodup_keys
  exact hnodup.sublist (filter_sublist.map _)

/-- The approvers so far, with the expiry of their approvals. -/
def Eligible.Known (valid : GoMap Valid) (e : Eligible) : Prop :=
  ∀ id, GoSet.has e.names id = true → ∃ x, valid.get? id = some x ∧ e.expiresAt.get? id = some x.expiresAt

theorem Eligible.Known.add (h : e.Known valid) {x : Valid} (hx : valid.get? x.identity.id = some x) : (e.add x).Known valid := by
  intro id hid
  show ∃ x', _ ∧ (e.expiresAt.insert _ _).get? id = _
  rw [get?_insert]
  split_ifs with hid'
  · exact ⟨x, hid' ▸ hx, rfl⟩
  · refine h id ?_
    simpa [Eligible.add, hid'] using hid

theorem Eligible.has_foldl :
    GoSet.has (l.foldl Eligible.add e).names id = true ↔ (∃ x ∈ l, x.identity.id = id) ∨ GoSet.has e.names id = true := by
  induction l generalizing e with
  | nil => simp
  | cons x l ih =>
    rw [foldl_cons, ih]
    simp only [Eligible.add, GoSet.has_add, exists_mem_cons_iff, eq_comm (a := id)]
    rw [or_left_comm, or_assoc]

/-- What the loop over the requirements has found. -/
structure Checked (req : Request) (valid : GoMap Valid) (done : List Requirement) (e : Eligible) : Prop where
  known : e.Known valid
  counted : ∀ r ∈ done, r.minimumRisk ≤ req.plan.risk → r.approverCount ≤ (qualified valid r).length
  eligible : ∀ r ∈ done, r.minimumRisk ≤ req.plan.risk → ∀ x ∈ qualified valid r, GoSet.has e.names x.identity.id = true

/-- One round of the loop. -/
theorem Checked.step (hn : Named valid) {done : List Requirement} (h : Checked req valid done e)
    (hr : checkRequirement req valid e r = .ok e') : Checked req valid (done ++ [r]) e' := by
  unfold checkRequirement at hr
  simp only [guard_ok] at hr
  obtain ⟨-, -, hr⟩ := hr
  by_cases hrisk : req.plan.risk < r.minimumRisk
  · -- the requirement does not apply
    rw [if_pos hrisk] at hr
    cases hr
    refine ⟨h.known, ?_, ?_⟩
    · intro r' hr' hle
      rcases mem_append.mp hr' with hr' | hr'
      · exact h.counted r' hr' hle
      · rw [mem_singleton.mp hr'] at hle
        omega
    · intro r' hr' hle
      rcases mem_append.mp hr' with hr' | hr'
      · exact h.eligible r' hr' hle
      · rw [mem_singleton.mp hr'] at hle
        omega
  · rw [if_neg hrisk, guard_ok] at hr
    obtain ⟨hcount, hr⟩ := hr
    cases hr
    refine ⟨foldlRecOn (motive := Eligible.Known valid) _ _ h.known fun _ he x hx => he.add ((mem_qualified hn).mp hx).1, ?_, ?_⟩
    · intro r' hr' hle
      rcases mem_append.mp hr' with hr' | hr'
      · exact h.counted r' hr' hle
      · rw [mem_singleton.mp hr']
        omega
    · intro r' hr' hle x hx
      rw [Eligible.has_foldl]
      rcases mem_append.mp hr' with hr' | hr'
      · exact .inr (h.eligible r' hr' hle x hx)
      · rw [mem_singleton.mp hr'] at hx
        exact .inl ⟨x, hx, rfl⟩

theorem checked_requirements (hn : Named valid) (h : rs.foldlM (checkRequirement req valid) ⟨.empty, .empty⟩ = .ok e) :
    Checked req valid rs e :=
  foldlM_inv h ⟨(fun _ h => nomatch h), (fun _ h => nomatch h), (fun _ h => nomatch h)⟩ fun _ _ _ _ hd => hd.step hn

end Requirements

/-! ### When the mutation is called -/

/-- The plan is in force at an instant; a plan without expiry always is. -/
def Plan.InForce (p : Plan) (at_ : Instant) : Prop := p.expiresAt = 0 ∨ at_ < p.expiresAt

/-- Enough identities approve: for each requirement that applies there are as many as it asks for, with its roles and with
approvals for this plan and environment that are in force at both instants. -/
def EnoughApprovals (authority : IdentityAuthority) (req : Request) (ep : EnvironmentPolicy) (decided last : Instant) : Prop :=
  ∀ r ∈ ep.requirements, r.minimumRisk ≤ req.plan.risk → ∃ ids : Finset GoString, r.approverCount ≤ ids.card ∧
    ∀ id ∈ ids, ∃ v, Approved authority req decided id v ∧ last < v.expiresAt ∧ ∀ role ∈ r.roles, role ∈ v.identity.roles

/-- The requester uses emergency authority, in their own name and with a reason. -/
def Emergency (req : Request) (requester : Identity) : Prop :=
  requester.emergencyAuthority = true ∧ ∃ o, req.override = some o ∧ o.identity = req.requestedBy ∧ blank o.reason = false

/-- **What must hold** for a request that is decided at one instant and looked at last at another. -/
structure Authorised (g : Gate) (req : Request) (decided last : Instant) : Prop where
  distinct : req.plan.author ≠ req.requestedBy
  inForce : req.plan.InForce decided ∧ req.plan.InForce last
  policy : ∃ authority author requester ep, g.authority = some authority ∧
    (authority.resolveActor req.plan.author = some author ∧ author.id = req.plan.author) ∧
    (authority.resolveActor req.requestedBy = some requester ∧ requester.id = req.requestedBy) ∧
    (g.policy.get? req.plan.environment = some ep ∧ ep.allowed = true) ∧
    (Emergency req requester ∨ EnoughApprovals authority req ep decided last)

theorem Plan.inForce_iff {p : Plan} {at_ : Instant} : p.expired at_ = false ↔ p.InForce at_ := by
  simp [Plan.expired, Approvals.expired, Plan.InForce, or_iff_not_imp_left]

theorem resolve_ok {name reason : GoString} {i : Identity} (h : resolve authority name reason = .ok i) :
    authority.resolveActor name = some i ∧ i.id = name := by
  unfold resolve at h
  split at h
  · split_ifs at h with hid
    cases h
    exact ⟨by assumption, hid⟩
  · cases h

theorem environmentPolicy_ok {environment : GoString} {ep : EnvironmentPolicy} (h : g.environmentPolicy environment = .ok ep) :
    g.policy.get? environment = some ep ∧ ep.allowed = true := by
  unfold Gate.environmentPolicy at h
  split at h
  · split_ifs at h with hallowed
    cases h
    exact ⟨by assumption, hallowed⟩
  · cases h

/-- The approvals behind a decision that is still fresh. -/
theorem enoughApprovals {ep : EnvironmentPolicy} {e : Eligible} {last : Instant}
    (h : ep.requirements.foldlM (checkRequirement req (validApprovals authority req instant)) ⟨.empty, .empty⟩ = .ok e)
    (hfresh : approvalsFresh req ⟨false, GoString.sortStrings e.names.keys, [], e.expiresAt⟩ last = true) :
    EnoughApprovals authority req ep instant last := by
  have hn : Named (validApprovals authority req instant) := named_validApprovals
  have hchecked := checked_requirements hn h
  intro r hr hrisk
  refine ⟨((qualified (validApprovals authority req instant) r).map fun x => x.identity.id).toFinset, ?_, ?_⟩
  · rw [toFinset_card_of_nodup (nodup_qualified hn), length_map]
    exact hchecked.counted r hr hrisk
  · intro id hid
    rw [mem_toFinset, mem_map] at hid
    obtain ⟨x, hx, rfl⟩ := hid
    have hname := hchecked.eligible r hr hrisk x hx
    obtain ⟨hget, hroles⟩ := (mem_qualified hn).mp hx
    obtain ⟨v, hv, hxv⟩ := validApprovals_approved hget
    refine ⟨v, hv, ?_, by rw [hxv] at hroles; exact hroles⟩
    -- the last look finds the expiry of this approval
    obtain ⟨x', hget', hexpires⟩ := hchecked.known _ hname
    rw [hget, Option.some.injEq] at hget'
    rw [approvalsFresh, Bool.false_or, Bool.and_eq_true, all_eq_true] at hfresh
    have := hfresh.2 x.identity.id ((GoString.perm_sortStrings _).mem_iff.mpr (GoSet.mem_keys.mpr hname))
    rw [hexpires, ← hget', hxv] at this
    simpa [expired] using this

/-- A decision to apply that is still fresh. -/
theorem authorised_of_decision {d : Decision} {last : Instant} (h : g.evaluateFor req instant false = .ok d)
    (hfresh : approvalsFresh req d last = true) : Authorised g req instant last := by
  unfold Gate.evaluateFor at h
  simp only [failIf_bind_ok] at h
  obtain ⟨-, hdistinct, -, h⟩ := h
  split at h
  · cases h
  · rename_i authority hauthority
    rw [bind_ok] at h
    obtain ⟨author, hauthor, h⟩ := h
    rw [bind_ok] at h
    obtain ⟨requester, hrequester, h⟩ := h
    rw [bind_ok] at h
    obtain ⟨ep, hep, h⟩ := h
    rw [failIf_bind_ok] at h
    obtain ⟨hplan, h⟩ := h
    have hlast : req.plan.InForce last := by
      rw [approvalsFresh, Bool.and_eq_true, Bool.not_eq_true'] at hfresh
      exact Plan.inForce_iff.mp hfresh.1
    have hdecided : req.plan.InForce instant := Plan.inForce_iff.mp (by simpa using hplan)
    refine ⟨hdistinct, ⟨hdecided, hlast⟩, authority, author, requester, ep, hauthority, resolve_ok hauthor, resolve_ok hrequester,
      environmentPolicy_ok hep, ?_⟩
    unfold decideFor at h
    split at h
    · rename_i o ho
      simp only [failIf_bind_ok] at h
      obtain ⟨hblank, hauth, -⟩ := h
      simp only [not_or, Bool.not_eq_true, not_not, Bool.not_eq_eq_eq_not] at hblank hauth
      exact .inl ⟨by simpa using hauth.2, o, ho, hauth.1, hblank.2⟩
    · rw [bind_ok] at h
      obtain ⟨e, he, hd⟩ := h
      cases hd
      exact .inr (enoughApprovals he hfresh)

/-- What a call may leave, from the world `w`.  Either the mutation was not called, or it was called once, right after the
authorisation had been recorded, for a request that may be applied; and a refusal is on the trail. -/
structure Guarded (g : Gate) (req : Request) (now : Nat → Instant) (w : World) (r : Outcome Error Unit × Sys World) : Prop where
  mutated : r.2.state.mutations = w.mutations ∨ ∃ e : Event, r.2.state.mutations = w.mutations ++ [w.events ++ [e]] ∧
    (e.type = applyAuthorized ∧ e.planDigest = req.plan.digest ∧ e.environment = req.plan.environment) ∧
    Authorised g req (now 0) (now 2)
  denied : (∃ x, r.1 = .error (.refused x)) ∨ r.1 = .error .expired → ∃ (es : List Event) (e : Event),
    r.2.state.events = w.events ++ es ∧ e ∈ es ∧
      e.type = applyDenied ∧ e.planDigest = req.plan.digest ∧ e.environment = req.plan.environment

section Run

variable {now : Nat → Instant} {w w' : World} {R : Nat → Reply} {d : Decision} {alive : Bool} {y : Sys World}

/-- An end that is no refusal, without a mutation. -/
theorem Guarded.of_other {r : Outcome Error Unit × Sys World} (hm : r.2.state.mutations = w.mutations)
    (hr : (∀ x, r.1 ≠ .error (.refused x)) ∧ r.1 ≠ .error .expired) : Guarded g req now w r := by
  refine ⟨.inl hm, ?_⟩
  rintro (⟨x, hx⟩ | hx)
  · exact absurd hx (hr.1 x)
  · exact absurd hx hr.2

/-- The mutation, once the authorisation is recorded. -/
theorem guarded_mutate {e : Event} (he : e.type = applyAuthorized ∧ e.planDigest = req.plan.digest ∧ e.environment = req.plan.environment)
    (ha : Authorised g req (now 0) (now 2)) : Guarded g req now w (mutate ⟨⟨w.events ++ [e], w.mutations⟩, R⟩) := by
  have hrun : mutate ⟨⟨w.events ++ [e], w.mutations⟩, R⟩ =
      ask Error.mutation ⟨⟨w.events ++ [e], w.mutations ++ [w.events ++ [e]]⟩, R⟩ := rfl
  obtain ⟨R', hr⟩ := ask_cases Error.mutation ⟨(⟨w.events ++ [e], w.mutations ++ [w.events ++ [e]]⟩ : World), R⟩
  rw [hrun]
  rcases hr with hr | hr | hr
  all_goals
    rw [hr]
    exact ⟨.inr ⟨e, rfl, he, ha⟩, by rintro (⟨x, hx⟩ | hx) <;> cases hx⟩

/-- An append to the trail: its faults are no refusals. -/
theorem guarded_append {e : Event} {f : Unit → Proc World Error Unit} (hm : y.state.mutations = w.mutations)
    (hok : ∀ R, Guarded g req now w (f () ⟨⟨y.state.events ++ [e], y.state.mutations⟩, R⟩)) :
    Guarded g req now w ((appendDurable e >>= f) y) := by
  have hfault : ∀ s : World, s = y.state ∨ some { y.state with events := y.state.events ++ [e] } = some s →
      s.mutations = w.mutations := by
    rintro s (rfl | h)
    · exact hm
    · rw [← Option.some.inj h]
      exact hm
  refine run_call_elim ?_ (fun s R hs => .of_other (hfault s hs) ⟨nofun, nofun⟩) fun s R hs => .of_other (hfault s hs) ⟨nofun, nofun⟩
  rintro s R ⟨⟩
  exact hok R

/-- After the decision to apply. -/
theorem guarded_applyDecided {d : Decision} (hd : g.evaluateFor req (now 0) false = .ok d) :
    Guarded g req now w (applyDecided req d now ⟨⟨w.events ++ [decisionEvent req (now 1) (.ok d)], w.mutations⟩, R⟩) := by
  refine run_ask_elim (fun R => ?_) (fun R => .of_other rfl ⟨nofun, nofun⟩) fun R => .of_other rfl ⟨nofun, nofun⟩
  split_ifs with hfresh
  · refine run_ask_elim (fun R => ?_) (fun R => .of_other rfl ⟨nofun, nofun⟩) fun R => .of_other rfl ⟨nofun, nofun⟩
    exact guarded_mutate ⟨rfl, rfl, rfl⟩ (authorised_of_decision hd hfresh)
  · -- the authorisation has expired
    refine guarded_append rfl fun R => ⟨.inl rfl, fun _ => ?_⟩
    exact ⟨_, _, append_assoc _ _ _, mem_append_right _ (mem_singleton_self _), rfl, rfl, rfl⟩

theorem guarded_applyRecorded (alive : Bool) : Guarded g req now w (g.applyRecorded req now alive ⟨w, R⟩) := by
  refine guarded_append rfl fun R => ?_
  cases hd : g.decision req (now 0) alive with
  | error r => exact ⟨.inl rfl, fun _ => ⟨_, _, rfl, mem_singleton_self _, rfl, rfl, rfl⟩⟩
  | ok d =>
    refine guarded_applyDecided ?_
    unfold Gate.decision at hd
    split_ifs at hd
    exact mapError_ok.mp hd

/-- **No mutation without authorisation.**  Whatever the gate, the request, the clock, the trail and the faults: the mutation is
called only for an authorised request, right after the authorisation has been recorded, and every refusal is recorded. -/
theorem guardedApply_guarded (g : Gate) (req : Request) (now : Nat → Instant) (mutation trail : Bool) (y : Sys World) :
    Guarded g req now y.state (g.guardedApply req now mutation trail y) := by
  unfold Gate.guardedApply
  split_ifs
  · exact .of_other rfl ⟨nofun, nofun⟩
  · refine run_ask_elim (fun R => ?_) (fun R => .of_other rfl ⟨nofun, nofun⟩) fun R => .of_other rfl ⟨nofun, nofun⟩
    refine run_attempt_elim (fun alive R => .of_other rfl ⟨nofun, nofun⟩) fun R => .of_other rfl ⟨nofun, nofun⟩
  · refine run_ask_elim (fun R => ?_) (fun R => .of_other rfl ⟨nofun, nofun⟩) fun R => .of_other rfl ⟨nofun, nofun⟩
    refine run_attempt_elim (fun alive R => guarded_applyRecorded alive) fun R => .of_other rfl ⟨nofun, nofun⟩

/-- One approval is asked for, and given until the instant 5. -/
def oneApproval : Gate × Request :=
  (⟨GoMap.empty.insert (str "prod") ⟨true, [⟨0, 1, [str "dba"]⟩]⟩,
      some ⟨fun name => some ⟨name, [], false⟩, fun _ a => some ⟨⟨a.approver, [str "dba"], false⟩, a.planDigest, a.environment, 1, 5⟩⟩, id⟩,
    ⟨⟨str "plan", str "prod", str "ann", 2, 0⟩, [⟨str "plan", str "prod", str "bob", 1, 5, []⟩], none, str "eve"⟩)

/-- The approval is in force at the last look at the clock, or it is not. -/
example : ((oneApproval.1.guardedApply oneApproval.2 (fun n => 2 + n) true true ⟨⟨[], []⟩, fun _ => .done⟩).2.state.mutations.map
      (·.map Event.type) = [[applyAuthorized]]) ∧
    (oneApproval.1.guardedApply oneApproval.2 (fun n => 3 + n) true true ⟨⟨[], []⟩, fun _ => .done⟩).2.state.mutations = [] ∧
    (oneApproval.1.guardedApply oneApproval.2 (fun n => 3 + n) true true ⟨⟨[], []⟩, fun _ => .done⟩).2.state.events.map
      Event.type = [applyAuthorized, applyDenied] := by
  decide +kernel

end Run

end AutoSql.Approvals
