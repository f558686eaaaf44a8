/-
AutoSql/Down/History.lean

The histories of a target: applies and controlled downs, one after the other,
and what selection proposes after them.

A target is its revision records together with the versions that are in force.
Applying brings the candidates into force, and with a checkpoint the versions it
covers; a controlled down takes everything after its target out of force.  The
records are the only thing the tool sees.

The invariant of a plain history (`Prefix`) is that the entries in force are the
first `n` entries of the manifest.  `h` is the number of entries that were ever
in force; the last reversal went down from the entry before `h`, so the entries
from `n` to `h` are those that are applied again.
-/
import AutoSql.Apply.View
import AutoSql.Down.Build

namespace AutoSql.Down

open Migrate Artifacts Apply Executor Fallible Relation List

structure Target where
  records : List Revision
  inForce : List GoString

/-- The versions that a candidate brings into force. -/
def standsFor (m : Manifest) (c : Candidate) : List GoString :=
  c.entry.version :: if c.entry.kind = Migrate.checkpoint then
      (m.entries.filter fun e => versionInRange e.version c.entry.coveredFrom c.entry.coveredTo).map
        Migration.version
    else []

/-- The versions after `target`. -/
def after (m : Manifest) (target : GoString) : List GoString :=
  ((m.entries.dropWhile fun e => e.version ≠ target).drop 1).map Migration.version

/-- The keys of the records are different: the version is the primary key. -/
def KeysUnique (records : List Revision) : Prop := (records.map Revision.version).Nodup

instance (records : List Revision) : Decidable (KeysUnique records) :=
  inferInstanceAs (Decidable (List.Nodup _))

section Steps

variable (trust : Trust) (snap : Snapshot)

/-- A successful apply of the candidates of any request. -/
inductive ApplyStep : Target → Target → Prop
  | intro {t : Target} {r : Bounds} {cs : List Candidate} {operator : GoString} {n : Candidate → Nat} :
    selectTrusted trust snap t.records r = .ok cs →
    KeysUnique (t.records ++ cs.map fun c => record .apply snap.manifest operator (n c) c) →
    ApplyStep t
      ⟨t.records ++ cs.map fun c => record .apply snap.manifest operator (n c) c,
        t.inForce ++ cs.flatMap (standsFor snap.manifest)⟩

/-- A controlled down for a plan that `Build` accepts. -/
inductive DownStep : Target → Target → Prop
  | intro {t : Target} {compose : Request → List Original → Except DownError Body} {version : GoString}
      {executor : List Row} {identity : GoString} {p : DownPlan} {payload : Artifact}
      {operator stamp : GoString} {n : Nat} :
    build trust compose ⟨snap, t.records, version, executor, identity⟩ = .ok p →
    KeysUnique (t.records ++ [reversalRecord p payload operator stamp n]) →
    DownStep t
      ⟨t.records ++ [reversalRecord p payload operator stamp n],
        t.inForce.filter fun v => v ∉ after snap.manifest p.targetVersion⟩

/-- The steps of a history. -/
def Step (t t' : Target) : Prop := ApplyStep trust snap t t' ∨ DownStep trust snap t t'

/-- The last record is that of an applied entry. -/
def PlainHead (records : List Revision) : Prop :=
  ∀ x, records.getLast? = some x → x.kind ≠ .reversal ∧ x.kind ≠ .reapply

instance (records : List Revision) : Decidable (PlainHead records) :=
  decidable_of_iff (records.getLast?.all fun x => decide (x.kind ≠ .reversal ∧ x.kind ≠ .reapply)) (by
    simp only [PlainHead, Option.all_eq_true, decide_eq_true_eq])

/-- The steps of a history whose downs start from an applied entry. -/
def PlainStep (t t' : Target) : Prop :=
  ApplyStep trust snap t t' ∨ DownStep trust snap t t' ∧ PlainHead t.records

end Steps

/-- The first `n` entries of the manifest are in force, and the first `h` were. -/
structure Prefix (m : Manifest) (records : List Revision) (s : View) (n h : Nat) : Prop where
  scan : scanRecords (versionIndex m.entries) records = .ok s
  clean : ∀ x ∈ records, CleanRecord (versionIndex m.entries) x
  nonempty : records ≠ []
  first_lt : firstIndex m < n
  le_high : n ≤ h
  recorded : ∀ (i : Nat) (e : Migration), m.entries[i]? = some e → firstIndex m ≤ i → i < n → Recorded s e
  pending : ∀ (i : Nat) (e : Migration), m.entries[i]? = some e → n ≤ i → s.inForce.get? e.version = none
  covered : ∀ (i : Nat) (e : Migration), m.entries[i]? = some e →
    (GoSet.has s.covered e.version = true ↔ i < firstIndex m)
  keys : ∀ x ∈ records, IsKey x.version ∨
    ∃ (i : Nat) (e : Migration), firstIndex m ≤ i ∧ m.entries[i]? = some e ∧ x.version = e.version
  start : ∀ x ∈ records, x.kind ≠ .reversal → x.state = .applied → ∀ (e : Migration),
    m.entries[firstIndex m]? = some e → e.kind = Migrate.checkpoint → logicalVersion x ≠ e.version
  reversal : ∀ head, s.reversalHead = some head → s.activeReversal ≠ [] ∧ head < h
  again : n < h → s.reversalHead = some (h - 1)
  head : ∀ x, records.getLast? = some x → x.kind ≠ .reversal → x.kind ≠ .reapply →
    n = h ∧ ∃ e, m.entries[h - 1]? = some e ∧ x.version = e.version

section Selection

variable {m : Manifest} (hm : m.WellFormed) {records : List Revision} {s : View} {n h : Nat}

include hm

theorem Prefix.insideRange_first (hp : Prefix m records s n h) {c : Migration}
    (hc : m.entries[firstIndex m]? = some c) (hk : c.kind = Migrate.checkpoint) : insideRange records c = false := by
  rw [insideRange, any_eq_false]
  intro x hx
  rcases hp.keys x hx with ⟨b, t, heq, hb⟩ | ⟨i, e, hi, he, heq⟩
  · simp [heq, versionInRange_key hb]
  · simp [heq, not_inRange_of_le hm hc hk he hi]

/-- Selection passes over the entries that the first one stands for. -/
theorem Prefix.skips_eq (hp : Prefix m records s n h) {i : Nat} {e : Migration}
    (he : m.entries[i]? = some e) : skips s records none e i = decide (i < firstIndex m) := by
  have hinside : firstIndex m ≤ i → (e.kind == Migrate.checkpoint && insideRange records e) = false := by
    intro hi
    rcases Nat.eq_or_lt_of_le hi with rfl | hi
    · by_cases hk : e.kind = Migrate.checkpoint
      · rw [hp.insideRange_first hm he hk, Bool.and_false]
      · simp [hk]
    · simp [kind_of_firstIndex_lt he hi]
  rw [skips]
  by_cases hi : i < firstIndex m
  · rw [(hp.covered i e he).mpr hi]
    simp [hi]
  · have hcov : GoSet.has s.covered e.version = false := by
      rw [← Bool.not_eq_true, hp.covered i e he]
      exact hi
    rw [hcov, hinside (Nat.not_lt.mp hi)]
    simp [hi]

theorem Prefix.remaining_eq (hp : Prefix m records s n h) :
    remaining s records (freshCheckpoint records m.entries) 0 m.entries = m.entries.drop (firstIndex m) := by
  apply remaining_eq_drop
  intro i e he
  rw [freshCheckpoint, if_neg hp.nonempty]
  exact hp.skips_eq hm he

end Selection

/-! ### Applying -/

/-- The candidate of the entry at index `i`: below `h` it is applied again. -/
structure Shaped (m : Manifest) (h i : Nat) (c : Candidate) : Prop where
  entry : m.entries[i]? = some c.entry
  again : i < h → IsKey c.recordVersion ∧ c.reversalOf ≠ []
  plain : h ≤ i → c.recordVersion = []

section Candidates

variable {trust : Trust} {snap : Snapshot} (hm : snap.manifest.WellFormed) {records : List Revision}
  {s : View} {n h : Nat} {A P Q : List Migration} {out : List Candidate}

include hm

/-- The entries from `n` to `h` are applied again, those from `h` on for the first time. -/
theorem Prefix.shaped (hp : Prefix snap.manifest records s n h) {i : Nat} {e : Migration} {c : Candidate}
    (he : snap.manifest.entries[i]? = some e) (hn : n ≤ i) (hc : Admitted trust snap s e c) :
    Shaped snap.manifest h i c := by
  obtain ⟨-, p, -, rfl⟩ := hc
  refine ⟨by rw [candidate_entry, he], fun hlt => ?_, fun hge => ?_⟩
  · have hhead := hp.again (by omega)
    have hactive := (hp.reversal _ hhead).1
    rw [candidate_again hhead hactive (by rw [index_version hm he]; exact Nat.le_sub_one_of_lt hlt)]
    exact ⟨⟨0x7A, _, rfl, rfl⟩, hactive⟩
  · apply candidate_plain
    intro head hhead
    have := (hp.reversal _ hhead).2
    rw [index_version hm he, Option.getD_some]
    omega

/-- The candidates of any request are those of the next entries. -/
theorem Prefix.shaped_all (hp : Prefix snap.manifest records s n h) (hsel : Selects trust snap records s A P Q out) :
    ∀ (j : Nat) (c : Candidate), out[j]? = some c → Shaped snap.manifest h (n + j) c := by
  have hdrop : snap.manifest.entries.drop (firstIndex snap.manifest) = A ++ P ++ Q := by
    rw [← hp.remaining_eq hm, hsel.split]
  have hget : ∀ j, (A ++ P ++ Q)[j]? = snap.manifest.entries[firstIndex snap.manifest + j]? := by
    intro j
    rw [← hdrop, getElem?_drop]
  intro j c hc
  obtain ⟨e, he, hadm⟩ := forall₂_getElem? hsel.pending hc
  have hfirst := hp.first_lt
  -- the entries in front of the candidates are recorded, so they lie below `n`
  have hle : firstIndex snap.manifest + A.length ≤ n := by
    by_contra hlt
    have hlast : A.length - 1 < A.length := by omega
    have hentry : snap.manifest.entries[firstIndex snap.manifest + (A.length - 1)]? = some A[A.length - 1] := by
      rw [← hget, append_assoc, getElem?_append_left hlast, getElem?_eq_getElem hlast]
    obtain ⟨x, hx, -⟩ := hsel.recorded _ (getElem_mem hlast)
    rw [hp.pending _ _ hentry (by omega)] at hx
    cases hx
  -- and the first candidate is not recorded
  have hge : n ≤ firstIndex snap.manifest + A.length := by
    by_contra hlt
    have hP : 0 < P.length := Nat.lt_of_le_of_lt (Nat.zero_le j) (List.getElem?_eq_some_iff.mp he).1
    obtain ⟨hnone, -⟩ := hsel.pending.get hP (by rw [← hsel.pending.length_eq]; exact hP)
    have hentry : snap.manifest.entries[firstIndex snap.manifest + A.length]? = some P[0] := by
      rw [← hget, append_assoc, getElem?_append_right (Nat.le_refl _), Nat.sub_self,
        getElem?_append_left hP, getElem?_eq_getElem hP]
    obtain ⟨x, hx, -⟩ := hp.recorded _ _ hentry (by omega) (by omega)
    rw [get_eq_getElem, hx] at hnone
    cases hnone
  have hn : n + j = firstIndex snap.manifest + (A.length + j) := by omega
  refine hp.shaped hm ?_ (Nat.le_add_right n j) hadm
  rw [hn, ← hget, append_assoc, getElem?_append_right (Nat.le_add_right _ _), Nat.add_sub_cancel_left,
    getElem?_append_left (List.getElem?_eq_some_iff.mp he).1, he]

end Candidates

section Apply

variable {m : Manifest} (hm : m.WellFormed) {records : List Revision} {s : View} {n h : Nat}
  (operator : GoString)

include hm

/-- A record of the next entry extends the prefix. -/
theorem Prefix.extend (hp : Prefix m records s n h) {e : Migration} (he : m.entries[n]? = some e)
    {x : Revision} {s' : View} (hscan : scanRecord (versionIndex m.entries) s x = .ok s')
    (hforce : s'.inForce = s.inForce.insert e.version x) (hcov : s'.covered = s.covered)
    (hactive : s'.activeReversal = s.activeReversal) (hhead : s'.reversalHead = s.reversalHead)
    (hdrift : drifted x e = false) (hclean : CleanRecord (versionIndex m.entries) x)
    (hkey : IsKey x.version ∨ x.version = e.version) (hlogical : logicalVersion x = e.version)
    (hplain : x.kind ≠ .reversal → x.kind ≠ .reapply → n = h ∧ x.version = e.version) :
    Prefix m (records ++ [x]) s' (n + 1) (max h (n + 1)) where
  scan := by
    rw [scanRecords_snoc, hp.scan]
    exact hscan
  clean := forall_mem_append.mpr ⟨hp.clean, forall_mem_singleton.mpr hclean⟩
  nonempty := by simp
  first_lt := Nat.lt_succ_of_lt hp.first_lt
  le_high := Nat.le_max_right h (n + 1)
  recorded := by
    intro i d hd hi hin
    rcases Nat.eq_or_lt_of_le (Nat.le_of_lt_succ hin) with rfl | hin
    · cases hd.symm.trans he
      exact ⟨x, by rw [hforce, GoMap.get?_insert_self], hdrift⟩
    · obtain ⟨y, hy, hyd⟩ := hp.recorded i d hd hi hin
      have hne : d.version ≠ e.version := fun heq => Nat.ne_of_lt hin (index_inj hm hd he heq)
      exact ⟨y, by rw [hforce, GoMap.get?_insert_ne hne, hy], hyd⟩
  pending := by
    intro i d hd hi
    have hne : d.version ≠ e.version := by
      intro heq
      have := index_inj hm hd he heq
      omega
    rw [hforce, GoMap.get?_insert_ne hne]
    exact hp.pending i d hd (by omega)
  covered := by
    rw [hcov]
    exact hp.covered
  keys := by
    refine forall_mem_append.mpr ⟨hp.keys, forall_mem_singleton.mpr (hkey.imp id fun heq => ?_)⟩
    exact ⟨n, e, Nat.le_of_lt hp.first_lt, he, heq⟩
  start := by
    refine forall_mem_append.mpr ⟨hp.start, forall_mem_singleton.mpr fun hr hs d hd hk heq => ?_⟩
    rw [hlogical] at heq
    exact Nat.ne_of_gt hp.first_lt (index_inj hm he hd heq)
  reversal := by
    intro head hh
    rw [hhead] at hh
    obtain ⟨ha, hlt⟩ := hp.reversal head hh
    exact ⟨hactive ▸ ha, by omega⟩
  again := by
    intro hlt
    rw [hhead, hp.again (by omega), show max h (n + 1) = h by omega]
  head := by
    intro y hy h₁ h₂
    rw [getLast?_append, getLast?_singleton] at hy
    cases hy
    obtain ⟨rfl, hv⟩ := hplain h₁ h₂
    exact ⟨by omega, e, by rw [show max n (n + 1) - 1 = n by omega]; exact he, hv⟩

/-- Recording the candidate of the next entry. -/
theorem Prefix.apply_one (k : Nat) (hp : Prefix m records s n h) {c : Candidate} (hc : Shaped m h n c) :
    ∃ s', Prefix m (records ++ [record .apply m operator k c]) s' (n + 1) (max h (n + 1)) := by
  have hkind : c.entry.kind ≠ Migrate.checkpoint := kind_of_firstIndex_lt hc.entry hp.first_lt
  have hindex := index_version hm hc.entry
  have hstate : (record .apply m operator k c).state = .applied := by simp [RunMode.finalState, hkind]
  have hfinal : (record .apply m operator k c).state ≠ .failed ∧
      (record .apply m operator k c).state ≠ .partially ∧ (record .apply m operator k c).state ≠ .pending := by
    rw [hstate]
    decide
  rcases Nat.lt_or_ge n h with hlt | hge
  · -- the entry is applied again
    obtain ⟨⟨b, t, hv, hb⟩, hof⟩ := hc.again hlt
    have hne : c.recordVersion ≠ [] := by simp [hv]
    have hk : (record .apply m operator k c).kind = .reapply := by rw [record_kind, if_pos hne]
    have hkey : IsKey (record .apply m operator k c).version := by
      rw [record_version, if_pos hne]
      exact ⟨b, t, hv, hb⟩
    obtain ⟨s', hscan, hforce, hcov, hactive, hhead⟩ :=
      scanRecord_reapply s hk (by rw [record_toVersion, hindex]; rfl) hstate hof
    exact ⟨s', hp.extend hm hc.entry hscan hforce hcov hactive hhead drifted_record
      ⟨Or.inr (Or.inr hk), hfinal⟩ (Or.inl hkey) (if_pos hk) (fun _ h => absurd hk h)⟩
  · have hrec : c.recordVersion = [] := hc.plain hge
    have hk : (record .apply m operator k c).kind = .migration := by
      rw [record_kind, if_neg (by simp [hrec]), RunMode.kind, if_neg hkind]
    have hv : (record .apply m operator k c).version = c.entry.version := by
      rw [record_version, if_neg (by simp [hrec])]
    have hnone := hp.pending n c.entry hc.entry (Nat.le_refl n)
    have hscan := scanRecord_insert (x := record .apply m operator k c) (versionIndex m.entries)
      (by simp [hk]) (by simp [hk]) (by rw [hv]; exact hnone)
    have hcov : supersededBy (record .apply m operator k c) = [] := by simp [supersededBy, hk]
    rw [hcov, hv] at hscan
    refine ⟨_, hp.extend hm hc.entry hscan rfl rfl rfl rfl drifted_record ⟨Or.inl ?_, hfinal⟩
      (Or.inr hv) ?_ (fun _ _ => ⟨Nat.le_antisymm hp.le_high hge, hv⟩)⟩
    · rw [hv, GoMap.contains, hindex]
      rfl
    · rw [logicalVersion, hk, if_neg (by decide), hv]

/-- Recording the candidates of the next entries. -/
theorem Prefix.apply_all (k : Candidate → Nat) {cs : List Candidate} (hp : Prefix m records s n h)
    (hcs : ∀ (j : Nat) (c : Candidate), cs[j]? = some c → Shaped m h (n + j) c) :
    ∃ s', Prefix m (records ++ cs.map fun c => record .apply m operator (k c) c) s' (n + cs.length)
      (max h (n + cs.length)) := by
  induction cs generalizing records s n h with
  | nil =>
    have hmax : max h n = h := Nat.max_eq_left hp.le_high
    exact ⟨s, by simpa [hmax] using hp⟩
  | cons c cs ih =>
    obtain ⟨s', hp'⟩ := hp.apply_one hm operator (k c) (hcs 0 c rfl)
    have hshape : ∀ (j : Nat) (d : Candidate), cs[j]? = some d → Shaped m (max h (n + 1)) (n + 1 + j) d := by
      intro j d hd
      have hsh := hcs (j + 1) d hd
      rw [show n + (j + 1) = n + 1 + j by omega] at hsh
      exact ⟨hsh.entry, fun hlt => hsh.again (by omega), fun hge => hsh.plain (by omega)⟩
    obtain ⟨s'', hp''⟩ := ih hp' hshape
    refine ⟨s'', ?_⟩
    rw [map_cons, append_cons, length_cons, show n + (cs.length + 1) = n + 1 + cs.length by omega]
    rwa [show max h (n + 1 + cs.length) = max (max h (n + 1)) (n + 1 + cs.length) by omega]

end Apply

end AutoSql.Down
