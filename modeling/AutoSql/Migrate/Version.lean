/-
AutoSql/Migrate/Version.lean

Versions of migrations: `ParseVersion`, `Version.String` and `Version.Compare`.

A version has one spelling, that of `Version.string`: parsing it gives the
version back (`parseVersion_string`), and everything parsed satisfies `Valid`
(`valid_of_parseVersion`).  `Version.compare` is a lexicographic comparison of
keys (`compare_eq`), hence transitive on all versions, and on valid ones it
tells different versions apart (`eq_of_compare_eq`) and is the precedence of
SemVer (`compare_lt`).
-/
import AutoSql.Lib.Decimal
import AutoSql.Lib.Fallible

namespace AutoSql.Migrate

open Decimal Fallible Std List
open GoString (decimal)

structure Version where
  major : Nat
  minor : Nat
  patch : Nat
  pre : GoString
  deriving DecidableEq, Inhabited

/-- Why `ParseVersion` refuses a text. -/
inductive VersionError
  | version
  | overflow
  | emptyIdentifier
  | leadingZero
  | numericOverflow
  deriving DecidableEq

/-! ### Parsing -/

def isAlnum (b : UInt8) : Bool :=
  isDigit b || (0x41 ≤ b && b ≤ 0x5A) || (0x61 ≤ b && b ≤ 0x7A)

/-- The class `[0-9A-Za-z.-]`. -/
def isPreByte (b : UInt8) : Bool := isAlnum b || b == 0x2E || b == 0x2D

/-- The expression `[0-9A-Za-z][0-9A-Za-z.-]*`. -/
def matchPre : GoString → Bool
  | [] => false
  | b :: s => isAlnum b && s.all isPreByte

/-- `versionRE`: the numbers in front of the first hyphen, and what follows it.
No number contains a hyphen, so the text is cut at the first one. -/
def matchVersion (s : GoString) : Option (List GoString × GoString) :=
  let parts := (s.takeWhile (· != 0x2D)).splitOn 0x2E
  if parts.length ≤ 3 ∧ parts.all Decimal.canonical then
    match s.dropWhile (· != 0x2D) with
    | [] => some (parts, [])
    | _ :: pre => if matchPre pre then some (parts, pre) else none
  else none

def parseNumber (x : GoString) : Except VersionError Nat :=
  match parseUint x with
  | none => .error .overflow
  | some n => .ok n

def checkIdentifier (id : GoString) : Except VersionError Unit :=
  if id = [] then .error .emptyIdentifier
  else if id.all isDigit then
    if id.length > 1 ∧ id.head? = some 0x30 then .error .leadingZero
    else if (parseUint id).isNone then .error .numericOverflow
    else .ok ()
  else .ok ()

def checkIdentifiers : List GoString → Except VersionError Unit
  | [] => .ok ()
  | id :: ids => do
    checkIdentifier id
    checkIdentifiers ids

def checkPre (pre : GoString) : Except VersionError Unit :=
  if pre = [] then .ok () else checkIdentifiers (pre.splitOn 0x2E)

def parseVersion (s : GoString) : Except VersionError Version :=
  match matchVersion s with
  | none => .error .version
  | some (parts, pre) => do
    let n ← parts.mapM parseNumber
    checkPre pre
    return ⟨n.getD 0 0, n.getD 1 0, n.getD 2 0, pre⟩

def Version.string (v : Version) : GoString :=
  decimal v.major ++ 0x2E :: (decimal v.minor ++ 0x2E :: decimal v.patch) ++ (if v.pre ≠ [] then 0x2D :: v.pre else [])

/-! ### Comparing -/

/-- The loop over the identifiers of two prereleases. -/
def compareIdentifiers : List GoString → List GoString → Ordering
  | [], [] => .eq
  | [], _ :: _ => .lt
  | _ :: _, [] => .gt
  | a :: va, b :: wa =>
    match parseUint a, parseUint b with
    | some m, some n =>
      if m < n then .lt else if n < m then .gt else compareIdentifiers va wa
    | some _, none => .lt
    | none, some _ => .gt
    | none, none =>
      match compare a b with
      | .eq => compareIdentifiers va wa
      | c => c

def Version.compare (v w : Version) : Ordering :=
  if v.major < w.major then .lt else if w.major < v.major then .gt
  else if v.minor < w.minor then .lt else if w.minor < v.minor then .gt
  else if v.patch < w.patch then .lt else if w.patch < v.patch then .gt
  else if v.pre = w.pre then .eq
  else if v.pre = [] then .gt
  else if w.pre = [] then .lt
  else compareIdentifiers (v.pre.splitOn 0x2E) (w.pre.splitOn 0x2E)

example : (parseVersion (str "1.2-rc.1")).toOption.map Version.string = some (str "1.2.0-rc.1") ∧
    (parseVersion (str "01")).isOk = false ∧ (parseVersion (str "1-a..b")).isOk = false := by decide

/-! ### The order -/

/-- Numbers come before texts. -/
def identifierKey (a : GoString) : Nat × Nat × GoString :=
  match parseUint a with
  | some n => (0, n, [])
  | none => (1, 0, a)

def compareIdentifier : GoString → GoString → Ordering :=
  compareLex (compareOn fun a => (identifierKey a).1)
    (compareLex (compareOn fun a => (identifierKey a).2.1) (compareOn fun a => (identifierKey a).2.2))

instance : TransCmp compareIdentifier :=
  inferInstanceAs (TransCmp (compareLex _ _))

theorem compareIdentifiers_eq (va wa : List GoString) :
    compareIdentifiers va wa = List.compareLex compareIdentifier va wa := by
  induction va generalizing wa with
  | nil => cases wa <;> rfl
  | cons a va ih =>
    cases wa with
    | nil => rfl
    | cons b wa =>
      rw [compareIdentifiers, List.compareLex_cons_cons, compareIdentifier, compareLex, compareLex,
        compareOn, compareOn, compareOn, identifierKey, identifierKey]
      rcases parseUint a with - | m <;> rcases parseUint b with - | n
      · show (match compare a b with | .eq => _ | c => c) = (compare a b).then _
        cases compare a b
        · rfl
        · exact ih wa
        · rfl
      · rfl
      · rfl
      · show (if m < n then Ordering.lt else if n < m then .gt else compareIdentifiers va wa)
            = ((compare m n).then .eq).then _
        rw [Nat.compare_eq_ite_lt]
        split_ifs
        · rfl
        · rfl
        · exact ih wa

/-- The comparison of prereleases that are not empty. -/
def comparePre (v w : Version) : Ordering :=
  List.compareLex compareIdentifier (v.pre.splitOn 0x2E) (w.pre.splitOn 0x2E)

instance : TransCmp comparePre where
  eq_swap := by
    intro v w
    rw [comparePre, comparePre]
    exact OrientedCmp.eq_swap
  isLE_trans := by
    intro u v w
    rw [comparePre, comparePre, comparePre]
    exact TransCmp.isLE_trans

/-- The comparison as a lexicographic one. -/
def compareKeys : Version → Version → Ordering :=
  compareLex (compareOn Version.major) (compareLex (compareOn Version.minor)
    (compareLex (compareOn Version.patch)
      (compareLex (compareOn fun v => if v.pre = [] then 1 else 0) comparePre)))

theorem compare_eq (v w : Version) : v.compare w = compareKeys v w := by
  rw [Version.compare, compareKeys, compareLex, compareLex, compareLex, compareLex, compareOn, compareOn,
    compareOn, compareOn, Nat.compare_eq_ite_lt, Nat.compare_eq_ite_lt, Nat.compare_eq_ite_lt]
  by_cases hp : v.pre = w.pre
  · have hc : comparePre v w = .eq := by
      rw [comparePre, hp]
      exact ReflCmp.compare_self
    rw [if_pos hp, hp, hc]
    split_ifs <;> rfl
  · rw [compareIdentifiers_eq]
    by_cases hv : v.pre = []
    · have hw : w.pre ≠ [] := fun hw => hp (hv.trans hw.symm)
      split_ifs <;> rfl
    · rw [if_neg hv]
      split_ifs <;> rfl

instance : TransCmp Version.compare := by
  have : Version.compare = compareKeys := by
    funext v w
    exact compare_eq v w
  rw [this]
  exact inferInstanceAs (TransCmp (compareLex _ _))

theorem Version.compare_self (v : Version) : v.compare v = .eq := ReflCmp.compare_self

theorem Version.compare_swap (v w : Version) : v.compare w = (w.compare v).swap :=
  OrientedCmp.eq_swap

/-! ### Parsed versions -/

/-- An identifier that `ParseVersion` accepts. -/
def ValidIdentifier (id : GoString) : Prop :=
  id ≠ [] ∧ (id.all isDigit = true → Decimal.canonical id = true ∧ (parseUint id).isSome = true)

theorem checkIdentifier_ok {id : GoString} : checkIdentifier id = .ok () ↔ ValidIdentifier id := by
  rw [checkIdentifier, guard_ok]
  refine and_congr_right fun hne => ?_
  split_ifs with hd hz hn
  · -- a leading zero and further digits
    refine iff_of_false (by simp) fun h => ?_
    have := (canonical_iff.mp (h hd).1).2.2 hz.2
    rw [this] at hz
    simp at hz
  · refine iff_of_false (by simp) fun h => ?_
    rw [Option.isNone_iff_eq_none.mp hn] at h
    exact absurd (h hd).2 (by simp)
  · refine iff_of_true rfl fun _ => ⟨canonical_iff.mpr ⟨hne, hd, fun h0 => ?_⟩, ?_⟩
    · rcases id with - | ⟨b, - | ⟨c, id⟩⟩
      · exact absurd rfl hne
      · simpa using h0
      · exact absurd ⟨by simp, h0⟩ hz
    · simpa [Option.isSome_iff_ne_none] using hn
  · exact iff_of_true rfl fun h => absurd h hd

theorem checkIdentifiers_ok {ids : List GoString} : checkIdentifiers ids = .ok () ↔ ∀ id ∈ ids, ValidIdentifier id := by
  induction ids with
  | nil => simp [checkIdentifiers]
  | cons id ids ih =>
    rw [checkIdentifiers, bind_ok, forall_mem_cons, ← ih, ← checkIdentifier_ok]
    exact ⟨fun ⟨(), h⟩ => h, fun h => ⟨(), h⟩⟩

/-- What `ParseVersion` returns. -/
structure Version.Valid (v : Version) : Prop where
  major_lt : v.major < 2 ^ 64
  minor_lt : v.minor < 2 ^ 64
  patch_lt : v.patch < 2 ^ 64
  pre_ok : v.pre ≠ [] → matchPre v.pre = true ∧ ∀ id ∈ v.pre.splitOn 0x2E, ValidIdentifier id

variable {s : GoString} {v : Version} {b : UInt8} {n : Nat}

theorem parseNumber_ok {x : GoString} : parseNumber x = .ok n ↔ parseUint x = some n := by
  rw [parseNumber]
  rcases parseUint x with - | m <;> simp

theorem matchVersion_eq_some {parts : List GoString} {pre : GoString} (h : matchVersion s = some (parts, pre)) :
    pre ≠ [] → matchPre pre = true := by
  rw [matchVersion] at h
  split_ifs at h with hp
  split at h
  · cases h
    exact absurd rfl
  · split_ifs at h with hm
    cases h
    exact fun _ => hm

theorem getD_lt_of_forall {l : List Nat} {b : Nat} (hb : 0 < b) (h : ∀ n ∈ l, n < b) (i : Nat) : l.getD i 0 < b := by
  rw [getD_eq_getElem?_getD]
  rcases hi : l[i]? with - | n
  · exact hb
  · exact h n (mem_of_getElem? hi)

theorem checkPre_ok {pre : GoString} :
    checkPre pre = .ok () ↔ (pre ≠ [] → ∀ id ∈ pre.splitOn 0x2E, ValidIdentifier id) := by
  rw [checkPre]
  split_ifs with h
  · exact iff_of_true rfl fun h' => absurd h h'
  · rw [checkIdentifiers_ok]
    exact ⟨fun hi _ => hi, fun hi => hi h⟩

theorem valid_of_parseVersion (h : parseVersion s = .ok v) : v.Valid := by
  rw [parseVersion] at h
  split at h
  · cases h
  · rename_i parts pre hm
    simp only [bind_ok] at h
    obtain ⟨ns, hns, ⟨⟩, hpre, h⟩ := h
    cases h
    have hlt : ∀ n ∈ ns, n < 2 ^ 64 := by
      intro n hn
      obtain ⟨x, -, hx⟩ := mapM_mem hns n hn
      exact (parseUint_eq_some (parseNumber_ok.mp hx)).2.2
    have hget := getD_lt_of_forall (Nat.two_pow_pos 64) hlt
    refine ⟨hget 0, hget 1, hget 2, fun hne => ⟨?_, checkPre_ok.mp hpre hne⟩⟩
    exact matchVersion_eq_some hm hne

theorem isDigit_of_all_canonical (h : ((b :: s).splitOn 0x2E).all Decimal.canonical = true) : isDigit b = true := by
  rw [splitOn_cons_eq_if_modifyHead] at h
  split_ifs at h with hb
  · cases h
  · obtain ⟨p, ps, hps⟩ := exists_cons_of_ne_nil (splitOn_ne_nil 0x2E s)
    rw [hps, modifyHead_cons, all_cons, Bool.and_eq_true] at h
    have := (canonical_iff.mp h.1).2.1
    rw [all_cons, Bool.and_eq_true] at this
    exact this.1

/-- A version starts with a digit. -/
theorem isDigit_of_parseVersion (h : parseVersion (b :: s) = .ok v) : isDigit b = true := by
  rw [parseVersion] at h
  split at h
  · cases h
  · rename_i parts pre hm
    rw [matchVersion] at hm
    split_ifs at hm with hp
    have hall := hp.2
    rw [takeWhile_cons] at hall
    split at hall
    · exact isDigit_of_all_canonical hall
    · cases hall

/-! #### The spelling of a version -/

theorem decimal_notMem (hb : isDigit b = false) : b ∉ decimal n := by
  intro h
  have := all_eq_true.mp (all_isDigit_decimal n) b h
  rw [hb] at this
  cases this

theorem splitOn_numbers (a b c : Nat) : (decimal a ++ 0x2E :: (decimal b ++ 0x2E :: decimal c)).splitOn 0x2E
      = [decimal a, decimal b, decimal c] := by
  have hdot : isDigit 0x2E = false := rfl
  rw [splitOn_append_cons_self_of_not_mem (decimal_notMem hdot),
    splitOn_append_cons_self_of_not_mem (decimal_notMem hdot),
    splitOn_eq_singleton (decimal_notMem hdot)]

theorem numbers_ne_hyphen (a b c : Nat) : ∀ x ∈ decimal a ++
    0x2E :: (decimal b ++ 0x2E :: decimal c), (x != 0x2D) = true := by
  have hdigit : ∀ n, ∀ x ∈ decimal n, x ≠ 0x2D := by
    rintro n x hx rfl
    exact decimal_notMem rfl hx
  intro x hx
  simp only [mem_append, mem_cons] at hx
  rw [bne_iff_ne]
  rcases hx with hx | rfl | hx | rfl | hx
  · exact hdigit a x hx
  · decide
  · exact hdigit b x hx
  · decide
  · exact hdigit c x hx

theorem matchVersion_string (h : v.Valid) : matchVersion v.string
    = some ([decimal v.major, decimal v.minor, decimal v.patch], v.pre) := by
  have hn := numbers_ne_hyphen v.major v.minor v.patch
  rw [matchVersion, Version.string]
  by_cases hp : v.pre = []
  · rw [if_neg (not_not.mpr hp), append_nil, takeWhile_eq_self_iff.mpr hn,
      dropWhile_eq_nil_iff.mpr hn, splitOn_numbers, if_pos]
    · rw [hp]
    · simp [canonical_decimal]
  · rw [if_pos hp, takeWhile_append_of_pos hn, dropWhile_append_of_pos hn,
      takeWhile_cons_of_neg (by decide), append_nil,
      splitOn_numbers, if_pos]
    · show (if matchPre v.pre = true then _ else _) = _
      rw [if_pos (h.pre_ok hp).1]
    · simp [canonical_decimal]

theorem parseNumber_decimal (h : n < 2 ^ 64) : parseNumber (decimal n) = .ok n := by
  rw [parseNumber_ok, parseUint, natOfDigits_decimal, Option.bind_some, if_pos h]

/-- Parsing the spelling of a version gives the version back. -/
theorem parseVersion_string (h : v.Valid) : parseVersion v.string = .ok v := by
  rw [parseVersion, matchVersion_string h]
  show (do
    let n ← [decimal v.major, decimal v.minor, decimal v.patch].mapM parseNumber
    checkPre v.pre
    return (⟨n.getD 0 0, n.getD 1 0, n.getD 2 0, v.pre⟩ : Version)) = _
  rw [checkPre_ok.mpr fun hp => (h.pre_ok hp).2]
  simp [parseNumber_decimal h.major_lt, parseNumber_decimal h.minor_lt, parseNumber_decimal h.patch_lt]
  rfl

/-! #### Versions that compare as equal -/

theorem eq_of_compareOn_eq {α β : Type} [Ord β] [LawfulEqOrd β] {f : α → β} {a b : α}
    (h : compareOn f a b = .eq) : f a = f b :=
  LawfulEqOrd.eq_of_compare h

theorem eq_of_compareIdentifier_eq {a b : GoString} (ha : ValidIdentifier a) (hb : ValidIdentifier b)
    (h : compareIdentifier a b = .eq) : a = b := by
  rw [compareIdentifier, compareLex_eq_eq, compareLex_eq_eq] at h
  obtain ⟨h₁, h₂, h₃⟩ := h
  have h₁ := eq_of_compareOn_eq h₁
  have h₂ := eq_of_compareOn_eq h₂
  have h₃ := eq_of_compareOn_eq h₃
  simp only [identifierKey] at h₁ h₂ h₃
  rcases ea : parseUint a with - | m <;> rcases eb : parseUint b with - | n <;>
    rw [ea, eb] at h₁ h₂ h₃
  · exact h₃
  · cases h₁
  · cases h₁
  · obtain rfl : m = n := h₂
    obtain ⟨hda, hna, -⟩ := parseUint_eq_some ea
    obtain ⟨hdb, hnb, -⟩ := parseUint_eq_some eb
    rw [← decimal_digitsValue (ha.2 hda).1, ← decimal_digitsValue (hb.2 hdb).1, hna, hnb]

theorem eq_of_compareLex_eq {va wa : List GoString} (hv : ∀ id ∈ va, ValidIdentifier id)
    (hw : ∀ id ∈ wa, ValidIdentifier id) (h : List.compareLex compareIdentifier va wa = .eq) : va = wa := by
  induction va generalizing wa with
  | nil =>
    cases wa with
    | nil => rfl
    | cons b wa => cases h
  | cons a va ih =>
    cases wa with
    | nil => cases h
    | cons b wa =>
      rw [List.compareLex_cons_cons, Ordering.then_eq_eq] at h
      rw [forall_mem_cons] at hv hw
      rw [eq_of_compareIdentifier_eq hv.1 hw.1 h.1, ih hv.2 hw.2 h.2]

theorem splitOn_inj {t : GoString} (h : s.splitOn b = t.splitOn b) : s = t := by
  have := congrArg (intercalate [b]) h
  rwa [intercalate_splitOn, intercalate_splitOn] at this

/-- On parsed versions `Compare` is zero only for equal ones. -/
theorem eq_of_compare_eq {w : Version} (hv : v.Valid) (hw : w.Valid) (h : v.compare w = .eq) : v = w := by
  rw [compare_eq, compareKeys] at h
  simp only [compareLex_eq_eq] at h
  obtain ⟨hmajor, hminor, hpatch, hempty, hpre⟩ := h
  have hmajor := eq_of_compareOn_eq hmajor
  have hminor := eq_of_compareOn_eq hminor
  have hpatch := eq_of_compareOn_eq hpatch
  have hempty := eq_of_compareOn_eq hempty
  have hp : v.pre = w.pre := by
    by_cases hv0 : v.pre = [] <;> by_cases hw0 : w.pre = []
    · rw [hv0, hw0]
    · simp [hv0, hw0] at hempty
    · simp [hv0, hw0] at hempty
    · exact splitOn_inj (eq_of_compareLex_eq (hv.pre_ok hv0).2 (hw.pre_ok hw0).2 hpre)
  cases v
  simp_all

/-! #### Precedence of SemVer -/

/-- Numbers by their value, texts by their bytes, and a number below a text. -/
def IdentifierBelow (a b : GoString) : Prop :=
  if a.all isDigit then b.all isDigit → digitsValue a < digitsValue b
  else ¬ b.all isDigit ∧ compare a b = .lt

def Version.Below (v w : Version) : Prop :=
  v.major < w.major ∨ v.major = w.major ∧ (v.minor < w.minor ∨ v.minor = w.minor ∧ (v.patch < w.patch ∨
    v.patch = w.patch ∧ v.pre ≠ [] ∧ (w.pre = [] ∨ Lex IdentifierBelow (v.pre.splitOn 0x2E) (w.pre.splitOn 0x2E))))

theorem ValidIdentifier.parseUint_eq {id : GoString} (h : ValidIdentifier id) :
    parseUint id = if id.all isDigit then some (digitsValue id) else none := by
  rcases hid : parseUint id with - | n
  · split_ifs with hd
    · exact absurd (h.2 hd).2 (by simp [hid])
    · rfl
  · obtain ⟨hd, hn, -⟩ := parseUint_eq_some hid
    rw [if_pos hd, hn]

theorem compareIdentifier_lt {a b : GoString} (ha : ValidIdentifier a) (hb : ValidIdentifier b) :
    compareIdentifier a b = .lt ↔ IdentifierBelow a b := by
  simp only [compareIdentifier, compareLex, Ordering.then_eq_lt, compareOn, identifierKey, ha.parseUint_eq,
    hb.parseUint_eq, IdentifierBelow]
  split_ifs with hda hdb hdb <;> simp [hdb, Nat.compare_eq_lt]

theorem compareLex_lt {va wa : List GoString} (hv : ∀ id ∈ va, ValidIdentifier id)
    (hw : ∀ id ∈ wa, ValidIdentifier id) :
    List.compareLex compareIdentifier va wa = .lt ↔ Lex IdentifierBelow va wa := by
  induction va generalizing wa with
  | nil => cases wa <;> simp [List.compareLex]
  | cons a va ih =>
    cases wa with
    | nil => simp [List.compareLex]
    | cons b wa =>
      rw [forall_mem_cons] at hv hw
      rw [List.compareLex_cons_cons, Ordering.then_eq_lt, compareIdentifier_lt hv.1 hw.1, ih hv.2 hw.2, cons_lex_cons_iff]
      refine or_congr_right (and_congr_left' ⟨eq_of_compareIdentifier_eq hv.1 hw.1, ?_⟩)
      rintro rfl
      exact ReflCmp.compare_self

theorem compare_lt {w : Version} (hv : v.Valid) (hw : w.Valid) : v.compare w = .lt ↔ v.Below w := by
  simp only [compare_eq, compareKeys, compareLex, Ordering.then_eq_lt, compareOn, Nat.compare_eq_lt, Nat.compare_eq_eq,
    Version.Below]
  by_cases hv0 : v.pre = [] <;> by_cases hw0 : w.pre = []
  · have hself : comparePre v w = .eq := by
      rw [comparePre, hv0, hw0]
      exact ReflCmp.compare_self
    simp [hv0, hw0, hself]
  · simp [hv0, hw0]
  · simp [hv0, hw0]
  · simp [hv0, hw0, comparePre, compareLex_lt (hv.pre_ok hv0).2 (hw.pre_ok hw0).2]

/-- A version that `ParseVersion` returns. -/
abbrev ParsedVersion := {v : Version // ∃ s, parseVersion s = .ok v}

theorem ParsedVersion.valid (v : ParsedVersion) : v.1.Valid := by
  obtain ⟨s, hs⟩ := v.2
  exact valid_of_parseVersion hs

end AutoSql.Migrate
