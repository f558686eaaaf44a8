/-
AutoSql/Migrate/Steps.lean

The rules for the operations on a directory.

Every rule starts from one known state `w` and says in which state the operation
ends if it succeeds.  What has to be shown about the other ends is a premise: `E` of
each state in which a fault, or a refusal, can leave the directory.  A premise about
faults is guarded by `Faulty A`, so the same rules give the run without faults.
-/
import AutoSql.Migrate.Update

namespace AutoSql.Migrate

open GoString Proc Option GoMap

/-! ### Places -/

namespace Dir

variable {d : Dir} {p : Place} {g g' : GoString} {m m' : GoMap GoString}

@[simp] theorem files_setFiles : (d.setFiles p m).files p = m := by
  cases p with
  | root => rfl
  | generation g => simp [files, setFiles, generation]

@[simp] theorem setFiles_setFiles : (d.setFiles p m).setFiles p m' = d.setFiles p m' := by
  cases p with
  | root => rfl
  | generation g =>
    simp only [setFiles, getD_some, insert_insert]

theorem generation_setFiles : (d.setFiles (.generation g) m).generation g' = if g' = g then some m else d.generation g' := by
  simp only [setFiles, generation, bind_some, get?_insert]
  split_ifs
  · rfl
  · cases d.generations <;> rfl

/-- A place that is there: setting its files to what they are changes nothing. -/
def Open (d : Dir) (p : Place) : Prop := d.setFiles p (d.files p) = d

theorem open_root : d.Open .root := rfl

theorem open_setFiles : (d.setFiles p m).Open p := by
  rw [Open, files_setFiles, setFiles_setFiles]

theorem openGeneration_eq : d.openGeneration g = (d.generation g).elim (.error .notExist) .ok := by
  rw [openGeneration, generation]
  cases d.generations.bind (·.get? g) <;> rfl

theorem openGeneration_ok : d.openGeneration g = .ok m ↔ d.generation g = some m := by
  rw [openGeneration_eq]
  cases d.generation g <;> simp

end Dir

namespace World

variable {w : World} {p : Place} {name b c : GoString}

@[simp] theorem get?_put : (w.put p name b).get? p name = some b := by
  simp [get?, put, setFiles]

@[simp] theorem put_put : (w.put p name b).put p name c = w.put p name c := by
  simp only [put, setFiles, Dir.files_setFiles, Dir.setFiles_setFiles, insert_insert]

/-- Removing a file that was not there before. -/
theorem drop_put (hopen : w.dir.Open p) (hnew : w.get? p name = none) : (w.put p name b).drop p name = w := by
  simp only [put, drop, setFiles, Dir.files_setFiles, Dir.setFiles_setFiles]
  rw [erase_insert hnew, hopen]

/-- Writing what is there. -/
theorem put_of_get? (hopen : w.dir.Open p) (h : w.get? p name = some b) : w.put p name b = w := by
  rw [put, setFiles, insert_of_get? h, hopen]

end World

/-! ### Reading and looking -/

variable {A : Reply → Prop} {E : World → Prop} {w : World} {α β : Type} {Q : β → World → Prop}

/-- From a known state, looking is nothing. -/
theorem holds_look {f : World → Proc World DirError β} (h : Holds A (· = w) (f w) Q E) :
    Holds A (· = w) (look >>= f) Q E := by
  refine (Holds.look (Q := fun a s => a = w ∧ s = w) fun s hs => ⟨hs, hs⟩).bind fun a => ?_
  rintro y hA ⟨rfl, hy⟩
  exact h y hA hy

theorem holds_inspect {f : Dir → Except ReadError α} {k : α → Proc World DirError β}
    (hok : ∀ a, f w.dir = .ok a → Holds A (· = w) (k a) Q E) (herr : ∀ e, f w.dir = .error e → E w) :
    Holds A (· = w) (inspect f >>= k) Q E := by
  refine Holds.bind (Q := fun a s => f w.dir = .ok a ∧ s = w) ?_ fun a => Holds.of_pre (hok a)
  refine holds_look ?_
  cases hf : f w.dir with
  | ok a => exact .pure a fun s hs => ⟨rfl, hs⟩
  | error e => exact .fail fun s hs => hs ▸ herr e hf

/-- An inspection at the end of a program. -/
theorem holds_inspect_last {f : Dir → Except ReadError α} {Q : α → World → Prop}
    (hok : ∀ a, f w.dir = .ok a → Q a w) (herr : ∀ e, f w.dir = .error e → E w) : Holds A (· = w) (inspect f) Q E := by
  refine holds_look ?_
  cases hf : f w.dir with
  | ok a => exact .pure a fun s hs => hs ▸ hok a hf
  | error e => exact .fail fun s hs => hs ▸ herr e hf

/-- A sequence of two programs with a known state in between. -/
theorem holds_seq {q : Proc World DirError Unit} {w' : World} {f : Unit → Proc World DirError β}
    (hq : Holds A (· = w) q (fun _ => (· = w')) E) (hf : Holds A (· = w') (f ()) Q E) : Holds A (· = w) (q >>= f) Q E :=
  hq.seq hf

theorem holds_sync (h : Faulty A → E w) : Holds A (· = w) sync (fun _ => (· = w)) E :=
  .ask (fun _ hs => hs) fun hA _ hs => hs ▸ h hA

/-- A call that is never refused. -/
theorem holds_call {f : World → World} (h : Faulty A → E w ∧ E (f w)) :
    Holds A (· = w) (call (fun w => some (f w)) DirError.io) (fun _ => (· = f w)) E := by
  refine .call ?_ (fun _ _ h => nomatch h) ?_
  · rintro s rfl s' ⟨⟩
    rfl
  · rintro hA s rfl
    refine ⟨(h hA).1, ?_⟩
    rintro s' ⟨⟩
    exact (h hA).2

/-! ### Files -/

variable {p : Place} {name bytes : GoString}

theorem holds_writeAll (h : Faulty A → ∀ q, q <+: bytes → E (w.put p name q)) :
    Holds A (· = w.put p name []) (writeAll p name bytes) (fun _ => (· = w.put p name bytes)) E := by
  refine .forEach (fun done s => s = w.put p name done) fun done b rest hl => ?_
  have hnext : (w.put p name done).put p name (((w.put p name done).get? p name).getD [] ++ [b]) =
      w.put p name (done ++ [b]) := by
    rw [World.get?_put, getD_some, World.put_put]
  have hcall := holds_call (A := A) (E := E) (w := w.put p name done)
    (f := fun w => w.put p name ((w.get? p name).getD [] ++ [b])) ?_
  · rw [hnext] at hcall
    exact hcall
  · intro hA
    rw [hnext]
    refine ⟨h hA done ⟨_, hl.symm⟩, h hA _ ⟨rest, ?_⟩⟩
    rw [hl]
    simp

/-- Removing a file that is there. -/
theorem holds_unlink (hget : (w.get? p name).isSome) (h : Faulty A → E w ∧ E (w.drop p name)) :
    Holds A (· = w) (unlink p name) (fun found s => found = true ∧ s = w.drop p name) E := by
  refine holds_look ?_
  rw [if_pos hget]
  exact holds_seq (holds_call h) (.pure true fun s hs => ⟨rfl, hs⟩)

/-- Removing a file that need not be there. -/
theorem holds_unlink_any (h : Faulty A → E w ∧ E (w.drop p name)) (hmissing : w.get? p name = none → w.drop p name = w) :
    Holds A (· = w) (unlink p name) (fun _ s => s = w.drop p name) E := by
  cases hget : w.get? p name with
  | some b => exact (holds_unlink (by simp [hget]) h).post fun a s hs => hs.2
  | none =>
    refine holds_look ?_
    rw [if_neg (by simp [hget])]
    refine holds_seq (holds_sync fun hA => (h hA).1) (.pure false fun s hs => ?_)
    rw [hmissing hget]
    exact hs

section WriteNew

variable (hopen : w.dir.Open p) (h : Faulty A → E w ∧ (w.get? p name = none → ∀ q, q <+: bytes → E (w.put p name q)))
include hopen h

/-- A new file is written as a whole or, if an operation fails, removed again.  A
fault in the removal, or a stop, leaves a part of it. -/
theorem holds_writeNew : Holds A (· = w) (writeNew p name bytes)
      (fun isNew s => isNew = true ∧ w.get? p name = none ∧ s = w.put p name bytes ∨
        isNew = false ∧ (w.get? p name).isSome ∧ s = w) E := by
  have hcreate : Holds A (· = w) (create p name)
      (fun isNew s => isNew = true ∧ w.get? p name = none ∧ s = w.put p name [] ∨
        isNew = false ∧ (w.get? p name).isSome ∧ s = w) E := by
    refine holds_look ?_
    split_ifs with hget
    · refine holds_seq (holds_sync fun hA => (h hA).1) (.pure false fun s hs => .inr ⟨rfl, hget, hs⟩)
    · have hnone : w.get? p name = none := by simpa using hget
      refine holds_seq (holds_call fun hA => ⟨(h hA).1, (h hA).2 hnone [] (List.nil_prefix)⟩) (.pure true fun s hs => ?_)
      exact .inl ⟨rfl, hnone, hs⟩
  refine hcreate.bind fun isNew => ?_
  cases isNew with
  | false =>
    refine .pure false ?_
    rintro s (⟨hb, -⟩ | hs)
    · cases hb
    · exact .inr hs
  | true =>
    refine .of_state ?_
    rintro s (⟨-, hnone, rfl⟩ | ⟨hb, -⟩)
    · have hpart : Faulty A → ∀ q, q <+: bytes → E (w.put p name q) := fun hA => (h hA).2 hnone
      -- what a failed write leaves, before the file is removed
      have hbody : Holds A (· = w.put p name []) (do writeAll p name bytes; sync; sync)
          (fun _ => (· = w.put p name bytes)) (fun s => Faulty A ∧ ∃ q, q <+: bytes ∧ s = w.put p name q) := by
        have hfull : Faulty A → Faulty A ∧ ∃ q, q <+: bytes ∧ w.put p name bytes = w.put p name q :=
          fun hA => ⟨hA, bytes, List.prefix_rfl, rfl⟩
        refine holds_seq (holds_writeAll fun hA q hq => ⟨hA, q, hq, rfl⟩) ?_
        exact holds_seq (holds_sync hfull) (holds_sync hfull)
      refine Holds.seq (M := (· = w.put p name bytes)) (.onError hbody ?_ fun e => .of_state ?_)
        (.pure true fun s hs => .inl ⟨rfl, hnone, hs⟩)
      · rintro s ⟨hA, q, hq, rfl⟩
        exact hpart hA q hq
      · rintro s ⟨hA, q, hq, rfl⟩
        have hdrop : (w.put p name q).drop p name = w := World.drop_put hopen hnone
        have hremove : Holds A (· = w.put p name q) (do let _ ← unlink p name; pure ())
            (fun _ s => s = w.put p name q ∨ s = w) (fun s => s = w.put p name q ∨ s = w) := by
          refine (holds_unlink (by simp) fun _ => ?_).bind fun found => .pure () ?_
          · rw [hdrop]
            exact ⟨.inl rfl, .inr rfl⟩
          · rintro s ⟨-, rfl⟩
            exact .inr hdrop
        have hleft : ∀ s, s = w.put p name q ∨ s = w → E s := by
          rintro s (rfl | rfl)
          · exact hpart hA q hq
          · exact (h hA).1
        refine Holds.seq (M := fun s => s = w.put p name q ∨ s = w) ?_ (.fail hleft)
        exact .onError hremove hleft fun _ => .pure () fun s hs => hs
    · cases hb

theorem holds_writeAt (hexists : (w.get? p name).isSome → E w) :
    Holds A (· = w) (writeAt p name bytes) (fun _ s => w.get? p name = none ∧ s = w.put p name bytes) E := by
  refine (holds_writeNew hopen h).bind fun isNew => ?_
  cases isNew with
  | true =>
    refine .pure () ?_
    rintro s (hs | ⟨hb, -⟩)
    · exact hs.2
    · cases hb
  | false =>
    refine .fail ?_
    rintro s (⟨hb, -⟩ | ⟨-, hsome, rfl⟩)
    · cases hb
    · exact hexists hsome

/-- A file that is there already must be the same. -/
theorem holds_ensureFileAt (hstale : traverses name = true ∨ (∃ b, w.get? p name = some b ∧ b ≠ bytes) → E w) :
    Holds A (· = w) (ensureFileAt p name bytes)
      (fun _ s => (w.get? p name = none ∨ w.get? p name = some bytes) ∧ s = w.put p name bytes) E := by
  refine (holds_writeNew hopen h).bind fun isNew => ?_
  cases isNew with
  | true =>
    refine .pure () ?_
    rintro s (hs | ⟨hb, -⟩)
    · exact ⟨.inl hs.2.1, hs.2.2⟩
    · cases hb
  | false =>
    refine .of_state ?_
    rintro s (⟨hb, -⟩ | ⟨-, hsome, rfl⟩)
    · cases hb
    obtain ⟨b, hb⟩ := isSome_iff_exists.mp hsome
    have hget : (s.dir.files p).get? name = some b := hb
    rw [if_neg (by decide)]
    refine holds_inspect_last ?_ ?_
    · rintro ⟨⟩ hok
      obtain ⟨got, hgot, hok⟩ := Fallible.bind_ok.mp hok
      rw [Fallible.guard_ok, not_not] at hok
      obtain ⟨rfl, -⟩ := hok
      have hbytes : b = got := by
        rw [readAt, hget] at hgot
        simp only [Fallible.guard_ok] at hgot
        exact Except.ok.inj hgot.2.2
      refine ⟨.inr (hbytes ▸ hb), ?_⟩
      rw [World.put_of_get? hopen (hbytes ▸ hb)]
    · intro e herr
      refine hstale ?_
      by_cases htrav : traverses name = true
      · exact .inl htrav
      refine .inr ⟨b, hb, ?_⟩
      rintro rfl
      rw [readAt_ok (by simpa using htrav) hget le_rfl] at herr
      simp [Bind.bind, Except.bind] at herr

end WriteNew

theorem holds_rename {b : GoString} (hget : w.get? .root name = some b) (h : Faulty A → E w ∧ E (w.publish name b)) :
    Holds A (· = w) (rename name) (fun _ => (· = w.publish name b)) E := by
  refine .call ?_ ?_ ?_
  · rintro s rfl s' hs
    rw [hget] at hs
    exact (Option.some.inj hs).symm
  · rintro s rfl hs
    rw [hget] at hs
    cases hs
  · rintro hA s rfl
    refine ⟨(h hA).1, fun s' hs => ?_⟩
    rw [hget] at hs
    rw [← Option.some.inj hs]
    exact (h hA).2

/-! ### The last steps -/

/-- The state after some of the files have been removed. -/
def World.dropAll (w : World) (names : List GoString) : World := names.foldl (fun w name => w.drop .root name) w

theorem World.get?_drop {n : GoString} : (w.drop .root name).get? .root n = if n = name then none else w.get? .root n :=
  get?_erase

theorem World.get?_dropAll {names : List GoString} {n : GoString} :
    (w.dropAll names).get? .root n = if n ∈ names then none else w.get? .root n := by
  induction names generalizing w with
  | nil => simp [dropAll]
  | cons m names ih =>
    rw [dropAll, List.foldl_cons, ← dropAll, ih, get?_drop]
    by_cases h₁ : n ∈ names
    · simp [h₁]
    · by_cases h₂ : n = m <;> simp [h₁, h₂]

theorem World.dropAll_concat {names : List GoString} : w.dropAll (names ++ [name]) = (w.dropAll names).drop .root name := by
  rw [dropAll, List.foldl_append]
  rfl

/-- The files of the list go one after the other, then the journal. -/
theorem holds_finish {cleanup : List GoString} (hjournal : (w.get? .root journalFile).isSome)
    (hnot : journalFile ∉ cleanup) (h : Faulty A → (∀ done rest, cleanup = done ++ rest → E (w.dropAll done)) ∧
      E ((w.dropAll cleanup).drop .root journalFile)) :
    Holds A (· = w) (finish cleanup) (fun _ => (· = (w.dropAll cleanup).drop .root journalFile)) E := by
  have hloop : Holds A (· = w) (forEach (fun name => do let _ ← unlink .root name; pure ()) cleanup)
      (fun _ => (· = w.dropAll cleanup)) E := by
    refine .forEach (fun done s => s = w.dropAll done) fun done n rest hl => ?_
    refine (holds_unlink_any (fun hA => ?_) fun hnone => ?_).bind fun _ => .pure () fun s hs => ?_
    · rw [← World.dropAll_concat]
      exact ⟨(h hA).1 done _ hl, (h hA).1 (done ++ [n]) rest (by simp [hl])⟩
    · rw [World.drop, erase_of_get? hnone]
      rfl
    · rw [World.dropAll_concat]
      exact hs
  have hall : Faulty A → E (w.dropAll cleanup) := fun hA => (h hA).1 cleanup [] (by simp)
  have hthere : ((w.dropAll cleanup).get? .root journalFile).isSome := by
    rw [World.get?_dropAll, if_neg hnot]
    exact hjournal
  refine holds_seq hloop (holds_seq (holds_sync hall) ?_)
  refine (holds_unlink hthere fun hA => ⟨hall hA, (h hA).2⟩).bind fun found => .of_state ?_
  rintro s ⟨rfl, rfl⟩
  exact holds_sync fun hA => (h hA).2

end AutoSql.Migrate
