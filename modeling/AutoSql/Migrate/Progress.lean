/-
AutoSql/Migrate/Progress.lean

How far an update gets.

An update that writes to the directory goes through the states `Before` (the
generation and the staged manifest are being written, the journal is not
complete), `Request.staged` (the journal is complete), `Request.renamed` (the
manifest is published, some of the files to remove are gone) and
`Request.finished`.  `holds_publishing` says that it can be left in no other
state, and that it reaches the last one if there are no faults and nothing in the
directory is in the way (`Clear`).
-/
import AutoSql.Migrate.Steps

namespace AutoSql.Migrate

open GoString Proc List Option GoMap

/-! ### The generation -/

/-- The files of a request, with their names. -/
def parts (files : List File) : List (GoString × GoString) := files.flatMap File.parts

def insertAll (m : GoMap GoString) (l : List (GoString × GoString)) : GoMap GoString :=
  l.foldl (fun m p => m.insert p.1 p.2) m

/-- What is in the way of nothing: every file that is there is one of `files`. -/
def Fits (m : GoMap GoString) (files : List File) : Prop := ∀ n b, m.get? n = some b → (n, b) ∈ parts files

/-- Only files that were not there have been added. -/
def Grown (m₀ : GoMap GoString) (files : List File) (m : GoMap GoString) : Prop :=
  ∀ n, m.get? n = m₀.get? n ∨ n ∈ (parts files).map Prod.fst ∧ m₀.get? n = none

variable {isArtifact : GoString → Bool} {A : Reply → Prop} {E : World → Prop} {w : World}

section Store

variable {files : List File} {man : Manifest} (b : Built isArtifact files man) {g : GoString} {l rest : List (GoString × GoString)} {m : GoMap GoString}
  {m₀ : GoMap GoString}

include b in
theorem Built.part_ok {n c : GoString} (h : (n, c) ∈ parts files) : traverses n = false ∧ c.length ≤ maxFile := by
  obtain ⟨f, hf, hmem⟩ := mem_flatMap.mp h
  obtain ⟨r, e, ho⟩ := b.origin_of_file hf
  have htext : ∀ {t : GoString}, textOk t = true → t.length ≤ maxFile := by
    intro t ht
    simp only [textOk, Bool.and_eq_true, decide_eq_true_eq] at ht
    exact ht.1.1
  obtain ⟨hname, hmatch, htrav⟩ := ho.named
  rw [hname] at hmatch htrav
  rw [File.parts, mem_cons] at hmem
  rcases hmem with heq | hmem
  · cases heq
    exact ⟨htrav, htext ho.1.text_ok⟩
  · split_ifs at hmem with hn
    · cases mem_singleton.mp hmem
      obtain ⟨-, hart, htxt, -⟩ := ho.artifact.2.2 hn
      exact ⟨hart ▸ traverses_artifact hmatch htrav, htext htxt⟩
    · cases hmem

theorem get?_insertAll {l : List (GoString × GoString)} {n : GoString} :
    (insertAll m₀ l).get? n = ((GoMap.ofList l).get? n).or (m₀.get? n) := by
  rw [insertAll, get?_foldl_insert, get?_ofList]

theorem insertAll_concat {l : List (GoString × GoString)} {n c : GoString} :
    insertAll m₀ (l ++ [(n, c)]) = (insertAll m₀ l).insert n c := by
  rw [insertAll, foldl_append]
  rfl

/-- The files of `l` are new or the same. -/
def Agrees (m₀ : GoMap GoString) (l : List (GoString × GoString)) : Prop :=
  ∀ p ∈ l, m₀.get? p.1 = none ∨ m₀.get? p.1 = some p.2

theorem Agrees.grown (h : Agrees m₀ l) (hl : parts files = l ++ rest) : Grown m₀ files (insertAll m₀ l) := by
  intro n
  rw [get?_insertAll]
  cases hn : (GoMap.ofList l).get? n with
  | none => exact .inl rfl
  | some c =>
    have hmem : (n, c) ∈ l := by
      rw [get?_ofList] at hn
      exact mem_reverse.mp (mem_of_lookup hn)
    rcases h _ hmem with h₀ | h₀
    · refine .inr ⟨?_, h₀⟩
      rw [hl]
      exact mem_map_of_mem (mem_append_left _ hmem)
    · exact .inl h₀.symm

/-- A file that is being written. -/
theorem Grown.insert {n c q : GoString} (h : Grown m₀ files m) (hn : (n, c) ∈ parts files)
    (hnew : m.get? n = none) : Grown m₀ files (m.insert n q) := by
  intro k
  rw [get?_insert]
  split_ifs with hk
  · subst hk
    refine .inr ⟨mem_map_of_mem hn, ?_⟩
    rcases h k with hk | hk
    · exact hk ▸ hnew
    · exact hk.2
  · exact h k

include b in
/-- In a generation that holds other files, something does not fit. -/
theorem Built.not_fits {n c c' : GoString}
    (hl : parts files = l ++ (n, c) :: rest) (hget : (insertAll m₀ l).get? n = some c') (hne : c' ≠ c) :
    m₀.get? n = some c' ∧ ¬ Fits m₀ files := by
  have hnodup := b.nodup_parts
  rw [← parts, hl, map_append, nodup_append] at hnodup
  have hnot : n ∉ l.map Prod.fst := fun h => hnodup.2.2 n h n (by simp) rfl
  have hold : m₀.get? n = some c' := by
    rw [get?_insertAll] at hget
    rwa [get?_ofList_eq_none.mpr hnot] at hget
  refine ⟨hold, fun hfits => hne ?_⟩
  have h₁ := hfits n c' hold
  have h₂ : (n, c) ∈ parts files := hl ▸ mem_append_right _ mem_cons_self
  have := inj_on_of_nodup_map b.nodup_parts h₁ h₂ rfl
  exact congrArg Prod.snd this

include b in
/-- The complete generation. -/
theorem Built.grown_stored (h : Fits m₀ files) : Grown m₀ files (stored files) := by
  intro n
  cases h₀ : m₀.get? n with
  | some c =>
    refine .inl ?_
    rw [stored, get?_ofList_of_nodup b.nodup_parts]
    exact h n c h₀
  | none =>
    cases hn : (stored files).get? n with
    | none => exact .inl rfl
    | some c =>
      rw [stored, get?_ofList_of_nodup b.nodup_parts] at hn
      exact .inr ⟨mem_map_of_mem hn, rfl⟩

/-- The world with other files in the generation. -/
def World.fill (w : World) (g : GoString) (m : GoMap GoString) : World := w.setFiles (.generation g) m

@[simp] theorem World.files_fill : (w.fill g m).dir.files (.generation g) = m := by
  show (w.dir.setFiles (.generation g) m).files (.generation g) = m
  exact Dir.files_setFiles

theorem World.open_fill : (w.fill g m).dir.Open (.generation g) := by
  show (w.dir.setFiles (.generation g) m).Open (.generation g)
  exact Dir.open_setFiles

include b in
theorem holds_storeFile {n c guidance : GoString} (hl : parts files = l ++ (n, c) :: rest) (hagree : Agrees m₀ l)
    (hE : Faulty A ∨ ¬ Fits m₀ files → ∀ m, Grown m₀ files m → E (w.fill g m)) :
    Holds A (· = w.fill g (insertAll m₀ l)) (storeFile g guidance n c)
      (fun _ s => Agrees m₀ (l ++ [(n, c)]) ∧ s = w.fill g (insertAll m₀ (l ++ [(n, c)]))) E := by
  have hmem : (n, c) ∈ parts files := hl ▸ mem_append_right _ mem_cons_self
  obtain ⟨htrav, hlen⟩ := b.part_ok hmem
  have hgrown := hagree.grown hl
  have hsnoc : m₀.get? n = none ∨ m₀.get? n = some c → Agrees m₀ (l ++ [(n, c)]) := by
    exact fun h => forall_mem_append.mpr ⟨hagree, forall_mem_singleton.mpr h⟩
  refine holds_look ?_
  rw [World.files_fill, readAt_eq htrav]
  cases hget : (insertAll m₀ l).get? n with
  | none =>
    have hnew : (w.fill g (insertAll m₀ l)).get? (.generation g) n = none := by
      rw [World.get?, World.files_fill]
      exact hget
    have hput : ∀ q, (w.fill g (insertAll m₀ l)).put (.generation g) n q = w.fill g ((insertAll m₀ l).insert n q) := by
      intro q
      rw [World.put, World.files_fill]
      simp only [World.fill, World.setFiles, Dir.setFiles_setFiles]
    have hold : m₀.get? n = none := (hgrown n).elim (fun h => h ▸ hget) And.right
    refine (holds_writeAt World.open_fill (fun hA => ⟨hE (.inl hA) _ hgrown, fun _ q _ => ?_⟩) fun hsome => ?_).post ?_
    · rw [hput]
      exact hE (.inl hA) _ (hgrown.insert hmem hget)
    · rw [hnew] at hsome
      cases hsome
    · rintro - s ⟨-, rfl⟩
      rw [hput, insertAll_concat]
      exact ⟨hsnoc (.inl hold), rfl⟩
  | some c' =>
    dsimp only
    split_ifs with hlong
    · refine .fail fun s hs => hs ▸ hE (.inr ?_) _ hgrown
      refine (b.not_fits hl hget ?_).2
      rintro rfl
      omega
    · by_cases hne : c' = c
      · subst hne
        dsimp only
        rw [if_neg (by simp)]
        have hsame : insertAll m₀ (l ++ [(n, c')]) = insertAll m₀ l := by
          rw [insertAll_concat, insert_of_get? hget]
        refine .pure () fun s hs => ⟨hsnoc ?_, hsame ▸ hs⟩
        rcases hgrown n with h | h
        · exact .inr (h ▸ hget)
        · exact .inl h.2
      · dsimp only
        rw [if_pos hne]
        exact .fail fun s hs => hs ▸ hE (.inr (b.not_fits hl hget hne).2) _ hgrown

include b in
theorem holds_storeFiles (hE : Faulty A ∨ ¬ Fits m₀ files → ∀ m, Grown m₀ files m → E (w.fill g m)) :
    Holds A (· = w.fill g m₀) (forEach (storeParts g) files)
      (fun _ s => Agrees m₀ (parts files) ∧ s = w.fill g (insertAll m₀ (parts files))) E := by
  have hinit : Agrees m₀ (parts []) := fun p hp => nomatch hp
  refine (Holds.forEach (fun done s => Agrees m₀ (parts done) ∧ s = w.fill g (insertAll m₀ (parts done)))
    fun done f rest hl => Holds.of_pre fun hagree => ?_).pre fun s hs => ⟨hinit, hs⟩
  have hparts : ∀ l, parts (done ++ l) = parts done ++ parts l := fun l => flatMap_append
  have hone : parts (done ++ [f]) = parts done ++ f.parts := by
    rw [hparts]
    exact congrArg _ (append_nil _)
  have hall : parts files = parts done ++ (f.parts ++ parts rest) := by
    rw [hl, hparts]
    rfl
  have hsql : parts files = parts done ++ (f.name, f.sql) :: ((if f.artifactName ≠ [] then [(f.artifactName, f.artifact)] else []) ++ parts rest) := hall
  refine (holds_storeFile b hsql hagree hE).bind fun _ => Holds.of_pre fun hagree' => .onlyIf ?_ ?_
  · intro hn
    have hart : parts files = (parts done ++ [(f.name, f.sql)]) ++ (f.artifactName, f.artifact) :: parts rest := by
      rw [hsql, if_pos hn]
      simp
    refine (holds_storeFile b hart hagree' hE).post ?_
    intro _ s hs
    rw [hone, File.parts, if_pos hn]
    simpa using hs
  · intro hn s hs
    rw [hone, File.parts, if_neg hn]
    exact ⟨hagree', hs⟩

/-- Writing the generation. -/
theorem holds_store (hm₀ : w.dir.files (.generation g) = m₀)
    (hE : Faulty A ∨ ¬ Fits m₀ files → E w ∧ E w.makeBase ∧ ∀ m, Grown m₀ files m → E (w.fill g m)) (b : Built isArtifact files man) :
    Holds A (· = w) (store g files) (fun _ s => Fits m₀ files ∧ s = w.fill g (stored files)) E := by
  have hgen : w.makeBase.makeGeneration g = w.fill g m₀ := by
    rw [← hm₀, World.makeGeneration, World.makeBase]
    have hfiles : ({ w.dir with generations := some (w.dir.generations.getD GoMap.empty) } : Dir).files (.generation g) =
        w.dir.files (.generation g) := by
      cases hg : w.dir.generations <;> simp [Dir.files, Dir.generation, hg]
    rw [hfiles]
    rfl
  have hgrown₀ : Grown m₀ files m₀ := fun n => .inl rfl
  have hfill : Faulty A ∨ ¬ Fits m₀ files → ∀ m, Grown m₀ files m → E (w.fill g m) := fun h => (hE h).2.2
  have hmake : Holds A (· = w.makeBase) (call (fun w => some (w.makeGeneration g)) DirError.io) (fun _ => (· = w.fill g m₀)) E := by
    rw [← hgen]
    refine holds_call fun hA => ⟨(hE (.inl hA)).2.1, ?_⟩
    rw [hgen]
    exact hfill (.inl hA) _ hgrown₀
  refine holds_seq (holds_call fun hA => ⟨(hE (.inl hA)).1, (hE (.inl hA)).2.1⟩) ?_
  refine holds_seq (holds_sync fun hA => (hE (.inl hA)).2.1) (holds_seq hmake ?_)
  refine holds_seq (holds_sync fun hA => hfill (.inl hA) _ hgrown₀) ?_
  refine (holds_storeFiles b hfill).seq (Holds.of_pre fun hagree => ?_)
  have hgrown : Grown m₀ files (insertAll m₀ (parts files)) := hagree.grown (append_nil _).symm
  refine holds_inspect (fun _ hok => ?_) fun e herr => hfill (.inr fun hfits => ?_) _ hgrown
  · -- no other names: what is there is what was asked for
    have hnames : ∀ n, ((insertAll m₀ (parts files)).get? n).isSome → n ∈ (parts files).map Prod.fst := by
      intro n hn
      rw [Dir.checkNames, World.files_fill] at hok
      split at hok
      · cases hok
      · rename_i hnone
        simpa [parts] using find?_eq_none.mp hnone n (mem_keys.mpr hn)
    have hstored : insertAll m₀ (parts files) = stored files := by
      ext n : 1
      rw [get?_insertAll, stored, ← parts]
      cases hn : (GoMap.ofList (parts files)).get? n with
      | some c => rfl
      | none =>
        cases h₀ : m₀.get? n with
        | none => rfl
        | some c =>
          have := hnames n (by rw [get?_insertAll, hn, h₀]; rfl)
          exact absurd this (get?_ofList_eq_none.mp hn)
    have hfits : Fits m₀ files := by
      intro n c h₀
      obtain ⟨⟨n', c'⟩, hmem, rfl⟩ := mem_map.mp (hnames n (by
        rw [get?_insertAll, h₀]
        cases (GoMap.ofList (parts files)).get? n <;> rfl))
      rcases hagree _ hmem with h | h
      · rw [h₀] at h
        cases h
      · rw [h₀] at h
        cases h
        exact hmem
    rw [hstored] at hgrown ⊢
    have hsync : Faulty A → E (w.fill g (stored files)) := fun hA => hfill (.inl hA) _ hgrown
    exact holds_seq (holds_sync hsync) ((holds_sync hsync).post fun _ s hs => ⟨hfits, hs⟩)
  · rw [Dir.checkNames, World.files_fill] at herr
    split at herr
    · rename_i n hfind
      have hn := find?_some hfind
      have hkey := mem_keys.mp (mem_of_find?_eq_some hfind)
      rw [get?_insertAll] at hkey
      have hnot : n ∉ (parts files).map Prod.fst := by simpa [parts] using hn
      rw [get?_ofList_eq_none.mpr hnot] at hkey
      obtain ⟨c, hc⟩ := isSome_iff_exists.mp hkey
      exact hnot (mem_map_of_mem (hfits n c hc))
    · cases herr

end Store

/-! ### Names -/

theorem stagedFile_ne (g : GoString) : stagedFile g ≠ journalFile ∧ stagedFile g ≠ manifestFile := by
  have hlen : 27 ≤ (stagedFile g).length := by
    have h₁ : manifestFile.length = 22 := by decide
    have h₂ : (str ".").length = 1 := by decide
    have h₃ : (str ".new").length = 4 := by decide
    rw [stagedFile, length_append, length_append, length_append]
    omega
  constructor
  all_goals
    intro h
    rw [h] at hlen
    exact absurd hlen (by decide)

theorem journalFile_ne : journalFile ≠ manifestFile := by decide

theorem isHex_ne {c : UInt8} (h : isHex c = true) : c ≠ 0x2E ∧ c ≠ 0x2F ∧ c ≠ 0x5C := by
  refine ⟨?_, ?_, ?_⟩ <;> rintro rfl <;> exact absurd h (by decide)

theorem traverses_stagedFile {g : GoString} (h : matchGeneration g = true) : traverses (stagedFile g) = false := by
  rw [matchGeneration, Bool.and_eq_true] at h
  have hhex : ∀ c ∈ g, c ≠ 0x2E ∧ c ≠ 0x2F ∧ c ≠ 0x5C := fun c hc => isHex_ne (all_eq_true.mp h.2 c hc)
  obtain ⟨a, t, rfl⟩ : ∃ a t, g = a :: t := by
    cases g with
    | nil => cases h.1
    | cons a t => exact ⟨a, t, rfl⟩
  -- the generation has no dots, and the dots around it have others between them
  have hgen : (a :: t).IsChain fun x y => ¬ (x = 0x2E ∧ y = 0x2E) := by
    refine (pairwise_of_forall_mem_list ?_).isChain
    intro x hx y _ hxy
    exact (hhex x hx).1 hxy.1
  have hdots : ¬ str ".." <:+: stagedFile (a :: t) := by
    rw [not_dots_iff]
    refine isChain_append.mpr ⟨isChain_append.mpr ⟨by decide, hgen, ?_⟩, by decide, ?_⟩
    · intro x _ y hy hxy
      rw [head?_cons, mem_some] at hy
      exact (hhex a mem_cons_self).1 (hy ▸ hxy.2)
    · intro x hx y _ hxy
      rw [getLast?_append] at hx
      obtain ⟨l, hl⟩ : ∃ l, (a :: t).getLast? = some l := ⟨_, getLast?_eq_some_getLast (by simp)⟩
      rw [hl, some_or, mem_some] at hx
      exact (hhex l (mem_of_getLast? hl)).1 (hx ▸ hxy.1)
  have hslash : ∀ c, c = 0x2F ∨ c = 0x5C → c ∉ stagedFile (a :: t) := by
    intro c hc hmem
    simp only [stagedFile, mem_append] at hmem
    rcases hmem with (((hmem | hmem) | hmem) | hmem)
    · rcases hc with rfl | rfl <;> exact absurd hmem (by decide)
    · rcases hc with rfl | rfl <;> exact absurd hmem (by decide)
    · exact hc.elim (hhex c hmem).2.1 (hhex c hmem).2.2
    · rcases hc with rfl | rfl <;> exact absurd hmem (by decide)
  have hne : stagedFile (a :: t) ≠ [] := by
    exact append_ne_nil_of_right_ne_nil _ (by decide)
  simp only [traverses, Bool.or_eq_false_iff, beq_eq_false_iff_ne, decide_eq_false_iff_not]
  refine ⟨⟨⟨hne, hdots⟩, ?_⟩, ?_⟩
  · simpa using hslash 0x2F (.inl rfl)
  · simpa using hslash 0x5C (.inr rfl)

theorem Built.traverses_stagedFile {files : List File} {man : Manifest} (b : Built isArtifact files man) :
    traverses (stagedFile man.generation) = false :=
  Migrate.traverses_stagedFile b.generation_match

/-- No file to remove is one of the files that the update itself works with. -/
theorem Request.Sound.cleanup_ne {r : Request} (h : r.Sound isArtifact) {p : GoString} (hp : p ∈ r.cleanup) :
    p ≠ journalFile ∧ p ≠ manifestFile ∧ ∀ g, p ≠ stagedFile g := by
  obtain ⟨-, v, n, hm⟩ := h.cleanup_mem hp
  obtain ⟨u, rfl⟩ := exists_sql hm
  have hlast : (u ++ str ".sql").getLast? = some 0x6C := by
    rw [getLast?_append]
    rfl
  refine ⟨?_, ?_, fun g h => ?_⟩
  case refine_3 =>
    rw [h, stagedFile, getLast?_append, show (str ".new").getLast? = some 0x77 by decide] at hlast
    exact absurd hlast (by simp)
  all_goals
    intro h
    rw [h] at hlast
    exact absurd hlast (by decide)

/-! ### The states of an update -/

/-- What the generations have become: the one of the request has at most grown. -/
structure Kept (d₀ d : Dir) (g : GoString) (files : List File) : Prop where
  other : ∀ g', g' ≠ g → d.generation g' = d₀.generation g'
  own : d.generation g = d₀.generation g ∨ ∃ m, d.generation g = some m ∧ Grown (d₀.files (.generation g)) files m

/-- The journal is not complete. -/
structure Before (r : Request) (w₀ w : World) : Prop where
  kept : Kept w₀.dir w.dir r.man.generation r.files
  root : ∀ n, n ≠ stagedFile r.man.generation → n ≠ journalFile → w.get? .root n = w₀.get? .root n
  journal : ∀ raw, w.get? .root journalFile = some raw → raw <+: r.text ∧ raw ≠ r.text
  requested : w.requested = w₀.requested
  published : w.published = w₀.published

namespace Request

variable (r : Request) (w₀ : World)

/-- The generation is complete. -/
def filled : World := w₀.fill r.man.generation (stored r.files)

/-- The journal is complete. -/
def staged : World :=
  ((r.filled w₀).put .root (stagedFile r.man.generation) (canonical r.man)).put .root journalFile r.text

/-- The manifest is published. -/
def renamed : World := (r.staged w₀).publish (stagedFile r.man.generation) (canonical r.man)

/-- The files to remove are gone, and the journal. -/
def finished : World := ((r.renamed w₀).dropAll r.cleanup).drop .root journalFile

/-- Nothing in the directory is in the way of the update. -/
structure Clear : Prop where
  fits : Fits (w₀.dir.files (.generation r.man.generation)) r.files
  stage : w₀.get? .root (stagedFile r.man.generation) = none ∨
    w₀.get? .root (stagedFile r.man.generation) = some (canonical r.man)

/-- Where an update can be left. -/
inductive Left : World → Prop
  | before {w : World} : Before r w₀ w → Left w
  | staged : r.Clear w₀ → Left (r.staged w₀)
  | renamed (done rest : List GoString) : r.Clear w₀ → r.cleanup = done ++ rest → Left ((r.renamed w₀).dropAll done)
  | finished : r.Clear w₀ → Left (r.finished w₀)

end Request

section Publish

variable {r : Request} {w₀ : World}

theorem kept_fill {m : GoMap GoString} (h : Grown (w₀.dir.files (.generation r.man.generation)) r.files m) :
    Kept w₀.dir (w₀.fill r.man.generation m).dir r.man.generation r.files where
  other g' hg' := by
    show (w₀.dir.setFiles (.generation r.man.generation) m).generation g' = _
    rw [Dir.generation_setFiles, if_neg hg']
  own := by
    refine .inr ⟨m, ?_, h⟩
    show (w₀.dir.setFiles (.generation r.man.generation) m).generation r.man.generation = _
    rw [Dir.generation_setFiles, if_pos rfl]

theorem World.get?_put_ne {n name c : GoString} (h : n ≠ name) : (w.put .root name c).get? .root n = w.get? .root n :=
  get?_insert_ne h

/-- A state in which only the generation has been written to. -/
theorem before_of_kept (hjournal : w₀.get? .root journalFile = none) {w : World} (hkept : Kept w₀.dir w.dir r.man.generation r.files)
    (hroot : w.dir.root = w₀.dir.root) (hreq : w.requested = w₀.requested) (hpub : w.published = w₀.published) :
    Before r w₀ w where
  kept := hkept
  root n _ _ := by rw [World.get?, World.get?, Dir.files, Dir.files, hroot]
  journal raw h := by
    have : w.get? .root journalFile = w₀.get? .root journalFile := by rw [World.get?, World.get?, Dir.files, Dir.files, hroot]
    rw [this, hjournal] at h
    cases h
  requested := hreq
  published := hpub

/-- The staged manifest and the journal may be written to. -/
theorem Before.put_staged (h : Before r w₀ w) (q : GoString) :
    Before r w₀ (w.put .root (stagedFile r.man.generation) q) where
  kept := ⟨h.kept.other, h.kept.own⟩
  root n h₁ h₂ := (World.get?_put_ne h₁).trans (h.root n h₁ h₂)
  journal raw hraw := h.journal raw (by rwa [World.get?_put_ne (stagedFile_ne _).1.symm] at hraw)
  requested := h.requested
  published := h.published

theorem Before.put_journal (h : Before r w₀ w) {q : GoString} (hq : q <+: r.text) (hne : q ≠ r.text) :
    Before r w₀ (w.put .root journalFile q) where
  kept := ⟨h.kept.other, h.kept.own⟩
  root n h₁ h₂ := (World.get?_put_ne h₂).trans (h.root n h₁ h₂)
  journal raw hraw := by
    rw [World.get?_put] at hraw
    cases hraw
    exact ⟨hq, hne⟩
  requested := h.requested
  published := h.published

/-- An update that has passed its checks is left in one of its states, and if there
are no faults and nothing is in the way it comes to its end. -/
theorem holds_publishing (hr : r.Sound isArtifact) (hjournal : w₀.get? .root journalFile = none) :
    Holds A (· = w₀) (publish r) (fun _ s => r.Clear w₀ ∧ s = r.finished w₀)
      (fun s => (Faulty A ∨ ¬ r.Clear w₀) ∧ r.Left w₀ s) := by
  obtain ⟨b⟩ := hr.steps
  have hfill : ∀ m, Grown (w₀.dir.files (.generation r.man.generation)) r.files m → Before r w₀ (w₀.fill r.man.generation m) :=
    fun m hm => before_of_kept hjournal (kept_fill hm) rfl rfl rfl
  have hbase : Before r w₀ w₀.makeBase := by
    have hgen : ∀ g, w₀.makeBase.dir.generation g = w₀.dir.generation g := by
      intro g
      cases hg : w₀.dir.generations <;> simp [World.makeBase, Dir.generation, hg]
    exact before_of_kept hjournal ⟨fun g' _ => hgen g', .inl (hgen _)⟩ rfl rfl rfl
  have hstart : Before r w₀ w₀ := before_of_kept hjournal ⟨fun _ _ => rfl, .inl rfl⟩ rfl rfl rfl
  refine Holds.seq (M := fun s => Fits (w₀.dir.files (.generation r.man.generation)) r.files ∧ s = r.filled w₀)
    (holds_store rfl (fun hA => ?_) b) (Holds.of_pre fun hfits => ?_)
  · have hA' : Faulty A ∨ ¬ r.Clear w₀ := hA.imp_right fun h hc => h hc.fits
    exact ⟨⟨hA', .before hstart⟩, ⟨hA', .before hbase⟩, fun m hm => ⟨hA', .before (hfill m hm)⟩⟩
  have hfilled : Before r w₀ (r.filled w₀) := hfill _ (b.grown_stored hfits)
  have hroot : ∀ n, (r.filled w₀).get? .root n = w₀.get? .root n := fun _ => rfl
  have htrav : traverses (stagedFile r.man.generation) = false := b.traverses_stagedFile
  let w₁ := (r.filled w₀).put .root (stagedFile r.man.generation) (canonical r.man)
  have hw₁ : Before r w₀ w₁ := hfilled.put_staged _
  have hw₁journal : w₁.get? .root journalFile = none := by
    rw [World.get?_put_ne (stagedFile_ne _).1.symm, hroot, hjournal]
  refine (holds_ensureFileAt Dir.open_root (fun hA => ⟨⟨.inl hA, .before hfilled⟩, fun _ q _ =>
    ⟨.inl hA, .before (hfilled.put_staged q)⟩⟩) fun hstale => ?_).seq (Holds.of_pre fun hstage => ?_)
  · refine ⟨.inr fun hc => ?_, .before hfilled⟩
    rcases hstale with h | ⟨c, hc', hne⟩
    · rw [htrav] at h
      cases h
    · rw [hroot] at hc'
      rcases hc.stage with h | h
      · rw [h] at hc'
        cases hc'
      · rw [h] at hc'
        exact hne (Option.some.inj hc').symm
  have hclear : r.Clear w₀ := ⟨hfits, by simpa only [hroot] using hstage⟩
  have hwrite : Holds A (· = w₁) (writeAt .root journalFile r.text) (fun _ => (· = r.staged w₀))
      (fun s => (Faulty A ∨ ¬ r.Clear w₀) ∧ r.Left w₀ s) := by
    have hpart : Faulty A → ∀ q, q <+: r.text → (Faulty A ∨ ¬ r.Clear w₀) ∧ r.Left w₀ (w₁.put .root journalFile q) := by
      intro hA q hq
      refine ⟨.inl hA, ?_⟩
      by_cases hqe : q = r.text
      · rw [hqe]
        exact .staged hclear
      · exact .before (hw₁.put_journal hq hqe)
    refine (holds_writeAt Dir.open_root (fun hA => ⟨⟨.inl hA, .before hw₁⟩, fun _ => hpart hA⟩) fun hsome => ?_).post
      fun _ s hs => hs.2
    rw [hw₁journal] at hsome
    cases hsome
  have hget : (r.staged w₀).get? .root (stagedFile r.man.generation) = some (canonical r.man) := by
    rw [Request.staged, World.get?_put_ne (stagedFile_ne _).1, World.get?_put]
  have hgetJournal : (r.renamed w₀).get? .root journalFile = some r.text := by
    show (GoMap.insert _ _ _).get? journalFile = _
    rw [get?_insert_ne journalFile_ne, get?_erase]
    have : (r.staged w₀).get? .root journalFile = some r.text := World.get?_put
    exact this
  refine holds_seq hwrite (holds_seq (holds_sync fun hA => ⟨.inl hA, .staged hclear⟩) ?_)
  refine holds_seq (holds_rename hget fun hA => ⟨⟨.inl hA, .staged hclear⟩, .inl hA, .renamed [] _ hclear rfl⟩) ?_
  refine holds_seq (holds_sync fun hA => ⟨.inl hA, .renamed [] _ hclear rfl⟩) ?_
  refine (holds_finish (isSome_iff_exists.mpr ⟨_, hgetJournal⟩) ?_ fun hA => ⟨fun done rest hl => ?_, .inl hA, .finished hclear⟩).post
    fun _ s hs => ⟨hclear, hs⟩
  · exact fun h => (hr.cleanup_ne h).1 rfl
  · exact ⟨.inl hA, .renamed done rest hclear hl⟩

end Publish

end AutoSql.Migrate
