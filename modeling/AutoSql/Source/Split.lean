/-
AutoSql/Source/Split.lean

`SplitSQL`: cutting a SQL text into statements at the semicolons that stand
outside strings, quoted identifiers, comments and dollar quotes.

The scanner reads one lexeme at a time.  `lexeme` says how many bytes it takes
and in which mode the text goes on; the source keeps the mode in four variables
(`lineComment`, `blockDepth`, `dollarTag`, `quote`) of which at most one is set.
The positions of the statements count from one (`one_le_position`) and are
bounded by the length of the text, as their number is (`position_le`).
-/
import AutoSql.Lib.Fallible
import AutoSql.Lib.Text

namespace AutoSql.Source

open GoString Fallible List

structure Position where
  file : GoString
  line : Nat
  column : Nat
  deriving DecidableEq

structure Statement where
  sql : GoString
  position : Position
  deriving DecidableEq

/-- What the scanner is inside of. -/
inductive Mode
  | plain
  | lineComment
  | blockComment (depth : Nat)
  | dollar (tag : GoString)
  | quoted (quote : UInt8)
  deriving DecidableEq

/-- The loop of `dollarQuoteAt` from the byte at index `i`, with the bytes read so far. -/
def dollarTag (i : Nat) (seen : GoString) : GoString → Option GoString
  | [] => none
  | b :: s =>
    if b = 0x24 then some (seen ++ [b])
    else if b = 0x5F ∨ (0x61 ≤ b ∧ b ≤ 0x7A) ∨ (0x41 ≤ b ∧ b ≤ 0x5A) ∨ (i > 1 ∧ isDigit b = true) then
      dollarTag (i + 1) (seen ++ [b]) s
    else none

def dollarQuoteAt : GoString → Option GoString
  | 0x24 :: s => dollarTag 1 [0x24] s
  | _ => none

/-- The lexeme at the head of `rest`: its length and the mode after it. -/
def lexeme (mode : Mode) (b : UInt8) (rest : GoString) : Nat × Mode :=
  match mode with
  | .lineComment => (1, if b = 0x0A then .plain else .lineComment)
  | .blockComment depth =>
    if hasPrefix rest (str "/*") then (2, .blockComment (depth + 1))
    else if hasPrefix rest (str "*/") then (2, if depth ≤ 1 then .plain else .blockComment (depth - 1))
    else (1, .blockComment depth)
  | .dollar tag => if hasPrefix rest tag then (tag.length, .plain) else (1, .dollar tag)
  | .quoted quote =>
    if b = quote then
      -- a doubled quote stands for the quote itself
      if hasPrefix rest [quote, quote] then (2, .quoted quote) else (1, .plain)
    else (1, .quoted quote)
  | .plain =>
    if hasPrefix rest (str "--") then (2, .lineComment)
    else if hasPrefix rest (str "/*") then (2, .blockComment 1)
    else if b = 0x27 ∨ b = 0x22 then (1, .quoted b)
    else
      match dollarQuoteAt rest with
      | some tag => (tag.length, .dollar tag)
      | none => (1, .plain)

structure Scan where
  mode : Mode := .plain
  out : List Statement := []
  start : Option Nat := none
  line : Nat := 1
  column : Nat := 1
  startLine : Nat := 1
  startColumn : Nat := 1

namespace Scan

def advance (s : Scan) (b : UInt8) : Scan :=
  if b = 0x0A then { s with line := s.line + 1, column := 1 } else { s with column := s.column + 1 }

/-- A statement starts at the first byte that is not white space. -/
def open? (s : Scan) (i : Nat) (b : UInt8) : Scan :=
  if s.start = none ∧ Text.isLatinSpace b = false then
    { s with start := some i, startLine := s.line, startColumn := s.column }
  else s

/-- Ends the statement in front of the index `e`. -/
def flush (file input : GoString) (s : Scan) (e : Nat) : Scan :=
  match s.start with
  | none => s
  | some start =>
    let text := Text.trimSpace ((input.drop start).take (e - start))
    if text ≠ [] then
      { s with start := none, out := s.out ++ [⟨text, file, s.startLine, s.startColumn⟩] }
    else { s with start := none }

/-- One round of the loop, at the byte `b` with index `i`: the number of bytes
read and the new state. -/
def step (file input : GoString) (i : Nat) (b : UInt8) (rest : GoString) (s : Scan) : Nat × Scan :=
  let s := s.open? i b
  let (n, mode) := lexeme s.mode b rest
  let s := if s.mode = .plain ∧ b = 0x3B then s.flush file input i else s
  (n, { (rest.take n).foldl advance s with mode := mode })

/-- The loop over the input; `rest` is what follows the index `i`. -/
def run (file input : GoString) : Nat → Nat → GoString → Scan → Scan
  | 0, _, _, s => s
  | _ + 1, _, [], s => s
  | fuel + 1, i, b :: rest, s =>
    let (n, s) := s.step file input i b (b :: rest)
    run file input fuel (i + n) ((b :: rest).drop n) s

end Scan

/-- `file:line:column: unterminated what` -/
def unterminated (file : GoString) (s : Scan) (what : GoString) : GoString :=
  file ++ 0x3A :: decimal s.startLine ++ 0x3A :: decimal s.startColumn ++ str ": unterminated " ++ what

/-- `SplitSQL`.  Every round reads at least one byte, so as many rounds as
bytes are enough. -/
def splitSQL (file input : GoString) : Except GoString (List Statement) :=
  let s := Scan.run file input input.length 0 input {}
  match s.mode with
  | .quoted _ => .error (unterminated file s (str "quoted value"))
  | .dollar tag => .error (unterminated file s (str "dollar quote " ++ tag))
  | .blockComment _ => .error (unterminated file s (str "block comment"))
  | _ => .ok (s.flush file input input.length).out

example : splitSQL [] (str "a;\n 'b;';--c;\n;$$d;$$ /*e;*/") = .ok
    [⟨str "a", [], 1, 1⟩, ⟨str "'b;'", [], 2, 2⟩, ⟨str "--c;", [], 2, 7⟩, ⟨str "$$d;$$ /*e;*/", [], 3, 2⟩] ∧
    splitSQL (str "f") (str "'a;") = .error (str "f:1:1: unterminated quoted value") := by decide

/-! ### The name of the file

The name goes into the positions and the error texts and nowhere else. -/

/-- The same statement of another file. -/
def Statement.inFile (file : GoString) (st : Statement) : Statement :=
  { st with position := { st.position with file := file } }

namespace Scan

def inFile (file : GoString) (s : Scan) : Scan := { s with out := s.out.map (Statement.inFile file) }

theorem open?_inFile (file : GoString) (s : Scan) (i : Nat) (b : UInt8) :
    (s.inFile file).open? i b = (s.open? i b).inFile file := by
  unfold open?
  split_ifs with h₁ h₂ h₂
  · rfl
  · exact absurd h₁ h₂
  · exact absurd h₂ h₁
  · rfl

theorem flush_inFile (file file' input : GoString) (s : Scan) (e : Nat) :
    (s.inFile file').flush file' input e = (s.flush file input e).inFile file' := by
  unfold flush
  show (match s.start with | none => _ | some start => _) = _
  cases s.start with
  | none => rfl
  | some start =>
    dsimp only
    split_ifs
    · simp [inFile, Statement.inFile]
    · rfl

theorem advance_inFile (file : GoString) (s : Scan) (b : UInt8) : (s.inFile file).advance b = (s.advance b).inFile file := by
  unfold advance
  split_ifs <;> rfl

theorem foldl_advance_inFile (file : GoString) (l : GoString) (s : Scan) :
    l.foldl advance (s.inFile file) = (l.foldl advance s).inFile file := by
  induction l generalizing s with
  | nil => rfl
  | cons b l ih => rw [foldl_cons, foldl_cons, advance_inFile, ih]

theorem step_inFile (file file' input : GoString) (i : Nat) (b : UInt8) (rest : GoString) (s : Scan) :
    (s.inFile file').step file' input i b rest =
      ((s.step file input i b rest).1, (s.step file input i b rest).2.inFile file') := by
  unfold step
  rw [open?_inFile]
  generalize s.open? i b = t
  have hmode : (t.inFile file').mode = t.mode := rfl
  dsimp only
  rw [hmode]
  generalize lexeme t.mode b rest = p
  by_cases h : t.mode = .plain ∧ b = 0x3B
  · rw [if_pos h, if_pos h, flush_inFile file, foldl_advance_inFile]
    rfl
  · rw [if_neg h, if_neg h, foldl_advance_inFile]
    rfl

theorem run_inFile (file file' input : GoString) (fuel i : Nat) (rest : GoString) (s : Scan) :
    run file' input fuel i rest (s.inFile file') = (run file input fuel i rest s).inFile file' := by
  induction fuel generalizing i rest s with
  | zero => rfl
  | succ fuel ih =>
    cases rest with
    | nil => rfl
    | cons b rest =>
      rw [run, run, step_inFile file]
      exact ih _ _ _

end Scan

variable {file input : GoString} {l : List Statement}

/-- A text is split in the same way whatever its file is called. -/
theorem splitSQL_inFile (h : splitSQL file input = .ok l) (file' : GoString) :
    splitSQL file' input = .ok (l.map (Statement.inFile file')) := by
  have hrun := Scan.run_inFile file file' input input.length 0 input {}
  rw [show Scan.inFile file' {} = {} from rfl] at hrun
  unfold splitSQL at h ⊢
  rw [hrun]
  dsimp only at h ⊢
  rw [Scan.flush_inFile file]
  generalize Scan.run file input input.length 0 input {} = s at h ⊢
  have hmode : (s.inFile file').mode = s.mode := rfl
  rw [hmode]
  cases hm : s.mode <;> rw [hm] at h <;> cases h <;> rfl

/-! ### Positions -/

namespace Scan

/-- Positions count from one. -/
structure Located (s : Scan) : Prop where
  line : 1 ≤ s.line
  column : 1 ≤ s.column
  startLine : 1 ≤ s.startLine
  startColumn : 1 ≤ s.startColumn
  out : ∀ x ∈ s.out, 1 ≤ x.position.line ∧ 1 ≤ x.position.column

variable {file input : GoString} {s : Scan}

theorem Located.advance (h : s.Located) (b : UInt8) : (s.advance b).Located := by
  rw [Scan.advance]
  split_ifs
  · exact ⟨Nat.le_add_left 1 s.line, Nat.le_refl 1, h.startLine, h.startColumn, h.out⟩
  · exact ⟨h.line, Nat.le_add_left 1 s.column, h.startLine, h.startColumn, h.out⟩

theorem Located.foldl_advance (h : s.Located) (bs : GoString) : (bs.foldl Scan.advance s).Located := by
  induction bs generalizing s with
  | nil => exact h
  | cons b bs ih => exact ih (h.advance b)

theorem Located.open? (h : s.Located) (i : Nat) (b : UInt8) : (s.open? i b).Located := by
  rw [Scan.open?]
  split_ifs
  · exact ⟨h.line, h.column, h.line, h.column, h.out⟩
  · exact h

theorem Located.flush (h : s.Located) (e : Nat) : (s.flush file input e).Located := by
  rw [Scan.flush]
  split
  · exact h
  · dsimp only
    split_ifs
    · refine ⟨h.line, h.column, h.startLine, h.startColumn, ?_⟩
      exact forall_mem_append.mpr ⟨h.out, forall_mem_singleton.mpr ⟨h.startLine, h.startColumn⟩⟩
    · exact ⟨h.line, h.column, h.startLine, h.startColumn, h.out⟩

theorem Located.step (h : s.Located) (i : Nat) (b : UInt8) (rest : GoString) :
    (s.step file input i b rest).2.Located := by
  have hopen := h.open? i b
  have hflush : (if (s.open? i b).mode = .plain ∧ b = 0x3B then
      (s.open? i b).flush file input i else s.open? i b).Located := by
    split_ifs
    · exact hopen.flush i
    · exact hopen
  have hadv := hflush.foldl_advance (rest.take (lexeme (s.open? i b).mode b rest).1)
  exact ⟨hadv.line, hadv.column, hadv.startLine, hadv.startColumn, hadv.out⟩

theorem Located.run (h : s.Located) (fuel i : Nat) (rest : GoString) : (Scan.run file input fuel i rest s).Located := by
  induction fuel generalizing i rest s with
  | zero => exact h
  | succ fuel ih =>
    cases rest with
    | nil => exact h
    | cons b rest => exact ih (h.step i b (b :: rest)) _ _

end Scan

theorem one_le_position (h : splitSQL file input = .ok l) : ∀ x ∈ l, 1 ≤ x.position.line ∧ 1 ≤ x.position.column := by
  have hinit : ({} : Scan).Located :=
    ⟨Nat.le_refl 1, Nat.le_refl 1, Nat.le_refl 1, Nat.le_refl 1, by simp⟩
  have hrun : (Scan.run file input input.length 0 input {}).Located := hinit.run input.length 0 input
  rw [splitSQL] at h
  split at h
  · cases h
  · cases h
  · cases h
  · cases h
    exact (hrun.flush input.length).out

namespace Scan

/-- With `rest` bytes to read in at most `fuel` rounds, no position can pass `n`. -/
structure Bounded (n fuel rest : Nat) (s : Scan) : Prop where
  line : s.line + rest ≤ n
  column : s.column + rest ≤ n
  startLine : s.startLine ≤ n
  startColumn : s.startColumn ≤ n
  out : ∀ x ∈ s.out, x.position.line ≤ n ∧ x.position.column ≤ n
  length : s.out.length + fuel ≤ n

variable {file input : GoString} {s : Scan} {n fuel rest : Nat}

theorem Bounded.advance (h : s.Bounded n fuel (rest + 1)) (b : UInt8) : (s.advance b).Bounded n fuel rest := by
  obtain ⟨hline, hcolumn, hstartLine, hstartColumn, hout, hlength⟩ := h
  rw [Scan.advance]
  split_ifs <;> exact ⟨by simp only; omega, by simp only; omega, hstartLine, hstartColumn, hout, hlength⟩

theorem Bounded.foldl_advance {bs : GoString} (h : s.Bounded n fuel (rest + bs.length)) :
    (bs.foldl Scan.advance s).Bounded n fuel rest := by
  induction bs generalizing s with
  | nil => exact h
  | cons b bs ih => exact ih (h.advance b)

theorem Bounded.open? (h : s.Bounded n fuel rest) (i : Nat) (b : UInt8) : (s.open? i b).Bounded n fuel rest := by
  obtain ⟨hline, hcolumn, hstartLine, hstartColumn, hout, hlength⟩ := h
  rw [Scan.open?]
  split_ifs
  · exact ⟨hline, hcolumn, by simp only; omega, by simp only; omega, hout, hlength⟩
  · exact ⟨hline, hcolumn, hstartLine, hstartColumn, hout, hlength⟩

/-- A round ends at most one statement. -/
theorem Bounded.flush (h : s.Bounded n (fuel + 1) rest) (e : Nat) : (s.flush file input e).Bounded n fuel rest := by
  obtain ⟨hline, hcolumn, hstartLine, hstartColumn, hout, hlength⟩ := h
  rw [Scan.flush]
  split
  · exact ⟨hline, hcolumn, hstartLine, hstartColumn, hout, by omega⟩
  · dsimp only
    split_ifs
    · refine ⟨hline, hcolumn, hstartLine, hstartColumn, ?_, ?_⟩
      · exact forall_mem_append.mpr ⟨hout, forall_mem_singleton.mpr ⟨hstartLine, hstartColumn⟩⟩
      · rw [length_append, length_singleton]
        omega
    · exact ⟨hline, hcolumn, hstartLine, hstartColumn, hout, by simp only; omega⟩

theorem Bounded.step {text : GoString} (h : s.Bounded n (fuel + 1) text.length) (i : Nat) (b : UInt8) :
    (s.step file input i b text).2.Bounded n fuel (text.drop (s.step file input i b text).1).length := by
  have hopen := h.open? i b
  have hflush : (if (s.open? i b).mode = .plain ∧ b = 0x3B then
      (s.open? i b).flush file input i else s.open? i b).Bounded n fuel text.length := by
    split_ifs
    · exact hopen.flush i
    · exact ⟨hopen.line, hopen.column, hopen.startLine, hopen.startColumn, hopen.out, by have := hopen.length; omega⟩
  have hsplit : text.length = (text.drop (lexeme (s.open? i b).mode b text).1).length +
      (text.take (lexeme (s.open? i b).mode b text).1).length := by
    rw [length_drop, length_take]
    omega
  rw [hsplit] at hflush
  have hadv := hflush.foldl_advance
  exact ⟨hadv.line, hadv.column, hadv.startLine, hadv.startColumn, hadv.out, hadv.length⟩

theorem Bounded.run {text : GoString} (h : s.Bounded n (fuel + 1) text.length) (i : Nat) :
    ∃ rest, (Scan.run file input fuel i text s).Bounded n 1 rest := by
  induction fuel generalizing i text s with
  | zero => exact ⟨_, h⟩
  | succ fuel ih =>
    cases text with
    | nil =>
      have hlength : s.out.length + 1 ≤ n := by
        have := h.length
        omega
      exact ⟨_, h.line, h.column, h.startLine, h.startColumn, h.out, hlength⟩
    | cons b text => exact ih (h.step i b) _

end Scan

theorem position_le (h : splitSQL file input = .ok l) : l.length ≤ input.length + 1 ∧
      ∀ x ∈ l, x.position.line ≤ input.length + 1 ∧ x.position.column ≤ input.length + 1 := by
  have hinit : ({} : Scan).Bounded (input.length + 1) (input.length + 1) input.length :=
    ⟨by simp only; omega, by simp only; omega, by simp, by simp, by simp, by simp⟩
  obtain ⟨rest, hrun⟩ : ∃ rest, (Scan.run file input input.length 0 input {}).Bounded (input.length + 1) 1 rest :=
    hinit.run 0
  rw [splitSQL] at h
  split at h
  · cases h
  · cases h
  · cases h
  · cases h
    have hflush : (Scan.flush file input _ input.length).Bounded (input.length + 1) 0 rest := hrun.flush input.length
    exact ⟨hflush.length, hflush.out⟩

end AutoSql.Source
