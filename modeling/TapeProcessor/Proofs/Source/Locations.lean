import Mathlib.Data.List.TakeWhile
import Mathlib.Data.Prod.Lex
import TapeProcessor.Proofs.Source.FirstViolation

/-!
# The line and the column of a report

A report shows a position of the source text as a line and a column. Both come from a
look back from the position, over the line feeds in front of it. What they mean to a
reader is said from the other side, by the lines that the text is divided into.

* `Location.lines text` are these lines; `Location.lineOffset text k` is the number of
  characters in front of the one that comes behind `k` others.
* `Location.Exact text place`: the text has the line, the line has the column or ends just
  in front of it, and counting up to there gives the position. A place that is exact is
  told by its line and column, and exact places are in the order of their positions
  (`Location.Exact.lt_iff`).
* `Location.charAt? text line column` is the character that a reader finds there.

A character put in front of a text moves a place in it by one position. It moves the line,
if it is a line feed, or the column, if it is not and the place is on the first line
(`Location.ofPosition_cons`). All that is said about places here is proved along this
recursion (`Location.exact_ofPosition`, `Location.charAt?_ofPosition`).

`Source.locations_exact` is the statement about reports. What a report is about, apart from
the length of a whole program, is one bracket: `Source.Concerns text fault i` says of each
fault what is the matter with the bracket at `i`.
-/

namespace TapeProcessor

namespace Location

/-! ### The lines of a text -/

/-- The lines of a text. A line feed ends a line, so there is one more than there are line
feeds, and the last one may be empty. -/
def lines (text : List Char) : List (List Char) := text.splitOn '\n'

/-- The number of characters in front of the line that comes behind `k` others, with the
line feeds that end these. -/
def lineOffset (text : List Char) (k : ℕ) : ℕ :=
  (((lines text).take k).map fun line => line.length + 1).sum

/-- The character at a line and a column, both counted from one; `none` where the line has
ended. -/
def charAt? (text : List Char) (line : ℕ) (column : ℤ) : Option Char :=
  ((lines text)[line - 1]?).bind fun l => l[(column - 1).toNat]?

/-- The line and the column of a place lead to its position, and they are in the text. A
line has one column more than characters, for the line feed or the end behind it. -/
structure Exact (text : List Char) (place : Location) : Prop where
  line_pos : 1 ≤ place.line
  line_le : place.line ≤ (lines text).length
  column_pos : 1 ≤ place.column
  column_le : ∀ line, (lines text)[place.line - 1]? = some line →
    place.column ≤ line.length + 1
  position : (lineOffset text (place.line - 1) : ℤ) + (place.column - 1) = place.position

variable {text : List Char} {c : Char} {place : Location} {k p : ℕ}

theorem lines_feed (text : List Char) : lines ('\n' :: text) = [] :: lines text := by
  rw [lines, List.splitOn_cons_eq_if_modifyHead]
  rfl

/-- Another character belongs to the first line. -/
theorem lines_other (h : c ≠ '\n') (text : List Char) :
    ∃ first behind, lines text = first :: behind ∧ lines (c :: text) = (c :: first) :: behind := by
  cases h_lines : lines text with
  | nil => exact absurd h_lines (List.splitOn_ne_nil '\n' text)
  | cons first behind =>
    refine ⟨first, behind, rfl, ?_⟩
    rw [lines, List.splitOn_cons_eq_if_modifyHead, if_neg (by simpa using h), ← lines, h_lines,
      List.modifyHead_cons]

theorem lineOffset_zero (text : List Char) : lineOffset text 0 = 0 := rfl

theorem lineOffset_succ {line : List Char} (h : (lines text)[k]? = some line) :
    lineOffset text (k + 1) = lineOffset text k + (line.length + 1) := by
  rw [lineOffset, List.take_add_one, h, List.map_append, List.sum_append, lineOffset]
  rfl

/-- Lines stand behind one another. -/
theorem lineOffset_mono (text : List Char) {j k : ℕ} (h : j ≤ k) :
    lineOffset text j ≤ lineOffset text k := by
  unfold lineOffset
  obtain ⟨d, rfl⟩ := Nat.exists_eq_add_of_le h
  rw [List.take_add, List.map_append, List.sum_append]
  exact Nat.le_add_right _ _

theorem lineOffset_feed (text : List Char) (k : ℕ) :
    lineOffset ('\n' :: text) (k + 1) = lineOffset text k + 1 := by
  rw [lineOffset, lines_feed, List.take_succ_cons, List.map_cons, List.sum_cons, lineOffset]
  exact Nat.add_comm _ _

/-- Any other character in front makes the first line longer, and moves those behind it. -/
theorem lineOffset_other (h : c ≠ '\n') (text : List Char) (k : ℕ) :
    lineOffset (c :: text) (k + 1) = lineOffset text (k + 1) + 1 := by
  obtain ⟨first, behind, h_lines, h_cons⟩ := lines_other h text
  rw [lineOffset, lineOffset, h_cons, h_lines]
  simp only [List.take_succ_cons, List.map_cons, List.sum_cons, List.length_cons]
  omega

/-! ### A character in front -/

/-- Without a line feed the line starts where the text does. -/
theorem lineStart_of_notMem {before : List Char} (h : '\n' ∉ before) : lineStart before = 0 := by
  have h_all : before.reverse.takeWhile (· ≠ '\n') = before.reverse := by
    refine List.takeWhile_eq_self_iff.mpr fun x h_x => ?_
    rw [decide_eq_true_eq]
    rintro rfl
    exact h (List.mem_reverse.mp h_x)
  rw [lineStart, h_all, List.length_reverse, Nat.sub_self]

/-- Otherwise it starts behind the last line feed. -/
theorem lineStart_behind {last : List Char} (h : '\n' ∉ last) (front : List Char) :
    lineStart (front ++ '\n' :: last) = front.length + 1 := by
  have h_last : ∀ x ∈ last.reverse, decide (x ≠ '\n') = true := by
    intro x h_x
    rw [decide_eq_true_eq]
    rintro rfl
    exact h (List.mem_reverse.mp h_x)
  have h_reverse : (front ++ '\n' :: last).reverse = last.reverse ++ '\n' :: front.reverse := by
    simp
  rw [lineStart, h_reverse, List.takeWhile_append_of_pos h_last,
    List.takeWhile_cons_of_neg (by decide), List.append_nil, List.length_reverse,
    List.length_append, List.length_cons]
  omega

/-- A text with a line feed, split at the last one. -/
theorem exists_last_feed {before : List Char} (h : '\n' ∈ before) :
    ∃ front last, before = front ++ '\n' :: last ∧ '\n' ∉ last := by
  obtain ⟨back, front, h_split, h_notMem⟩ := List.eq_append_cons_of_mem (List.mem_reverse.mpr h)
  refine ⟨front.reverse, back.reverse, ?_, fun h_mem => h_notMem (List.mem_reverse.mp h_mem)⟩
  rw [← List.reverse_reverse before, h_split]
  simp

/-- If the line starts behind a line feed, a character in front moves its start. -/
theorem lineStart_cons_of_mem {before : List Char} (h : '\n' ∈ before) (c : Char) :
    lineStart (c :: before) = lineStart before + 1 := by
  obtain ⟨front, last, rfl, h_last⟩ := exists_last_feed h
  rw [← List.cons_append, lineStart_behind h_last, lineStart_behind h_last, List.length_cons]

theorem lineStart_feed (before : List Char) :
    lineStart ('\n' :: before) = lineStart before + 1 := by
  by_cases h : '\n' ∈ before
  · exact lineStart_cons_of_mem h '\n'
  · rw [lineStart_of_notMem h]
    exact lineStart_behind h []

/-- The place of a position in the text, by the characters in front of it. -/
theorem ofPosition_natCast (h : p ≤ text.length) :
    ofPosition text p
      = ⟨p, (text.take p).count '\n' + 1, (p : ℤ) - lineStart (text.take p) + 1⟩ := by
  rw [ofPosition, cut_natCast h]

theorem ofPosition_zero (text : List Char) : ofPosition text (0 : ℕ) = ⟨0, 1, 1⟩ := by
  rw [ofPosition_natCast (Nat.zero_le _)]
  rfl

/-- **A character in front** of a text moves the line of a place in it, its column, or
neither. -/
theorem ofPosition_cons (c : Char) (h : p ≤ text.length) :
    ofPosition (c :: text) (p + 1 : ℕ) =
      let place := ofPosition text p
      if c = '\n' then ⟨p + 1, place.line + 1, place.column⟩
      else if place.line = 1 then ⟨p + 1, 1, place.column + 1⟩
      else ⟨p + 1, place.line, place.column⟩ := by
  have h_succ : p + 1 ≤ (c :: text).length := Nat.succ_le_succ h
  rw [ofPosition_natCast h_succ, ofPosition_natCast h, List.take_succ_cons]
  dsimp only
  by_cases h_feed : c = '\n'
  · subst h_feed
    rw [if_pos rfl, lineStart_feed, List.count_cons_self, Location.mk.injEq]
    omega
  rw [if_neg h_feed, List.count_cons_of_ne h_feed]
  by_cases h_mem : '\n' ∈ text.take p
  · -- the line of the place starts behind the last line feed
    have h_count := List.count_pos_iff.mpr h_mem
    rw [if_neg (by omega), lineStart_cons_of_mem h_mem, Location.mk.injEq]
    omega
  · -- the place is on the first line, which has become longer
    have h_cons : '\n' ∉ c :: text.take p := by
      rw [List.mem_cons, not_or]
      exact ⟨fun h_eq => h_feed h_eq.symm, h_mem⟩
    rw [List.count_eq_zero.mpr h_mem, if_pos rfl, lineStart_of_notMem h_cons,
      lineStart_of_notMem h_mem, Location.mk.injEq]
    omega

/-! ### Places are exact -/

theorem exact_start (text : List Char) : (⟨0, 1, 1⟩ : Location).Exact text where
  line_pos := Nat.le_refl 1
  line_le := List.length_pos_iff.mpr (List.splitOn_ne_nil '\n' text)
  column_pos := Int.le_refl 1
  column_le line _ := by dsimp only; omega
  position := rfl

/-- A line feed in front moves the line. -/
theorem Exact.feed (h : place.Exact text) :
    Exact ('\n' :: text) ⟨place.position + 1, place.line + 1, place.column⟩ := by
  have h_pos := h.line_pos
  have h_line : place.line + 1 - 1 = place.line - 1 + 1 := by omega
  refine ⟨Nat.le_add_left 1 _, ?_, h.column_pos, ?_, ?_⟩
  · rw [lines_feed]
    exact Nat.succ_le_succ h.line_le
  · dsimp only
    -- the line of the place is the same one, and has one more in front of it
    rw [lines_feed, h_line, List.getElem?_cons_succ]
    exact h.column_le
  · have h_position := h.position
    dsimp only
    rw [h_line, lineOffset_feed]
    omega

/-- On the first line another character in front moves the column. -/
theorem Exact.first (h : place.Exact text) (h_c : c ≠ '\n') (h_line : place.line = 1) :
    Exact (c :: text) ⟨place.position + 1, 1, place.column + 1⟩ := by
  obtain ⟨first, behind, h_lines, h_cons⟩ := lines_other h_c text
  have h_pos := h.column_pos
  have h_position := h.position
  have h_le := h.column_le first (by rw [h_line, h_lines]; rfl)
  rw [h_line, Nat.sub_self, lineOffset_zero] at h_position
  refine ⟨Nat.le_refl 1, ?_, by dsimp only; omega, ?_, ?_⟩
  · rw [h_cons]
    exact Nat.succ_le_succ (Nat.zero_le _)
  · rw [h_cons]
    -- the line is the first one, with a character more
    rintro _ ⟨⟩
    rw [List.length_cons]
    push_cast
    omega
  · dsimp only
    rw [Nat.sub_self, lineOffset_zero]
    omega

/-- On a later line it moves neither the line nor the column. -/
theorem Exact.behind (h : place.Exact text) (h_c : c ≠ '\n') (h_line : place.line ≠ 1) :
    Exact (c :: text) ⟨place.position + 1, place.line, place.column⟩ := by
  obtain ⟨first, behind, h_lines, h_cons⟩ := lines_other h_c text
  have h_pos := h.line_pos
  obtain ⟨k, h_k⟩ : ∃ k, place.line - 1 = k + 1 := ⟨place.line - 2, by omega⟩
  have h_le := h.line_le
  have h_column := h.column_le
  have h_position := h.position
  rw [h_k, h_lines, List.getElem?_cons_succ] at h_column
  rw [h_k] at h_position
  refine ⟨h_pos, ?_, h.column_pos, ?_, ?_⟩
  · rw [h_cons, List.length_cons]
    rwa [h_lines, List.length_cons] at h_le
  · dsimp only
    rw [h_k, h_cons, List.getElem?_cons_succ]
    exact h_column
  · dsimp only
    rw [h_k, lineOffset_other h_c]
    omega

/-- **Every place is exact.** The induction is on the text, one character in front of the
other. -/
theorem exact_ofPosition (h : p ≤ text.length) : (ofPosition text p).Exact text := by
  induction text generalizing p with
  | nil =>
    obtain rfl : p = 0 := Nat.le_zero.mp h
    exact exact_start []
  | cons c text ih =>
    cases p with
    | zero =>
      rw [ofPosition_zero]
      exact exact_start _
    | succ p =>
      have h_le : p ≤ text.length := Nat.le_of_succ_le_succ h
      have h_place := ih h_le
      have h_position : (ofPosition text p).position = p := rfl
      rw [ofPosition_cons c h_le, ← h_position]
      dsimp only
      split
      · next h_feed =>
        subst h_feed
        exact h_place.feed
      · next h_other =>
        split
        · next h_line => exact h_place.first h_other h_line
        · next h_line => exact h_place.behind h_other h_line

/-- Places on different lines are in the order of the lines. -/
theorem Exact.position_lt_of_line_lt {other : Location} (h : place.Exact text)
    (h' : other.Exact text) (h_lt : place.line < other.line) : place.position < other.position := by
  have h_pos := h.line_pos
  have h_in : place.line - 1 < (lines text).length := by
    have h_le := h.line_le
    omega
  have h_line := List.getElem?_eq_getElem h_in
  -- the place does not reach beyond its line, and the other one is behind it
  have h_column := h.column_le _ h_line
  have h_next := lineOffset_succ h_line
  have h_mono : lineOffset text (place.line - 1 + 1) ≤ lineOffset text (other.line - 1) :=
    lineOffset_mono text (by omega)
  have h_position := h.position
  have h_position' := h'.position
  have h_column' := h'.column_pos
  omega

/-- **Exact places are in the order of their positions**, by lines first and by columns on
one line. -/
theorem Exact.lt_iff {other : Location} (h : place.Exact text) (h' : other.Exact text) :
    place.position < other.position ↔
      toLex (place.line, place.column) < toLex (other.line, other.column) := by
  have h_position := h.position
  have h_position' := h'.position
  rw [Prod.Lex.toLex_lt_toLex]
  dsimp only
  rcases Nat.lt_trichotomy place.line other.line with h_lt | h_eq | h_gt
  · exact iff_of_true (h.position_lt_of_line_lt h' h_lt) (Or.inl h_lt)
  · -- on one line both positions count from the same offset
    rw [h_eq] at h_position ⊢
    omega
  · have h_behind := h'.position_lt_of_line_lt h h_gt
    omega

/-- A place is told by its line and its column. -/
theorem Exact.position_eq {other : Location} (h : place.Exact text) (h' : other.Exact text)
    (h_line : place.line = other.line) (h_column : place.column = other.column) :
    place.position = other.position := by
  rw [← h.position, ← h'.position, h_line, h_column]

/-! ### The character at a place -/

theorem charAt?_feed {line : ℕ} (h : 1 ≤ line) (text : List Char) (column : ℤ) :
    charAt? ('\n' :: text) (line + 1) column = charAt? text line column := by
  rw [charAt?, lines_feed, show line + 1 - 1 = line - 1 + 1 by omega, List.getElem?_cons_succ,
    charAt?]

theorem charAt?_first {column : ℤ} (h_c : c ≠ '\n') (h : 1 ≤ column) (text : List Char) :
    charAt? (c :: text) 1 (column + 1) = charAt? text 1 column := by
  obtain ⟨first, behind, h_lines, h_cons⟩ := lines_other h_c text
  rw [charAt?, charAt?, h_cons, h_lines, Nat.sub_self, List.getElem?_cons_zero,
    List.getElem?_cons_zero, Option.bind_some, Option.bind_some,
    show (column + 1 - 1).toNat = (column - 1).toNat + 1 by omega, List.getElem?_cons_succ]

theorem charAt?_behind {line : ℕ} (h_c : c ≠ '\n') (h : 1 < line) (text : List Char)
    (column : ℤ) : charAt? (c :: text) line column = charAt? text line column := by
  obtain ⟨first, behind, h_lines, h_cons⟩ := lines_other h_c text
  rw [charAt?, charAt?, h_cons, h_lines, show line - 1 = line - 2 + 1 by omega,
    List.getElem?_cons_succ, List.getElem?_cons_succ]

/-- **The character at a place** is the one at its position, unless that ends the line. -/
theorem charAt?_ofPosition (h : text[p]? = some c) (h_c : c ≠ '\n') :
    charAt? text (ofPosition text p).line (ofPosition text p).column = some c := by
  induction text generalizing p with
  | nil => cases h
  | cons d text ih =>
    cases p with
    | zero =>
      -- the first character of a text that is no line feed is the first one of its first line
      obtain rfl : d = c := Option.some.inj h
      obtain ⟨first, behind, -, h_cons⟩ := lines_other h_c text
      rw [ofPosition_zero, charAt?, h_cons]
      rfl
    | succ p =>
      rw [List.getElem?_cons_succ] at h
      have h_le : p ≤ text.length := Nat.le_of_lt (List.getElem?_eq_some_iff.mp h).1
      have h_place := exact_ofPosition h_le
      have h_char := ih h
      rw [ofPosition_cons d h_le]
      dsimp only
      split
      · next h_feed =>
        subst h_feed
        rw [charAt?_feed h_place.line_pos, h_char]
      · next h_other =>
        split
        · next h_line =>
          rw [h_line] at h_char
          rw [charAt?_first h_other h_place.column_pos, h_char]
        · next h_line =>
          have h_lt : 1 < (ofPosition text p).line :=
            Nat.lt_of_le_of_ne h_place.line_pos fun h_eq => h_line h_eq.symm
          rw [charAt?_behind h_other h_lt, h_char]

end Location

/-! ### What reports are about -/

/-- The bracket that a fault is found at. The length of a whole program is no fault of one
bracket. -/
def Fault.bracket? : Fault → Option Opcode
  | nestingTooDeep .. | neverClosed | bodyTooLong _ => some .jz
  | neverOpened => some .jmp
  | programTooLong .. => none

namespace Source

/-- What is the matter with the bracket that a fault is found at. -/
inductive Concerns (text : List Char) : Fault → ℕ → Prop
  /-- It is opened inside `depth - 1` others. -/
  | tooDeep {i depth : ℕ} {limit : ℤ} (h : text[i]? = some '[')
      (h_depth : (openBefore text i).length + 1 = depth) :
      Concerns text (.nestingTooDeep depth limit) i
  /-- It is the innermost one that is open at the end of the text. -/
  | neverClosed {i : ℕ} {others : List ℕ} (h : text[i]? = some '[')
      (h_open : openBefore text text.length = i :: others) : Concerns text .neverClosed i
  /-- It closes where nothing is open. -/
  | neverOpened {i : ℕ} (h : text[i]? = some ']') (h_open : openBefore text i = []) :
      Concerns text .neverOpened i
  /-- Its loop has a body of so many words. -/
  | tooLong {i k words : ℕ} (h : Paired text i k) (h_words : size (between text i k) = words) :
      Concerns text (.bodyTooLong words) i

variable {text : List Char} {capacity : ℤ} {i : ℕ} {v : Violation}

/-- The bracket stands at the position, and it is of the kind that the fault is about. -/
theorem Concerns.bracket {fault : Fault} (h : Concerns text fault i) :
    ∃ op, fault.bracket? = some op ∧ text[i]? = some op.symbol := by
  cases h with
  | tooDeep h | neverClosed h => exact ⟨.jz, rfl, h⟩
  | neverOpened h => exact ⟨.jmp, rfl, h⟩
  | tooLong h => exact ⟨.jz, rfl, h.opening⟩

/-- What the scan finds at a character is the matter with a bracket. -/
theorem concerns_of_violationAt? (h : violationAt? text capacity i = some v) :
    Concerns text v.fault v.position := by
  rcases violationAt?_cases h with
    ⟨h_char, -, rfl⟩ | ⟨h_char, h_stack, rfl⟩ | ⟨j, others, h_char, h_stack, -, rfl⟩
  · exact .tooDeep h_char rfl
  · exact .neverOpened h_char h_stack
  · -- the fault is found at the partner of the bracket
    obtain ⟨h_lt, h_open, -, h_inner⟩ := openBefore_eq_cons h_stack
    exact .tooLong ⟨h_lt, h_open, h_char, h_inner⟩ rfl

/-- **What is reported is about one bracket**, or about the length of the program. -/
theorem concerns_of_compile {source : String}
    (h : Program.compile source capacity = .error v) :
    Concerns source.toList v.fault v.position ∨
      v = ⟨.programTooLong (size source.toList) capacity, source.toList.length⟩ := by
  rcases firstViolation?_eq_some (compile_eq_error_iff.mp h) with ⟨i, h_found⟩ | ⟨-, h_end⟩
  · exact Or.inl (concerns_of_violationAt? h_found.found)
  · rcases violationAtEnd?_cases h_end with ⟨j, others, h_stack, rfl⟩ | ⟨-, -, h_long⟩
    · -- the innermost of the brackets that are open at the end
      exact Or.inl (.neverClosed (openBefore_eq_cons h_stack).2.1 h_stack)
    · exact Or.inr h_long

/-- A bracket ends no line. -/
theorem symbol_ne_feed (op : Opcode) : op.symbol ≠ '\n' := by
  rcases op with c | _ | _
  · -- no command is a line feed either
    cases c <;> decide
  · decide
  · decide

/-- **The line and the column of a report are exact.**

* A report on any position of a text, its end included, has a place that leads back to the
  position: the text has its line, the line has its column, and counting up to there gives
  the position.
* Positions are in the order of their places, by lines and then by columns, and positions
  with one place are the same.
* What is reported of a text that is rejected has a position in the text. It is the end of
  the text if the whole program is too long. Otherwise a bracket stands at the line and the
  column of the report, and it is the bracket that the report is about. -/
theorem locations_exact (source : String) :
    (∀ category message (position : ℕ), position ≤ source.toList.length → ∃ place,
      (Diagnostic.ofPosition category message (some source) position).location = some place ∧
      place.position = position ∧ place.Exact source.toList) ∧
    (∀ first second : ℕ, first ≤ source.toList.length → second ≤ source.toList.length →
      let a := Location.ofPosition source.toList first
      let b := Location.ofPosition source.toList second
      (first < second ↔ toLex (a.line, a.column) < toLex (b.line, b.column)) ∧
        ((a.line, a.column) = (b.line, b.column) → first = second)) ∧
    ∀ capacity v, Program.compile source capacity = .error v → ∃ place,
      (v.diagnose source).location = some place ∧ place.position = v.position ∧
      place.Exact source.toList ∧ v.position ≤ source.toList.length ∧
      ((v.position = source.toList.length ∧ ∃ words, v.fault = .programTooLong words capacity) ∨
        (v.position < source.toList.length ∧ Concerns source.toList v.fault v.position ∧
          ∃ op, v.fault.bracket? = some op ∧
            Location.charAt? source.toList place.line place.column = some op.symbol)) := by
  refine ⟨?_, ?_, ?_⟩
  · intro category message position h_le
    exact ⟨_, rfl, rfl, Location.exact_ofPosition h_le⟩
  · intro first second h_first h_second a b
    have h_a : a.Exact source.toList := Location.exact_ofPosition h_first
    have h_b : b.Exact source.toList := Location.exact_ofPosition h_second
    refine ⟨?_, fun h_eq => ?_⟩
    · rw [← h_a.lt_iff h_b]
      exact Nat.cast_lt.symm
    · obtain ⟨h_line, h_column⟩ := Prod.mk.inj h_eq
      exact Nat.cast_injective (h_a.position_eq h_b h_line h_column)
  · intro capacity v h_error
    refine ⟨Location.ofPosition source.toList v.position, rfl, rfl, ?_⟩
    rcases concerns_of_compile h_error with h_bracket | rfl
    · -- a bracket stands at the position, so it is in the text and its place shows it
      obtain ⟨op, h_op, h_char⟩ := h_bracket.bracket
      have h_lt := (List.getElem?_eq_some_iff.mp h_char).1
      refine ⟨Location.exact_ofPosition (Nat.le_of_lt h_lt), Nat.le_of_lt h_lt, Or.inr ?_⟩
      exact ⟨h_lt, h_bracket, op, h_op, Location.charAt?_ofPosition h_char (symbol_ne_feed op)⟩
    · exact ⟨Location.exact_ofPosition (Nat.le_refl _), Nat.le_refl _, Or.inl ⟨rfl, _, rfl⟩⟩

/-- A bracket behind an empty line is never closed. It stands on the third line, in the
second column, behind four other characters. -/
theorem locations_exact_unclosed :
    Program.compile "+\n\n>[." 1024 = .error ⟨.neverClosed, 4⟩ ∧
      (Violation.diagnose "+\n\n>[." ⟨.neverClosed, 4⟩).location = some ⟨4, 3, 2⟩ ∧
      Location.Exact "+\n\n>[.".toList ⟨4, 3, 2⟩ ∧
      Location.charAt? "+\n\n>[.".toList 3 2 = some '[' := by
  have h_error : Program.compile "+\n\n>[." 1024 = .error ⟨.neverClosed, 4⟩ := by
    decide +kernel
  obtain ⟨place, h_place, -, h_exact, -, h_what⟩ := (locations_exact "+\n\n>[.").2.2 1024 _ h_error
  have h_location : (Violation.diagnose "+\n\n>[." ⟨.neverClosed, 4⟩).location
      = some ⟨4, 3, 2⟩ := by
    decide
  obtain rfl : place = ⟨4, 3, 2⟩ := Option.some.inj (h_place.symm.trans h_location)
  rcases h_what with ⟨h_end, -⟩ | ⟨-, -, op, h_op, h_char⟩
  · exact absurd h_end (by decide)
  · obtain rfl : Opcode.jz = op := Option.some.inj h_op
    exact ⟨h_error, h_location, h_exact, h_char⟩

end Source

end TapeProcessor
