import TapeProcessor.Proofs.Listing.Columns

/-!
# A listing covers its addresses without a gap

The instructions of a listing are found one behind the other: where the next begins is
known only when the last is decoded, and the code repeats in both directions. Whatever the
bounds and the code, what is printed lies without gap or overlap, shows each word of the
code that it passes exactly once, and ends at the bound, or a word behind it if the last
instruction is a jump that begins just in front of the bound.

* `Listing.Rows` is the walk that leads from one address to another, with its lines.
  `Listing.exists_rows` says that there is one from any address, and
  `Listing.Rows.toList_linesFrom` that its lines are those of the listing.
* `Listing.Adjoin` and `Listing.Covers` say what this means of the text alone, with the
  addresses and the raw words read out of it.
* A walk can be cut at every address where a line begins (`Listing.Rows.split`), since
  what follows depends on the address alone.

`Listing.lines_cover` puts it together. What a walk shows depends on no more than the words
that it passes (`Listing.Rows.congr`).
-/

namespace TapeProcessor

namespace Listing

/-! ### The walk of a listing -/

section Walk

variable (code : Array UInt8) (capacity stop : ℤ)

/-- The walk of a listing that ends at `stop`: the lines from one address on, and the
address behind the last of them. -/
inductive Rows : ℤ → List Line → ℤ → Prop
  | done {a : ℤ} (h_end : stop ≤ a) : Rows a [] a
  | line {a e : ℤ} {rest : List Line} (h_lt : a < stop)
      (h_rest : Rows (a + (lineAt code capacity a).instruction.size) rest e) :
      Rows a (lineAt code capacity a :: rest) e

variable {code capacity stop}

/-- From any address there is a walk, since each line leads nearer to the bound. -/
theorem exists_rows (a : ℤ) : ∃ ls e, Rows code capacity stop a ls e := by
  by_cases h_lt : a < stop
  · have h_pos := (lineAt code capacity a).instruction.size_pos
    obtain ⟨ls, e, h_rest⟩ := exists_rows (a + (lineAt code capacity a).instruction.size)
    exact ⟨_, e, .line h_lt h_rest⟩
  · exact ⟨[], a, .done (Int.not_lt.mp h_lt)⟩
termination_by (stop - a).toNat

/-- The lines of a listing from an address on are those of the walk. -/
theorem Rows.toList_linesFrom {a e : ℤ} {ls : List Line} (h : Rows code capacity stop a ls e)
    (before : Array Line) :
    (linesFrom code capacity stop before a).toList = before.toList ++ ls := by
  induction h generalizing before with
  | done h_end => rw [linesFrom, if_neg (Int.not_lt.mpr h_end), List.append_nil]
  | line h_lt _ ih =>
    rw [linesFrom, if_pos h_lt, ih, Array.toList_push, List.append_assoc, List.singleton_append]

/-- A listing that begins with no lines is the walk. -/
theorem Rows.linesFrom_eq {a e : ℤ} {ls : List Line} (h : Rows code capacity stop a ls e) :
    linesFrom code capacity stop #[] a = ls.toArray := by
  rw [← Array.toList_inj, h.toList_linesFrom, Array.toList_empty, List.nil_append]

/-- A listing is a walk, unless there is something to list and no code. -/
theorem Rows.lines_eq {a e : ℤ} {ls : List Line} (h : Rows code capacity stop a ls e)
    (h_some : ¬ (code.size = 0 ∧ a < stop)) : lines code a stop capacity = some ls.toArray := by
  rw [lines, if_neg, h.linesFrom_eq]
  rwa [Array.isEmpty_iff_size_eq_zero]

/-- Without code there is an answer only if there is nothing to list. -/
theorem lines_eq_none_iff {start : ℤ} :
    lines code start stop capacity = none ↔ code.size = 0 ∧ start < stop := by
  have h_empty : code.isEmpty ∧ start < stop ↔ code.size = 0 ∧ start < stop := by
    rw [Array.isEmpty_iff_size_eq_zero]
  rw [← h_empty, lines]
  split
  case isTrue h => exact ⟨fun _ => h, fun _ => rfl⟩
  case isFalse h => simp only [reduceCtorEq, h]

end Walk

/-! ### What a walk passes -/

variable {code : Array UInt8} {capacity stop a e : ℤ} {ls : List Line}

/-- A line shows as many raw words as its instruction has. -/
theorem length_words_lineAt :
    (lineAt code capacity a).words.length = (lineAt code capacity a).instruction.size := by
  rw [lineAt, List.length_map, List.length_range]

/-- An instruction is a jump if it has two words. -/
theorem size_instruction (i : Instruction) :
    (i.size = 1 ∧ i.opcode ≠ .jz ∧ i.opcode ≠ .jmp) ∨
      (i.size = 2 ∧ (i.opcode = .jz ∨ i.opcode = .jmp)) := by
  cases i <;> simp [Instruction.size, Instruction.opcode, Opcode.size]

namespace Rows

/-- A walk goes upward. -/
theorem le (h : Rows code capacity stop a ls e) : a ≤ e := by
  induction h with
  | done => exact Int.le_refl _
  | line _ _ ih => omega

/-- Each line is that of its own address, which is below the bound. -/
theorem mem_line (h : Rows code capacity stop a ls e) {l : Line} (h_mem : l ∈ ls) :
    l = lineAt code capacity l.address ∧ l.address < stop := by
  induction h with
  | done => cases h_mem
  | line h_lt _ ih =>
    rcases List.mem_cons.mp h_mem with rfl | h_mem
    · exact ⟨rfl, h_lt⟩
    · exact ih h_mem

/-- Its lines lie behind its start. -/
theorem le_address (h : Rows code capacity stop a ls e) {l : Line} (h_mem : l ∈ ls) :
    a ≤ l.address := by
  induction h with
  | done => cases h_mem
  | line h_lt _ ih =>
    rcases List.mem_cons.mp h_mem with rfl | h_mem
    · exact Int.le_refl _
    · have h_next := ih h_mem
      omega

/-- **The addresses rise** from line to line. -/
theorem rising (h : Rows code capacity stop a ls e) : (ls.map Line.address).Pairwise (· < ·) := by
  induction h with
  | done => exact .nil
  | @line a e rest h_lt h_rest ih =>
    refine List.pairwise_cons.mpr ⟨List.forall_mem_map.mpr fun l h_mem => ?_, ih⟩
    have h_pos := (lineAt code capacity a).instruction.size_pos
    -- the lines behind lie behind this instruction, which has a word
    have h_next := h_rest.le_address h_mem
    rw [show (lineAt code capacity a).address = a from rfl]
    omega

/-- Where there are no jumps, there is a line for every address. -/
theorem mem_of_size_one (h : Rows code capacity stop a ls e)
    (h_one : ∀ m, (lineAt code capacity m).instruction.size = 1) {m : ℤ} (h_from : a ≤ m)
    (h_to : m < stop) : lineAt code capacity m ∈ ls := by
  induction h with
  | done h_end => omega
  | @line a e rest h_lt _ ih =>
    rw [h_one a] at ih
    rcases Int.lt_or_eq_of_le h_from with h_behind | rfl
    · exact List.mem_cons_of_mem _ (ih (by omega))
    · exact List.mem_cons_self

/-- **A walk ends at the bound**, or a word behind it. -/
theorem ends (h : Rows code capacity stop a ls e) (h_le : a ≤ stop) :
    e = stop ∨ e = stop + 1 := by
  induction h with
  | done h_end => exact Or.inl (Int.le_antisymm h_le h_end)
  | @line a e _ h_lt h_rest ih =>
    have h_size := size_instruction (lineAt code capacity a).instruction
    by_cases h_next : a + (lineAt code capacity a).instruction.size ≤ stop
    · exact ih h_next
    -- the last instruction has two words, and the walk is over behind it
    · cases h_rest with
      | done => omega
      | line h_lt' => omega

/-- **The word behind the bound** belongs to a jump that begins just in front of it. -/
theorem overshoots_iff (h : Rows code capacity stop a ls e) (h_le : a ≤ stop) :
    e = stop + 1 ↔
      ∃ l ∈ ls, l.address = stop - 1 ∧
        (l.instruction.opcode = .jz ∨ l.instruction.opcode = .jmp) := by
  induction h with
  | done h_end =>
    refine ⟨fun h_behind => by omega, ?_⟩
    rintro ⟨l, h_mem, -⟩
    cases h_mem
  | @line a e rest h_lt h_rest ih =>
    have h_size := size_instruction (lineAt code capacity a).instruction
    rw [List.exists_mem_cons_iff, show (lineAt code capacity a).address = a from rfl]
    -- either this is not yet the last line, or it has two words and begins at `stop - 1`
    by_cases h_next : a + (lineAt code capacity a).instruction.size ≤ stop
    · rw [ih h_next]
      refine ⟨Or.inr, fun h_line => h_line.resolve_left ?_⟩
      rintro ⟨h_last, h_op⟩
      rcases h_size with ⟨-, h_jz, h_jmp⟩ | ⟨h_two, -⟩
      · exact h_op.elim h_jz h_jmp
      · omega
    · have h_two := h_size.resolve_left fun h_one => by omega
      refine ⟨fun _ => Or.inl ⟨by omega, h_two.2⟩, fun _ => ?_⟩
      cases h_rest with
      | done => omega
      | line h_lt' => omega

/-- **The words passed** are those of the code, each once and in order. -/
theorem words (h : Rows code capacity stop a ls e) :
    ls.flatMap Line.words = (List.range (e - a).toNat).map fun k : ℕ => wordAt code (a + k) := by
  induction h with
  | done => simp
  | @line a e rest h_lt h_rest ih =>
    have h_le := h_rest.le
    have h_length : (e - a).toNat = (lineAt code capacity a).instruction.size
        + (e - (a + (lineAt code capacity a).instruction.size)).toNat := by omega
    -- the words of this line, and those that the rest of the walk passes
    rw [List.flatMap_cons, ih, h_length, List.range_add, List.map_append, List.map_map]
    congr 1
    refine List.map_congr_left fun k _ => ?_
    rw [Function.comp_apply, Int.natCast_add, Int.add_assoc]

/-- **A walk is cut** where a line begins. -/
theorem split (h : Rows code capacity stop a ls e) {l : Line} (h_mem : l ∈ ls) :
    ∃ first second, ls = first ++ second ∧ Rows code capacity l.address a first l.address ∧
      Rows code capacity stop l.address second e := by
  induction h with
  | done => cases h_mem
  | @line a e rest h_lt h_rest ih =>
    rcases List.mem_cons.mp h_mem with rfl | h_mem
    · exact ⟨[], _, rfl, .done (Int.le_refl _), .line h_lt h_rest⟩
    -- in front of the cut the bound is lower, but this line begins below it too
    · obtain ⟨first, second, rfl, h_first, h_second⟩ := ih h_mem
      have h_pos := (lineAt code capacity a).instruction.size_pos
      have h_le := h_first.le
      exact ⟨_ :: first, second, rfl, .line (by omega) h_first, h_second⟩

end Rows

/-- An instruction is decoded from its own words. -/
theorem lineAt_congr {code' : Array UInt8}
    (h : ∀ k, a ≤ k → k < a + (lineAt code capacity a).instruction.size →
      wordAt code k = wordAt code' k) : lineAt code' capacity a = lineAt code capacity a := by
  have h_pos := (lineAt code capacity a).instruction.size_pos
  have h_first := h a (Int.le_refl a) (by omega)
  have h_decode : Instruction.decode code' capacity a = Instruction.decode code capacity a := by
    -- the word behind the first is read for a jump alone, which has it
    have h_second (h_two : (lineAt code capacity a).instruction.size = 2) :=
      h (a + 1) (by omega) (by omega)
    rw [lineAt] at h_second
    unfold Instruction.decode at h_second ⊢
    rw [← h_first]
    cases h_op : Opcode.ofWord (wordAt code a) with
    | plain c => rfl
    | jz | jmp =>
      rw [h_op] at h_second
      rw [h_second rfl]
  rw [lineAt, h_decode, lineAt]
  refine congrArg (Line.mk a · _) (List.map_congr_left fun k h_mem => ?_)
  have h_size : (lineAt code capacity a).instruction.size
      = (Instruction.decode code capacity a).size := rfl
  rw [List.mem_range] at h_mem
  exact (h (a + k) (by omega) (by omega)).symm

/-- **A walk depends on the words that it passes**, and on no others. -/
theorem Rows.congr {code' : Array UInt8} (h : Rows code capacity stop a ls e)
    (h_words : ∀ k, a ≤ k → k < e → wordAt code k = wordAt code' k) :
    Rows code' capacity stop a ls e := by
  induction h with
  | done h_end => exact .done h_end
  | @line a e rest h_lt h_rest ih =>
    have h_le := h_rest.le
    have h_line : lineAt code' capacity a = lineAt code capacity a :=
      lineAt_congr fun k h_from h_to => h_words k h_from (by omega)
    have h_rest' := ih fun k h_from h_to => h_words k (by omega) h_to
    rw [← h_line] at h_rest' ⊢
    exact .line h_lt h_rest'

/-! ### The text -/

/-- Lines of text that lie from one address to another: each shows the address where it
begins, the operation there, and as many raw words as that operation has, and the next
begins behind those words. -/
inductive Adjoin : List String → ℤ → ℤ → Prop
  | nil (a : ℤ) : Adjoin [] a a
  | cons {text : String} {rest : List String} {a e : ℤ} {op : Opcode} {words : List UInt8}
      (h_address : Line.addressIn? text = some a) (h_opcode : Line.opcodeIn? text = some op)
      (h_words : Line.wordsIn? text = some words) (h_length : words.length = op.size)
      (h_rest : Adjoin rest (a + words.length) e) : Adjoin (text :: rest) a e

/-- The text of a listing covers the addresses from `start` to `e`. -/
structure Covers (code : Array UInt8) (start stop : ℤ) (texts : List String) (e : ℤ) : Prop where
  /-- The lines lie from `start` to `e` without gap or overlap. -/
  adjoin : Adjoin texts start e
  /-- The first line shows the address where the listing starts. -/
  begins : (texts.head?.bind Line.addressIn?) = some start
  /-- Each line begins below the bound, the last one too. -/
  below : ∀ text ∈ texts, ∃ a, Line.addressIn? text = some a ∧ a < stop
  /-- The listing ends at the bound, or one word behind it. -/
  ends : e = stop ∨ e = stop + 1
  /-- It ends behind the bound exactly if a jump begins on the last word in front of it. -/
  overshoots : e = stop + 1 ↔
    ∃ text ∈ texts, Line.addressIn? text = some (stop - 1) ∧
      (Line.opcodeIn? text = some .jz ∨ Line.opcodeIn? text = some .jmp)
  /-- The raw words of all lines are the words of the code, from `start` up to `e`. -/
  words : ∃ rows, texts.mapM Line.wordsIn? = some rows ∧
    rows.flatten.map some
      = (List.range (e - start).toNat).map fun k : ℕ => code[((start + k) % code.size).toNat]?

/-- Some code has a word for every address. -/
theorem some_wordAt (h_code : 0 < code.size) (address : ℤ) :
    some (wordAt code address) = code[(address % code.size).toNat]? := by
  have h_lt : address % code.size < code.size := Int.emod_lt_of_pos _ (by exact_mod_cast h_code)
  have h_inside : (address % code.size).toNat < code.size := by omega
  rw [wordAt, Array.getD_eq_getD_getElem?, Array.getElem?_eq_getElem h_inside, Option.getD_some]

/-- The text of the lines of a walk lies without gap or overlap. -/
theorem Rows.adjoin (h : Rows code capacity stop a ls e) : Adjoin (ls.map Line.render) a e := by
  induction h with
  | done => exact .nil _
  | line h_lt _ ih =>
    refine .cons (Line.addressIn?_render _) opcodeIn?_render (Line.wordsIn?_render rawText_lineAt)
      length_words_lineAt ?_
    rw [length_words_lineAt]
    exact ih

/-- The raw words of the lines are read back from their text. -/
theorem Rows.mapM_wordsIn? (h : Rows code capacity stop a ls e) :
    (ls.map Line.render).mapM Line.wordsIn? = some (ls.map Line.words) := by
  induction h with
  | done => rfl
  | line h_lt _ ih =>
    rw [List.map_cons, List.mapM_cons, Line.wordsIn?_render rawText_lineAt, ih]
    rfl

/-- **The text of a walk covers** the addresses that it passes. -/
theorem Rows.covers (h : Rows code capacity stop a ls e) (h_code : 0 < code.size)
    (h_lt : a < stop) : Covers code a stop (ls.map Line.render) e where
  adjoin := h.adjoin
  begins := by
    cases h with
    | done h_end => omega
    | line =>
      rw [List.map_cons, List.head?_cons, Option.bind_some, Line.addressIn?_render]
      rfl
  below := by
    rw [List.forall_mem_map]
    exact fun l h_mem => ⟨_, Line.addressIn?_render l, (h.mem_line h_mem).2⟩
  ends := h.ends (Int.le_of_lt h_lt)
  overshoots := by
    -- the text of a line tells whether its instruction is a jump
    have h_jump {l : Line} (h_mem : l ∈ ls) (op : Opcode) :
        Line.opcodeIn? l.render = some op ↔ l.instruction.opcode = op := by
      rw [(h.mem_line h_mem).1, opcodeIn?_render, Option.some_inj]
    simp only [h.overshoots_iff (Int.le_of_lt h_lt), List.mem_map, exists_exists_and_eq_and,
      Line.addressIn?_render, Option.some_inj]
    exact exists_congr fun l => and_congr_right fun h_mem => by rw [h_jump h_mem, h_jump h_mem]
  words := by
    refine ⟨_, h.mapM_wordsIn?, ?_⟩
    rw [← List.flatMap_def, h.words, List.map_map]
    exact List.map_congr_left fun k _ => some_wordAt h_code (a + k)

/-- **A listing covers its addresses, and can be cut at every line.** Let there be some code
and an address below a bound, of any sign and size. Then there is a listing, and its text
covers the addresses up to the bound, or up to one word more (`Covers`). For every address
that a line shows it is the listing up to this address, followed by the listing from it on.
Without code there is no listing exactly if there would be something to list. -/
theorem lines_cover (code : Array UInt8) (capacity : ℤ) {start stop : ℤ} (h_code : 0 < code.size)
    (h_lt : start < stop) :
    (∃ ls e, lines code start stop capacity = some ls ∧
      Covers code start stop (ls.toList.map Line.render) e ∧
      ∀ text ∈ ls.toList.map Line.render, ∀ m, Line.addressIn? text = some m →
        ∃ first second, lines code start m capacity = some first ∧
          lines code m stop capacity = some second ∧ ls = first ++ second) ∧
    ∀ first last : ℤ, lines #[] first last capacity = none ↔ first < last := by
  refine ⟨?_, fun first last => by simp [lines_eq_none_iff]⟩
  obtain ⟨ls, e, h_rows⟩ : ∃ ls e, Rows code capacity stop start ls e := exists_rows start
  refine ⟨_, e, h_rows.lines_eq (by omega), h_rows.covers h_code h_lt, ?_⟩
  rw [List.forall_mem_map]
  intro l h_mem m h_address
  rw [Line.addressIn?_render, Option.some_inj] at h_address
  subst h_address
  obtain ⟨first, second, rfl, h_first, h_second⟩ := h_rows.split h_mem
  exact ⟨_, _, h_first.lines_eq (by omega), h_second.lines_eq (by omega), by simp⟩

/-- Three words listed from below zero, round and round. The loop test is met at -2 and at 1,
the last address below the bound, so that its distance lies behind. -/
theorem lines_cover_signed :
    ∃ ls e, lines #[5, 0xFE, 4] (-4) 2 8 = some ls ∧
      ls.toList.map Line.render = ["-004: 04     PUT", "-003: 05     GET",
        "-002: FE 04  JZ 4  ; -> 0x003", "0000: 05     GET", "0001: FE 04  JZ 4  ; -> 0x006"] ∧
      Covers #[5, 0xFE, 4] (-4) 2 (ls.toList.map Line.render) e ∧ e = 3 ∧
      ∃ first second, lines #[5, 0xFE, 4] (-4) (-2) 8 = some first ∧
        lines #[5, 0xFE, 4] (-2) 2 8 = some second ∧ ls = first ++ second := by
  have h_lt : (-4 : ℤ) < 2 := by decide
  obtain ⟨⟨ls, e, h_lines, h_covers, h_split⟩, -⟩ := lines_cover #[5, 0xFE, 4] 8 (by decide) h_lt
  have h_texts : (lines #[5, 0xFE, 4] (-4) 2 8).map (fun ls => ls.toList.map Line.render)
      = some ["-004: 04     PUT", "-003: 05     GET", "-002: FE 04  JZ 4  ; -> 0x003",
        "0000: 05     GET", "0001: FE 04  JZ 4  ; -> 0x006"] := by
    decide +kernel
  rw [h_lines, Option.map_some, Option.some_inj] at h_texts
  refine ⟨ls, e, h_lines, h_texts, h_covers, ?_, ?_⟩
  · rw [h_covers.overshoots.mpr]
    · decide
    · rw [h_texts]
      exact ⟨"0001: FE 04  JZ 4  ; -> 0x006", by decide, by decide +kernel, by decide +kernel⟩
  · refine h_split "-002: FE 04  JZ 4  ; -> 0x003" ?_ (-2) (by decide +kernel)
    rw [h_texts]
    decide

end Listing

end TapeProcessor
