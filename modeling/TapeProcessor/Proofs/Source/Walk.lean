import TapeProcessor.Proofs.Program.Place

/-!
# Walking through a source text

The meaning of a source text read character by character, with no tree and no
image. `Source.turn text g i t` is what the character at position `i` does on one
clock: a command acts on the tape and goes to the next operation, a `[` on a zero
goes just past its partner, a `]` goes back to its partner. Partners are found by
counting brackets (`Source.partner?`), and comments are passed over
(`Source.settle`). `Source.walk` is a run under the signals of a row of clocks.

`Source.operations text` are the operations of a text; they tell what is left of it
without its comments (`Source.commands_eq_iff`). `Source.offset text i` is the number of
words of the operations before `i`. It is the address that position `i` has in the image.

The walk is compared with the structured semantics of the tree `p` of the text.
`Source.Marks text f i` says that position `i` is that of the site `f`: from `i` on
stand the operations that are left at `f`, and `i` is no comment. Then

* the position has the address of the site (`Source.Marks.offset_eq`);
* the walk and the tree take the same turn (`Source.Marks.turn`). The point is
  that the brackets which the text pairs by counting are those of one loop of the
  tree, since the operations of a body are balanced (`Source.Nested`).
-/

namespace TapeProcessor

/-- Two outcomes of a clock that do the same and lead to related places. -/
inductive Turn.Rel {P Q : Type} {n : ℕ} (R : P → Q → Prop) : Turn P n → Turn Q n → Prop
  | finished : Rel R .finished .finished
  | waits : Rel R .waits .waits
  | goes {p : P} {q : Q} (deed : Deed n) : R p q → Rel R (.goes p deed) (.goes q deed)

/-- The place and the tape after a clock at `place`; `none` if the machine is finished. -/
def Turn.land {P : Type} {n : ℕ} (place : P) (t : Tape n) : Turn P n → Option (P × Tape n)
  | .finished => none
  | .waits => some (place, t)
  | .goes next deed => some (next, deed.tape)

theorem Turn.land_eq_none_iff {P : Type} {n : ℕ} {place : P} {t : Tape n} {turn : Turn P n} :
    turn.land place t = none ↔ turn = .finished := by
  cases turn <;> simp [land]

namespace Source

variable {n : ℕ}

/-- The operations of a text. -/
def operations (text : List Char) : List Opcode := text.filterMap Opcode.ofSymbol?

/-- A text without its comments. -/
def commands (source : String) : String :=
  String.ofList (source.toList.filter fun c => (Opcode.ofSymbol? c).isSome)

/-- The operation at a position; `none` at a comment and past the end. -/
def opcodeAt? (text : List Char) (i : ℕ) : Option Opcode := text[i]?.bind Opcode.ofSymbol?

/-- The number of words of the operations before a position. -/
def offset (text : List Char) (i : ℕ) : ℕ := Opcode.wordCount (operations (text.take i))

/-- The first position from `i` on that is no comment. -/
def settle (text : List Char) (i : ℕ) : ℕ :=
  i + ((text.drop i).takeWhile fun c => (Opcode.ofSymbol? c).isNone).length

/-- The number of characters in front of the bracket that closes, if `depth` more
have to be closed before. -/
def seek (opening closing : Opcode) : ℕ → List Char → Option ℕ
  | _, [] => none
  | depth, c :: rest =>
    if Opcode.ofSymbol? c = some closing then
      match depth with
      | 0 => some 0
      | depth + 1 => (seek opening closing depth rest).map (· + 1)
    else if Opcode.ofSymbol? c = some opening then
      (seek opening closing (depth + 1) rest).map (· + 1)
    else (seek opening closing depth rest).map (· + 1)

/-- The position of the bracket that matches the one at position `i`. -/
def partner? (text : List Char) (i : ℕ) : Option ℕ :=
  match opcodeAt? text i with
  | some .jz => (seek .jz .jmp 0 (text.drop (i + 1))).map fun k => i + 1 + k
  | some .jmp => (seek .jmp .jz 0 (text.take i).reverse).map fun k => i - 1 - k
  | _ => none

/-- What the character at a position does on one clock. -/
def turn (text : List Char) (g : Signals) (i : ℕ) (t : Tape n) : Turn ℕ n :=
  match opcodeAt? text i with
  | none => .finished
  | some (.plain c) =>
    match t.act g c with
    | none => .waits
    | some deed => .goes (settle text (i + 1)) deed
  | some .jz =>
    if t.cell = 0 then
      match partner? text i with
      | none => .finished
      | some j => .goes (settle text (j + 1)) (.silent t)
    else .goes (settle text (i + 1)) (.silent t)
  | some .jmp =>
    match partner? text i with
    | none => .finished
    | some j => .goes j (.silent t)

/-- The position and the tape after a row of clocks; `none` if the walk was finished
before the last of them. -/
def walk (text : List Char) : List Signals → ℕ → Tape n → Option (ℕ × Tape n)
  | [], i, t => some (i, t)
  | g :: rest, i, t => ((turn text g i t).land i t).bind fun (j, u) => walk text rest j u

/-- The brackets of a text are paired by counting: the outer pair of `[+[-]]` and its
inner one. -/
example : partner? "a[+[-]]".toList 1 = some 6 ∧ partner? "a[+[-]]".toList 5 = some 3 := by
  decide

/-! ### Positions and comments -/

section Positions

variable {text : List Char}

@[simp] theorem operations_append (text more : List Char) :
    operations (text ++ more) = operations text ++ operations more :=
  List.filterMap_append ..

theorem operations_cons {c : Char} {op : Opcode} (h : Opcode.ofSymbol? c = some op)
    (rest : List Char) : operations (c :: rest) = op :: operations rest :=
  List.filterMap_cons_some h

/-- The first operation of a text stands behind comments. -/
theorem exists_of_operations_cons {op : Opcode} {ops : List Opcode}
    (h : operations text = op :: ops) :
    ∃ l c rest, text = l ++ c :: rest ∧ (∀ x ∈ l, Opcode.ofSymbol? x = none) ∧
      Opcode.ofSymbol? c = some op ∧ operations rest = ops :=
  List.filterMap_eq_cons_iff.mp h

theorem operations_comments {l : List Char} (h : ∀ x ∈ l, Opcode.ofSymbol? x = none) :
    operations l = [] :=
  List.filterMap_eq_nil_iff.mpr h

/-- The operations of a text spell it without its comments. -/
theorem map_symbol_operations (text : List Char) :
    (operations text).map Opcode.symbol
      = text.filter fun c => (Opcode.ofSymbol? c).isSome := by
  induction text with
  | nil => rfl
  | cons c text ih =>
    cases h_char : Opcode.ofSymbol? c with
    | none =>
      rw [operations, List.filterMap_cons_none h_char, ← operations, ih,
        List.filter_cons_of_neg (by simp [h_char])]
    | some op =>
      rw [operations_cons h_char, List.map_cons, ih, List.filter_cons_of_pos (by simp [h_char]),
        Opcode.ofSymbol?_eq_some_iff.mp h_char]

/-- Texts that differ in comments only have the same operations. -/
theorem commands_eq_iff {source other : String} :
    commands source = commands other ↔ operations source.toList = operations other.toList := by
  rw [commands, commands, String.ofList_inj, ← map_symbol_operations, ← map_symbol_operations]
  constructor
  · intro h
    rw [← Opcode.filterMap_ofSymbol? (operations source.toList), h, Opcode.filterMap_ofSymbol?]
  · intro h
    rw [h]

theorem opcodeAt?_append {before rest : List Char} {c : Char} :
    opcodeAt? (before ++ c :: rest) before.length = Opcode.ofSymbol? c := by
  rw [opcodeAt?, List.getElem?_append_right (Nat.le_refl _), Nat.sub_self]
  rfl

theorem opcodeAt?_length : opcodeAt? text text.length = none := by
  rw [opcodeAt?, List.getElem?_eq_none (Nat.le_refl _)]
  rfl

/-- The words up to a later position are those up to an earlier one and those in between. -/
theorem offset_add (text : List Char) (i k : ℕ) :
    offset text (i + k)
      = offset text i + Opcode.wordCount (operations ((text.drop i).take k)) := by
  rw [offset, List.take_add, operations_append, Opcode.wordCount_append, offset]

/-- Behind an operation the address has moved on by its words. -/
theorem offset_succ {i : ℕ} {op : Opcode} (h : opcodeAt? text i = some op) :
    offset text (i + 1) = offset text i + op.size := by
  obtain ⟨c, h_char, h_op⟩ := Option.bind_eq_some_iff.mp h
  obtain ⟨h_lt, h_get⟩ := List.getElem?_eq_some_iff.mp h_char
  have h_one : (text.drop i).take 1 = [c] := by
    rw [List.drop_eq_getElem_cons h_lt, h_get, List.take_succ_cons, List.take_zero]
  rw [offset_add, h_one, operations_cons h_op]
  rfl

/-- **No operation starts at a distance.** The words behind the brackets are not
addresses of operations. -/
theorem offset_ne_distance {i k : ℕ} {op : Opcode} (h_i : opcodeAt? text i = some op)
    (h_k : opcodeAt? text k = some .jz ∨ opcodeAt? text k = some .jmp) :
    offset text i ≠ offset text k + 1 := by
  -- an operation in front ends before the bracket, one behind begins after its distance
  rcases Nat.lt_trichotomy i k with h_lt | rfl | h_lt
  · have h_next := offset_succ h_i
    have h_pos := op.size_pos
    obtain ⟨d, rfl⟩ := Nat.exists_eq_add_of_le (show i + 1 ≤ k from h_lt)
    have h_add := offset_add text (i + 1) d
    omega
  · omega
  · have h_next : offset text (k + 1) = offset text k + 2 := by
      rcases h_k with h_k | h_k
      · exact offset_succ h_k
      · exact offset_succ h_k
    obtain ⟨d, rfl⟩ := Nat.exists_eq_add_of_le (show k + 1 ≤ i from h_lt)
    have h_add := offset_add text (k + 1) d
    omega

/-- From a position, comments are passed over up to the next operation. -/
theorem settle_append {before l rest : List Char} (h_comments : ∀ x ∈ l, Opcode.ofSymbol? x = none)
    (h_rest : ∀ c tail, rest = c :: tail → Opcode.ofSymbol? c ≠ none) :
    settle (before ++ (l ++ rest)) before.length = before.length + l.length := by
  rw [settle, List.drop_left, List.takeWhile_append_of_pos fun x hx => by simp [h_comments x hx]]
  cases rest with
  -- only comments follow
  | nil => rw [List.takeWhile_nil, List.append_nil]
  | cons c tail =>
    have h_op := h_rest c tail rfl
    rw [List.takeWhile_cons_of_neg (by simpa [Option.ne_none_iff_isSome] using h_op),
      List.append_nil]

/-- Position `i` is that of the site `f`: from there on stand the operations that are
left at `f`, and no comment comes first. -/
def Marks (text : List Char) (f : Site) (i : ℕ) : Prop :=
  ∃ before after, text = before ++ after ∧ before.length = i ∧ operations after = f.rest ∧
    ∀ c tail, after = c :: tail → Opcode.ofSymbol? c ≠ none

/-- Wherever the operations of a site are left, the next position that is no comment is
that of the site. -/
theorem marks_settle {f : Site} (before : List Char) {after : List Char}
    (h : operations after = f.rest) :
    Marks (before ++ after) f (settle (before ++ after) before.length) := by
  cases h_rest : f.rest with
  | nil =>
    -- only comments follow, and they are passed over to the end of the text
    have h_comments : ∀ x ∈ after, Opcode.ofSymbol? x = none :=
      List.filterMap_eq_nil_iff.mp (h.trans h_rest)
    have h_settle : settle (before ++ (after ++ [])) before.length = before.length + after.length :=
      settle_append h_comments (by simp)
    rw [List.append_nil] at h_settle
    exact ⟨before ++ after, [], by simp, by rw [h_settle, List.length_append], h_rest.symm, by simp⟩
  | cons op ops =>
    obtain ⟨l, c, rest, rfl, h_comments, h_c, h_ops⟩ := exists_of_operations_cons (h.trans h_rest)
    have h_head : ∀ x tail, c :: rest = x :: tail → Opcode.ofSymbol? x ≠ none := by
      intro x tail h_eq
      rw [← (List.cons.inj h_eq).1, h_c]
      simp
    refine ⟨before ++ l, c :: rest, by simp, ?_, ?_, h_head⟩
    · rw [settle_append h_comments h_head, List.length_append]
    · rw [operations_cons h_c, h_ops, h_rest]

/-- At a site that is not the end the position holds its operation. -/
theorem Marks.split {f : Site} {i : ℕ} {op : Opcode} {ops : List Opcode} (h : Marks text f i)
    (h_rest : f.rest = op :: ops) :
    ∃ before c rest, text = before ++ c :: rest ∧ before.length = i ∧
      Opcode.ofSymbol? c = some op ∧ operations rest = ops := by
  obtain ⟨before, after, rfl, h_length, h_ops, h_head⟩ := h
  obtain ⟨l, c, rest, rfl, h_comments, h_c, h_rest⟩ :=
    exists_of_operations_cons (h_ops.trans h_rest)
  cases l with
  | nil => exact ⟨before, c, rest, rfl, h_length, h_c, h_rest⟩
  | cons x l =>
    -- the first character would be a comment
    exact absurd (h_comments x List.mem_cons_self) (h_head x (l ++ c :: rest) rfl)

/-- A site with nothing left to do stands at the end of the text. -/
theorem Marks.eq_length {f : Site} {i : ℕ} (h : Marks text f i) (h_rest : f.rest = []) :
    i = text.length := by
  obtain ⟨before, after, rfl, rfl, h_ops, h_head⟩ := h
  cases after with
  | nil => rw [List.append_nil]
  | cons c tail =>
    have h_none := List.filterMap_eq_nil_iff.mp (h_ops.trans h_rest) c List.mem_cons_self
    exact absurd h_none (h_head c tail rfl)

/-- **A position has the address of its site.** -/
theorem Marks.offset_eq {p : Program} {f : Site} {i : ℕ} (h : Marks text f i) (h_in : f.Inside p)
    (h_tree : p.opcodes = operations text) : offset text i = f.address p := by
  obtain ⟨before, after, rfl, rfl, h_ops, -⟩ := h
  have h_address := h_in.address_add
  have h_count := congrArg Opcode.wordCount h_tree
  rw [Program.wordCount_opcodes, operations_append, Opcode.wordCount_append, h_ops] at h_count
  rw [offset, List.take_left]
  omega

end Positions

/-! ### Partners -/

/-- A row of operations in which every opening bracket is closed. Read backwards, a
closing bracket opens. -/
inductive Nested (opening closing : Opcode) : List Opcode → Prop
  | nil : Nested opening closing []
  | plain {l : List Opcode} (c : Command) :
      Nested opening closing l → Nested opening closing (.plain c :: l)
  | wrap {l m : List Opcode} :
      Nested opening closing l → Nested opening closing m →
      Nested opening closing (opening :: (l ++ closing :: m))

theorem Nested.append {opening closing : Opcode} {l m : List Opcode}
    (hl : Nested opening closing l) (hm : Nested opening closing m) :
    Nested opening closing (l ++ m) := by
  induction hl with
  | nil => exact hm
  | plain c _ ih => exact .plain c ih
  | wrap h_inner _ _ ih =>
    rw [List.cons_append, List.append_assoc, List.cons_append]
    exact .wrap h_inner ih

/-- The brackets of a tree are nested. -/
theorem nested_opcodes (p : Program) : Nested .jz .jmp p.opcodes := by
  induction p with
  | done => exact .nil
  | plain c next ih => exact .plain c ih
  | loop body next ih_body ih => exact .wrap ih_body ih

/-- They are nested as well if they are read backwards, with the closing bracket as the opening one.
-/
theorem nested_opcodes_reverse (p : Program) : Nested .jmp .jz p.opcodes.reverse := by
  induction p with
  | done => exact .nil
  | plain c next ih =>
    rw [Program.opcodes, List.reverse_cons]
    exact ih.append (.plain c .nil)
  | loop body next ih_body ih =>
    have h_wrap : Nested .jmp .jz (.jmp :: (body.opcodes.reverse ++ [.jz])) := .wrap ih_body .nil
    rw [Program.opcodes, List.reverse_cons, List.reverse_append, List.reverse_cons,
      List.append_assoc, List.append_assoc]
    exact ih.append h_wrap

section Seek

variable {opening closing : Opcode} {c : Char} {rest : List Char} {depth : ℕ}

theorem seek_opening (h_c : Opcode.ofSymbol? c = some opening) (h_ne : opening ≠ closing) :
    seek opening closing depth (c :: rest)
      = (seek opening closing (depth + 1) rest).map (· + 1) := by
  conv_lhs => unfold seek
  rw [h_c, if_neg (by simpa using h_ne), if_pos rfl]

theorem seek_closing_zero (h_c : Opcode.ofSymbol? c = some closing) :
    seek opening closing 0 (c :: rest) = some 0 := by
  unfold seek
  rw [if_pos h_c]

theorem seek_closing_succ (h_c : Opcode.ofSymbol? c = some closing) :
    seek opening closing (depth + 1) (c :: rest)
      = (seek opening closing depth rest).map (· + 1) := by
  conv_lhs => unfold seek
  rw [if_pos h_c]

theorem seek_other (h_open : Opcode.ofSymbol? c ≠ some opening)
    (h_close : Opcode.ofSymbol? c ≠ some closing) :
    seek opening closing depth (c :: rest) = (seek opening closing depth rest).map (· + 1) := by
  conv_lhs => unfold seek
  rw [if_neg h_close, if_neg h_open]

/-- A row of comments is passed over. -/
theorem seek_comments {l rest : List Char} (h : ∀ x ∈ l, Opcode.ofSymbol? x = none) (depth : ℕ) :
    seek opening closing depth (l ++ rest)
      = (seek opening closing depth rest).map (· + l.length) := by
  induction l with
  | nil => simp
  | cons x l ih =>
    have h_x := h x List.mem_cons_self
    rw [List.cons_append, seek_other (by simp [h_x]) (by simp [h_x]),
      ih fun y hy => h y (List.mem_cons_of_mem x hy), Option.map_map]
    rfl

/-- **Counting passes over nested brackets.** -/
theorem seek_nested (h_ne : opening ≠ closing) (h_open : ∀ k, Opcode.plain k ≠ opening)
    (h_close : ∀ k, Opcode.plain k ≠ closing) {ops : List Opcode}
    (h : Nested opening closing ops) {text : List Char} {m : List Opcode}
    (h_text : operations text = ops ++ m) (depth : ℕ) :
    ∃ l rest, text = l ++ rest ∧ operations l = ops ∧ operations rest = m ∧
      seek opening closing depth text
        = (seek opening closing depth rest).map (· + l.length) := by
  -- the induction is on the nesting; an inner pair is counted in and out again
  induction h generalizing text m depth with
  | nil => exact ⟨[], text, rfl, rfl, h_text, by simp⟩
  | @plain ops k _ ih =>
    obtain ⟨l, c, rest, rfl, h_comments, h_c, h_rest⟩ := exists_of_operations_cons h_text
    obtain ⟨l', rest', rfl, h_l', h_rest', h_seek⟩ := ih h_rest depth
    refine ⟨l ++ c :: l', rest', by simp, ?_, h_rest', ?_⟩
    · rw [operations_append, operations_comments h_comments, operations_cons h_c, h_l',
        List.nil_append]
    · rw [seek_comments h_comments, seek_other (by rw [h_c]; simpa using h_open k)
        (by rw [h_c]; simpa using h_close k), h_seek, Option.map_map, Option.map_map,
        List.length_append, List.length_cons]
      congr 1
      funext x
      simp only [Function.comp_apply]
      omega
  | @wrap inner ops _ _ ih_inner ih =>
    rw [List.cons_append, List.append_assoc, List.cons_append] at h_text
    obtain ⟨l₁, c, rest, rfl, h_comments, h_c, h_rest⟩ := exists_of_operations_cons h_text
    obtain ⟨l₂, rest, rfl, h_l₂, h_rest, h_seek⟩ := ih_inner h_rest (depth + 1)
    -- the bracket that closes, behind the inner operations
    obtain ⟨l₃, d, rest, rfl, h_comments', h_d, h_rest⟩ := exists_of_operations_cons h_rest
    obtain ⟨l₄, rest, rfl, h_l₄, h_rest, h_seek'⟩ := ih h_rest depth
    refine ⟨l₁ ++ c :: (l₂ ++ (l₃ ++ d :: l₄)), rest, by simp, ?_, h_rest, ?_⟩
    · rw [operations_append, operations_comments h_comments, operations_cons h_c,
        operations_append, h_l₂, operations_append, operations_comments h_comments',
        operations_cons h_d, h_l₄, List.nil_append, List.nil_append]
    · rw [seek_comments h_comments, seek_opening h_c h_ne, h_seek, seek_comments h_comments',
        seek_closing_succ h_d, h_seek']
      simp only [Option.map_map, List.length_append, List.length_cons]
      congr 1
      funext x
      simp only [Function.comp_apply]
      omega

/-- Counting finds the bracket behind nested operations. -/
theorem seek_closing (h_ne : opening ≠ closing) (h_open : ∀ k, Opcode.plain k ≠ opening)
    (h_close : ∀ k, Opcode.plain k ≠ closing) {ops : List Opcode}
    (h : Nested opening closing ops) {text : List Char} {m : List Opcode}
    (h_text : operations text = ops ++ closing :: m) :
    ∃ l c rest, text = l ++ c :: rest ∧ Opcode.ofSymbol? c = some closing ∧
      operations rest = m ∧ seek opening closing 0 text = some l.length := by
  obtain ⟨l, rest, rfl, -, h_rest, h_seek⟩ := seek_nested h_ne h_open h_close h h_text 0
  obtain ⟨l', c, rest, rfl, h_comments, h_c, h_m⟩ := exists_of_operations_cons h_rest
  refine ⟨l ++ l', c, rest, by simp, h_c, h_m, ?_⟩
  rw [h_seek, seek_comments h_comments, seek_closing_zero h_c, List.length_append]
  simp only [Option.map_some, Option.some.injEq]
  omega

end Seek

/-! ### The walk follows the tree -/

section Follow

variable {text : List Char} {p : Program} {i : ℕ} {body next : Program}
  {outer : List (Program × Program)}

/-- The next operation of a site, behind the one that the position holds. -/
theorem Marks.behind {f : Site} (f' : Site) {op : Opcode} (h : Marks text f i)
    (h_rest : f.rest = op :: f'.rest) : Marks text f' (settle text (i + 1)) := by
  obtain ⟨before, c, rest, rfl, rfl, h_c, h_ops⟩ := h.split h_rest
  have h_next := marks_settle (before ++ [c]) h_ops
  rwa [List.append_assoc, List.singleton_append, List.length_append] at h_next

/-- The partner of a `[` is where its loop is left. -/
theorem Marks.partner_jz (h : Marks text ⟨.loop body next, outer⟩ i) :
    ∃ j, partner? text i = some j ∧ Marks text ⟨next, outer⟩ (settle text (j + 1)) := by
  obtain ⟨before, c, rest, rfl, rfl, h_c, h_rest⟩ := h.split (Site.rest_loop body next outer)
  obtain ⟨l, d, behind, rfl, h_d, h_behind, h_seek⟩ :=
    seek_closing (by decide) (by simp) (by simp) (nested_opcodes body) h_rest
  have h_drop :
      (before ++ c :: (l ++ d :: behind)).drop (before.length + 1) = l ++ d :: behind := by
    rw [← List.drop_drop, List.drop_left, List.drop_succ_cons, List.drop_zero]
  refine ⟨before.length + 1 + l.length, ?_, ?_⟩
  -- what is found by counting, and what stands behind it
  · rw [partner?, opcodeAt?_append, h_c, h_drop, h_seek]
    rfl
  · have h_next := marks_settle (f := ⟨next, outer⟩) (before ++ c :: (l ++ [d])) h_behind
    have h_length : (before ++ c :: (l ++ [d])).length = before.length + 1 + l.length + 1 := by
      simp only [List.length_append, List.length_cons, List.length_nil]
      omega
    rw [h_length] at h_next
    simpa using h_next

/-- The partner of a `]` is the head of its loop. -/
theorem Marks.partner_jmp (h : Marks text ⟨.done, (body, next) :: outer⟩ i)
    (h_in : Site.Inside p ⟨.done, (body, next) :: outer⟩) (h_tree : p.opcodes = operations text) :
    ∃ j, partner? text i = some j ∧ Marks text ⟨.loop body next, outer⟩ j := by
  have h_loop : Site.Inside p ⟨.loop body next, outer⟩ := h_in.2
  obtain ⟨ops, h_ops⟩ := h_loop.rest_suffix
  obtain ⟨before, c, rest, rfl, rfl, h_c, h_rest⟩ :=
    h.split (show Site.rest ⟨.done, (body, next) :: outer⟩ = .jmp :: _ from rfl)
  -- in front of the `]` stand the body, read backwards, and the `[`
  have h_before : operations before = ops ++ .jz :: body.opcodes := by
    have h_all := h_ops.trans h_tree
    rw [operations_append, operations_cons h_c, h_rest, Site.rest_loop] at h_all
    have h_behind : operations before ++ .jmp :: (next.opcodes ++ Site.restBehind outer)
        = (ops ++ .jz :: body.opcodes) ++ .jmp :: (next.opcodes ++ Site.restBehind outer) := by
      rw [← h_all, List.append_assoc, List.cons_append]
    exact List.append_cancel_right h_behind
  have h_reverse : operations before.reverse = body.opcodes.reverse ++ .jz :: ops.reverse := by
    rw [operations, List.filterMap_reverse, ← operations, h_before]
    simp
  obtain ⟨l, d, front, h_split, h_d, h_front, h_seek⟩ :=
    seek_closing (by decide) (by simp) (by simp) (nested_opcodes_reverse body) h_reverse
  have h_text : before = front.reverse ++ d :: l.reverse := by
    rw [← List.reverse_reverse before, h_split]
    simp
  refine ⟨before.length - 1 - l.length, ?_, ?_⟩
  · rw [partner?, opcodeAt?_append, h_c, List.take_left, h_seek]
    rfl
  · refine ⟨front.reverse, d :: (l.reverse ++ c :: rest), by simp [h_text], ?_, ?_, ?_⟩
    · simp [h_text]
    · -- what stands in front of the `[` is what stands in front of the loop in the tree, so the
      -- same is left
      have h_all := h_ops.trans h_tree
      have h_front : operations front.reverse = ops := by
        rw [operations, List.filterMap_reverse, ← operations, h_front, List.reverse_reverse]
      rw [h_text, List.append_assoc, operations_append, h_front] at h_all
      exact (List.append_cancel_left h_all).symm
    · intro x tail h_eq
      rw [← (List.cons.inj h_eq).1, h_d]
      simp

/-- **The walk through the text takes the turns of the tree.** -/
theorem Marks.turn {f : Site} (h : Marks text f i) (h_in : f.Inside p)
    (h_tree : p.opcodes = operations text) (g : Signals) (t : Tape n) :
    Turn.Rel (Marks text) (f.turn g t) (turn text g i t) := by
  obtain ⟨here, outer⟩ := f
  cases here with
  | done =>
    cases outer with
    | nil =>
      -- at the end of the text there is nothing to do
      rw [h.eq_length rfl, Source.turn, opcodeAt?_length]
      exact .finished
    | cons loop outer =>
      -- a `]`, which goes back to its partner
      obtain ⟨body, next⟩ := loop
      obtain ⟨j, h_partner, h_j⟩ := h.partner_jmp h_in h_tree
      obtain ⟨before, c, rest, rfl, rfl, h_c, -⟩ := h.split rfl
      rw [Source.turn, opcodeAt?_append, h_c, h_partner]
      exact .goes _ h_j
  | plain k next =>
    -- a command, which waits or goes on to the operation behind it
    have h_next := h.behind ⟨next, outer⟩ rfl
    obtain ⟨before, c, rest, rfl, rfl, h_c, -⟩ := h.split rfl
    rw [Source.turn, opcodeAt?_append, h_c, Site.turn]
    cases h_act : t.act g k with
    | none =>
      simp only [h_act]
      exact .waits
    | some deed =>
      simp only [h_act]
      exact .goes deed h_next
  | loop body next =>
    -- a `[`, which goes past its partner or on to the body
    obtain ⟨j, h_partner, h_j⟩ := h.partner_jz
    have h_enter := h.behind ⟨body, (body, next) :: outer⟩ (Site.rest_loop body next outer)
    obtain ⟨before, c, rest, rfl, rfl, h_c, -⟩ := h.split (Site.rest_loop body next outer)
    rw [Source.turn, opcodeAt?_append, h_c]
    by_cases h_cell : t.cell = 0
    · rw [Site.turn, if_pos h_cell]
      simp only [if_pos h_cell, h_partner]
      exact .goes _ h_j
    · rw [Site.turn, if_neg h_cell]
      simp only [if_neg h_cell]
      exact .goes _ h_enter

end Follow

end Source

end TapeProcessor
