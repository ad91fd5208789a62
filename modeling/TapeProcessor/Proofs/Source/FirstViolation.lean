import TapeProcessor.Proofs.Program.Acceptance
import TapeProcessor.Proofs.Source.Brackets

/-!
# The first violation of a source text

The reader finds what is wrong with a text by recursive descent: some checks are made
on the way down, before a body is looked at, some on the way up, and a text may be wrong
in several ways at once. This file says which of them is reported: the first one that a
scan from left to right comes upon.

* `Source.violationAt? text capacity i` is what is wrong at one position, given the
  brackets that are open in front of it; `Source.violationAtEnd? text capacity` is what
  is wrong with the text as a whole.
* `Source.firstViolation?` is the first of them in the order of the text.

`Source.compile_eq_error_iff` is the agreement of the two. It rests on `Source.Agrees`,
which says what reading a block from a position means for the scan: if the block is
refused, the scan from there comes upon just that violation; if it is read, the scan comes
upon nothing up to its end, with the same brackets open as before. The reader is followed
token by token (`Source.agrees_block`), since comments are nothing to the scan
(`Source.Quiet`).

`Source.Wrong` writes the rules out for a reader of the reports: what is wrong at a position,
and the category, the words and the position that the report on it has. The first rule that
is broken is about the first violation (`Source.firstWrong_iff`).

`Source.reports_first_violation` puts these together, and adds what they mean for a writer
who mends a text from the front: what is reported at a character depends on nothing behind it.
-/

namespace TapeProcessor.Source

/-! ### What is wrong at a position -/

/-- The violation that the character at a position makes. An opening bracket may be in
too many others, a closing one may have no partner, or its partner may be too far away;
in that case the violation is that of the partner. -/
def violationAt? (text : List Char) (capacity : ℤ) (i : ℕ) : Option Violation :=
  match opcodeAt? text i with
  | some .jz =>
    let depth := (openBefore text i).length + 1
    if (4 * depth : ℤ) > min capacity 256 then
      some ⟨.nestingTooDeep depth (min capacity 256), i⟩
    else none
  | some .jmp =>
    match openBefore text i with
    | [] => some ⟨.neverOpened, i⟩
    | j :: _ =>
      let words := size (between text j i)
      if words > 252 then some ⟨.bodyTooLong words, j⟩ else none
  | _ => none

/-- The violation that is found when the whole text was scanned: the innermost of the
brackets still open, or the length of the text. -/
def violationAtEnd? (text : List Char) (capacity : ℤ) : Option Violation :=
  match openBefore text text.length with
  | j :: _ => some ⟨.neverClosed, j⟩
  | [] =>
    if (size text : ℤ) > capacity then
      some ⟨.programTooLong (size text) capacity, text.length⟩
    else none

/-- The first violation that a scan meets from a position on. -/
def violationFrom? (text : List Char) (capacity : ℤ) (i : ℕ) : Option Violation :=
  ((positionsFrom text i).findSome? (violationAt? text capacity)).or
    (violationAtEnd? text capacity)

/-- The first violation of a text. -/
def firstViolation? (text : List Char) (capacity : ℤ) : Option Violation :=
  violationFrom? text capacity 0

/-- What is wrong with a text at a position, its end included, and the report on it: the
category, the words, and the position that is named. There is one case for each rule. -/
inductive Wrong (text : List Char) (capacity : ℤ) : ℕ → Category → String → ℕ → Prop
  /-- A bracket is opened in so many others that their jumps take more words than there are. -/
  | tooDeep {i : ℕ} : text[i]? = some '[' →
    (4 * ((openBefore text i).length + 1) : ℤ) > min capacity 256 →
    Wrong text capacity i .programTooLarge
      ("loops nested " ++ toString ((openBefore text i).length + 1) ++ " deep cannot fit in "
        ++ toString (min capacity 256) ++ " words") i
  /-- A bracket is closed and none is open. -/
  | neverOpened {i : ℕ} : text[i]? = some ']' → openBefore text i = [] →
    Wrong text capacity i .unmatchedBracket "']' without matching '['" i
  /-- The bracket that is closed was opened too many words before. -/
  | tooFar {i j : ℕ} {st : List ℕ} : text[i]? = some ']' → openBefore text i = j :: st →
    size (between text j i) > 252 →
    Wrong text capacity i .programTooLarge
      ("loop body is " ++ toString (size (between text j i)) ++ " words, jump distance "
        ++ toString (size (between text j i) + 3) ++ " exceeds 255") j
  /-- The text ends with brackets open; the innermost of them is named. -/
  | neverClosed {j : ℕ} {st : List ℕ} : openBefore text text.length = j :: st →
    Wrong text capacity text.length .unmatchedBracket "'[' is never closed" j
  /-- The text ends with none open, and has too many words. -/
  | tooLong : openBefore text text.length = [] → (size text : ℤ) > capacity →
    Wrong text capacity text.length .programTooLarge
      ("program is " ++ toString (size text) ++ " words, code memory holds "
        ++ toString capacity) text.length

/-- The report on the first position at which anything is wrong. -/
def FirstWrong (text : List Char) (capacity : ℤ) (category : Category) (message : String)
    (position : ℕ) : Prop :=
  ∃ i, Wrong text capacity i category message position ∧
    ∀ k < i, ∀ category' message' position',
      ¬ Wrong text capacity k category' message' position'

/-- A bracket that was never opened comes first, before one that is never closed. -/
example : firstViolation? "+]\n[".toList 1024 = some ⟨.neverOpened, 1⟩ := by decide

variable {text : List Char} {capacity : ℤ} {i j k : ℕ} {v : Violation}

theorem violationAt?_comment (h : opcodeAt? text i = none) :
    violationAt? text capacity i = none := by
  rw [violationAt?, h]

theorem violationAt?_plain {c : Command} (capacity : ℤ) (h : opcodeAt? text i = some (.plain c)) :
    violationAt? text capacity i = none := by
  rw [violationAt?, h]

/-- **What can be wrong at a character.** -/
theorem violationAt?_cases (h : violationAt? text capacity i = some v) :
    (text[i]? = some '[' ∧ (4 * ((openBefore text i).length + 1) : ℤ) > min capacity 256 ∧
        v = ⟨.nestingTooDeep ((openBefore text i).length + 1) (min capacity 256), i⟩) ∨
      (text[i]? = some ']' ∧ openBefore text i = [] ∧ v = ⟨.neverOpened, i⟩) ∨
      ∃ j st, text[i]? = some ']' ∧ openBefore text i = j :: st ∧ size (between text j i) > 252 ∧
        v = ⟨.bodyTooLong (size (between text j i)), j⟩ := by
  cases h_op : opcodeAt? text i with
  | none => cases (violationAt?_comment h_op).symm.trans h
  | some op =>
    have h_char := opcodeAt?_eq_some_iff.mp h_op
    cases op with
    | plain c => cases (violationAt?_plain capacity h_op).symm.trans h
    | jz =>
      rw [violationAt?, h_op] at h
      obtain ⟨h_deep, h_found⟩ := Option.ite_none_right_eq_some.mp h
      exact Or.inl ⟨h_char, by push_cast at h_deep; exact h_deep, (Option.some.inj h_found).symm⟩
    | jmp =>
      rw [violationAt?, h_op] at h
      cases h_stack : openBefore text i with
      | nil =>
        rw [h_stack] at h
        exact Or.inr (Or.inl ⟨h_char, rfl, (Option.some.inj h).symm⟩)
      | cons j st =>
        rw [h_stack] at h
        obtain ⟨h_long, h_found⟩ := Option.ite_none_right_eq_some.mp h
        exact Or.inr (Or.inr ⟨j, st, h_char, rfl, h_long, (Option.some.inj h_found).symm⟩)

/-- **What can be wrong at the end.** -/
theorem violationAtEnd?_cases (h : violationAtEnd? text capacity = some v) :
    (∃ j st, openBefore text text.length = j :: st ∧ v = ⟨.neverClosed, j⟩) ∨
      (openBefore text text.length = [] ∧ (size text : ℤ) > capacity ∧
        v = ⟨.programTooLong (size text) capacity, text.length⟩) := by
  rw [violationAtEnd?] at h
  cases h_stack : openBefore text text.length with
  | nil =>
    rw [h_stack] at h
    obtain ⟨h_long, h_found⟩ := Option.ite_none_right_eq_some.mp h
    exact Or.inr ⟨rfl, h_long, (Option.some.inj h_found).symm⟩
  | cons j st =>
    rw [h_stack] at h
    exact Or.inl ⟨j, st, rfl, (Option.some.inj h).symm⟩

theorem violationFrom?_of_none (h_lt : i < text.length)
    (h : violationAt? text capacity i = none) :
    violationFrom? text capacity i = violationFrom? text capacity (i + 1) := by
  rw [violationFrom?, positionsFrom_of_lt h_lt, List.findSome?_cons, h, violationFrom?]

theorem violationFrom?_of_some (h_lt : i < text.length)
    (h : violationAt? text capacity i = some v) : violationFrom? text capacity i = some v := by
  rw [violationFrom?, positionsFrom_of_lt h_lt, List.findSome?_cons, h, Option.some_or]

theorem violationFrom?_length :
    violationFrom? text capacity text.length = violationAtEnd? text capacity := by
  rw [violationFrom?, positionsFrom_length]
  rfl

/-! ### Comments and commands -/

/-- A comment takes no word. -/
theorem offset_comment (h_lt : i < text.length) (h : opcodeAt? text i = none) :
    offset text (i + 1) = offset text i := by
  have h_char : operations ((text.drop i).take 1) = [] := by
    rw [List.drop_eq_getElem_cons h_lt, List.take_succ_cons, List.take_zero]
    refine operations_comments fun c h_c => ?_
    rw [List.mem_singleton.mp h_c]
    rwa [opcodeAt?, List.getElem?_eq_getElem h_lt] at h
  rw [offset_add, h_char]
  rfl

/-- Between two positions a scan finds nothing to do. -/
structure Quiet (text : List Char) (capacity : ℤ) (i k : ℕ) : Prop where
  le : i ≤ k
  stack : openBefore text k = openBefore text i
  words : offset text k = offset text i
  first : violationFrom? text capacity i = violationFrom? text capacity k

theorem Quiet.refl (text : List Char) (capacity : ℤ) (i : ℕ) : Quiet text capacity i i :=
  ⟨Nat.le_refl i, rfl, rfl, rfl⟩

theorem Quiet.comment (h_lt : i < text.length) (h : opcodeAt? text i = none)
    (h_next : Quiet text capacity (i + 1) k) : Quiet text capacity i k where
  le := Nat.le_of_succ_le h_next.le
  stack := by
    rw [h_next.stack, openBefore_other (by simp [h]) (by simp [h])]
  words := by rw [h_next.words, offset_comment h_lt h]
  first := by
    rw [violationFrom?_of_none h_lt (violationAt?_comment h), h_next.first]

/-- **The next token.** From a position on the text has no more operations, or the next
token stands behind comments. -/
theorem scanFrom_drop (capacity : ℤ) (h_le : i ≤ text.length) :
    (Token.scanFrom i (text.drop i) = [] ∧ Quiet text capacity i text.length) ∨
      ∃ op k, Token.scanFrom i (text.drop i)
          = ⟨op, k⟩ :: Token.scanFrom (k + 1) (text.drop (k + 1)) ∧
        opcodeAt? text k = some op ∧ Quiet text capacity i k := by
  induction h_count : text.length - i generalizing i with
  | zero =>
    -- the position is the end of the text
    obtain rfl : i = text.length := by omega
    refine Or.inl ⟨?_, Quiet.refl _ _ _⟩
    rw [List.drop_length, Token.scanFrom_nil]
  | succ n ih =>
    have h_lt : i < text.length := by omega
    have h_op : opcodeAt? text i = Opcode.ofSymbol? text[i] := by
      rw [opcodeAt?, List.getElem?_eq_getElem h_lt]
      rfl
    rw [List.drop_eq_getElem_cons h_lt, Token.scanFrom_cons, ← h_op]
    cases h_char : opcodeAt? text i with
    | some op => exact Or.inr ⟨op, i, rfl, h_char, Quiet.refl _ _ _⟩
    | none =>
      rcases ih (i := i + 1) h_lt (by omega) with ⟨h_scan, h_quiet⟩ | ⟨op, k, h_scan, h_k, h_quiet⟩
      · exact Or.inl ⟨h_scan, h_quiet.comment h_lt h_char⟩
      · exact Or.inr ⟨op, k, h_scan, h_k, h_quiet.comment h_lt h_char⟩

/-! ### Words read in a block -/

/-- The position behind the innermost open bracket. -/
def blockStart : List ℕ → ℕ
  | [] => 0
  | j :: _ => j + 1

/-- The words up to a bracket are those up to its partner, and those between the two. -/
theorem offset_between (h_lt : j < i) (h_le : i ≤ text.length) :
    offset text i = offset text (j + 1) + size (between text j i) := by
  obtain ⟨d, rfl⟩ := Nat.exists_eq_add_of_le (Nat.succ_le_of_lt h_lt)
  rw [Nat.succ_eq_add_one, offset_add, size, between, List.drop_take, Nat.add_sub_cancel_left]

/-- The words of a text are those in front of its end. -/
theorem size_eq_offset (text : List Char) : size text = offset text text.length := by
  rw [size, offset, List.take_length]

end TapeProcessor.Source

namespace TapeProcessor.Program

/-- Reversing a block changes the order of its words and not their number. -/
theorem size_reverseOnto (p q : Program) : (p.reverseOnto q).size = p.size + q.size := by
  induction p generalizing q with
  | done => simp [reverseOnto]
  | plain c next ih =>
    rw [reverseOnto, ih, size_plain, size_plain]
    omega
  | loop body next _ ih =>
    rw [reverseOnto, ih, size_loop, size_loop]
    omega

theorem size_reverse (p : Program) : p.reverse.size = p.size := p.size_reverseOnto done

end TapeProcessor.Program

namespace TapeProcessor.Source

variable {text : List Char} {capacity : ℤ} {i j k : ℕ} {v : Violation}

/-! ### The reader at a position -/

/-- The reader stands at position `i`, inside `depth` loops and with the items `before`
of their innermost body read. -/
structure Stands (text : List Char) (depth : ℕ) (before : Program) (tokens : List Token)
    (i : ℕ) : Prop where
  le : i ≤ text.length
  depth : (openBefore text i).length = depth
  words : offset text (blockStart (openBefore text i)) + before.size = offset text i
  tokens : tokens = Token.scanFrom i (text.drop i)

namespace Stands

variable {depth : ℕ} {before body : Program} {tokens rest : List Token} {op : Opcode}

/-- With no token left the scan finds nothing up to the end. -/
theorem quiet_of_nil (h : Stands text depth before [] i) (capacity : ℤ) :
    Quiet text capacity i text.length := by
  rcases scanFrom_drop capacity h.le with ⟨-, h_quiet⟩ | ⟨op, k, h_scan, -, -⟩
  · exact h_quiet
  · cases h.tokens.trans h_scan

/-- The reader may as well stand at its next token. -/
theorem at_head (h : Stands text depth before (⟨op, k⟩ :: rest) i) (capacity : ℤ) :
    Quiet text capacity i k ∧ opcodeAt? text k = some op ∧
      Stands text depth before (⟨op, k⟩ :: rest) k ∧
      rest = Token.scanFrom (k + 1) (text.drop (k + 1)) := by
  rcases scanFrom_drop capacity h.le with ⟨h_scan, -⟩ | ⟨op', k', h_scan, h_op, h_quiet⟩
  · cases h.tokens.trans h_scan
  · -- the next token stands behind comments, over which the scan passes as well
    obtain ⟨h_token, rfl⟩ := List.cons.inj (h.tokens.trans h_scan)
    obtain ⟨rfl, rfl⟩ := Token.mk.inj h_token
    have h_lt := lt_of_opcodeAt? h_op
    refine ⟨h_quiet, h_op, ⟨Nat.le_of_lt h_lt, ?_, ?_, ?_⟩, rfl⟩
    · rw [h_quiet.stack, h.depth]
    · rw [h_quiet.stack, h_quiet.words, h.words]
    · have h_char : Opcode.ofSymbol? text[k] = some op := by
        rwa [opcodeAt?, List.getElem?_eq_getElem h_lt] at h_op
      rw [List.drop_eq_getElem_cons h_lt, Token.scanFrom_cons, h_char]
      rfl

/-- Behind a command the reader is in the same block, with one item more. -/
theorem plain {c : Command} (h : Stands text depth before tokens k)
    (h_op : opcodeAt? text k = some (.plain c)) :
    Stands text depth (.plain c before) (Token.scanFrom (k + 1) (text.drop (k + 1))) (k + 1) := by
  have h_stack : openBefore text (k + 1) = openBefore text k :=
    openBefore_other (by simp [h_op]) (by simp [h_op])
  have h_words := h.words
  refine ⟨lt_of_opcodeAt? h_op, ?_, ?_, rfl⟩
  · rw [h_stack, h.depth]
  · rw [h_stack, offset_succ h_op, Program.size_plain, Opcode.size]
    omega

/-- Behind an opening bracket begins a block of its own. -/
theorem enter (h : Stands text depth before tokens k) (h_op : opcodeAt? text k = some .jz) :
    Stands text (depth + 1) .done (Token.scanFrom (k + 1) (text.drop (k + 1))) (k + 1) := by
  refine ⟨lt_of_opcodeAt? h_op, ?_, ?_, rfl⟩
  · rw [openBefore_jz h_op, List.length_cons, h.depth]
  · rw [openBefore_jz h_op]
    rfl

/-- Behind the closing bracket of a loop the reader is in the block around it again. -/
theorem leave (h : Stands text depth before tokens k) (h_open : opcodeAt? text k = some .jz)
    (h_close : opcodeAt? text i = some .jmp) (h_stack : openBefore text i = k :: openBefore text k)
    (h_size : offset text (k + 1) + body.size = offset text i) :
    Stands text depth (.loop body before) (Token.scanFrom (i + 1) (text.drop (i + 1))) (i + 1) := by
  have h_behind : openBefore text (i + 1) = openBefore text k := by
    rw [openBefore_jmp h_close, h_stack, List.tail_cons]
  have h_words := h.words
  have h_first := offset_succ h_open
  -- four words for the brackets, and those of the body, are added to what was read before the loop
  refine ⟨lt_of_opcodeAt? h_close, ?_, ?_, rfl⟩
  · rw [h_behind, h.depth]
  · rw [h_behind, offset_succ h_close, Program.size_loop, Program.loopOverhead, Opcode.size]
    rw [Opcode.size] at h_first
    omega

end Stands

/-! ### Reader and scan agree -/

/-- What the outcome of reading a block from position `i` on means for the scan. -/
def Agrees (text : List Char) (capacity : ℤ) (depth i : ℕ) {length : ℕ} :
    Except Violation { r : Program × List Token // r.2.length ≤ length } → Prop
  | .error v => violationFrom? text capacity i = some v
  | .ok r => ∃ k, violationFrom? text capacity i = violationFrom? text capacity k ∧
      openBefore text k = openBefore text i ∧
      offset text (blockStart (openBefore text i)) + r.val.1.size = offset text k ∧
      (r.val.2 = [] ∧ k = text.length ∨
        0 < depth ∧ opcodeAt? text k = some .jmp ∧
          r.val.2 = ⟨.jmp, k⟩ :: Token.scanFrom (k + 1) (text.drop (k + 1)))

/-- Comments in front of a block make no difference, nor do characters that the scan
passes over with the same brackets open. -/
theorem Agrees.of_eq {depth length : ℕ}
    {r : Except Violation { r : Program × List Token // r.2.length ≤ length }}
    (h : Agrees text capacity depth k r)
    (h_first : violationFrom? text capacity i = violationFrom? text capacity k)
    (h_stack : openBefore text k = openBefore text i) : Agrees text capacity depth i r := by
  cases r with
  | error v => exact h_first.trans h
  | ok r =>
    obtain ⟨q, h_quiet, h_open, h_size, h_end⟩ := h
    rw [h_stack] at h_open h_size
    exact ⟨q, h_first.trans h_quiet, h_open, h_size, h_end⟩

/-- An opening bracket is wrong if it is too deep. -/
theorem violationAt?_jz {depth : ℕ} (h_op : opcodeAt? text k = some .jz)
    (h_depth : (openBefore text k).length = depth) :
    violationAt? text capacity k =
      if (Program.loopOverhead * (depth + 1) : ℤ) > Program.nestingLimit capacity then
        some ⟨.nestingTooDeep (depth + 1) (Program.nestingLimit capacity), k⟩
      else none := by
  rw [violationAt?, h_op, h_depth]
  rfl

/-- The closing bracket of the loop at `k`, whose body takes `words` words. -/
theorem violationAt?_jmp {words : ℕ} (h_op : opcodeAt? text i = some .jmp)
    (h_stack : openBefore text i = k :: openBefore text k)
    (h_words : offset text (k + 1) + words = offset text i) :
    violationAt? text capacity i =
      if Program.jumpDistance words > Program.maxDistance then some ⟨.bodyTooLong words, k⟩
      else none := by
  have h_lt := lt_of_opcodeAt? h_op
  have h_between := offset_between (openBefore_eq_cons h_stack).1 (Nat.le_of_lt h_lt)
  obtain rfl : size (between text k i) = words := by omega
  rw [violationAt?, h_op, h_stack]
  simp only [Program.jumpDistance, Program.maxDistance]
  congr 1
  exact propext (by omega)

open Program in
/-- A loop that is not too deep: the scan passes over its opening bracket, and the
reader stands at the start of its body. -/
theorem Stands.opens {depth : ℕ} {before : Program} {rest : List Token}
    (h : Stands text depth before (⟨.jz, k⟩ :: rest) i)
    (h_shallow : ¬ (loopOverhead * (depth + 1) : ℤ) > nestingLimit capacity) :
    violationFrom? text capacity i = violationFrom? text capacity (k + 1) ∧
      openBefore text (k + 1) = k :: openBefore text k ∧
      Stands text (depth + 1) .done rest (k + 1) := by
  obtain ⟨h_quiet, h_op, h_here, rfl⟩ := h.at_head capacity
  have h_lt := lt_of_opcodeAt? h_op
  refine ⟨h_quiet.first.trans (violationFrom?_of_none h_lt ?_), openBefore_jz h_op,
    h_here.enter h_op⟩
  rw [violationAt?_jz h_op h_here.depth, if_neg h_shallow]

/-- A body that was read up to a token: this is the closing bracket of the loop. -/
theorem Agrees.closes {depth : ℕ} {body : Program} {head : Token} {rest behind : List Token}
    {h_shorter : (body, head :: behind).2.length ≤ rest.length}
    (h : Agrees text capacity (depth + 1) (k + 1) (.ok ⟨(body, head :: behind), h_shorter⟩))
    (h_open : openBefore text (k + 1) = k :: openBefore text k) :
    ∃ q, opcodeAt? text q = some .jmp ∧ openBefore text q = k :: openBefore text k ∧
      offset text (k + 1) + body.size = offset text q ∧
      violationFrom? text capacity (k + 1) = violationFrom? text capacity q ∧
      behind = Token.scanFrom (q + 1) (text.drop (q + 1)) := by
  obtain ⟨q, h_first, h_stack, h_size, ⟨h_nil, -⟩ | ⟨-, h_close, h_tokens⟩⟩ := h
  · cases h_nil
  · rw [h_open] at h_stack h_size
    exact ⟨q, h_close, h_stack, h_size, h_first, (List.cons.inj h_tokens).2⟩

open Program in
/-- **The reader reports what the scan finds.** The induction is on the recursion of the
reader; in each case it stands at the token that it looks at. -/
theorem agrees_block {depth : ℕ} {outer : List Token} {before : Program} {tokens : List Token}
    {h_inside : tokens.length ≤ outer.length} (h : Stands text depth before tokens i) :
    Agrees text capacity depth i
      (block (nestingLimit capacity) depth outer before tokens h_inside) := by
  fun_induction block (nestingLimit capacity) depth outer before tokens h_inside generalizing i with
  | case1 depth outer before h_inside =>
    -- the end of the text
    have h_quiet := h.quiet_of_nil capacity
    refine ⟨text.length, h_quiet.first, h_quiet.stack, ?_, Or.inl ⟨rfl, rfl⟩⟩
    rw [size_reverse, h.words, h_quiet.words]
  | case2 depth outer before c k rest h_inside _ ih =>
    obtain ⟨h_quiet, h_op, h_here, rfl⟩ := h.at_head capacity
    have h_lt := lt_of_opcodeAt? h_op
    -- a command is passed over by both
    have h_next := violationFrom?_of_none h_lt (violationAt?_plain capacity h_op)
    refine (ih (h_here.plain h_op)).of_eq (h_quiet.first.trans h_next) ?_
    rw [openBefore_other (by simp [h_op]) (by simp [h_op]), h_quiet.stack]
  | case3 depth outer before k rest h_inside h_deep =>
    -- a loop that is refused before its body is looked at
    obtain ⟨h_quiet, h_op, h_here, -⟩ := h.at_head capacity
    have h_lt := lt_of_opcodeAt? h_op
    refine h_quiet.first.trans (violationFrom?_of_some h_lt ?_)
    rw [violationAt?_jz h_op h_here.depth, if_pos h_deep]
  | case4 depth outer before k rest h_inside h_shallow violation h_error _ ih_body =>
    -- the violation is found in the body
    obtain ⟨h_first, -, h_body⟩ := h.opens h_shallow
    have h_inner := ih_body h_body
    rw [h_error] at h_inner
    exact h_first.trans h_inner
  | case5 depth outer before k rest h_inside h_shallow body h_shorter h_ok _ ih_body =>
    -- the body goes on to the end of the text, where the loop is the innermost one open
    obtain ⟨h_first, h_open, h_body⟩ := h.opens h_shallow
    have h_inner := ih_body h_body
    rw [h_ok] at h_inner
    obtain ⟨q, h_same, h_stack, -, ⟨-, rfl⟩ | ⟨-, -, h_tokens⟩⟩ := h_inner
    · refine (h_first.trans h_same).trans ?_
      rw [violationFrom?_length, violationAtEnd?, h_stack, h_open]
    · cases h_tokens
  | case6 depth outer before k rest h_inside h_shallow body head behind h_shorter h_ok h_long _
      ih_body =>
    -- the body is measured at the closing bracket
    obtain ⟨h_first, h_open, h_body⟩ := h.opens h_shallow
    have h_inner := ih_body h_body
    rw [h_ok] at h_inner
    obtain ⟨q, h_close, h_stack, h_size, h_same, -⟩ := h_inner.closes h_open
    have h_lt := lt_of_opcodeAt? h_close
    refine (h_first.trans h_same).trans (violationFrom?_of_some h_lt ?_)
    rw [violationAt?_jmp h_close h_stack h_size, if_pos h_long]
  | case7 depth outer before k rest h_inside h_shallow body head behind h_shorter h_ok h_short _
      ih_body ih =>
    obtain ⟨h_first, h_open, h_body⟩ := h.opens h_shallow
    obtain ⟨h_quiet, h_op, h_here, -⟩ := h.at_head capacity
    have h_inner := ih_body h_body
    rw [h_ok] at h_inner
    obtain ⟨q, h_close, h_stack, h_size, h_same, rfl⟩ := h_inner.closes h_open
    have h_lt := lt_of_opcodeAt? h_close
    have h_next : violationFrom? text capacity q = violationFrom? text capacity (q + 1) := by
      refine violationFrom?_of_none h_lt ?_
      rw [violationAt?_jmp h_close h_stack h_size, if_neg h_short]
    -- behind the loop the same brackets are open as in front of it
    refine (ih (h_here.leave h_op h_close h_stack h_size)).of_eq
      ((h_first.trans h_same).trans h_next) ?_
    rw [openBefore_jmp h_close, h_stack, List.tail_cons, h_quiet.stack]
  | case8 outer before k rest h_inside _ =>
    -- a bracket that was never opened
    obtain ⟨h_quiet, h_op, h_here, -⟩ := h.at_head capacity
    have h_lt := lt_of_opcodeAt? h_op
    have h_stack := List.length_eq_zero_iff.mp h_here.depth
    refine h_quiet.first.trans (violationFrom?_of_some h_lt ?_)
    rw [violationAt?, h_op, h_stack]
  | case9 depth outer before k rest h_inside h_nonzero _ =>
    -- the bracket that closes the block
    obtain ⟨h_quiet, h_op, h_here, rfl⟩ := h.at_head capacity
    refine ⟨k, h_quiet.first, h_quiet.stack, ?_, Or.inr ⟨Nat.pos_of_ne_zero h_nonzero, h_op, rfl⟩⟩
    rw [size_reverse, h.words, h_quiet.words]

/-- **The outcome of compiling a text.** It is refused for its first violation; if there
is none, there is an image. -/
theorem compile_outcome (source : String) (capacity : ℤ) :
    match firstViolation? source.toList capacity with
    | some v => Program.compile source capacity = .error v
    | none => ∃ image, Program.compile source capacity = .ok image := by
  have h_start : Stands source.toList 0 .done (Token.scan source.toList) 0 :=
    ⟨Nat.zero_le _, rfl, rfl, rfl⟩
  have h_agrees : Agrees source.toList capacity 0 0
      (Program.block (Program.nestingLimit capacity) 0 (Token.scan source.toList) .done
        (Token.scan source.toList) (Nat.le_refl _)) := agrees_block h_start
  rw [Program.compile, Program.ofTokens, firstViolation?]
  cases h_block : Program.block (Program.nestingLimit capacity) 0 (Token.scan source.toList) .done
      (Token.scan source.toList) (Nat.le_refl _) with
  | error v =>
    rw [h_block] at h_agrees
    rw [show violationFrom? source.toList capacity 0 = some v from h_agrees]
    rfl
  | ok r =>
    rw [h_block] at h_agrees
    obtain ⟨k, h_first, h_stack, h_size, ⟨-, rfl⟩ | ⟨h_deep, -⟩⟩ := h_agrees
    · -- the whole text was read, and its length is left to check
      have h_start : offset source.toList (blockStart (openBefore source.toList 0)) = 0 := rfl
      have h_words : r.val.1.encode.size = size source.toList := by
        rw [Program.size_encode, size_eq_offset, ← h_size, h_start, Nat.zero_add]
      rw [h_first, violationFrom?_length, violationAtEnd?, h_stack, openBefore, ← h_words]
      by_cases h_long : (r.val.1.encode.size : ℤ) > capacity
      · simp only [if_pos h_long, Except.map, bind, Except.bind]
        rfl
      · simp only [if_neg h_long, Except.map, bind, Except.bind]
        exact ⟨r.val.1.encode, rfl⟩
    · exact absurd h_deep (Nat.lt_irrefl 0)

/-- A text is refused for its first violation. -/
theorem compile_eq_error_iff {source : String} :
    Program.compile source capacity = .error v ↔
      firstViolation? source.toList capacity = some v := by
  have h_outcome := compile_outcome source capacity
  cases h_first : firstViolation? source.toList capacity with
  | some w =>
    rw [h_first] at h_outcome
    rw [h_outcome, Except.error.injEq, Option.some.injEq]
  | none =>
    rw [h_first] at h_outcome
    obtain ⟨image, h_ok⟩ := h_outcome
    -- a text with an image is not refused
    simp [h_ok]

/-- At no position of a text that is compiled is anything wrong. -/
theorem violationAt?_of_compile {source : String} {image : Array UInt8}
    (h : Program.compile source capacity = .ok image) (i : ℕ) :
    violationAt? source.toList capacity i = none := by
  have h_none : firstViolation? source.toList capacity = none := by
    rw [Option.eq_none_iff_forall_ne_some]
    intro v h_first
    cases h.symm.trans (compile_eq_error_iff.mpr h_first)
  rw [firstViolation?, violationFrom?, positionsFrom, Option.or_eq_none_iff,
    List.findSome?_eq_none_iff] at h_none
  by_cases h_lt : i < source.toList.length
  · exact h_none.1 i (by rw [List.mem_range'_1]; omega)
  · refine violationAt?_comment ?_
    rw [opcodeAt?, List.getElem?_eq_none (Nat.not_lt.mp h_lt)]
    rfl

/-! ### What is reported at a character -/

/-- A scan of the text meets its first violation at the character at position `i`. -/
structure FoundAt (text : List Char) (capacity : ℤ) (i : ℕ) (v : Violation) : Prop where
  found : violationAt? text capacity i = some v
  first : ∀ k, k < i → violationAt? text capacity k = none

/-- A violation is met at a character of the text. -/
theorem FoundAt.lt (h : FoundAt text capacity i v) : i < text.length := by
  have h_found := h.found
  cases h_op : opcodeAt? text i with
  | some op => exact lt_of_opcodeAt? h_op
  | none =>
    rw [violationAt?_comment h_op] at h_found
    cases h_found

theorem FoundAt.firstViolation? (h : FoundAt text capacity i v) :
    firstViolation? text capacity = some v := by
  have h_lt := h.lt
  -- the scan passes over all characters in front of the violation
  have h_pass : ∀ k, k ≤ i → violationFrom? text capacity 0 = violationFrom? text capacity k := by
    intro k h_k
    induction k with
    | zero => rfl
    | succ k ih => rw [ih (by omega), violationFrom?_of_none (by omega) (h.first k h_k)]
  rw [Source.firstViolation?, h_pass i (Nat.le_refl i), violationFrom?_of_some h_lt h.found]

/-! ### What is said about a violation -/

/-- The words about a body that is too long, with the bound written out. -/
theorem message_bodyTooLong (words : ℕ) :
    (Fault.bodyTooLong words).message =
      "loop body is " ++ toString words ++ " words, jump distance " ++ toString (words + 3)
        ++ " exceeds 255" := by
  have h_bound : " exceeds " ++ toString Program.maxDistance = " exceeds 255" := by decide +kernel
  rw [← h_bound, ← String.append_assoc]
  rfl

/-- The scan's report on what is wrong at a character. -/
theorem wrong_of_violationAt? (h : violationAt? text capacity i = some v) :
    Wrong text capacity i v.fault.category v.fault.message v.position := by
  rcases violationAt?_cases h with
    ⟨h_char, h_deep, rfl⟩ | ⟨h_char, h_stack, rfl⟩ | ⟨j, st, h_char, h_stack, h_long, rfl⟩
  · exact .tooDeep h_char h_deep
  · exact .neverOpened h_char h_stack
  · rw [message_bodyTooLong]
    exact .tooFar h_char h_stack h_long

/-- The scan's report on what is wrong at the end. -/
theorem wrong_of_violationAtEnd? (h : violationAtEnd? text capacity = some v) :
    Wrong text capacity text.length v.fault.category v.fault.message v.position := by
  rcases violationAtEnd?_cases h with ⟨j, st, h_stack, rfl⟩ | ⟨h_stack, h_long, rfl⟩
  · exact .neverClosed h_stack
  · exact .tooLong h_stack h_long

/-- Each rule is about a violation that the scan comes upon. -/
theorem Wrong.exists_violation {category : Category} {message : String} {position : ℕ}
    (h : Wrong text capacity i category message position) :
    ∃ v : Violation,
      (violationAt? text capacity i = some v ∨
        i = text.length ∧ violationAtEnd? text capacity = some v) ∧
      v.fault.category = category ∧ v.fault.message = message ∧ v.position = position := by
  cases h with
  | tooDeep h_char h_deep =>
    have h_op : opcodeAt? text i = some .jz := opcodeAt?_eq_some_iff.mpr h_char
    refine ⟨⟨.nestingTooDeep _ _, i⟩, Or.inl ?_, rfl, rfl, rfl⟩
    rw [violationAt?, h_op]
    exact if_pos (by push_cast; exact h_deep)
  | neverOpened h_char h_stack =>
    have h_op : opcodeAt? text i = some .jmp := opcodeAt?_eq_some_iff.mpr h_char
    refine ⟨⟨.neverOpened, i⟩, Or.inl ?_, rfl, rfl, rfl⟩
    rw [violationAt?, h_op, h_stack]
  | tooFar h_char h_stack h_long =>
    have h_op : opcodeAt? text i = some .jmp := opcodeAt?_eq_some_iff.mpr h_char
    refine ⟨⟨.bodyTooLong _, position⟩, Or.inl ?_, rfl, message_bodyTooLong _, rfl⟩
    rw [violationAt?, h_op, h_stack]
    exact if_pos h_long
  | neverClosed h_stack =>
    refine ⟨⟨.neverClosed, position⟩, Or.inr ⟨rfl, ?_⟩, rfl, rfl, rfl⟩
    rw [violationAtEnd?, h_stack]
  | tooLong h_stack h_long =>
    refine ⟨⟨.programTooLong _ _, text.length⟩, Or.inr ⟨rfl, ?_⟩, rfl, rfl, rfl⟩
    rw [violationAtEnd?, h_stack]
    exact if_pos h_long

/-- The first violation is met at a character, or else at the end. -/
theorem firstViolation?_eq_some (h : Source.firstViolation? text capacity = some v) :
    (∃ i, FoundAt text capacity i v) ∨
      (∀ i, violationAt? text capacity i = none) ∧ violationAtEnd? text capacity = some v := by
  by_cases h_clean : ∀ i, violationAt? text capacity i = none
  · refine Or.inr ⟨h_clean, ?_⟩
    rwa [Source.firstViolation?, violationFrom?,
      List.findSome?_eq_none_iff.mpr fun k _ => h_clean k, Option.none_or] at h
  · -- the least position at which anything is wrong
    have h_some : ∃ i, violationAt? text capacity i ≠ none := not_forall.mp h_clean
    classical
    obtain ⟨w, h_w⟩ := Option.ne_none_iff_exists'.mp (Nat.find_spec h_some)
    have h_found : FoundAt text capacity (Nat.find h_some) w :=
      ⟨h_w, fun k h_k => not_not.mp (Nat.find_min h_some h_k)⟩
    obtain rfl : w = v := Option.some.inj (h_found.firstViolation?.symm.trans h)
    exact Or.inl ⟨_, h_found⟩

/-- **The rules describe the scan**: its first violation is the first thing that is wrong. -/
theorem firstWrong_iff {category : Category} {message : String} {position : ℕ} :
    FirstWrong text capacity category message position ↔
      ∃ v : Violation, Source.firstViolation? text capacity = some v ∧
        v.fault.category = category ∧ v.fault.message = message ∧ v.position = position := by
  constructor
  · rintro ⟨i, h_wrong, h_first⟩
    obtain ⟨v, h_found, h_report⟩ := h_wrong.exists_violation
    refine ⟨v, ?_, h_report⟩
    have h_clean : ∀ k < i, violationAt? text capacity k = none := by
      intro k h_k
      refine Option.eq_none_iff_forall_ne_some.mpr fun w h_w => ?_
      exact h_first k h_k _ _ _ (wrong_of_violationAt? h_w)
    rcases h_found with h_here | ⟨rfl, h_end⟩
    · exact FoundAt.firstViolation? ⟨h_here, h_clean⟩
    · rw [Source.firstViolation?, violationFrom?, List.findSome?_eq_none_iff.mpr, Option.none_or,
        h_end]
      intro k h_k
      rw [positionsFrom, List.mem_range'_1] at h_k
      exact h_clean k (by omega)
  · rintro ⟨v, h_first, rfl, rfl, rfl⟩
    -- a rule for an earlier position would be about a violation there, or about the end
    have h_before : ∀ i ≤ text.length, (∀ k < i, violationAt? text capacity k = none) →
        ∀ k < i, ∀ category message position,
          ¬ Wrong text capacity k category message position := by
      intro i h_i h_clean k h_k category message position h_wrong
      obtain ⟨w, h_found | ⟨rfl, -⟩, -⟩ := h_wrong.exists_violation
      · cases (h_clean k h_k).symm.trans h_found
      · omega
    rcases firstViolation?_eq_some h_first with ⟨i, h_found⟩ | ⟨h_clean, h_end⟩
    · exact ⟨i, wrong_of_violationAt? h_found.found,
        h_before i (Nat.le_of_lt h_found.lt) h_found.first⟩
    · exact ⟨text.length, wrong_of_violationAtEnd? h_end,
        h_before text.length (Nat.le_refl _) fun k _ => h_clean k⟩

/-! ### What is reported does not depend on what follows -/

/-- A violation is reported at the character where it is met, or at one before. -/
theorem position_le (h : violationAt? text capacity i = some v) : v.position ≤ i := by
  rcases violationAt?_cases h with ⟨-, -, rfl⟩ | ⟨-, -, rfl⟩ | ⟨j, st, -, h_stack, -, rfl⟩
  · exact Nat.le_refl i
  · exact Nat.le_refl i
  · -- the bracket that is closed was opened before
    exact Nat.le_of_lt (openBefore_eq_cons h_stack).1

section Front

variable {text text' : List Char}

/-- The operation at a position depends on the characters up to it. -/
theorem opcodeAt?_congr (h : text.take (i + 1) = text'.take (i + 1)) :
    opcodeAt? text i = opcodeAt? text' i := by
  have h_char := congrArg (fun l : List Char => l[i]?) h
  simp only [List.getElem?_take_of_lt (Nat.lt_succ_self i)] at h_char
  rw [opcodeAt?, h_char, opcodeAt?]

theorem take_congr (h_le : k ≤ i) (h : text.take i = text'.take i) :
    text.take k = text'.take k := by
  rw [← Nat.min_eq_left h_le, ← List.take_take, h, List.take_take]

/-- The brackets that are open depend on the characters in front. -/
theorem openBefore_congr (h : text.take i = text'.take i) :
    openBefore text i = openBefore text' i := by
  induction i with
  | zero => rfl
  | succ i ih =>
    rw [openBefore, openBefore, opcodeAt?_congr h, ih (take_congr (Nat.le_succ i) h)]

/-- What is wrong at a position depends on the characters up to it. -/
theorem violationAt?_congr (h : text.take (i + 1) = text'.take (i + 1)) :
    violationAt? text capacity i = violationAt? text' capacity i := by
  have h_front := take_congr (Nat.le_succ i) h
  simp only [violationAt?, opcodeAt?_congr h, openBefore_congr h_front, between, h_front]
  rfl

/-- What is met first depends on the characters up to it. -/
theorem FoundAt.congr (h : FoundAt text capacity i v)
    (h_front : text.take (i + 1) = text'.take (i + 1)) : FoundAt text' capacity i v where
  found := by rw [← violationAt?_congr h_front, h.found]
  first k h_k := by
    rw [← violationAt?_congr (take_congr (Nat.succ_le_succ (Nat.le_of_lt h_k)) h_front),
      h.first k h_k]

/-- The line and the column of a position depend on the characters in front of it. -/
theorem location_congr (h : text.take i = text'.take i) (h_le : i ≤ text.length)
    (h_le' : i ≤ text'.length) : Location.ofPosition text i = Location.ofPosition text' i := by
  simp only [Location.ofPosition, Location.cut_natCast h_le, Location.cut_natCast h_le', h]

end Front

/-- **The report is on the first violation in the order of the text.** A text is refused if
and only if a scan comes upon a violation, and then for the first one; the category and the
words of the report and the position that it names are those of the first rule that is
broken. What is reported at a character does not depend on what stands behind it. -/
theorem reports_first_violation (source : String) (capacity : ℤ) (v : Violation) :
    (Program.compile source capacity = .error v ↔
      firstViolation? source.toList capacity = some v) ∧
    (∀ category message position,
      (∃ w, Program.compile source capacity = .error w ∧ w.position = position ∧
        w.diagnose source =
          ⟨category, message, some (Location.ofPosition source.toList position)⟩) ↔
      FirstWrong source.toList capacity category message position) ∧
    ∀ i, FoundAt source.toList capacity i v → ∀ other : String,
      source.toList.take (i + 1) = other.toList.take (i + 1) →
        Program.compile source capacity = .error v ∧
        Program.compile other capacity = .error v ∧ v.diagnose other = v.diagnose source := by
  refine ⟨compile_eq_error_iff, fun category message position => ?_, ?_⟩
  · rw [firstWrong_iff]
    constructor
    · rintro ⟨w, h_compile, rfl, h_report⟩
      obtain ⟨rfl, rfl, -⟩ := Diagnostic.mk.inj h_report
      exact ⟨w, compile_eq_error_iff.mp h_compile, rfl, rfl, rfl⟩
    · rintro ⟨w, h_first, rfl, rfl, rfl⟩
      exact ⟨w, compile_eq_error_iff.mpr h_first, rfl, rfl⟩
  intro i h_found other h_front
  have h_other := h_found.congr h_front
  have h_position := position_le h_found.found
  have h_lt := h_found.lt
  have h_lt' := h_other.lt
  refine ⟨compile_eq_error_iff.mpr h_found.firstViolation?,
    compile_eq_error_iff.mpr h_other.firstViolation?, ?_⟩
  have h_place := location_congr (take_congr (show v.position ≤ i + 1 by omega) h_front)
    (by omega) (by omega)
  simp only [Violation.diagnose, Diagnostic.ofPosition, Option.map_some, h_place]

/-- A loop around a row of `words` increments. -/
def loopOf (words : ℕ) : String := String.ofList ('[' :: List.replicate words '+' ++ [']'])

/-- Each of the five reports on some text. The second closing bracket of the last text has no
partner, whatever follows it. -/
theorem reports_first_violation_mended :
    FirstWrong "[[".toList 7 .programTooLarge "loops nested 2 deep cannot fit in 7 words" 1 ∧
      FirstWrong "[]][".toList 1024 .unmatchedBracket "']' without matching '['" 2 ∧
      FirstWrong (loopOf 253).toList 1024 .programTooLarge
        "loop body is 253 words, jump distance 256 exceeds 255" 0 ∧
      FirstWrong "[+[-]".toList 1024 .unmatchedBracket "'[' is never closed" 0 ∧
      FirstWrong "+[-]".toList 4 .programTooLarge "program is 6 words, code memory holds 4" 4 ∧
      FoundAt "[+\n]]+[".toList 1024 4 ⟨.neverOpened, 4⟩ ∧
      "[+\n]]+[".toList.take 5 = "[+\n]]".toList.take 5 ∧
      Program.compile "[+\n]]+[" 1024 = .error ⟨.neverOpened, 4⟩ ∧
      Program.compile "[+\n]]" 1024 = .error ⟨.neverOpened, 4⟩ := by
  have h_found : FoundAt "[+\n]]+[".toList 1024 4 ⟨.neverOpened, 4⟩ :=
    ⟨by decide, by decide⟩
  have h_front : "[+\n]]+[".toList.take 5 = "[+\n]]".toList.take 5 := by decide
  obtain ⟨-, -, h_report⟩ := reports_first_violation "[+\n]]+[" 1024 ⟨.neverOpened, 4⟩
  obtain ⟨h_compile, h_mended, -⟩ := h_report 4 h_found "[+\n]]" h_front
  -- what is compiled is computed, and the theorem carries it over to the rules
  have h_deep : Program.compile "[[" 7 = .error ⟨.nestingTooDeep 2 7, 1⟩ := by decide +kernel
  have h_closed : Program.compile "[]][" 1024 = .error ⟨.neverOpened, 2⟩ := by decide +kernel
  have h_far : Program.compile (loopOf 253) 1024 = .error ⟨.bodyTooLong 253, 0⟩ := by
    rw [Program.compile, loopOf, String.toList_ofList]
    decide +kernel
  have h_open : Program.compile "[+[-]" 1024 = .error ⟨.neverClosed, 0⟩ := by decide +kernel
  have h_long : Program.compile "+[-]" 4 = .error ⟨.programTooLong 6 4, 4⟩ := by decide +kernel
  refine ⟨?_, ?_, ?_, ?_, ?_, h_found, h_front, h_compile, h_mended⟩
  · exact ((reports_first_violation "[[" 7 ⟨.nestingTooDeep 2 7, 1⟩).2.1 _ _ _).mp
      ⟨_, h_deep, rfl, rfl⟩
  · exact ((reports_first_violation "[]][" 1024 ⟨.neverOpened, 2⟩).2.1 _ _ _).mp
      ⟨_, h_closed, rfl, rfl⟩
  · exact ((reports_first_violation (loopOf 253) 1024 ⟨.bodyTooLong 253, 0⟩).2.1 _ _ _).mp
      ⟨_, h_far, rfl, rfl⟩
  · exact ((reports_first_violation "[+[-]" 1024 ⟨.neverClosed, 0⟩).2.1 _ _ _).mp
      ⟨_, h_open, rfl, rfl⟩
  · exact ((reports_first_violation "+[-]" 4 ⟨.programTooLong 6 4, 4⟩).2.1 _ _ _).mp
      ⟨_, h_long, rfl, rfl⟩

end TapeProcessor.Source
