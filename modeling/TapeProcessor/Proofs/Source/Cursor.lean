import TapeProcessor.Proofs.Source.Brackets
import TapeProcessor.Proofs.Source.Comments

/-!
# The reader as a loop over the text

The reader takes the operations of a text as a row of tokens and descends into a loop with
the tokens behind its bracket. Seen from the text, there is a cursor that all levels share:
each block is a loop in which an iteration looks at the character under the cursor, and at
an opening bracket the body is read by a call of a block one level deeper, which leaves the
cursor at the closing bracket.

* `Source.iterate` is one iteration, with the calls of deeper blocks as a parameter;
  `Source.blockAt` is the outcome of the reader for the rest of a block from a position on.
* `Source.blockAt_eq_resume` says that the second is the loop of the first, so whatever holds
  of the iterations holds of the reader.
* `Source.iterated` says what an iteration comes to. It returns where it stands, refuses the
  text, or puts the cursor forward over balanced brackets.

The tie between tokens and positions is `Source.scanFrom_drop_eq_append`: the tokens that a
block has left over are those behind the position of the first of them, and the ones it has
consumed are the operations in between.
-/

namespace TapeProcessor

namespace Program

/-! ### Reading a block of tokens -/

theorem inside_self (tokens : List Token) : tokens.length ≤ tokens.length := Nat.le_refl _

/-- The outcome of reading a block: its program and the tokens behind it. -/
def readBlock (limit : ℤ) (depth : ℕ) (before : Program) (tokens : List Token) :
    Except Violation (Program × List Token) :=
  (block limit depth tokens before tokens (inside_self tokens)).map (·.val)

section Equations

variable {limit : ℤ} {depth k : ℕ} {outer tokens rest : List Token} {before : Program}

/-- Outcomes that are the same up to equality are equal. -/
theorem SameOutcome.eq {A : Type} {x y : Except Violation A} (h : SameOutcome Eq Eq x y) :
    x = y := by
  cases h with
  | ok h_same => rw [h_same]
  | error h_position => rw [h_position]

/-- The row that bounds the recursion plays no part in the outcome. -/
theorem map_val_block (h_inside : tokens.length ≤ outer.length) :
    (block limit depth outer before tokens h_inside).map (·.val)
      = readBlock limit depth before tokens := by
  -- a row of tokens is alike to itself, whatever the two readings are bounded by
  have h_same : List.Forall₂ (Token.Alike Eq) tokens tokens :=
    List.forall₂_same.mpr fun token _ => ⟨rfl, rfl⟩
  refine ((block_same h_inside (inside_self tokens) h_same).map fun r r' h => ?_).eq
  obtain ⟨h_program, h_tokens⟩ := h
  refine Prod.ext h_program (List.forall₂_eq_eq_eq ▸ h_tokens.imp fun a b h_alike => ?_)
  obtain ⟨h_opcode, h_position⟩ := h_alike
  cases a
  cases b
  cases h_opcode
  cases h_position
  rfl

theorem readBlock_nil : readBlock limit depth before [] = .ok (before.reverse, []) := by
  rw [readBlock, block]
  rfl

theorem readBlock_plain {c : Command} :
    readBlock limit depth before (⟨.plain c, k⟩ :: rest)
      = readBlock limit depth (.plain c before) rest := by
  rw [readBlock, block, map_val_block]

/-- At a loop the depth is checked, then the body is read, then it is measured. -/
theorem readBlock_jz :
    readBlock limit depth before (⟨.jz, k⟩ :: rest) =
      if (loopOverhead * (depth + 1) : ℤ) > limit then
        .error ⟨.nestingTooDeep (depth + 1) limit, k⟩
      else
        match readBlock limit (depth + 1) .done rest with
        | .error v => .error v
        | .ok (_, []) => .error ⟨.neverClosed, k⟩
        | .ok (body, _ :: behind) =>
          if jumpDistance body.size > maxDistance then .error ⟨.bodyTooLong body.size, k⟩
          else readBlock limit depth (.loop body before) behind := by
  rw [readBlock, block]
  split
  · rfl
  · rw [readBlock]
    cases block limit (depth + 1) rest .done rest (inside_self rest) with
    | error v => rfl
    | ok r =>
      obtain ⟨⟨body, _ | ⟨head, behind⟩⟩, h_shorter⟩ := r
      · rfl
      · change Except.map _ (if _ then _ else _) = if _ then _ else _
        split
        · rfl
        · exact map_val_block _

/-- A closing bracket ends a block, and outside all loops it is refused. -/
theorem readBlock_jmp :
    readBlock limit depth before (⟨.jmp, k⟩ :: rest) =
      if depth = 0 then .error ⟨.neverOpened, k⟩ else .ok (before.reverse, ⟨.jmp, k⟩ :: rest) := by
  rw [readBlock, block]
  split <;> rfl

/-- What is left of the tokens is the end of them. -/
theorem suffix_of_block {h_inside : tokens.length ≤ outer.length}
    {r : { r : Program × List Token // r.2.length ≤ outer.length }}
    (h : block limit depth outer before tokens h_inside = .ok r) : r.val.2 <:+ tokens := by
  fun_induction block limit depth outer before tokens h_inside with
  | case1 => cases h; exact List.suffix_rfl
  | case2 depth outer before c k rest h_inside _ ih => exact (ih h).trans (List.suffix_cons _ _)
  | case3 | case4 | case5 | case6 | case8 => cases h
  | case7 depth outer before k rest h_inside _ body head behind h_shorter h_ok _ _ ih_body ih =>
    -- behind the loop, and the loop behind its opening bracket
    have h_behind : r.val.2 <:+ behind := ih h
    have h_body : head :: behind <:+ rest := ih_body h_ok
    exact ((h_behind.trans (List.suffix_cons _ _)).trans h_body).trans (List.suffix_cons _ _)
  | case9 => cases h; exact List.suffix_rfl

/-- **What a block consumes** are the tokens of a program, up to the end or, inside a loop, up
to a closing bracket. -/
theorem readBlock_eq_ok {p : Program} (h : readBlock limit depth before tokens = .ok (p, rest)) :
    ∃ front, ∃ q : Program, tokens = front ++ rest ∧ front.map Token.opcode = q.opcodes ∧
      (rest = [] ∨ 0 < depth ∧ ∃ k behind, rest = ⟨.jmp, k⟩ :: behind) := by
  rw [readBlock] at h
  cases h_block : block limit depth tokens before tokens (inside_self tokens) with
  | error v =>
    rw [h_block] at h
    cases h
  | ok r =>
    rw [h_block] at h
    obtain ⟨⟨p', rest'⟩, h_shorter⟩ := r
    cases h
    obtain ⟨q, -, -, h_ops, h_end⟩ := block_eq_ok h_block
    obtain ⟨front, h_front⟩ := suffix_of_block h_block
    refine ⟨front, q, h_front.symm, ?_, h_end⟩
    -- the operations in front are those of a program, once what is left over is taken off
    have h_map := congrArg (List.map Token.opcode) h_front
    rw [List.map_append] at h_map
    exact List.append_cancel_right (h_map.trans h_ops)

end Equations

end Program

namespace Source

variable {text : List Char} {i j k : ℕ}

/-! ### Tokens and positions -/

/-- The characters from one position up to another. -/
def slice (text : List Char) (i k : ℕ) : List Char := (text.take k).drop i

theorem slice_self (text : List Char) (i : ℕ) : slice text i i = [] := by
  rw [slice, List.drop_eq_nil_iff, List.length_take]
  exact Nat.min_le_left _ _

/-- Characters up to a position in between, and those from there on. -/
theorem slice_append (h_ij : i ≤ j) (h_jk : j ≤ k) (h_in : j ≤ text.length) :
    slice text i k = slice text i j ++ slice text j k := by
  have h_front : (text.take k).take j = text.take j := by
    rw [List.take_take, Nat.min_eq_left h_jk]
  -- the first part is whole before the characters in front are dropped
  have h_length : i ≤ (text.take j).length := by
    rw [List.length_take]
    omega
  rw [slice, ← List.take_append_drop j (text.take k), h_front,
    List.drop_append_of_le_length h_length, slice, slice]

theorem slice_succ {c : Char} (h_le : i ≤ k) (h_c : text[k]? = some c) :
    slice text i (k + 1) = slice text i k ++ [c] := by
  have h_lt := (List.getElem?_eq_some_iff.mp h_c).1
  rw [slice, List.take_add_one, h_c, Option.toList_some, List.drop_append_of_le_length, slice]
  rw [List.length_take]
  omega

/-- A token in a text: the characters in front of it make the tokens in front of it. -/
theorem exists_of_scanFrom {front behind : List Token} {op : Opcode}
    (h : Token.scanFrom i text = front ++ ⟨op, k⟩ :: behind) :
    ∃ l c rest, text = l ++ c :: rest ∧ k = i + l.length ∧ Opcode.ofSymbol? c = some op ∧
      operations l = front.map Token.opcode ∧ behind = Token.scanFrom (k + 1) rest := by
  induction text generalizing i front with
  | nil =>
    rw [Token.scanFrom_nil] at h
    cases front <;> cases h
  | cons c text ih =>
    rw [Token.scanFrom_cons] at h
    cases h_c : Opcode.ofSymbol? c with
    | none =>
      -- a comment makes no token, and goes in front
      rw [h_c] at h
      obtain ⟨l, d, rest, rfl, rfl, h_d, h_ops, h_behind⟩ := ih h
      refine ⟨c :: l, d, rest, rfl, by rw [List.length_cons]; omega, h_d, ?_, h_behind⟩
      rw [← h_ops, operations, List.filterMap_cons_none h_c]
      rfl
    | some op' =>
      rw [h_c] at h
      cases front with
      | nil =>
        cases h
        exact ⟨[], c, text, rfl, rfl, h_c, rfl, rfl⟩
      | cons token front =>
        obtain ⟨h_token, h_rest⟩ := List.cons.inj h
        obtain ⟨l, d, rest, rfl, rfl, h_d, h_ops, h_behind⟩ := ih h_rest
        refine ⟨c :: l, d, rest, rfl, by rw [List.length_cons]; omega, h_d, ?_, h_behind⟩
        rw [operations_cons h_c, h_ops, List.map_cons, ← h_token]

/-- The same in the rest of a text. -/
theorem scanFrom_drop_eq_append {front behind : List Token} {op : Opcode}
    (h : Token.scanFrom i (text.drop i) = front ++ ⟨op, k⟩ :: behind) :
    i ≤ k ∧ text[k]? = some op.symbol ∧ operations (slice text i k) = front.map Token.opcode ∧
      behind = Token.scanFrom (k + 1) (text.drop (k + 1)) := by
  obtain ⟨l, c, rest, h_text, rfl, h_c, h_ops, h_behind⟩ := exists_of_scanFrom h
  have h_slice : slice text i (i + l.length) = l := by
    rw [slice, List.drop_take, h_text, Nat.add_sub_cancel_left, List.take_left]
  have h_rest : text.drop (i + l.length + 1) = rest := by
    rw [Nat.add_assoc, ← List.drop_drop, h_text, List.drop_append]
    simp
  refine ⟨Nat.le_add_right _ _, ?_, by rw [h_slice, h_ops], by rw [h_rest, h_behind]⟩
  rw [← Opcode.ofSymbol?_eq_some_iff.mp h_c, ← List.getElem?_drop, h_text,
    List.getElem?_append_right (Nat.le_refl _), Nat.sub_self, List.getElem?_cons_zero]

/-! ### One iteration -/

/-- What reading a block comes to. -/
inductive Reading
  /-- The program of the block, and where the cursor stands then. -/
  | returned (program : Program) (cursor : ℕ)
  | refused (violation : Violation)
  /-- The descent was cut off. -/
  | cut
  deriving DecidableEq, Repr

/-- What an iteration of the loop of a block comes to. -/
inductive Iteration
  /-- The block is at its end, or the text is refused. -/
  | stops (reading : Reading)
  /-- The loop goes on with these items, the last one first, at this position. -/
  | advances (before : Program) (cursor : ℕ)
  deriving DecidableEq, Repr

/-- The outcome of a block after an iteration, with `go` for the rest of its loop. -/
def Iteration.resume (go : Program → ℕ → Reading) : Iteration → Reading
  | .stops reading => reading
  | .advances before cursor => go before cursor

open Program in
/-- What an iteration at an opening bracket makes of its body: the text has to go on, and the
body must be short enough for the jumps. -/
def closeLoop (text : List Char) (before : Program) (cursor : ℕ) : Reading → Iteration
  | .returned body stop =>
    if text.length ≤ stop then .stops (.refused ⟨.neverClosed, cursor⟩)
    else if jumpDistance body.size > maxDistance then
      .stops (.refused ⟨.bodyTooLong body.size, cursor⟩)
    else .advances (.loop body before) (stop + 1)
  | .refused violation => .stops (.refused violation)
  | .cut => .stops .cut

open Program in
/-- One iteration of the loop of a block, `depth` loops deep: it looks at the character under
the cursor. Behind an opening bracket it has the body read by `call`, at a depth and from a
position. -/
def iterate (text : List Char) (limit : ℤ) (call : ℕ → ℕ → Reading) (depth : ℕ)
    (before : Program) (cursor : ℕ) : Iteration :=
  if cursor < text.length then
    match opcodeAt? text cursor with
    | none => .advances before (cursor + 1)
    | some (.plain c) => .advances (.plain c before) (cursor + 1)
    | some .jz =>
      if (loopOverhead * (depth + 1) : ℤ) > limit then
        .stops (.refused ⟨.nestingTooDeep (depth + 1) limit, cursor⟩)
      else closeLoop text before cursor (call (depth + 1) (cursor + 1))
    | some .jmp =>
      if depth = 0 then .stops (.refused ⟨.neverOpened, cursor⟩)
      else .stops (.returned before.reverse cursor)
  else .stops (.returned before.reverse cursor)

/-- The cursor stands at the next token that is left, or at the end. -/
def cursorAt (text : List Char) : List Token → ℕ
  | [] => text.length
  | token :: _ => token.position

/-- The outcome of the reader for the rest of a block from a position on. -/
def blockAt (text : List Char) (limit : ℤ) (depth : ℕ) (before : Program) (cursor : ℕ) : Reading :=
  match Program.readBlock limit depth before (Token.scanFrom cursor (text.drop cursor)) with
  | .error violation => .refused violation
  | .ok (program, rest) => .returned program (cursorAt text rest)

/-- A block that is called at a position. -/
def called (text : List Char) (limit : ℤ) (depth cursor : ℕ) : Reading :=
  blockAt text limit depth .done cursor

section Blocks

variable {limit : ℤ} {depth : ℕ} {before p : Program}

/-- **A block that was read** has balanced brackets, and ends at the end of the text or, inside
a loop, at a closing bracket. -/
theorem of_blockAt_returned (h_le : i ≤ text.length)
    (h : blockAt text limit depth before i = .returned p k) :
    i ≤ k ∧ k ≤ text.length ∧ Balanced (slice text i k) ∧
      (k = text.length ∨ 0 < depth ∧ text[k]? = some ']') := by
  rw [blockAt] at h
  cases h_read : Program.readBlock limit depth before (Token.scanFrom i (text.drop i)) with
  | error v =>
    rw [h_read] at h
    cases h
  | ok r =>
    obtain ⟨q, rest⟩ := r
    rw [h_read] at h
    obtain ⟨rfl, rfl⟩ := Reading.returned.inj h
    -- the tokens consumed are those of a program, so the characters they stand for balance
    obtain ⟨front, b, h_front, h_ops, rfl | ⟨h_deep, k, behind, rfl⟩⟩ :=
      Program.readBlock_eq_ok h_read
    · refine ⟨h_le, Nat.le_refl _, balanced_iff.mpr ⟨b, ?_⟩, Or.inl rfl⟩
      rw [← h_ops, cursorAt, slice, List.take_length, operations, ← Token.opcode_scan i, h_front,
        List.append_nil]
    · obtain ⟨h_ik, h_char, h_slice, -⟩ := scanFrom_drop_eq_append h_front
      have h_lt := (List.getElem?_eq_some_iff.mp h_char).1
      exact ⟨h_ik, Nat.le_of_lt h_lt, balanced_iff.mpr ⟨b, by rw [← h_ops, ← h_slice]; rfl⟩,
        Or.inr ⟨h_deep, h_char⟩⟩

/-- The reader itself is never cut off. -/
theorem blockAt_ne_cut : blockAt text limit depth before i ≠ .cut := by
  rw [blockAt]
  split <;> exact Reading.noConfusion

theorem scanFrom_drop_of_comment (h_lt : i < text.length) (h : opcodeAt? text i = none) :
    Token.scanFrom i (text.drop i) = Token.scanFrom (i + 1) (text.drop (i + 1)) := by
  rw [opcodeAt?, List.getElem?_eq_getElem h_lt, Option.bind_some] at h
  rw [List.drop_eq_getElem_cons h_lt, Token.scanFrom_cons, h]
  rfl

/-- The operation at a position makes the first token from there on. -/
theorem scanFrom_drop_of_opcodeAt? {op : Opcode} (h : opcodeAt? text i = some op) :
    Token.scanFrom i (text.drop i) = ⟨op, i⟩ :: Token.scanFrom (i + 1) (text.drop (i + 1)) := by
  have h_lt := lt_of_opcodeAt? h
  rw [opcodeAt?, List.getElem?_eq_getElem h_lt, Option.bind_some] at h
  rw [List.drop_eq_getElem_cons h_lt, Token.scanFrom_cons, h]
  rfl

open Program in
/-- A loop that is not too deep: the body is read first, and then its outcome decides. -/
theorem blockAt_jz (h_op : opcodeAt? text i = some .jz)
    (h_shallow : ¬ (loopOverhead * (depth + 1) : ℤ) > limit) :
    blockAt text limit depth before i
      = (closeLoop text before i (called text limit (depth + 1) (i + 1))).resume
          (blockAt text limit depth) := by
  rw [called, blockAt, blockAt, scanFrom_drop_of_opcodeAt? h_op, readBlock_jz, if_neg h_shallow]
  cases h_body : readBlock limit (depth + 1) .done
      (Token.scanFrom (i + 1) (text.drop (i + 1))) with
  | error v => rfl
  | ok r =>
    obtain ⟨body, _ | ⟨⟨op, k⟩, behind⟩⟩ := r
    · -- the body goes on to the end of the text
      dsimp only [cursorAt, closeLoop]
      rw [if_pos (Nat.le_refl _)]
      rfl
    · -- the body stops at its closing bracket, and the tokens behind that are left
      obtain ⟨front, b, h_front, -⟩ := readBlock_eq_ok h_body
      obtain ⟨-, h_char, -, rfl⟩ := scanFrom_drop_eq_append h_front
      have h_lt := (List.getElem?_eq_some_iff.mp h_char).1
      dsimp only [cursorAt, closeLoop]
      rw [if_neg (Nat.not_le.mpr h_lt)]
      by_cases h_long : jumpDistance body.size > maxDistance
      · rw [if_pos h_long, if_pos h_long]
        rfl
      · rw [if_neg h_long, if_neg h_long]
        rfl

open Program in
/-- **The reader is the loop of its iterations.** -/
theorem blockAt_eq_resume (h_le : i ≤ text.length) :
    blockAt text limit depth before i
      = (iterate text limit (called text limit) depth before i).resume
          (blockAt text limit depth) := by
  rcases Nat.lt_or_eq_of_le h_le with h_lt | rfl
  case inr =>
    -- at the end of the text no token is left
    rw [blockAt, List.drop_length, Token.scanFrom_nil, readBlock_nil, iterate,
      if_neg (Nat.lt_irrefl _)]
    rfl
  rw [iterate, if_pos h_lt]
  cases h_op : opcodeAt? text i with
  | none =>
    rw [blockAt, scanFrom_drop_of_comment h_lt h_op]
    rfl
  | some op =>
    cases op with
    | plain c =>
      rw [blockAt, scanFrom_drop_of_opcodeAt? h_op, readBlock_plain]
      rfl
    | jz =>
      dsimp only
      by_cases h_deep : (loopOverhead * (depth + 1) : ℤ) > limit
      · rw [if_pos h_deep, blockAt, scanFrom_drop_of_opcodeAt? h_op, readBlock_jz, if_pos h_deep]
        rfl
      · rw [if_neg h_deep, blockAt_jz h_op h_deep]
    | jmp =>
      dsimp only
      rw [blockAt, scanFrom_drop_of_opcodeAt? h_op, readBlock_jmp]
      by_cases h_depth : depth = 0
      · rw [if_pos h_depth, if_pos h_depth]
        rfl
      · rw [if_neg h_depth, if_neg h_depth]
        rfl

/-- The characters of a loop, from its opening bracket to behind the closing one. -/
theorem slice_loop (h_lt : i < k) (h_open : text[i]? = some '[') (h_close : text[k]? = some ']') :
    slice text i (k + 1) = '[' :: (slice text (i + 1) k ++ [']']) := by
  have h_in := (List.getElem?_eq_some_iff.mp h_open).1
  rw [slice_succ (Nat.le_of_lt h_lt) h_close, slice_append (Nat.le_succ i) h_lt h_in,
    slice_succ (Nat.le_refl i) h_open, slice_self]
  rfl

/-- A character that is no bracket. -/
theorem balanced_slice_succ (h_lt : i < text.length) (h_open : opcodeAt? text i ≠ some .jz)
    (h_close : opcodeAt? text i ≠ some .jmp) : Balanced (slice text i (i + 1)) := by
  have h_c := List.getElem?_eq_getElem h_lt
  rw [Ne, opcodeAt?_eq_some_iff, h_c, Option.some.injEq] at h_open h_close
  rw [slice_succ (Nat.le_refl i) h_c, slice_self]
  exact .singleton h_open h_close

/-- What an iteration comes to: it returns with the cursor where it is, refuses the text, or
puts the cursor forward, over characters whose brackets are balanced. -/
inductive Iterated (text : List Char) (depth i : ℕ) : Iteration → Prop
  | returns (p : Program) : i = text.length ∨ 0 < depth ∧ text[i]? = some ']' →
    Iterated text depth i (.stops (.returned p i))
  | raises (v : Violation) : Iterated text depth i (.stops (.refused v))
  | advances (before : Program) {k : ℕ} : i < k → k ≤ text.length → Balanced (slice text i k) →
    Iterated text depth i (.advances before k)

/-- Behind a loop the cursor stands behind its brackets, if the text is not refused. -/
theorem iterated_closeLoop (h_op : opcodeAt? text i = some .jz) :
    Iterated text depth i
      (closeLoop text before i (called text limit (depth + 1) (i + 1))) := by
  have h_lt := lt_of_opcodeAt? h_op
  cases h_body : called text limit (depth + 1) (i + 1) with
  | cut => exact absurd h_body blockAt_ne_cut
  | refused v => exact .raises v
  | returned body stop =>
    obtain ⟨h_le, -, h_inner, h_end⟩ := of_blockAt_returned h_lt h_body
    rw [closeLoop]
    split
    · exact .raises _
    · next h_stop =>
      split
      · exact .raises _
      · -- the body has stopped at the closing bracket
        obtain h_length | ⟨-, h_close⟩ := h_end
        · omega
        · refine .advances _ (by omega) (by omega) ?_
          rw [slice_loop (by omega) (opcodeAt?_eq_some_iff.mp h_op) h_close]
          exact h_inner.enclose

/-- **Every iteration returns, refuses or goes forward.** -/
theorem iterated (h_le : i ≤ text.length) :
    Iterated text depth i (iterate text limit (called text limit) depth before i) := by
  rw [iterate]
  split
  case isFalse h_not => exact .returns _ (Or.inl (by omega))
  case isTrue h_lt =>
    cases h_op : opcodeAt? text i with
    | none =>
      -- a comment is passed over
      exact .advances _ (Nat.lt_succ_self i) h_lt
        (balanced_slice_succ h_lt (by simp [h_op]) (by simp [h_op]))
    | some op =>
      cases op with
      | plain c =>
        exact .advances _ (Nat.lt_succ_self i) h_lt
          (balanced_slice_succ h_lt (by simp [h_op]) (by simp [h_op]))
      | jz =>
        dsimp only
        split
        · exact .raises _
        · exact iterated_closeLoop h_op
      | jmp =>
        dsimp only
        split
        · exact .raises _
        · next h_depth =>
          exact .returns _ (Or.inr ⟨Nat.pos_of_ne_zero h_depth, opcodeAt?_eq_some_iff.mp h_op⟩)

end Blocks

end Source

end TapeProcessor
