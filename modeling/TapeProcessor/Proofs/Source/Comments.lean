import TapeProcessor.Proofs.Program.Reading
import TapeProcessor.Proofs.Source.Walk

/-!
# Comments never matter

Two texts with the same commands come to the same end, wherever their comments stand. They
have one image, or they are refused for the same fault at the same command.

The reader carries the positions of tokens into its reports and otherwise looks at none of
them. So for any relation of positions, rows of tokens that are equal up to related
positions are read with outcomes that are equal up to related positions
(`Program.block_same`). Among the positions of two texts the relation is having the same
number of operations in front (`Source.SameNumber`), in which the tokens of texts with the
same commands stand (`Source.scan_alike`). Only the length of an image that is too long
is found at no command, and reported at the end of the text.
-/

namespace TapeProcessor

/-- Tokens of one operation, at positions related by `R`. -/
structure Token.Alike (R : ℕ → ℕ → Prop) (a b : Token) : Prop where
  opcode : a.opcode = b.opcode
  position : R a.position b.position

/-- A token in one row has its counterpart in the other. -/
theorem Token.exists_of_alike_cons {R : ℕ → ℕ → Prop} {op : Opcode} {i : ℕ}
    {rest tokens : List Token} (h : List.Forall₂ (Token.Alike R) (⟨op, i⟩ :: rest) tokens) :
    ∃ j behind, tokens = ⟨op, j⟩ :: behind ∧ R i j ∧ List.Forall₂ (Token.Alike R) rest behind := by
  obtain ⟨⟨op', j⟩, behind, ⟨h_op, h_position⟩, h_behind, rfl⟩ := List.forall₂_cons_left_iff.mp h
  obtain rfl : op = op' := h_op
  exact ⟨j, behind, rfl, h_position, h_behind⟩

namespace Program

/-! ### Reading tokens at other positions -/

/-- Two outcomes of reading: results related by `S`, or the same fault at positions related
by `R`. -/
inductive SameOutcome (R : ℕ → ℕ → Prop) {A B : Type} (S : A → B → Prop) :
    Except Violation A → Except Violation B → Prop
  | ok {a : A} {b : B} : S a b → SameOutcome R S (.ok a) (.ok b)
  | error {fault : Fault} {i j : ℕ} : R i j →
    SameOutcome R S (.error ⟨fault, i⟩) (.error ⟨fault, j⟩)

/-- Two blocks that were read: the same program, and alike tokens behind it. -/
def SameBlock (R : ℕ → ℕ → Prop) {m n : ℕ} (r : { r : Program × List Token // r.2.length ≤ m })
    (r' : { r : Program × List Token // r.2.length ≤ n }) : Prop :=
  r.val.1 = r'.val.1 ∧ List.Forall₂ (Token.Alike R) r.val.2 r'.val.2

section Reading

variable {R : ℕ → ℕ → Prop} {A B : Type} {S : A → B → Prop}

/-- What is read in one row is read in the other. -/
theorem SameOutcome.of_ok {a : A} {outcome : Except Violation B}
    (h : SameOutcome R S (.ok a) outcome) : ∃ b, outcome = .ok b ∧ S a b := by
  cases h with
  | ok h_same => exact ⟨_, rfl, h_same⟩

/-- What is refused in one row is refused in the other, for the same fault. -/
theorem SameOutcome.of_error {v : Violation} {outcome : Except Violation B}
    (h : SameOutcome R S (.error v) outcome) :
    ∃ j, outcome = .error ⟨v.fault, j⟩ ∧ R v.position j := by
  cases h with
  | error h_position => exact ⟨_, rfl, h_position⟩

theorem SameOutcome.map {C D : Type} {T : C → D → Prop} {f : A → C} {g : B → D}
    {x : Except Violation A} {y : Except Violation B} (h : SameOutcome R S x y)
    (h_results : ∀ a b, S a b → T (f a) (g b)) : SameOutcome R T (x.map f) (y.map g) := by
  cases h with
  | ok h_same => exact .ok (h_results _ _ h_same)
  | error h_position => exact .error h_position

/-- A body that is read in one row is read in the other. -/
theorem exists_read {m n : ℕ} {body : Program} {behind : List Token}
    {h_shorter : (body, behind).2.length ≤ m}
    {outcome : Except Violation { r : Program × List Token // r.2.length ≤ n }}
    (h : SameOutcome R (SameBlock R) (.ok ⟨(body, behind), h_shorter⟩) outcome) :
    ∃ (behind' : List Token) (h_shorter' : (body, behind').2.length ≤ n),
      outcome = .ok ⟨(body, behind'), h_shorter'⟩ ∧
        List.Forall₂ (Token.Alike R) behind behind' := by
  obtain ⟨⟨⟨body', behind'⟩, h_shorter'⟩, h_read, h_same, h_behind⟩ := h.of_ok
  obtain rfl : body = body' := h_same
  exact ⟨behind', h_shorter', h_read, h_behind⟩

/-- **The reader looks at no position.** The induction is on the recursion of the reader in
one of the rows; in each case it meets the same operation in the other. -/
theorem block_same {limit : ℤ} {depth : ℕ} {before : Program} {outer outer' : List Token}
    {tokens tokens' : List Token} (h_inside : tokens.length ≤ outer.length)
    (h_inside' : tokens'.length ≤ outer'.length) (h : List.Forall₂ (Token.Alike R) tokens tokens') :
    SameOutcome R (SameBlock R) (block limit depth outer before tokens h_inside)
      (block limit depth outer' before tokens' h_inside') := by
  fun_induction block limit depth outer before tokens h_inside generalizing outer' tokens' with
  | case1 depth outer before h_inside =>
    -- both rows end here
    obtain rfl := List.forall₂_nil_left_iff.mp h
    rw [block]
    exact .ok ⟨rfl, .nil⟩
  | case2 depth outer before c i rest h_inside _ ih =>
    obtain ⟨j, behind, rfl, -, h_behind⟩ := Token.exists_of_alike_cons h
    rw [block]
    exact ih _ h_behind
  | case3 depth outer before i rest h_inside h_deep =>
    -- the depth is the same, so the loop is refused in either row
    obtain ⟨j, behind, rfl, h_position, -⟩ := Token.exists_of_alike_cons h
    rw [block, if_pos h_deep]
    exact .error h_position
  | case4 depth outer before i rest h_inside h_shallow violation h_error _ ih_body =>
    obtain ⟨j, behind, rfl, -, h_behind⟩ := Token.exists_of_alike_cons h
    -- the body is refused in the other row as well
    have h_inner := ih_body (Nat.le_refl _) h_behind
    rw [h_error] at h_inner
    obtain ⟨k, h_refused, h_position⟩ := h_inner.of_error
    rw [block, if_neg h_shallow, h_refused]
    exact .error h_position
  | case5 depth outer before i rest h_inside h_shallow body h_shorter h_ok _ ih_body =>
    obtain ⟨j, behind, rfl, h_position, h_behind⟩ := Token.exists_of_alike_cons h
    have h_inner := ih_body (Nat.le_refl _) h_behind
    rw [h_ok] at h_inner
    obtain ⟨behind', h_shorter', h_read, h_end⟩ := exists_read h_inner
    -- nothing is left behind the body in either row
    obtain rfl : behind' = [] := List.forall₂_nil_left_iff.mp h_end
    rw [block, if_neg h_shallow, h_read]
    exact .error h_position
  | case6 depth outer before i rest h_inside h_shallow body head after h_shorter h_ok h_long _
      ih_body =>
    obtain ⟨j, behind, rfl, h_position, h_behind⟩ := Token.exists_of_alike_cons h
    have h_inner := ih_body (Nat.le_refl _) h_behind
    rw [h_ok] at h_inner
    obtain ⟨behind', h_shorter', h_read, h_end⟩ := exists_read h_inner
    obtain ⟨head', after', -, -, rfl⟩ := List.forall₂_cons_left_iff.mp h_end
    -- it is the same body, so it is too long in either row
    rw [block, if_neg h_shallow, h_read]
    change SameOutcome R _ _ (if _ then _ else _)
    rw [if_pos h_long]
    exact .error h_position
  | case7 depth outer before i rest h_inside h_shallow body head after h_shorter h_ok h_short _
      ih_body ih =>
    obtain ⟨j, behind, rfl, h_position, h_behind⟩ := Token.exists_of_alike_cons h
    have h_inner := ih_body (Nat.le_refl _) h_behind
    rw [h_ok] at h_inner
    obtain ⟨behind', h_shorter', h_read, h_end⟩ := exists_read h_inner
    obtain ⟨head', after', -, h_after, rfl⟩ := List.forall₂_cons_left_iff.mp h_end
    -- the reader goes on with alike tokens behind the closing brackets
    rw [block, if_neg h_shallow, h_read]
    change SameOutcome R _ _ (if _ then _ else _)
    rw [if_neg h_short]
    exact ih _ h_after
  | case8 outer before i rest h_inside _ =>
    obtain ⟨j, behind, rfl, h_position, -⟩ := Token.exists_of_alike_cons h
    rw [block, if_pos rfl]
    exact .error h_position
  | case9 depth outer before i rest h_inside h_nonzero _ =>
    obtain ⟨j, behind, rfl, h_position, h_behind⟩ := Token.exists_of_alike_cons h
    rw [block, if_neg h_nonzero]
    exact .ok ⟨rfl, .cons ⟨rfl, h_position⟩ h_behind⟩

/-- The same of a whole text, read from no items and at no depth. -/
theorem ofTokens_same {tokens tokens' : List Token}
    (h : List.Forall₂ (Token.Alike R) tokens tokens') (capacity : ℤ) :
    SameOutcome R (· = ·) (ofTokens capacity tokens) (ofTokens capacity tokens') := by
  rw [ofTokens, ofTokens]
  exact (block_same _ _ h).map fun r r' h_same => h_same.1

end Reading

end Program

namespace Source

variable {text other : List Char} {n i : ℕ}

/-! ### The numbers of operations -/

/-- Position `i` is that of the operation of a text with `n` others in front of it. -/
structure Numbered (text : List Char) (n i : ℕ) : Prop where
  operation : (opcodeAt? text i).isSome
  number : (operations (text.take i)).length = n

/-- Positions of two texts at which the operations with one number stand. -/
def SameNumber (text other : List Char) (i j : ℕ) : Prop :=
  ∃ n, Numbered text n i ∧ Numbered other n j

/-- A comment in front moves an operation and leaves its number. -/
theorem Numbered.comment {c : Char} (h_char : Opcode.ofSymbol? c = none)
    (h : Numbered text n i) : Numbered (c :: text) n (i + 1) where
  operation := h.operation
  number := by
    rw [List.take_succ_cons, operations, List.filterMap_cons_none h_char]
    exact h.number

/-- An operation in front moves another one and raises its number. -/
theorem Numbered.behind {c : Char} {op : Opcode} (h_char : Opcode.ofSymbol? c = some op)
    (h : Numbered text n i) : Numbered (c :: text) (n + 1) (i + 1) where
  operation := h.operation
  number := by
    rw [List.take_succ_cons, operations_cons h_char, List.length_cons, h.number]

/-- The tokens of a text stand in the order of their numbers. -/
theorem numbered_of_scanFrom {start : ℕ} {token : Token}
    (h : (Token.scanFrom start text)[n]? = some token) :
    ∃ i, token.position = start + i ∧ Numbered text n i := by
  induction text generalizing start n with
  | nil => cases h
  | cons c text ih =>
    rw [Token.scanFrom_cons] at h
    cases h_char : Opcode.ofSymbol? c with
    | none =>
      rw [h_char] at h
      obtain ⟨i, h_position, h_number⟩ := ih h
      exact ⟨i + 1, by omega, h_number.comment h_char⟩
    | some op =>
      rw [h_char] at h
      cases n with
      | zero =>
        cases h
        refine ⟨0, rfl, ?_, rfl⟩
        exact Option.isSome_of_eq_some h_char
      | succ n =>
        obtain ⟨i, h_position, h_number⟩ := ih h
        exact ⟨i + 1, by omega, h_number.behind h_char⟩

theorem numbered_of_scan (h : n < (Token.scan text).length) :
    Numbered text n (Token.scan text)[n].position := by
  obtain ⟨i, h_position, h_number⟩ := numbered_of_scanFrom (List.getElem?_eq_getElem h)
  rw [h_position, Nat.zero_add]
  exact h_number

/-- **Texts with the same operations** have the same tokens, at positions of one number. -/
theorem scan_alike (h : operations text = operations other) :
    List.Forall₂ (Token.Alike (SameNumber text other)) (Token.scan text) (Token.scan other) := by
  have h_ops : (Token.scan text).map Token.opcode = (Token.scan other).map Token.opcode := by
    calc (Token.scan text).map Token.opcode
        = operations text := Token.opcode_scan 0 text
      _ = operations other := h
      _ = (Token.scan other).map Token.opcode := (Token.opcode_scan 0 other).symm
  have h_length : (Token.scan text).length = (Token.scan other).length := by
    simpa only [List.length_map] using congrArg List.length h_ops
  refine List.forall₂_iff_get.mpr ⟨h_length, fun n h_left h_right => ?_⟩
  refine ⟨?_, n, numbered_of_scan h_left, numbered_of_scan h_right⟩
  have h_op := congrArg (fun ops => ops[n]?) h_ops
  simpa [h_left, h_right] using h_op

open Program in
/-- **Comments never matter.** Two texts with the same commands have the same image, or
they are refused with the same category and message, at the command with the same number or
both at the end. -/
theorem comments_never_matter (s t : String) (h : commands s = commands t) (capacity : ℤ) :
    (∃ image, compile s capacity = .ok image ∧ compile t capacity = .ok image) ∨
      ∃ v w, compile s capacity = .error v ∧ compile t capacity = .error w ∧
        (v.diagnose s).category = (w.diagnose t).category ∧
        (v.diagnose s).message = (w.diagnose t).message ∧
        ((∃ n, Numbered s.toList n v.position ∧ Numbered t.toList n w.position) ∨
          v.position = s.length ∧ w.position = t.length) := by
  have h_read := ofTokens_same (scan_alike (commands_eq_iff.mp h)) capacity
  cases h_left : ofTokens capacity (Token.scan s.toList) with
  | error v =>
    rw [h_left] at h_read
    obtain ⟨j, h_right, h_number⟩ := h_read.of_error
    exact Or.inr ⟨v, ⟨v.fault, j⟩, compile_of_refused h_left, compile_of_refused h_right, rfl, rfl,
      Or.inl h_number⟩
  | ok p =>
    rw [h_left] at h_read
    obtain ⟨q, h_right, rfl⟩ := h_read.of_ok
    -- the same program was read, and its length is left to check
    rw [compile_of_read h_left, compile_of_read h_right]
    by_cases h_long : (p.size : ℤ) > capacity
    · rw [if_pos h_long, if_pos h_long]
      exact Or.inr ⟨_, _, rfl, rfl, rfl, rfl, Or.inr ⟨rfl, rfl⟩⟩
    · rw [if_neg h_long, if_neg h_long]
      exact Or.inl ⟨_, rfl, rfl⟩

/-- The bracket that is never closed is found at the second command of either text. -/
theorem comments_never_matter_unclosed :
    commands "+[ -" = commands "x+ y[-\n" ∧
      Program.compile "+[ -" 1024 = .error ⟨.neverClosed, 1⟩ ∧
      ∃ w, Program.compile "x+ y[-\n" 1024 = .error w ∧
        w.fault.category = .unmatchedBracket ∧ w.fault.message = "'[' is never closed" ∧
        Numbered "x+ y[-\n".toList 1 w.position := by
  have h_commands : commands "+[ -" = commands "x+ y[-\n" := by decide +kernel
  have h_left : Program.compile "+[ -" 1024 = .error ⟨.neverClosed, 1⟩ := by decide +kernel
  refine ⟨h_commands, h_left, ?_⟩
  rcases comments_never_matter _ _ h_commands 1024 with
    ⟨image, h_ok, -⟩ | ⟨v, w, h_v, h_w, h_category, h_message, h_place⟩
  · cases h_left.symm.trans h_ok
  · cases h_left.symm.trans h_v
    refine ⟨w, h_w, h_category.symm, h_message.symm, ?_⟩
    rcases h_place with ⟨n, h_number, h_other⟩ | ⟨h_end, -⟩
    · obtain rfl : 1 = n := h_number.number
      exact h_other
    · exact absurd h_end (by decide)

end Source

end TapeProcessor
