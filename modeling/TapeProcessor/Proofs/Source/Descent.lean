import TapeProcessor.Proofs.Source.Cursor

/-!
# The descent is bounded and comes to an end

A reader that descends into every loop needs a level for each one that is open, and a text
may open as many as it likes and close none. What keeps the descent in bounds is a check of
the length of the jumps around a loop, made before the loop is entered. This file follows
the reader iteration by iteration, as seen from the text.

* `Source.Reaches` are the iterations that are made, each in its call of a block. A step
  lemma for each way to come to another one gives what holds of all of them
  (`Source.Reaches.inBlock`): the depth is within the bound, and the cursor is in the text,
  behind balanced brackets.
* `Source.blockWithin` is a reader whose descent is cut off at a number of levels, and whose
  loops are cut off as well when they have made an iteration for each character and one
  more. If the levels are no fewer than the check admits, nothing is ever cut off, and the
  outcome is that of the reader (`Source.blockWithin_eq_called`).

`Source.descent_bounded` states both for whole texts.
-/

namespace TapeProcessor.Source

open Program (block compile loopOverhead nestingLimit ofTokens readBlock)

variable {text : List Char} {limit : ℤ} {depth start i k : ℕ} {before : Program}

/-! ### The iterations that are made -/

/-- When a text is read, an iteration is made in a call of a block `depth` loops deep that
began at position `start`, with these items read and the cursor at this position. -/
inductive Reaches (text : List Char) (limit : ℤ) : ℕ → ℕ → Program → ℕ → Prop
  /-- The outermost block is called at the start of the text. -/
  | first : Reaches text limit 0 0 .done 0
  /-- The loop of a call goes on. -/
  | next {depth start i k : ℕ} {before before' : Program} :
    Reaches text limit depth start before i →
    iterate text limit (called text limit) depth before i = .advances before' k →
    Reaches text limit depth start before' k
  /-- At an opening bracket that passes the check a block is called for the body. -/
  | call {depth start i : ℕ} {before : Program} :
    Reaches text limit depth start before i → opcodeAt? text i = some .jz →
    ¬ (loopOverhead * (depth + 1) : ℤ) > limit →
    Reaches text limit (depth + 1) (i + 1) .done (i + 1)

/-- What holds in every iteration. -/
structure InBlock (text : List Char) (limit : ℤ) (depth start i : ℕ) : Prop where
  depth_le : (depth : ℤ) ≤ max 0 (limit / 4)
  start_le : start ≤ i
  le : i ≤ text.length
  balanced : Balanced (slice text start i)

theorem InBlock.first : InBlock text limit 0 0 0 where
  depth_le := Int.le_max_left 0 _
  start_le := Nat.le_refl 0
  le := Nat.zero_le _
  balanced := by
    rw [slice_self]
    exact .nil

/-- The cursor goes forward over balanced brackets. -/
theorem InBlock.next {before' : Program} (h : InBlock text limit depth start i)
    (h_next : iterate text limit (called text limit) depth before i = .advances before' k) :
    InBlock text limit depth start k := by
  have h_iterated : Iterated text depth i (.advances before' k) := h_next ▸ iterated h.le
  cases h_iterated with
  | advances _ h_lt h_le h_balanced =>
    refine ⟨h.depth_le, Nat.le_trans h.start_le (Nat.le_of_lt h_lt), h_le, ?_⟩
    rw [slice_append h.start_le (Nat.le_of_lt h_lt) h.le]
    exact h.balanced.append h_balanced

/-- A loop that passes the check is within the bound. -/
theorem InBlock.call (h_op : opcodeAt? text i = some .jz)
    (h_shallow : ¬ (loopOverhead * (depth + 1) : ℤ) > limit) :
    InBlock text limit (depth + 1) (i + 1) (i + 1) where
  depth_le := by
    rw [loopOverhead] at h_shallow
    omega
  start_le := Nat.le_refl _
  le := lt_of_opcodeAt? h_op
  balanced := by
    rw [slice_self]
    exact .nil

/-- Every iteration that is made is within the bounds. -/
theorem Reaches.inBlock (h : Reaches text limit depth start before i) :
    InBlock text limit depth start i := by
  induction h with
  | first => exact .first
  | next _ h_next ih => exact ih.next h_next
  | call _ h_op h_shallow _ => exact .call h_op h_shallow

/-- **A refusal in any iteration** is the outcome of the outermost block. -/
theorem Reaches.refused {v : Violation} (h : Reaches text limit depth start before i)
    (h_refused : blockAt text limit depth before i = .refused v) :
    called text limit 0 0 = .refused v := by
  -- back along the way to the iteration: its outcome is that of the one before it
  induction h with
  | first => exact h_refused
  | next h h_next ih =>
    refine ih ?_
    rw [blockAt_eq_resume h.inBlock.le, h_next]
    exact h_refused
  | @call depth start i before h h_op h_shallow ih =>
    refine ih ?_
    -- the body that was called is refused, and with it the loop around it
    rw [blockAt_jz h_op h_shallow, show called text limit (depth + 1) (i + 1) = _ from h_refused]
    rfl

/-! ### A bounded reader -/

/-- A loop that may make so many iterations. -/
def loopFor (iteration : Program → ℕ → Iteration) : ℕ → Program → ℕ → Reading
  | 0, _, _ => .cut
  | left + 1, before, cursor => (iteration before cursor).resume (loopFor iteration left)

/-- A block, in which so many calls may be open at once. -/
def blockWithin (text : List Char) (limit : ℤ) : ℕ → ℕ → ℕ → Reading
  | 0, _, _ => .cut
  | calls + 1, depth, cursor =>
    loopFor (iterate text limit (blockWithin text limit calls) depth) (text.length + 1) .done
      cursor

/-- An iteration depends on the deeper block only at a loop that passes the check. -/
theorem iterate_congr {call call' : ℕ → ℕ → Reading}
    (h : opcodeAt? text i = some .jz → ¬ (loopOverhead * (depth + 1) : ℤ) > limit →
      call (depth + 1) (i + 1) = call' (depth + 1) (i + 1)) :
    iterate text limit call depth before i = iterate text limit call' depth before i := by
  rw [iterate, iterate]
  cases h_op : opcodeAt? text i with
  | none => rfl
  | some op =>
    cases op with
    | plain c => rfl
    | jmp => rfl
    | jz =>
      dsimp only
      by_cases h_deep : (loopOverhead * (depth + 1) : ℤ) > limit
      · rw [if_pos h_deep, if_pos h_deep]
      · rw [if_neg h_deep, if_neg h_deep, h h_op h_deep]

/-- **An iteration for each character is enough**, and one more for the end. -/
theorem loopFor_eq_blockAt {call : ℕ → ℕ → Reading}
    (h_call : ∀ j, opcodeAt? text j = some .jz → ¬ (loopOverhead * (depth + 1) : ℤ) > limit →
      call (depth + 1) (j + 1) = called text limit (depth + 1) (j + 1))
    {left : ℕ} (h_le : i ≤ text.length) (h_left : text.length < i + left) :
    loopFor (iterate text limit call depth) left before i = blockAt text limit depth before i := by
  -- each iteration puts the cursor forward, so what is left to read goes down with the count
  induction left generalizing before i with
  | zero => omega
  | succ left ih =>
    rw [loopFor, iterate_congr (h_call i), blockAt_eq_resume h_le]
    cases h_next : iterate text limit (called text limit) depth before i with
    | stops reading => rfl
    | advances before' k =>
      have h_iterated : Iterated text depth i (.advances before' k) := h_next ▸ iterated h_le
      cases h_iterated with
      | advances _ h_lt h_k _ => exact ih h_k (by omega)

/-- **Enough levels are as good as any number.** -/
theorem blockWithin_eq_called {calls : ℕ} (h_pos : 0 < calls)
    (h_calls : limit < 4 * (depth + calls)) (h_le : i ≤ text.length) :
    blockWithin text limit calls depth i = called text limit depth i := by
  induction calls generalizing depth i with
  | zero => exact absurd h_pos (Nat.lt_irrefl 0)
  | succ calls ih =>
    refine loopFor_eq_blockAt (fun j h_op h_shallow => ?_) h_le (by omega)
    -- a loop that passes the check leaves room for a call
    rw [loopOverhead] at h_shallow
    exact ih (by omega) (by omega) (lt_of_opcodeAt? h_op)

/-! ### Whole texts -/

section Texts

variable {source : String} {capacity : ℤ}

/-- What is left to do when the outermost block was read; nothing if it was cut off. -/
def finish (source : String) (capacity : ℤ) :
    Reading → Option (Except Violation (Array UInt8))
  | .returned program _ =>
    some (if (program.size : ℤ) > capacity then
        .error ⟨.programTooLong program.size capacity, source.length⟩
      else .ok program.encode)
  | .refused violation => some (.error violation)
  | .cut => none

/-- Compiling with a descent that is cut off below so many levels of nested loops. -/
def compileWithin (levels : ℕ) (source : String) (capacity : ℤ) :
    Option (Except Violation (Array UInt8)) :=
  finish source capacity (blockWithin source.toList (nestingLimit capacity) (levels + 1) 0 0)

/-- How deep the loops may be nested before their jumps alone, of four words for each, take
more than code memory or a body can hold. -/
def deepest (capacity : ℤ) : ℤ := max 0 (min capacity 256 / 4)

/-- However large code memory is, the distance of a jump allows no more than 64 levels. -/
theorem deepest_le : deepest capacity ≤ 64 := by
  rw [deepest]
  omega

/-- A text is read as a block outside all loops. -/
theorem ofTokens_eq_readBlock (tokens : List Token) :
    ofTokens capacity tokens
      = (readBlock (nestingLimit capacity) 0 .done tokens).map Prod.fst := by
  rw [ofTokens, readBlock]
  cases block (nestingLimit capacity) 0 tokens .done tokens (Program.inside_self tokens) <;> rfl

/-- **A text is compiled** by a call of the outermost block. -/
theorem finish_called (source : String) (capacity : ℤ) :
    finish source capacity (called source.toList (nestingLimit capacity) 0 0)
      = some (compile source capacity) := by
  have h_tokens : ofTokens capacity _ = _ := ofTokens_eq_readBlock (Token.scan source.toList)
  rw [called, blockAt, List.drop_zero,
    show Token.scanFrom 0 source.toList = Token.scan source.toList from rfl]
  cases h_read : readBlock (nestingLimit capacity) 0 .done (Token.scan source.toList) with
  | error v =>
    rw [h_read] at h_tokens
    rw [Program.compile_of_refused h_tokens]
    rfl
  | ok r =>
    rw [h_read] at h_tokens
    rw [Program.compile_of_read h_tokens]
    rfl

/-- A text is refused with whatever any iteration refuses. -/
theorem Reaches.compile_eq_error {v : Violation}
    (h : Reaches source.toList (nestingLimit capacity) depth start before i)
    (h_stops : iterate source.toList (nestingLimit capacity)
      (called source.toList (nestingLimit capacity)) depth before i = .stops (.refused v)) :
    compile source capacity = .error v := by
  have h_block : blockAt source.toList (nestingLimit capacity) depth before i = .refused v := by
    rw [blockAt_eq_resume h.inBlock.le, h_stops]
    rfl
  have h_finish := finish_called source capacity
  rw [h.refused h_block] at h_finish
  exact (Option.some.inj h_finish).symm

/-- Cutting the descent off below the depth that the check admits changes nothing. -/
theorem compileWithin_eq {levels : ℕ} (h : deepest capacity ≤ levels) :
    compileWithin levels source capacity = some (compile source capacity) := by
  -- one call more than there are levels, for the block outside all loops
  have h_limit : nestingLimit capacity < 4 * ((0 : ℕ) + (levels + 1 : ℕ)) := by
    rw [nestingLimit, Program.maxDistance]
    rw [deepest] at h
    omega
  rw [compileWithin, blockWithin_eq_called (Nat.succ_pos levels) h_limit (Nat.zero_le _),
    finish_called]

/-- **The descent is bounded and comes to an end** on every text, balanced or not, and for
every capacity.

A text is compiled by a call of the outermost block, and a block is the loop of its
iterations. Each one that is made is no deeper than the check admits, with the cursor in the
text; it returns, refuses the text for good, or puts the cursor forward. A block that
returns has read balanced brackets, up to the end of the text or to the bracket that closes
its loop. So nothing is lost when the descent is cut off. -/
theorem descent_bounded (source : String) (capacity : ℤ) :
    let text := source.toList
    let limit := nestingLimit capacity
    finish source capacity (called text limit 0 0) = some (compile source capacity) ∧
    (∀ depth before i, i ≤ text.length → blockAt text limit depth before i
      = (iterate text limit (called text limit) depth before i).resume
          (blockAt text limit depth)) ∧
    deepest capacity ≤ 64 ∧
    (∀ depth start before i, Reaches text limit depth start before i →
      (depth : ℤ) ≤ deepest capacity ∧ start ≤ i ∧ i ≤ text.length ∧
      Balanced (slice text start i) ∧
      Iterated text depth i (iterate text limit (called text limit) depth before i) ∧
      ∀ v, iterate text limit (called text limit) depth before i = .stops (.refused v) →
        compile source capacity = .error v) ∧
    (∀ depth start p i, start ≤ text.length → called text limit depth start = .returned p i →
      start ≤ i ∧ i ≤ text.length ∧ Balanced (slice text start i) ∧
      (i = text.length ∨ 0 < depth ∧ text[i]? = some ']')) ∧
    compileWithin 64 source capacity = some (compile source capacity) ∧
    ∀ levels : ℕ, deepest capacity ≤ levels →
      compileWithin levels source capacity = some (compile source capacity) := by
  intro text limit
  refine ⟨finish_called source capacity, fun depth before i h_le => blockAt_eq_resume h_le,
    deepest_le, fun depth start before i h => ?_,
    fun depth start p i h_le h_called => of_blockAt_returned h_le h_called,
    compileWithin_eq deepest_le, fun levels h => compileWithin_eq h⟩
  obtain ⟨h_depth, h_start, h_le, h_balanced⟩ := h.inBlock
  exact ⟨h_depth, h_start, h_le, h_balanced, iterated h_le,
    fun v h_stops => h.compile_eq_error h_stops⟩

/-- Eight words have room for two loops in one another. Of the three at the end the last one
is refused, though none of them is ever closed. -/
theorem descent_bounded_unclosed :
    called "[.][[[".toList 8 1 1 = .returned (.plain .put .done) 2 ∧
      Balanced (slice "[.][[[".toList 1 2) ∧ "[.][[[".toList[2]? = some ']' ∧
      Reaches "[.][[[".toList 8 2 5 .done 5 ∧ (2 : ℤ) ≤ deepest 8 ∧
      compile "[.][[[" 8 = .error ⟨.nestingTooDeep 3 8, 5⟩ ∧
      compileWithin 2 "[.][[[" 8 = some (.error ⟨.nestingTooDeep 3 8, 5⟩) := by
  obtain ⟨-, -, -, h_reaches, h_returns, -, h_levels⟩ := descent_bounded "[.][[[" 8
  have h_called : called "[.][[[".toList 8 1 1 = .returned (.plain .put .done) 2 := by
    decide +kernel
  obtain ⟨-, -, h_balanced, h_end⟩ := h_returns 1 1 _ 2 (by decide) h_called
  -- over the first loop, and then into two of the others
  have h_outer : Reaches "[.][[[".toList 8 0 0 (.loop (.plain .put .done) .done) 3 :=
    .next .first (by decide +kernel)
  have h_inner : Reaches "[.][[[".toList 8 2 5 .done 5 :=
    .call (.call h_outer (by decide +kernel) (by decide)) (by decide +kernel) (by decide)
  obtain ⟨h_depth, -, -, -, -, h_refused⟩ := h_reaches 2 5 .done 5 h_inner
  have h_compile := h_refused ⟨.nestingTooDeep 3 8, 5⟩ (by decide +kernel)
  exact ⟨h_called, h_balanced, h_end.resolve_left (by decide) |>.2, h_inner, h_depth, h_compile,
    (h_levels 2 (by decide)).trans (congrArg some h_compile)⟩

end Texts

end TapeProcessor.Source
