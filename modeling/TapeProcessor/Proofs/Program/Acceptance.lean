import TapeProcessor.Proofs.Program.Reading

/-!
# Every program that fits is read

`Program.of_compile` says what an image is that was returned. This file says that
there is one: a text is compiled as soon as its operations are those of a tree that
fits and is no longer than the capacity (`Program.compile_eq_ok_iff`).

What stands in the way is the check on the depth of nesting. It is made when a loop
is opened, before anything is known about the loop's body, and so it might refuse a
loop whose body turns out to be short enough. It does not, because each of the
loops around a place adds its own jumps to all the bodies that it stands in:

* `Program.loopOverhead_mul_nesting_le_size`: a program is at least as long as the
  jumps of its deepest loops;
* `Program.Fits.loopOverhead_mul_nesting_le`: if all bodies can be spanned, so can
  the jumps of the deepest loops.

So a tree that fits is never too deep for a code memory that can hold it
(`Program.Fits.shallow`).

`Program.block_append` is the reader on a row of tokens that begins with a program: it
puts the program in front of the items read before and goes on behind it. It makes the
outcome for a tree that fits and is not too deep a matter of its length alone
(`Program.compile_of_shallow`).
-/

namespace TapeProcessor.Program

/-- The number of loops around the deepest place of a program. -/
def nesting : Program → Nat
  | done => 0
  | plain _ next => next.nesting
  | loop body next => max (body.nesting + 1) next.nesting

/-! ### The jumps of nested loops -/

/-- A program is at least as long as the jumps of its deepest loops. -/
theorem loopOverhead_mul_nesting_le_size (p : Program) : loopOverhead * p.nesting ≤ p.size := by
  induction p with
  | done => exact Nat.le_refl 0
  | plain c next ih =>
    rw [size_plain]
    exact Nat.le_trans ih (Nat.le_add_left _ _)
  | loop body next ih_body ih =>
    rw [size_loop, nesting]
    rw [loopOverhead] at *
    omega

/-- If all bodies can be spanned, the jumps of the deepest loops can. -/
theorem Fits.loopOverhead_mul_nesting_le {p : Program} (h : p.Fits) :
    loopOverhead * p.nesting ≤ maxDistance + 1 := by
  induction p with
  | done => exact Nat.zero_le _
  | plain c next ih => exact ih h
  | loop body next _ ih =>
    obtain ⟨h_short, -, h_next⟩ := h
    -- the deepest loops of the body take no more than the body itself
    have h_body := body.loopOverhead_mul_nesting_le_size
    have h_rest := ih h_next
    rw [nesting]
    rw [loopOverhead, maxDistance] at *
    rw [jumpDistance] at h_short
    omega

/-! ### Reading on behind a program -/

/-- What was turned onto other items comes behind them when all is turned back. -/
theorem reverse_reverseOnto (p q : Program) : (p.reverseOnto q).reverse = q.reverse.append p := by
  induction p generalizing q with
  | done => exact (append_done _).symm
  | plain c next ih =>
    rw [reverseOnto, ih, reverse_plain, append_assoc]
    rfl
  | loop body next _ ih =>
    rw [reverseOnto, ih, reverse_loop, append_assoc]
    rfl

section Block

variable {limit : Int} {depth position closing : Nat} {outer : List Token} {before : Program}

/-- The reader puts a command in front of the items read before. -/
theorem block_plain {c : Command} {rest : List Token}
    (h_inside : (⟨.plain c, position⟩ :: rest : List Token).length ≤ outer.length) :
    block limit depth outer before (⟨.plain c, position⟩ :: rest) h_inside
      = block limit depth outer (.plain c before) rest (Nat.le_of_succ_le h_inside) := by
  rw [block]

/-- The reader at a loop whose body it reads up to the closing bracket. -/
theorem block_loop {body : Program} {rest behind : List Token}
    (h_inside : (⟨.jz, position⟩ :: rest : List Token).length ≤ outer.length)
    (h_shallow : (loopOverhead * (depth + 1) : Int) ≤ limit)
    (h_shorter : (⟨.jmp, closing⟩ :: behind : List Token).length ≤ rest.length)
    (h_body : block limit (depth + 1) rest .done rest (Nat.le_refl _)
      = .ok ⟨(body, ⟨.jmp, closing⟩ :: behind), h_shorter⟩)
    (h_short : jumpDistance body.size ≤ maxDistance) :
    block limit depth outer before (⟨.jz, position⟩ :: rest) h_inside
      = block limit depth outer (.loop body before) behind (by
          simp only [List.length_cons] at h_inside h_shorter
          omega) := by
  rw [block, if_neg (Int.not_lt.mpr h_shallow), h_body]
  exact if_neg (Nat.not_lt.mpr h_short)

/-- A closing bracket ends a block inside a loop. -/
theorem block_close {rest : List Token} (h_deep : 0 < depth)
    (h_inside : (⟨.jmp, position⟩ :: rest : List Token).length ≤ outer.length) :
    block limit depth outer before (⟨.jmp, position⟩ :: rest) h_inside
      = .ok ⟨(before.reverse, ⟨.jmp, position⟩ :: rest), h_inside⟩ := by
  rw [block, if_neg (Nat.ne_of_gt h_deep)]

/-- **Reading on behind a program.** If a row of tokens begins with those of a program
that fits, and its loops are not nested too deep, the reader takes the program in and
goes on behind it. -/
theorem block_append {p : Program} (h_fits : p.Fits)
    (h_shallow : (loopOverhead * (depth + p.nesting) : Int) ≤ limit) {row tokens rest : List Token}
    (h_row : row = tokens ++ rest) (h_ops : tokens.map Token.opcode = p.opcodes)
    (h_inside : row.length ≤ outer.length) :
    block limit depth outer before row h_inside
      = block limit depth outer (p.reverseOnto before) rest (by
          rw [h_row, List.length_append] at h_inside
          omega) := by
  -- the induction is on the program; a loop is read by its body and by what follows it
  induction p generalizing depth outer before row tokens rest with
  | done =>
    obtain rfl := List.map_eq_nil_iff.mp h_ops
    obtain rfl : row = rest := h_row
    rfl
  | plain c next ih =>
    obtain ⟨⟨op, position⟩, tokens, rfl, h_op, h_next⟩ := List.map_eq_cons_iff.mp h_ops
    obtain rfl : op = .plain c := h_op
    obtain rfl : row = ⟨.plain c, position⟩ :: (tokens ++ rest) := h_row
    rw [block_plain]
    exact ih h_fits h_shallow rfl h_next _
  | loop body next ih_body ih =>
    obtain ⟨h_short, h_body_fits, h_next_fits⟩ := h_fits
    -- the tokens of the loop: a `[`, those of the body, a `]` and those behind it
    obtain ⟨⟨op, position⟩, tokens, rfl, h_op, h_inner⟩ := List.map_eq_cons_iff.mp h_ops
    obtain rfl : op = .jz := h_op
    obtain ⟨inner, tokens, rfl, h_body, h_close⟩ := List.map_eq_append_iff.mp h_inner
    obtain ⟨⟨op, closing⟩, behind, rfl, h_op, h_behind⟩ := List.map_eq_cons_iff.mp h_close
    obtain rfl : op = .jmp := h_op
    obtain rfl : row = ⟨.jz, position⟩ :: (inner ++ ⟨.jmp, closing⟩ :: (behind ++ rest)) := by
      rw [h_row, List.cons_append, List.append_assoc, List.cons_append]
    rw [nesting, loopOverhead] at h_shallow
    have h_closing : (⟨.jmp, closing⟩ :: (behind ++ rest) : List Token).length
        ≤ (inner ++ ⟨.jmp, closing⟩ :: (behind ++ rest)).length := by
      simp
    have h_read : block limit (depth + 1) (inner ++ ⟨.jmp, closing⟩ :: (behind ++ rest)) .done
        (inner ++ ⟨.jmp, closing⟩ :: (behind ++ rest)) (Nat.le_refl _)
        = .ok ⟨(body, ⟨.jmp, closing⟩ :: (behind ++ rest)), h_closing⟩ := by
      rw [ih_body h_body_fits (by rw [loopOverhead]; omega) rfl h_body,
        block_close (Nat.succ_pos depth), Except.ok.injEq, Subtype.mk.injEq, reverse_reverseOnto]
      rfl
    rw [block_loop h_inside (by rw [loopOverhead]; omega) h_closing h_read h_short]
    exact ih h_next_fits (by rw [loopOverhead]; omega) rfl h_behind _

end Block

/-! ### Reading a whole text -/

/-- The loops are not nested too deep for a code memory of some capacity: the jumps of the
deepest ones pass the check that is made when they are opened. -/
def Shallow (p : Program) (capacity : Int) : Prop :=
  (loopOverhead * p.nesting : Int) ≤ nestingLimit capacity

section Whole

variable {capacity : Int} {p q : Program} {source : String}

/-- **A tree that fits is never too deep** for a code memory that holds it. -/
theorem Fits.shallow (h_fits : p.Fits) (h_size : (p.size : Int) ≤ capacity) :
    p.Shallow capacity := by
  have h_jumps := p.loopOverhead_mul_nesting_le_size
  have h_spanned := h_fits.loopOverhead_mul_nesting_le
  rw [Shallow, nestingLimit]
  -- the limit is the lesser of the capacity and the span of a distance
  rw [loopOverhead] at *
  omega

/-- Programs in sequence are as deep as the deeper one. -/
theorem nesting_append (p q : Program) :
    (p.append q).nesting = max p.nesting q.nesting := by
  induction p with
  | done => exact (Nat.zero_max _).symm
  | plain c next ih => exact ih
  | loop body next _ ih => rw [append, nesting, ih, nesting, Nat.max_assoc]

/-- Programs that are not too deep are not so in sequence. -/
theorem Shallow.append (h_p : p.Shallow capacity) (h_q : q.Shallow capacity) :
    (p.append q).Shallow capacity := by
  rw [Shallow] at *
  rw [nesting_append]
  rcases Nat.le_total p.nesting q.nesting with h_le | h_le
  · rwa [Nat.max_eq_right h_le]
  · rwa [Nat.max_eq_left h_le]

/-- A tree that fits is read from its tokens, whatever their positions. -/
theorem ofTokens_eq_ok {tokens : List Token} (h_fits : p.Fits) (h_shallow : p.Shallow capacity)
    (h_ops : tokens.map Token.opcode = p.opcodes) : ofTokens capacity tokens = .ok p := by
  have h_outside : (loopOverhead * ((0 : Nat) + p.nesting) : Int) ≤ nestingLimit capacity := by
    rwa [Int.natCast_zero, Int.zero_add]
  rw [ofTokens, block_append h_fits h_outside (List.append_nil tokens).symm h_ops, block]
  change Except.ok (p.reverseOnto done).reverse = Except.ok p
  rw [reverse_reverseOnto]
  rfl

/-- **What becomes of a tree that fits.** If its loops are not nested too deep, only the
length of its image is left to check. -/
theorem compile_of_shallow (h_tree : p.opcodes = source.toList.filterMap Opcode.ofSymbol?)
    (h_fits : p.Fits) (h_shallow : p.Shallow capacity) :
    compile source capacity =
      if (p.size : Int) > capacity then
        .error ⟨.programTooLong p.size capacity, source.length⟩
      else .ok p.encode := by
  have h_ops : (Token.scan source.toList).map Token.opcode = p.opcodes := by
    rw [Token.scan, Token.opcode_scan, h_tree]
  exact compile_of_read (ofTokens_eq_ok h_fits h_shallow h_ops)

/-- **What is compiled.** A text has an image exactly if its operations are those of a
tree that fits and is no longer than the capacity; the image is that of the tree. -/
theorem compile_eq_ok_iff {image : Array UInt8} :
    compile source capacity = .ok image ↔
      ∃ p : Program, p.opcodes = source.toList.filterMap Opcode.ofSymbol? ∧ p.Fits ∧
        image = p.encode ∧ (p.size : Int) ≤ capacity := by
  constructor
  · exact of_compile
  · rintro ⟨p, h_tree, h_fits, rfl, h_size⟩
    rw [compile_of_shallow h_tree h_fits (h_fits.shallow h_size), if_neg (Int.not_lt.mpr h_size)]

end Whole

end TapeProcessor.Program
