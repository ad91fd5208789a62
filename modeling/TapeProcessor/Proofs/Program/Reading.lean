import TapeProcessor.Program.Block

/-!
# What reading a program returns

The recursive descent keeps the items of a block in reverse, carries the rest of
the text along and refuses texts on the way, so what it returns is not visible in
its definition. `Program.block_eq_ok` says what a successful call has read: a
program whose operations are exactly the tokens it consumed, behind the items that
were there before, and it stops at the end of the text or, inside a loop, in front
of a closing bracket.

`Program.Fits` is the condition on distances under which a program has an image:
no body is longer than a distance can span. Everything that is read satisfies it,
since each body is measured when its loop is closed.

`Program.of_compile` puts these together: an image that `Program.compile` returns
is the encoding of the one tree with the operations of the text, that tree fits,
and the image is no longer than the capacity. That the operations determine the
tree is `Program.opcodes_injective`.
-/

namespace TapeProcessor.Program

/-- The body of every loop is short enough for the distance of its jumps. -/
def Fits : Program → Prop
  | done => True
  | plain _ next => next.Fits
  | loop body next => jumpDistance body.size ≤ maxDistance ∧ body.Fits ∧ next.Fits

/-! ### Programs behind one another -/

theorem append_assoc (p q r : Program) : (p.append q).append r = p.append (q.append r) := by
  induction p with
  | done => rfl
  | plain c next ih => rw [append, append, ih, append]
  | loop body next _ ih => rw [append, append, ih, append]

/-- The item that was read last comes first in the reversed row, and last in the text. -/
theorem reverse_plain (c : Command) (p : Program) :
    (plain c p).reverse = p.reverse.append (plain c done) :=
  reverseOnto_eq p (plain c done)

theorem reverse_loop (body p : Program) :
    (loop body p).reverse = p.reverse.append (loop body done) :=
  reverseOnto_eq p (loop body done)

/-- A row of operations in which a closing bracket is not matched inside goes on
in one way only. -/
theorem opcodes_append_cancel {p q : Program} {l m : List Opcode}
    (hl : l = [] ∨ ∃ l', l = .jmp :: l') (hm : m = [] ∨ ∃ m', m = .jmp :: m')
    (h : p.opcodes ++ l = q.opcodes ++ m) : p = q ∧ l = m := by
  induction p generalizing q l m with
  | done =>
    cases q with
    | done => exact ⟨rfl, h⟩
    -- one side is at its end and the other goes on with an operation that is no `]`
    | plain c next =>
      rcases hl with rfl | ⟨l', rfl⟩ <;> simp [opcodes] at h
    | loop body next =>
      rcases hl with rfl | ⟨l', rfl⟩ <;> simp [opcodes] at h
  | plain c next ih =>
    cases q with
    | done => rcases hm with rfl | ⟨m', rfl⟩ <;> simp [opcodes] at h
    | plain c' next' =>
      simp only [opcodes, List.cons_append, List.cons.injEq, Opcode.plain.injEq] at h
      obtain ⟨rfl, rfl⟩ := ih hl hm h.2
      exact ⟨by rw [h.1], rfl⟩
    | loop body next' => simp [opcodes] at h
  | loop body next ih_body ih =>
    cases q with
    | done => rcases hm with rfl | ⟨m', rfl⟩ <;> simp [opcodes] at h
    | plain c next' => simp [opcodes] at h
    | loop body' next' =>
      simp only [opcodes, List.cons_append, List.append_assoc, List.cons.injEq, true_and] at h
      -- the bodies end at the first bracket that they do not match themselves
      obtain ⟨rfl, h_next⟩ := ih_body (Or.inr ⟨_, rfl⟩) (Or.inr ⟨_, rfl⟩) h
      obtain ⟨rfl, rfl⟩ := ih hl hm (List.cons.inj h_next).2
      exact ⟨rfl, rfl⟩

/-- **The operations determine the tree.** -/
theorem opcodes_injective : Function.Injective opcodes := by
  intro p q h
  have h_nil : p.opcodes ++ [] = q.opcodes ++ [] := by rw [h]
  exact (opcodes_append_cancel (Or.inl rfl) (Or.inl rfl) h_nil).1

/-! ### What a block returns -/

/-- **A block that was read.** What it adds to the items before it is a program
that fits and whose operations are the tokens consumed. -/
theorem block_eq_ok {limit : Int} {depth : Nat} {outer : List Token} {before : Program}
    {tokens : List Token} {h_inside : tokens.length ≤ outer.length}
    {r : { r : Program × List Token // r.2.length ≤ outer.length }}
    (h : block limit depth outer before tokens h_inside = .ok r) :
    ∃ q : Program, r.val.1 = before.reverse.append q ∧ q.Fits ∧
      tokens.map Token.opcode = q.opcodes ++ r.val.2.map Token.opcode ∧
      (r.val.2 = [] ∨ 0 < depth ∧ ∃ position rest, r.val.2 = ⟨.jmp, position⟩ :: rest) := by
  -- the induction is on the recursion of the reader, whose refusals return nothing
  fun_induction block limit depth outer before tokens h_inside with
  | case1 depth outer before h_inside =>
    -- the end of the text
    cases h
    exact ⟨done, (append_done _).symm, trivial, rfl, Or.inl rfl⟩
  | case2 depth outer before c position rest h_inside _ ih =>
    -- a command goes in front of the items read so far
    obtain ⟨q, h_items, h_fits, h_ops, h_end⟩ := ih h
    refine ⟨plain c q, ?_, h_fits, by rw [List.map_cons, h_ops]; rfl, h_end⟩
    rw [h_items, reverse_plain, append_assoc]
    rfl
  | case3 depth outer before position rest h_inside h_deep => cases h
  | case4 depth outer before position rest h_inside _ violation h_error _ _ => cases h
  | case5 depth outer before position rest h_inside _ body h_shorter h_ok _ _ => cases h
  | case6 depth outer before position rest h_inside _ body head behind h_shorter h_ok h_long _ _ =>
    cases h
  | case7 depth outer before position rest h_inside _ body head behind h_shorter h_ok h_short _
      ih_body ih =>
    obtain ⟨b, h_body, h_body_fits, h_body_ops, h_body_end⟩ := ih_body h_ok
    obtain ⟨q, h_items, h_fits, h_ops, h_end⟩ := ih h
    -- the body was read from nothing, and the token behind it is the bracket
    obtain rfl : body = b := h_body
    obtain h_none | ⟨_, _, _, h_close⟩ := h_body_end
    · cases h_none
    obtain ⟨rfl, rfl⟩ := List.cons.inj h_close
    refine ⟨loop body q, ?_, ⟨by omega, h_body_fits, h_fits⟩, ?_, h_end⟩
    · rw [h_items, reverse_loop, append_assoc]
      rfl
    · rw [List.map_cons, h_body_ops, List.map_cons, h_ops, opcodes, List.cons_append,
        List.append_assoc, List.cons_append]
  | case8 outer before position rest h_inside _ => cases h
  | case9 depth outer before position rest h_inside h_nonzero _ =>
    -- the bracket that closes the block around this one is left in the text
    cases h
    refine ⟨done, (append_done _).symm, trivial, rfl, Or.inr ⟨by omega, position, rest, rfl⟩⟩

/-- **A program that was read** fits, and its operations are all the tokens. -/
theorem of_ofTokens {capacity : Int} {tokens : List Token} {p : Program}
    (h : ofTokens capacity tokens = .ok p) :
    p.Fits ∧ tokens.map Token.opcode = p.opcodes := by
  rw [ofTokens] at h
  cases h_block : block (nestingLimit capacity) 0 tokens .done tokens (Nat.le_refl _) with
  | error violation => rw [h_block] at h; cases h
  | ok r =>
    rw [h_block] at h
    cases h
    obtain ⟨q, h_items, h_fits, h_ops, h_end⟩ := block_eq_ok h_block
    -- outside all loops the text is read to its end
    have h_rest : r.val.2 = [] := by
      rcases h_end with h_nil | ⟨h_pos, -⟩
      · exact h_nil
      · exact absurd h_pos (Nat.lt_irrefl 0)
    have h_prog : r.val.1 = q := h_items
    rw [h_rest, List.map_nil, List.append_nil] at h_ops
    change r.val.1.Fits ∧ tokens.map Token.opcode = r.val.1.opcodes
    rw [h_prog]
    exact ⟨h_fits, h_ops⟩

section Compile

variable {source : String} {capacity : Int}

/-- What refuses the tokens refuses the text. -/
theorem compile_of_refused {v : Violation}
    (h : ofTokens capacity (Token.scan source.toList) = .error v) :
    compile source capacity = .error v := by
  rw [compile, h]
  rfl

/-- Of a text that was read only the length of the image is left to check. -/
theorem compile_of_read {p : Program} (h : ofTokens capacity (Token.scan source.toList) = .ok p) :
    compile source capacity =
      if (p.size : Int) > capacity then
        .error ⟨.programTooLong p.size capacity, source.length⟩
      else .ok p.encode := by
  rw [compile, h, ← size_encode, ← String.length_toList]
  by_cases h_long : (p.encode.size : Int) > capacity
  · simp only [bind, Except.bind, if_pos h_long]
    rfl
  · simp only [bind, Except.bind, if_neg h_long]
    rfl

/-- **What a returned image is**: the encoding of the tree of the source text, which
fits and does not exceed the capacity. -/
theorem of_compile {image : Array UInt8} (h : compile source capacity = .ok image) :
    ∃ p : Program, p.opcodes = source.toList.filterMap Opcode.ofSymbol? ∧ p.Fits ∧
      image = p.encode ∧ (p.size : Int) ≤ capacity := by
  cases h_read : ofTokens capacity (Token.scan source.toList) with
  | error violation => cases h.symm.trans (compile_of_refused h_read)
  | ok p =>
    obtain ⟨h_fits, h_ops⟩ := of_ofTokens h_read
    have h_tree : p.opcodes = source.toList.filterMap Opcode.ofSymbol? := by
      rw [← h_ops, Token.scan, Token.opcode_scan]
    rw [compile_of_read h_read] at h
    by_cases h_long : (p.size : Int) > capacity
    · rw [if_pos h_long] at h
      cases h
    · rw [if_neg h_long] at h
      cases h
      exact ⟨p, h_tree, h_fits, rfl, Int.not_lt.mp h_long⟩

end Compile

end TapeProcessor.Program
