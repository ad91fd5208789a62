import TapeProcessor.Proofs.Source.Acceptance

/-!
# Compiling is compositional

The image of a text does not depend on where the text stands: behind another text, its
image follows the image of that text, and between two brackets it becomes the body of a
loop. What may go wrong when texts are put together is only that there is no room: code
memory is too small, or a distance cannot span the body.

Put together in this way, the trees of the texts are the tree of the new text
(`Program.append`, `Program.loop`). Two texts behind one another are nested no deeper than
one of them was, so the length is all that is left to check
(`Program.compile_of_shallow`). A text in brackets is one deeper and may be
refused for its depth, but only where there is no room for its tree anyway
(`Source.compile_enclose_iff`); and since its brackets are balanced, it is refused for
nothing else than want of room (`Source.Balanced.category_eq`).
-/

namespace TapeProcessor.Source

variable {source : String} {capacity : ℤ} {v : Violation}

/-! ### What balanced texts are refused for -/

/-- What is wrong at a position of a balanced text is that there is no room. -/
theorem Balanced.category_of_violationAt {text : List Char} {i : ℕ} (h : Balanced text)
    (h_found : violationAt? text capacity i = some v) :
    v.fault.category = .programTooLarge := by
  rcases violationAt?_cases h_found with ⟨-, -, rfl⟩ | ⟨h_char, h_stack, -⟩ | ⟨j, st, -, -, -, rfl⟩
  · rfl
  · -- a bracket that closes has a partner
    exact absurd h_stack (h.openBefore_ne_nil h_char)
  · rfl

/-- **A balanced text is refused only for want of room.** -/
theorem Balanced.category_eq (h : Balanced source.toList)
    (h_error : Program.compile source capacity = .error v) :
    v.fault.category = .programTooLarge := by
  rcases firstViolation?_eq_some (compile_eq_error_iff.mp h_error) with ⟨i, h_found⟩ | ⟨-, h_end⟩
  · exact h.category_of_violationAt h_found.found
  · rcases violationAtEnd?_cases h_end with ⟨j, st, h_stack, -⟩ | ⟨-, -, rfl⟩
    · -- nothing is open at the end
      rw [h.openBefore_length] at h_stack
      cases h_stack
    · rfl

/-! ### The text in brackets -/

/-- The tree of a text in brackets is the loop around the tree of the text. -/
theorem opcodes_enclose {p : Program} (h_tree : p.opcodes = operations source.toList) :
    (Program.loop p .done).opcodes = operations ("[" ++ source ++ "]").toList := by
  calc (Program.loop p .done).opcodes
      = operations ['['] ++ operations source.toList ++ operations [']'] := by
        rw [← h_tree, List.append_assoc]
        rfl
    _ = operations ("[" ++ source ++ "]").toList := by
        rw [← operations_append, ← operations_append, String.toList_append, String.toList_append]
        rfl

/-- A text in brackets is compiled exactly if a distance can span its words and there is
room for four more of them. -/
theorem compile_enclose_iff {p : Program} (h_tree : p.opcodes = operations source.toList)
    (h_fits : p.Fits) {image : Array UInt8} :
    Program.compile ("[" ++ source ++ "]") capacity = .ok image ↔
      (p.size ≤ 252 ∧ (p.size + 4 : ℤ) ≤ capacity) ∧
        image = #[Opcode.jz.word, p.distanceWord] ++ p.encode
          ++ #[Opcode.jmp.word, p.distanceWord] := by
  have h_loop := opcodes_enclose h_tree
  have h_size : (Program.loop p .done).size = p.size + 4 := Program.size_loop p .done
  rw [Program.compile_eq_ok_iff, ← Program.encode_loop]
  constructor
  · rintro ⟨q, h_q, h_q_fits, rfl, h_room⟩
    -- the text has only one tree
    obtain rfl : q = .loop p .done := Program.opcodes_injective (h_q.trans h_loop.symm)
    have h_short : Program.jumpDistance p.size ≤ Program.maxDistance := h_q_fits.1
    rw [Program.jumpDistance, Program.maxDistance] at h_short
    rw [h_size] at h_room
    exact ⟨⟨by omega, by omega⟩, rfl⟩
  · rintro ⟨⟨h_short, h_room⟩, rfl⟩
    refine ⟨.loop p .done, h_loop, ⟨?_, h_fits, trivial⟩, rfl, ?_⟩
    · rw [Program.jumpDistance, Program.maxDistance]
      omega
    · rw [h_size]
      omega

/-! ### Putting texts together -/

/-- A text behind another is refused for its length alone. -/
theorem compile_append {other : String} {p q : Program}
    (h_p : p.opcodes = operations source.toList) (h_q : q.opcodes = operations other.toList)
    (h_p_fits : p.Fits) (h_q_fits : q.Fits) (h_p_size : (p.size : ℤ) ≤ capacity)
    (h_q_size : (q.size : ℤ) ≤ capacity) :
    Program.compile (source ++ other) capacity =
      if (p.size + q.size : ℤ) > capacity then
        .error ⟨.programTooLong (p.size + q.size) capacity, (source ++ other).length⟩
      else .ok (p.encode ++ q.encode) := by
  have h_tree : (p.append q).opcodes = operations (source ++ other).toList := by
    rw [Program.opcodes_append, h_p, h_q, ← operations_append, String.toList_append]
  have h_shallow := (h_p_fits.shallow h_p_size).append (h_q_fits.shallow h_q_size)
  rw [Program.compile_of_shallow h_tree (h_p_fits.append h_q_fits) h_shallow,
    Program.size_append, Program.encode_append, Nat.cast_add]

open Program in
/-- **Compiling is compositional.** A text that has the image `u` adds `u` to the image of
a text in front of it and has it as a body between brackets, wherever there is room. -/
theorem compile_compositional (s : String) (capacity : ℤ) (u : Array UInt8)
    (h : compile s capacity = .ok u) :
    (∀ t v, compile t capacity = .ok v →
      ((u.size + v.size : ℤ) ≤ capacity → compile (s ++ t) capacity = .ok (u ++ v)) ∧
      (¬ (u.size + v.size : ℤ) ≤ capacity → ∃ e, compile (s ++ t) capacity = .error e ∧
        e.fault.category = .programTooLarge ∧ e.position = (s ++ t).length)) ∧
    (u.size ≤ 252 ∧ (u.size + 4 : ℤ) ≤ capacity →
      compile ("[" ++ s ++ "]") capacity =
        .ok (#[Opcode.jz.word, UInt8.ofNat (u.size + 3)] ++ u
          ++ #[Opcode.jmp.word, UInt8.ofNat (u.size + 3)])) ∧
    (¬ (u.size ≤ 252 ∧ (u.size + 4 : ℤ) ≤ capacity) →
      ∃ e, compile ("[" ++ s ++ "]") capacity = .error e ∧
        e.fault.category = .programTooLarge) := by
  obtain ⟨p, h_tree, h_fits, rfl, h_room⟩ := of_compile h
  rw [size_encode]
  refine ⟨?_, ?_, ?_⟩
  · intro t v h_t
    obtain ⟨q, h_tree', h_fits', rfl, h_room'⟩ := of_compile h_t
    have h_append := compile_append h_tree h_tree' h_fits h_fits' h_room h_room'
    rw [size_encode]
    constructor
    · intro h_le
      rw [h_append, if_neg (not_lt.mpr h_le)]
    · intro h_long
      rw [h_append, if_pos (not_le.mp h_long)]
      exact ⟨_, rfl, rfl, rfl⟩
  · intro h_le
    exact (compile_enclose_iff h_tree h_fits).mpr ⟨h_le, rfl⟩
  · intro h_long
    -- a text in brackets is balanced, so all that it can be refused for is want of room
    have h_balanced : Balanced ("[" ++ s ++ "]").toList :=
      balanced_iff.mpr ⟨.loop p .done, opcodes_enclose h_tree⟩
    cases h_outcome : compile ("[" ++ s ++ "]") capacity with
    | ok image => exact absurd ((compile_enclose_iff h_tree h_fits).mp h_outcome).1 h_long
    | error e => exact ⟨e, rfl, h_balanced.category_eq h_outcome⟩

/-- In ten words there is room for a command behind `+[-]` and for a loop around it, but
neither for the same text again nor for a second loop. -/
theorem compile_compositional_ten :
    Program.compile "+[-]" 10 = .ok #[0, 6, 4, 1, 7, 4] ∧
      Program.compile "+[-]." 10 = .ok #[0, 6, 4, 1, 7, 4, 4] ∧
      Program.compile "[+[-]]" 10 = .ok #[6, 9, 0, 6, 4, 1, 7, 4, 7, 9] ∧
      (∃ e, Program.compile "+[-]+[-]" 10 = .error e ∧
        e.fault.category = .programTooLarge ∧ e.position = 8) ∧
      ∃ e, Program.compile "[[+[-]]]" 10 = .error e ∧ e.fault.category = .programTooLarge := by
  have h : Program.compile "+[-]" 10 = .ok #[0, 6, 4, 1, 7, 4] := by decide +kernel
  have h_put : Program.compile "." 10 = .ok #[4] := by decide +kernel
  obtain ⟨h_behind, h_loop, -⟩ := compile_compositional _ _ _ h
  have h_inner := h_loop (by decide)
  exact ⟨h, (h_behind _ _ h_put).1 (by decide), h_inner, (h_behind _ _ h).2 (by decide),
    (compile_compositional _ _ _ h_inner).2.2 (by decide)⟩

end TapeProcessor.Source
