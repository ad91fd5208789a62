import TapeProcessor.Proofs.Core.Access
import TapeProcessor.Proofs.Core.Instruction
import TapeProcessor.Proofs.Listing.Columns

/-!
# The listing and the core read code in the same way

Code is read twice, by the listing for its readers and by the core to run it. The listing
takes remainders at the length of the code and cuts targets off by a mask; the core wraps
every address by the mask of its memory. A listing may start anywhere, so the address it
is given may differ from the instruction pointer by any multiple of the size.

`Core.disassembly_agrees` says that the two readings agree on any code whatever, a bare
jump in the last word included: the text names the operation that the core runs, with the
distance that it uses, and the core goes on behind the instruction, or at the target that
is printed. Which of the two it does depends on the operation and the cell alone
(`Opcode.Leaps`).

The core has one reading of what is at its pointer, `Core.listed`. The listing comes to it
by `Core.decode_eq_listed`, and the clock by `Core.plan_ip_of_leaps` and
`Core.plan_ip_of_not_leaps`.
-/

namespace TapeProcessor

/-- Whether an operation takes the pointer away from the word behind it: a jump back
always does, a loop test on a zero. -/
def Opcode.Leaps (op : Opcode) (cell : UInt8) : Prop := op = .jmp ∨ (op = .jz ∧ cell = 0)

namespace Core

variable {c : Core}

/-- The instruction at the pointer, with the distance that the core uses and the target
that a jump has then. -/
def listed (c : Core) : Instruction :=
  match c.opcode with
  | .plain command => .plain command
  | .jz => .jz c.distance (c.code.wrap ((c.ip : ℤ) + 1 + c.distance.toNat))
  | .jmp => .jmp c.distance (c.code.wrap ((c.ip : ℤ) + 1 - c.distance.toNat))

/-- What is listed is the operation that the core runs. -/
theorem opcode_listed (c : Core) : c.listed.opcode = c.opcode := by
  rw [listed]
  split <;> simp_all [Instruction.opcode]

/-- It has as many words as the listing counts. -/
theorem size_listed (c : Core) : c.listed.size = c.opcode.size := by
  rw [Instruction.size, opcode_listed]

/-- **What the listing reads** at any address that wraps to the pointer. -/
theorem decode_eq_listed (h_ip : c.ip < c.code.size) {address : ℤ}
    (h_address : address ≡ c.ip [ZMOD c.code.size]) :
    Instruction.decode c.code.cells c.code.size address = c.listed := by
  -- the opcode, the distance and the target are each read at a congruent address
  have h_opcode : Opcode.ofWord (Listing.wordAt c.code.cells address) = c.opcode := by
    rw [Memory.wordAt_cells, c.code.wrap_eq_of_modEq h_address, c.code.wrap_natCast_of_lt h_ip]
    rfl
  have h_next : address + 1 ≡ c.ip + 1 [ZMOD c.code.size] := h_address.add_right 1
  have h_distance : Listing.wordAt c.code.cells (address + 1) = c.distance := by
    rw [Memory.wordAt_cells, c.code.wrap_eq_of_modEq h_next, distance]
  have h_forward :
      address + 1 + c.distance.toNat ≡ c.ip + 1 + c.distance.toNat [ZMOD c.code.size] :=
    h_next.add_right _
  have h_backward :
      address + 1 - c.distance.toNat ≡ c.ip + 1 - c.distance.toNat [ZMOD c.code.size] :=
    h_next.sub_right _
  rw [Instruction.decode, h_opcode, listed]
  cases c.opcode with
  | plain command => rfl
  | jz =>
    dsimp only
    rw [h_distance, Memory.and_size_sub_one, c.code.wrap_eq_of_modEq h_forward]
  | jmp =>
    dsimp only
    rw [h_distance, Memory.and_size_sub_one, c.code.wrap_eq_of_modEq h_backward]

/-! ### Where the core goes on -/

/-- **Without a leap** an instruction that retires goes on behind its words. -/
theorem plan_ip_of_not_leaps (h : ¬ c.opcode.Leaps c.cell)
    (h_retires : c.execute.verdict = .retired) : c.execute.ip = (c.ip : ℤ) + c.opcode.size := by
  -- seven courses go on by their words; of the others two wait and two leap
  cases c.course with
  | inc h_op h_plan | dec h_op h_plan | right h_op h_plan | left h_op h_plan
  | sends h_op _ h_plan | takes h_op _ h_plan | enters h_op _ h_plan =>
    rw [h_plan, h_op]
    rfl
  | holdsBack _ _ h_plan | asks _ _ h_plan =>
    rw [h_plan] at h_retires
    cases h_retires
  | skips h_op h_cell => exact absurd (Or.inr ⟨h_op, h_cell⟩) h
  | returns h_op => exact absurd (Or.inl h_op) h

/-- **A leap** goes by the distance, forward from a loop test and back from a jump back. -/
theorem plan_ip_of_leaps (h : c.opcode.Leaps c.cell) :
    c.execute.ip = (if c.opcode = .jz then (c.ip : ℤ) + 1 + c.distance.toNat
      else (c.ip : ℤ) + 1 - c.distance.toNat) := by
  rcases h with h_op | ⟨h_op, h_cell⟩
  · rw [execute, h_op]
    rfl
  · rw [execute, h_op]
    dsimp only
    rw [if_pos h_cell]
    rfl

/-- The target that is listed is where a leap goes. -/
theorem target?_listed_of_leaps (h : c.opcode.Leaps c.cell) :
    c.listed.target? = some (c.code.wrap c.execute.ip : ℤ) := by
  rw [plan_ip_of_leaps h, listed]
  rcases h with h_op | ⟨h_op, -⟩ <;> rw [h_op] <;> rfl

/-- A jump is listed with the distance that the core uses. -/
theorem distance?_listed (h : c.opcode = .jz ∨ c.opcode = .jmp) :
    c.listed.distance? = some c.distance.toNat := by
  rw [listed]
  rcases h with h_op | h_op <;> rw [h_op] <;> rfl

/-- **The listing agrees with the core.** Let an address differ from the instruction pointer
by any multiple of the size of code memory. There is an instruction to list, and its text
names the operation at the pointer; if that is a jump, the distance printed is the word
behind the pointer, which wraps, and a leap goes by this distance. If the core runs and the
instruction retires, it goes on as many words further as the listing counts, or, in a leap,
at the target that is printed. -/
theorem disassembly_agrees {address : ℤ} (h_ip : c.ip < c.code.size)
    (h_address : address ≡ c.ip [ZMOD c.code.size]) (h_init : c.init = false)
    (h_boot : c.boot = false) :
    ∃ i, Listing.instructionAt? c.code.cells address c.code.size = some i ∧
      Instruction.opcodeIn? i.text = some c.opcode ∧
      (c.opcode = .jz ∨ c.opcode = .jmp →
        ∃ d, Instruction.distanceIn? i.text = some d ∧
          d = (c.code.read ((c.ip + 1) % c.code.size)).toNat ∧
          (c.opcode.Leaps c.cell → (c.step.2.ip : ℤ)
            = (if c.opcode = .jz then (c.ip : ℤ) + 1 + d else (c.ip : ℤ) + 1 - d)
              % (c.code.size : ℤ))) ∧
      (c.step.1 = true → ¬ c.opcode.Leaps c.cell →
        c.step.2.ip = (c.ip + i.size) % c.code.size) ∧
      (c.step.1 = true → c.opcode.Leaps c.cell →
        Instruction.targetIn? i.text = some (c.step.2.ip : ℤ)) := by
  have h_plan : c.plan = c.execute := plan_of_not_held (by simp [Held, h_init, h_boot])
  have h_listed : Listing.instructionAt? c.code.cells address c.code.size = some c.listed := by
    have h_some : ¬ c.code.cells.isEmpty := by
      rw [Array.isEmpty_iff_size_eq_zero]
      exact Nat.ne_of_gt c.code.size_pos
    rw [Listing.instructionAt?, if_neg h_some, decode_eq_listed h_ip h_address]
  have h_next : c.step.2.ip = c.code.wrap c.execute.ip := by
    rw [step_snd, ip_commit, h_plan]
  -- the text is read back, and the pointer wraps as the target does that is printed
  refine ⟨c.listed, h_listed, ?_, fun h_jump => ⟨c.distance.toNat, ?_, ?_, fun h_leaps => ?_⟩,
    fun h_retires h_stays => ?_, fun _ h_leaps => ?_⟩
  · rw [Instruction.opcodeIn?_text, opcode_listed]
  · rw [Instruction.distanceIn?_text, distance?_listed h_jump]
  · rw [distance, ← Nat.cast_succ, c.code.wrap_natCast]
  · rw [h_next, c.code.wrap_eq_emod, plan_ip_of_leaps h_leaps]
  · rw [step_fst, beq_iff_eq, h_plan] at h_retires
    rw [h_next, plan_ip_of_not_leaps h_stays h_retires, ← Nat.cast_add, c.code.wrap_natCast,
      size_listed]
  · rw [Instruction.targetIn?_text, target?_listed_of_leaps h_leaps, h_next]

/-- A core at a loop test in the last of four words, with unused bits set in the word. -/
def testAtEnd : Core :=
  { new ⟨⟨2, Nat.zero_lt_two⟩, ⟨1, Nat.zero_lt_one⟩⟩ with
    code := (Memory.zeros ⟨2, Nat.zero_lt_two⟩).store 0 [5, 1, 2, 0xFE]
    ip := 3 }

/-- Listed two rounds further down, the test has its distance at address zero and leads to
address 3 + 1 + 5, which wraps; there the core goes on. -/
theorem disassembly_agrees_wrapped :
    ∃ i, Listing.instructionAt? testAtEnd.code.cells (-5) testAtEnd.code.size = some i ∧
      i.text = "JZ 5  ; -> 0x001" ∧
      Instruction.distanceIn? i.text = some (testAtEnd.code.read 0).toNat ∧
      Instruction.targetIn? i.text = some (testAtEnd.step.2.ip : ℤ) ∧ testAtEnd.step.2.ip = 1 := by
  have h_congr : (-5 : ℤ) ≡ testAtEnd.ip [ZMOD testAtEnd.code.size] := by decide
  have h_retires : testAtEnd.step.1 = true := by decide
  have h_leaps : testAtEnd.opcode.Leaps testAtEnd.cell := Or.inr (by decide)
  obtain ⟨i, h_listed, -, h_distance, -, h_target⟩ :=
    disassembly_agrees (c := testAtEnd) (by decide) h_congr rfl rfl
  have h_text : i.text = "JZ 5  ; -> 0x001" := by
    have h_decoded : some i = some (.jz 5 1) := h_listed.symm.trans (by decide)
    cases h_decoded
    decide
  obtain ⟨d, h_printed, rfl, -⟩ := h_distance (Or.inl (by decide))
  exact ⟨i, h_listed, h_text, h_printed, h_target h_retires h_leaps, by decide⟩

end Core

end TapeProcessor
