import TapeProcessor.Proofs.Core.Handshake
import TapeProcessor.Proofs.Core.Instruction

/-!
# What an instruction depends on

An instruction is made of the operation at the pointer, the word behind it if it is a
jump, the cell, and the link. Two cores that show it the same (`Core.Alike`) make the same
plan of it, each from its own pointers: `Core.Alike.execute_eq`. Where the words and the
cell come from does not matter, and this is used in two ways.

* A core with other words in code memory (`Core.recoded`) runs as before, as long as it
  meets the same instructions.
* A core whose memories are rotated runs as before, but elsewhere.

The first of these is carried through a run of a program here. What the program has in
code memory is read in the same way from another one (`Program.ReadAlike`), and so is
every instruction on the way, until the core comes to the end of the program
(`Core.AtSite.through_recoded`). The site that the core is at is what the induction keeps;
it tells that the pointer is at an operation, and never at the distance of a jump.

A run is told by the core that it leaves and by the row of its answers
(`Core.retirements`), one for each clock.
-/

namespace TapeProcessor

/-- The plan of an instruction, made from the pointers of another core. -/
def Plan.movedTo (p : Plan) (c c' : Core) : Plan :=
  { p with
    dataWrite := p.dataWrite.map fun write => (c'.dp, write.2)
    ip := c'.ip + (p.ip - c.ip)
    dp := c'.dp + (p.dp - c.dp) }

namespace Core

/-! ### The same instruction in two cores -/

/-- Two cores show their instructions the same. Only a jump reads the word behind it. -/
structure Alike (c c' : Core) : Prop where
  opcode : c'.opcode = c.opcode
  distance : c.opcode.size = 2 → c'.distance = c.distance
  cell : c'.cell = c.cell
  link : c'.link = c.link

/-- **The same instruction makes the same plan**, from the pointers of its own core. -/
theorem Alike.execute_eq {c c' : Core} (h : c.Alike c') :
    c'.execute = c.execute.movedTo c c' := by
  have h_distance := h.distance
  unfold execute
  rw [h.opcode]
  -- one case for each operation; what is left is that pointers move by the same distances
  cases h_op : c.opcode with
  | plain command =>
    cases command with
    | inc | dec | right | left =>
      simp only [executeCommand, advance, Plan.movedTo, h.cell, Plan.mk.injEq, Option.map_some,
        Option.map_none, true_and, and_true]
      omega
    | put =>
      simp only [executeCommand, h.link, h.cell]
      split <;>
      · simp only [advance, stall, Plan.movedTo, Plan.mk.injEq, Option.map_none, true_and, and_true]
        omega
    | get =>
      simp only [executeCommand, h.link]
      split <;>
      · simp only [advance, stall, Plan.movedTo, Plan.mk.injEq, Option.map_some, Option.map_none,
          true_and, and_true]
        omega
  | jz =>
    rw [h_op] at h_distance
    simp only [h.cell, h_distance rfl]
    split <;>
    · simp only [advance, Plan.movedTo, Plan.mk.injEq, Option.map_none, true_and, and_true]
      omega
  | jmp =>
    rw [h_op] at h_distance
    simp only [h_distance rfl, advance, Plan.movedTo, Plan.mk.injEq, Option.map_none, true_and,
      and_true]
    omega

/-- An instruction writes under the data pointer, so a plan stays what it is in a core with
the same pointers. -/
theorem movedTo_execute {c c' : Core} (h_ip : c'.ip = c.ip) (h_dp : c'.dp = c.dp) :
    c.execute.movedTo c c' = c.execute := by
  -- the write is under the data pointer of both
  have h_write : c.execute.dataWrite.map (fun write => (c'.dp, write.2))
      = c.execute.dataWrite := by
    have h_confined := c.confined_execute.dataWrite
    cases h_some : c.execute.dataWrite with
    | none => rfl
    | some write =>
      have h_address := (h_confined write h_some).1
      rw [Option.map_some, h_dp, ← h_address]
  rw [Plan.movedTo, h_write, h_ip, h_dp, add_sub_cancel, add_sub_cancel]

/-! ### Runs and their answers -/

/-- For each clock, whether an instruction retired. -/
def retirements (c : Core) : List Inputs → List Bool
  | [] => []
  | i :: rest => (c.given i).step.1 :: (c.given i).step.2.retirements rest

/-- No clock of a run begins at the address behind a program of so many words. -/
def Unfinished (c : Core) (words : ℕ) (inputs : List Inputs) : Prop :=
  ∀ k < inputs.length, (c.through (inputs.take k)).ip ≠ words

instance (c : Core) (words : ℕ) (inputs : List Inputs) : Decidable (c.Unfinished words inputs) :=
  inferInstanceAs (Decidable (∀ k < inputs.length, (c.through (inputs.take k)).ip ≠ words))

theorem Unfinished.tail {c : Core} {words : ℕ} {i : Inputs} {rest : List Inputs}
    (h : c.Unfinished words (i :: rest)) : (c.given i).step.2.Unfinished words rest :=
  fun k h_k => h (k + 1) (Nat.succ_lt_succ h_k)

/-- Inputs with both control lines low let the core run. -/
theorem not_held_given (c : Core) {i : Inputs} (h : i.holds = false) : ¬ (c.given i).Held := by
  rw [← holds_inputs_iff, inputs_given, h]
  exact Bool.false_ne_true

/-- A run in run mode leaves code memory alone. -/
theorem code_through {c : Core} {inputs : List Inputs} (h_run : ∀ i ∈ inputs, i.holds = false) :
    (c.through inputs).code = c.code := by
  induction inputs generalizing c with
  | nil => rfl
  | cons i rest ih =>
    have h_init := (Bool.or_eq_false_iff.mp (h_run i List.mem_cons_self)).1
    have h_code : (c.given i).step.2.code = c.code := code_step_of_not_init h_init
    rw [through, ih fun j h_j => h_run j (List.mem_cons_of_mem i h_j), h_code]

/-! ### Another code memory -/

/-- The core with another code memory. -/
def recoded (c : Core) (m : Memory) : Core := { c with code := m }

section Recoded

variable (c : Core) {m : Memory}

theorem given_recoded (i : Inputs) (m : Memory) :
    (c.recoded m).given i = (c.given i).recoded m := rfl

/-- An instruction does the same to both cores, since it writes no code. -/
theorem commit_recoded (h_size : m.size = c.code.size) {p : Plan} (h_code : p.codeWrite = none) :
    (c.recoded m).commit p = (c.commit p).recoded m := by
  obtain ⟨code, data, ip, dp, init, boot, codeBus, dataBus, link, cycles, stalls⟩ := c
  simp only [recoded, commit, h_code, Memory.apply, Memory.wrap_congr h_size]

/-- **A clock with another code memory** that shows the same instruction. -/
theorem step_recoded (h_free : ¬ c.Held) (h_size : m.size = c.code.size)
    (h_alike : c.Alike (c.recoded m)) : (c.recoded m).step = (c.step.1, c.step.2.recoded m) := by
  have h_plan : c.plan = c.execute := plan_of_not_held h_free
  have h_free' : ¬ (c.recoded m).Held := h_free
  -- with the same pointers, the same instruction makes the same plan
  have h_plan' : (c.recoded m).plan = c.execute := by
    rw [plan_of_not_held h_free', h_alike.execute_eq]
    exact movedTo_execute rfl rfl
  rw [step, step, h_plan, h_plan', c.commit_recoded h_size c.confined_execute.codeWrite]

end Recoded

end Core

/-! ### Another code memory for a program -/

/-- A memory is read as `code` is where `p` stands at the start of it: the operations are
those of the program, and behind the jumps are the same words. -/
def Program.ReadAlike (p : Program) (code m : Memory) : Prop :=
  ∀ (f : Site) (op : Opcode) (ops : List Opcode), f.Inside p → f.rest = op :: ops →
    Opcode.ofWord (m.read (f.address p)) = op ∧
      (op.size = 2 → m.read (f.address p + 1) = code.read (f.address p + 1))

/-- A memory with the same words is read alike. -/
theorem Program.StandsAt.readAlike {p : Program} {code m : Memory} (h : p.StandsAt code 0)
    (h_same : ∀ a < p.size, m.read a = code.read a) : p.ReadAlike code m := by
  intro f op ops h_in h_rest
  have h_count := h_in.address_add
  have h_pos := op.size_pos
  rw [h_rest, Opcode.wordCount_cons] at h_count
  rw [h_same _ (by omega)]
  exact ⟨h_in.reads h h_rest, fun h_two => h_same _ (by omega)⟩

namespace Core.AtSite

variable {c : Core} {n : ℕ} {p : Program} {f : Site} {m : Memory}

/-- In run mode a core stays at its site, whatever is given to it. -/
theorem given (h : c.AtSite n p f) {i : Inputs} (h_run : i.holds = false) :
    (c.given i).AtSite n p f := by
  obtain ⟨h_init, h_boot⟩ := Bool.or_eq_false_iff.mp h_run
  exact ⟨⟨h_init, h_boot, h.mode.size, h.mode.dp_lt⟩, h.program, h.size_le, h.inside, h.ip⟩

/-- A core that is not behind the program is at an operation of it. -/
theorem exists_rest (h : c.AtSite n p f) (h_ip : c.ip ≠ p.size) :
    ∃ (f' : Site) (op : Opcode) (ops : List Opcode), c.AtSite n p f' ∧ f'.rest = op :: ops := by
  obtain ⟨f', h', h_ne⟩ : ∃ f', c.AtSite n p f' ∧ f' ≠ Site.finish := by
    by_cases h_end : f = Site.finish
    · -- only in a program that fills code memory its end is another address
      subst h_end
      have h_full : p.size = c.code.size := by
        refine Nat.le_antisymm h.size_le (Nat.le_of_not_lt fun h_lt => h_ip ?_)
        rw [h.ip, Site.address_finish, Nat.mod_eq_of_lt h_lt]
      exact ⟨_, h.restart h_full, Site.start_ne_finish (h_full ▸ c.code.size_pos)⟩
    · exact ⟨f, h, h_end⟩
  obtain ⟨op, ops, h_rest⟩ := List.exists_cons_of_ne_nil (f'.rest_eq_nil_iff.not.mpr h_ne)
  exact ⟨f', op, ops, h', h_rest⟩

/-- A clock leads from a site to a site. -/
theorem exists_step (h : c.AtSite n p f) (h_ne : f ≠ Site.finish) :
    ∃ f', c.step.2.AtSite n p f' := by
  have h_obeys := h.obeys h_ne
  cases h_turn : f.turn c.link.signals (c.tape n) with
  | finished => exact absurd ((f.turn_eq_finished_iff _ _).mp h_turn) h_ne
  | waits =>
    rw [h_turn] at h_obeys
    exact ⟨f, h.of_stays h_obeys⟩
  | goes f' deed =>
    rw [h_turn] at h_obeys
    exact ⟨f', h.of_carries (h.inside.turn h_turn) h_obeys⟩

/-- **At an operation of the program** the core sees the same instruction in a memory that
is read alike. -/
theorem alike_recoded (h : c.AtSite n p f) (h_size : m.size = c.code.size)
    (h_alike : p.ReadAlike c.code m) {op : Opcode} {ops : List Opcode}
    (h_rest : f.rest = op :: ops) : c.Alike (c.recoded m) := by
  have h_ne : f ≠ Site.finish := by
    rintro rfl
    cases h_rest
  have h_ip : c.ip = f.address p := h.ip_eq h_ne
  have h_op := h.opcode_eq h_rest
  obtain ⟨h_word, h_literal⟩ := h_alike f op ops h.inside h_rest
  refine ⟨?_, fun h_two => ?_, rfl, rfl⟩
  · rw [h_op, opcode, instruction, ← h_word, ← h_ip]
    rfl
  · -- the word behind a jump is one of the program
    have h_count := h.inside.address_add
    have h_le := h.size_le
    rw [h_op] at h_two
    rw [h_rest, Opcode.wordCount_cons, h_two] at h_count
    have h_lt : c.ip + 1 < c.code.size := by omega
    have h_lt' : (c.recoded m).ip + 1 < (c.recoded m).code.size := h_lt.trans_eq h_size.symm
    rw [InRunMode.distance_eq h_lt, InRunMode.distance_eq h_lt']
    change m.read (c.ip + 1) = _
    rw [h_ip, h_literal h_two]

/-- **A run with another code memory.** Until it comes to the end of the program, the core
goes through the same states with the same answers. The induction is on the row of inputs;
in front of each clock the core is at a site. -/
theorem through_recoded (h : c.AtSite n p f) (h_size : m.size = c.code.size)
    (h_alike : p.ReadAlike c.code m) {inputs : List Inputs}
    (h_run : ∀ i ∈ inputs, i.holds = false) (h_going : c.Unfinished p.size inputs) :
    (c.recoded m).through inputs = (c.through inputs).recoded m ∧
      (c.recoded m).retirements inputs = c.retirements inputs := by
  induction inputs generalizing c f with
  | nil => exact ⟨rfl, rfl⟩
  | cons i rest ih =>
    have h_i : i.holds = false := h_run i List.mem_cons_self
    obtain ⟨f, op, ops, h_here, h_rest⟩ := h.exists_rest (h_going 0 (Nat.zero_lt_succ _))
    replace h_here : (c.given i).AtSite n p f := h_here.given h_i
    have h_ne : f ≠ Site.finish := by
      rintro rfl
      cases h_rest
    -- the clock does the same, and leads to a site again
    have h_step : ((c.recoded m).given i).step
        = ((c.given i).step.1, (c.given i).step.2.recoded m) := by
      rw [c.given_recoded]
      refine (c.given i).step_recoded (c.not_held_given h_i) h_size ?_
      exact h_here.alike_recoded h_size h_alike h_rest
    obtain ⟨f', h_next⟩ := h_here.exists_step h_ne
    have h_code : (c.given i).step.2.code = c.code := code_step_of_not_init h_here.mode.init
    obtain ⟨h_through, h_answers⟩ := ih h_next (by rw [h_code, h_size]) (by rwa [h_code])
      (fun j h_j => h_run j (List.mem_cons_of_mem i h_j)) h_going.tail
    rw [through, retirements, h_step]
    exact ⟨h_through, congrArg _ h_answers⟩

end Core.AtSite

end TapeProcessor
