import TapeProcessor.Proofs.Core.Recoding

/-!
# Rotated memories

A memory has no first byte but by its addresses. `Memory.rotate m s` is the memory with each
byte `s` addresses further on, going on at zero behind the end, and `Core.rotate c s t` the
core with both memories rotated and both pointers moved along.

Every address that an instruction uses comes from a pointer by a distance, and is wrapped
when it is used. So a rotated core is shown the same instruction (`Core.alike_rotate`), and
its plan leads from where it is to where the other one leads, rotated: a clock commutes with
the rotation (`Core.step_rotate`), and so does a run. The code may be anything at all, also
words that are no image of a program.

For a compiled image this says that it may be put at any address, also over the end of code
memory, and that the tape may begin at any cell (`Core.rotation`).
-/

namespace TapeProcessor

namespace Memory

variable (m : Memory) (s : ℤ)

/-- The memory with each byte `s` addresses further on. -/
def rotate : Memory :=
  ⟨Array.ofFn fun i : Fin m.size => m.read (m.wrap ((i.val : ℤ) - s)), by
    rw [Array.size_ofFn]
    exact m.fits⟩

/-- The last byte comes first. -/
example : (((zeros (.succ 1)).store 0 [1, 2, 3, 4]).rotate 1).cells = #[4, 1, 2, 3] := by
  decide +kernel

@[simp] theorem size_rotate : (m.rotate s).size = m.size := by
  simp [rotate, size]

@[simp] theorem wrap_rotate (address : ℤ) : (m.rotate s).wrap address = m.wrap address :=
  wrap_congr (m.size_rotate s) address

/-- The byte at an address comes from `s` addresses in front. -/
theorem read_rotate_of_lt {a : ℕ} (h : a < m.size) :
    (m.rotate s).read a = m.read (m.wrap ((a : ℤ) - s)) := by
  rw [read, rotate, Array.getD_eq_getD_getElem?, Array.getElem?_ofFn, dif_pos h]
  rfl

/-- **What is at an address** is found `s` addresses further on. -/
theorem read_rotate (address : ℤ) :
    (m.rotate s).read (m.wrap (address + s)) = m.read (m.wrap address) := by
  rw [read_rotate_of_lt m s (m.wrap_lt _)]
  congr 1
  refine m.wrap_eq_of_modEq ?_
  calc (m.wrap (address + s) : ℤ) - s ≡ address + s - s [ZMOD m.size] :=
        (m.wrap_modEq _).sub_right s
    _ = address := add_sub_cancel_right address s

/-- Writing commutes with the rotation. -/
theorem write_rotate {a : ℕ} (h : a < m.size) (byte : UInt8) :
    (m.rotate s).write (m.wrap ((a : ℤ) + s)) byte = (m.write a byte).rotate s := by
  refine eq_of_read_eq (by simp) fun k h_k => ?_
  rw [size_write, size_rotate] at h_k
  have h_inside : m.wrap ((a : ℤ) + s) < (m.rotate s).size := by
    rw [size_rotate]
    exact m.wrap_lt _
  -- the byte is at `k` in the rotated memory if it is `s` addresses in front in the other one
  have h_same : k = m.wrap ((a : ℤ) + s) ↔ m.wrap ((k : ℤ) - s) = a := by
    rw [← m.wrap_natCast_of_lt h_k, ← m.wrap_natCast_of_lt h, m.wrap_eq_wrap_iff,
      m.wrap_eq_wrap_iff, m.wrap_natCast_of_lt h_k, m.wrap_natCast_of_lt h, Int.modEq_iff_dvd,
      Int.modEq_iff_dvd, sub_sub_eq_add_sub]
  have h_k' : k < (m.write a byte).size := by rwa [size_write]
  rw [read_write _ h_inside, read_rotate_of_lt m s h_k, read_rotate_of_lt _ s h_k', wrap_write,
    read_write m h]
  exact if_congr h_same rfl rfl

/-- A rotation is undone by the one back. -/
theorem rotate_neg_rotate : (m.rotate (-s)).rotate s = m := by
  refine eq_of_read_eq (by simp) fun a h_a => ?_
  rw [size_rotate, size_rotate] at h_a
  rw [read_rotate_of_lt _ _ (by rwa [size_rotate]), wrap_rotate, sub_eq_add_neg, read_rotate,
    m.wrap_natCast_of_lt h_a]

/-- A distance leads from a rotated address to a rotated address. -/
theorem wrap_wrap_add (first second : ℤ) :
    m.wrap ((m.wrap (first + s) : ℤ) + (second - first)) = m.wrap ((m.wrap second : ℤ) + s) := by
  refine m.wrap_eq_of_modEq ?_
  calc (m.wrap (first + s) : ℤ) + (second - first)
      ≡ first + s + (second - first) [ZMOD m.size] := (m.wrap_modEq _).add_right _
    _ = second + s := by omega
    _ ≡ (m.wrap second : ℤ) + s [ZMOD m.size] := (m.wrap_modEq second).symm.add_right s

end Memory

namespace Core

/-- The core with both memories rotated, and its pointers with them. -/
def rotate (c : Core) (s t : ℤ) : Core :=
  { c with
    code := c.code.rotate s
    data := c.data.rotate t
    ip := c.code.wrap (c.ip + s)
    dp := c.data.wrap (c.dp + t) }

variable {c : Core} (s t : ℤ)

theorem given_rotate (i : Inputs) : (c.rotate s t).given i = (c.given i).rotate s t := rfl

/-- Another code memory is rotated as the one that it replaces. -/
theorem rotate_recoded {m : Memory} (h_size : m.size = c.code.size) :
    (c.recoded m).rotate s t = (c.rotate s t).recoded (m.rotate s) := by
  rw [rotate, recoded, rotate, recoded, Memory.wrap_congr h_size]

/-! ### A clock -/

/-- **A rotated core** is shown the same instruction. -/
theorem alike_rotate (h_ip : c.ip < c.code.size) (h_dp : c.dp < c.data.size) :
    c.Alike (c.rotate s t) := by
  refine ⟨?_, fun _ => ?_, ?_, rfl⟩
  · have h_word := c.code.read_rotate s c.ip
    rw [c.code.wrap_natCast_of_lt h_ip] at h_word
    exact congrArg Opcode.ofWord h_word
  · -- the address of the next word has moved along, too
    have h_next : c.code.wrap ((c.code.wrap (c.ip + s) : ℤ) + 1)
        = c.code.wrap ((c.ip : ℤ) + 1 + s) := by
      refine c.code.wrap_eq_of_modEq ?_
      calc (c.code.wrap (c.ip + s) : ℤ) + 1 ≡ c.ip + s + 1 [ZMOD c.code.size] :=
            (c.code.wrap_modEq _).add_right 1
        _ = (c.ip : ℤ) + 1 + s := add_right_comm _ _ _
    change (c.code.rotate s).read ((c.code.rotate s).wrap ((c.code.wrap (c.ip + s) : ℤ) + 1)) = _
    rw [Memory.wrap_rotate, h_next, Memory.read_rotate]
    rfl
  · have h_byte := c.data.read_rotate t c.dp
    rwa [c.data.wrap_natCast_of_lt h_dp] at h_byte

/-- What an instruction changes is changed elsewhere in the rotated core. -/
theorem commit_rotate (h_dp : c.dp < c.data.size) :
    (c.rotate s t).commit (c.execute.movedTo c (c.rotate s t))
      = (c.commit c.execute).rotate s t := by
  have h_code : c.execute.codeWrite = none := c.confined_execute.codeWrite
  -- what is written stands under the data pointer, and this has moved along
  have h_data : (c.data.rotate t).apply (c.execute.dataWrite.map fun write =>
      (c.data.wrap ((c.dp : ℤ) + t), write.2)) = (c.data.apply c.execute.dataWrite).rotate t := by
    have h_confined := c.confined_execute.dataWrite
    cases h_write : c.execute.dataWrite with
    | none => rfl
    | some write =>
      have h_address := (h_confined write h_write).1
      rw [Option.map_some, Memory.apply, Memory.write_rotate _ _ h_dp, ← h_address]
      rfl
  have h_ip := c.code.wrap_wrap_add s c.ip c.execute.ip
  have h_dp' := c.data.wrap_wrap_add t c.dp c.execute.dp
  -- of the plan only the pointers and the write have mattered, so it may be any one now
  generalize c.execute = p at h_code h_data h_ip h_dp' ⊢
  obtain ⟨code, data, ip, dp, init, boot, codeBus, dataBus, link, cycles, stalls⟩ := c
  dsimp only [rotate, commit, Plan.movedTo] at h_code h_data h_ip h_dp' ⊢
  rw [h_code, h_data, Memory.wrap_rotate, h_ip, Memory.wrap_rotate, h_dp',
    Memory.wrap_congr (data.size_apply p.dataWrite)]
  rfl

/-- **A clock commutes with a rotation.** -/
theorem step_rotate (h_free : ¬ c.Held) (h_ip : c.ip < c.code.size) (h_dp : c.dp < c.data.size) :
    (c.rotate s t).step = (c.step.1, c.step.2.rotate s t) := by
  have h_plan : c.plan = c.execute := plan_of_not_held h_free
  have h_free' : ¬ (c.rotate s t).Held := h_free
  have h_plan' : (c.rotate s t).plan = c.execute.movedTo c (c.rotate s t) := by
    rw [plan_of_not_held h_free']
    exact (alike_rotate s t h_ip h_dp).execute_eq
  rw [step, step, h_plan, h_plan']
  exact Prod.ext rfl (commit_rotate s t h_dp)

/-! ### A run -/

/-- **A run commutes with a rotation**, clock by clock. -/
theorem through_rotate (h_ip : c.ip < c.code.size) (h_dp : c.dp < c.data.size)
    {inputs : List Inputs} (h_run : ∀ i ∈ inputs, i.holds = false) :
    (c.rotate s t).through inputs = (c.through inputs).rotate s t ∧
      (c.rotate s t).retirements inputs = c.retirements inputs := by
  induction inputs generalizing c with
  | nil => exact ⟨rfl, rfl⟩
  | cons i rest ih =>
    have h_free := c.not_held_given (h_run i List.mem_cons_self)
    have h_step : ((c.rotate s t).given i).step
        = ((c.given i).step.1, (c.given i).step.2.rotate s t) := by
      rw [given_rotate]
      exact step_rotate s t h_free h_ip h_dp
    -- after a clock the pointers are in range, wherever they were
    obtain ⟨h_through, h_answers⟩ := ih ((c.given i).ip_commit_lt _) ((c.given i).dp_commit_lt _)
      fun j h_j => h_run j (List.mem_cons_of_mem i h_j)
    rw [through, retirements, h_step]
    exact ⟨h_through, congrArg _ h_answers⟩

/-- **Execution is invariant under rotation.** Let code memory be rotated by `s` and data
memory by `t`, whatever is in them, and the pointers with them. Then on every run in run mode
under the same inputs, from the first clock to the last, the rotated core has the rotated
state and gives the same answers; the channels and the counters are the same.

Let the core begin to run a compiled image from address zero, and let another code memory
hold the same image from the address `s`, wrapped behind its end if need be. With this code
memory instead of the rotated one the run is the same until the program is finished, whatever
else the memory holds. -/
theorem rotation (h_ip : c.ip < c.code.size) (h_dp : c.dp < c.data.size) :
    (∀ inputs : List Inputs, (∀ i ∈ inputs, i.holds = false) →
      (c.rotate s t).through inputs = (c.through inputs).rotate s t ∧
        (c.rotate s t).retirements inputs = c.retirements inputs) ∧
    ∀ {n : ℕ} {source : String} {image : Array UInt8} {m : Memory},
      c.InRunMode n → Program.compile source c.code.size = .ok image →
      (∀ a (ha : a < image.size), c.code.read a = image[a]) → c.ip = 0 →
      m.size = c.code.size →
      (∀ a (ha : a < image.size), m.read (m.wrap ((a : ℤ) + s)) = image[a]) →
      ∀ inputs : List Inputs, (∀ i ∈ inputs, i.holds = false) → c.Unfinished image.size inputs →
        ((c.rotate s t).recoded m).through inputs = ((c.through inputs).rotate s t).recoded m ∧
          ((c.rotate s t).recoded m).retirements inputs = c.retirements inputs := by
  refine ⟨fun inputs h_run => through_rotate s t h_ip h_dp h_run, ?_⟩
  intro n source image m h_mode h_compile h_image h_zero h_size h_based inputs h_run h_going
  obtain ⟨p, -, h_fits, rfl, h_capacity⟩ := Program.of_compile h_compile
  rw [Program.size_encode] at h_going
  have h_le : p.size ≤ c.code.size := by exact_mod_cast h_capacity
  have h_start : c.AtSite n p (Site.start p) := .start h_mode h_fits h_image h_le h_zero
  -- rotated back, the memory holds the image from address zero
  have h_back : (m.rotate (-s)).size = c.code.size := (m.size_rotate _).trans h_size
  have h_same : ∀ a < p.size, (m.rotate (-s)).read a = c.code.read a := by
    intro a h_a
    have h_lt : a < p.encode.size := by rwa [Program.size_encode]
    have h_read := m.read_rotate (-s) ((a : ℤ) + s)
    rwa [add_neg_cancel_right, m.wrap_natCast_of_lt (by omega), h_based a h_lt,
      ← h_image a h_lt] at h_read
  obtain ⟨h_through, h_answers⟩ :=
    h_start.through_recoded h_back (h_start.program.readAlike h_same) h_run h_going
  have h_ip' : (c.recoded (m.rotate (-s))).ip < (c.recoded (m.rotate (-s))).code.size :=
    h_ip.trans_eq h_back.symm
  obtain ⟨h_rotated, h_answers'⟩ := through_rotate s t h_ip' h_dp h_run
  have h_core : ∀ d : Core, d.code.size = c.code.size →
      (d.recoded (m.rotate (-s))).rotate s t = (d.rotate s t).recoded m := by
    intro d h_d
    rw [rotate_recoded s t (h_back.trans h_d.symm), Memory.rotate_neg_rotate]
  rw [h_core c rfl] at h_rotated h_answers'
  rw [h_rotated, h_answers', h_through, h_core _ (by rw [code_through h_run])]
  exact ⟨rfl, h_answers⟩

/-- A core of eight words and two cells that begins to run `,[.-]` from address zero. -/
def based : Core := (new ⟨.succ 2, .succ 0⟩).store .code 0 [5, 6, 5, 4, 1, 7, 5]

/-- A code memory in which the same image begins in the last three words. -/
def straddling : Memory := (Memory.zeros (.succ 2)).store 0 [4, 1, 7, 5, 255, 5, 6, 5]

/-- A row of clocks on which output is taken and the byte one is offered. -/
def openInputs (count : ℕ) : List Inputs :=
  List.replicate count ⟨false, false, .idle, .idle, true, true, 1⟩

/-- Over the end of code memory, and with the tape begun at its second cell: the program
sends its byte on the third clock and is finished after six. -/
theorem rotation_straddling :
    Program.compile ",[.-]" based.code.size = .ok #[5, 6, 5, 4, 1, 7, 5] ∧
      ((based.rotate 5 1).recoded straddling).ip = 5 ∧
      ((based.rotate 5 1).recoded straddling).retirements (openInputs 6)
        = List.replicate 6 true ∧
      (((based.rotate 5 1).recoded straddling).through (openInputs 3)).link.output
        = ⟨true, true, 1⟩ ∧
      (((based.rotate 5 1).recoded straddling).through (openInputs 6)).ip = 4 ∧
      (((based.rotate 5 1).recoded straddling).through (openInputs 6)).dp = 1 := by
  have h_compile : Program.compile ",[.-]" based.code.size = .ok #[5, 6, 5, 4, 1, 7, 5] := by
    decide +kernel
  have h_mode : based.InRunMode 2 := ⟨rfl, rfl, by decide +kernel, by decide +kernel⟩
  have h_image : ∀ a (ha : a < 7), based.code.read a = #[5, 6, 5, 4, 1, 7, 5][a] := by
    decide +kernel
  have h_based : ∀ (a : ℕ) (ha : a < 7),
      straddling.read (straddling.wrap ((a : ℤ) + 5)) = #[5, 6, 5, 4, 1, 7, 5][a] := by
    decide +kernel
  have h_size : straddling.size = based.code.size := by decide +kernel
  have h_dp : based.dp < based.data.size := by decide +kernel
  obtain ⟨-, h_run⟩ := rotation 5 1 (by decide +kernel : based.ip < based.code.size) h_dp
  have h_based_run := h_run h_mode h_compile h_image rfl h_size h_based
  obtain ⟨h_three, -⟩ := h_based_run (openInputs 3) (by decide) (by decide +kernel)
  obtain ⟨h_six, h_answers⟩ := h_based_run (openInputs 6) (by decide) (by decide +kernel)
  refine ⟨h_compile, by decide +kernel, ?_, ?_, ?_, ?_⟩
  · rw [h_answers]
    decide +kernel
  · rw [h_three]
    decide +kernel
  · rw [h_six]
    decide +kernel
  · rw [h_six]
    decide +kernel

end Core

end TapeProcessor
