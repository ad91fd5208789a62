import TapeProcessor.Proofs.Core.Recoding
import TapeProcessor.Proofs.Image.Targets
import TapeProcessor.Proofs.Source.Lockstep

/-!
# The unused bits of an image

The word of an operation has five bits that nobody looks at, while a distance uses all
eight. Which words are which is only known from the walk through the image, so the five
bits are irrelevant because the processor and the listing keep to this walk, in programs of
any nesting and in runs of any length.

`Image.SameOperations image other`: the two have the same words, up to the unused bits of
the words at which the walk through `image` stops (`Image.starts`). For a compiled image

* the pointer of a core that runs it is at a stop of the walk, until the program is
  finished (`Image.Carries.readAlike`, with `Core.AtSite.through_recoded`);
* the listing goes from stop to stop, also when it starts again behind the last word
  (`Image.Carries.exists_rows_other`).

`Image.unused_bits` says both.
-/

namespace TapeProcessor

namespace Source

variable {text : List Char}

/-- Every site of the tree of a text has a position in it. -/
theorem exists_position {p : Program} (h_tree : p.opcodes = operations text) {f : Site}
    (h_in : f.Inside p) : ∃ i, Marks text f i := by
  obtain ⟨ops, h_ops⟩ := h_in.rest_suffix
  -- the text is cut where what is left of the tree begins
  obtain ⟨before, after, rfl, -, h_after⟩ :=
    List.filterMap_eq_append_iff.mp (h_ops.trans h_tree).symm
  exact ⟨_, marks_settle before h_after⟩

end Source

/-- What the lines of a listing show besides the raw words: the addresses, and the
instructions with their distances and targets. -/
def Listing.contents (ls : List Line) : List (ℤ × Instruction) :=
  ls.map fun l => (l.address, l.instruction)

namespace Image

open Source

/-! ### The stops of the walk -/

section Starts

variable {image : Array UInt8} {a s : ℕ}

/-- The walk never goes back. -/
theorem le_of_mem_starts (h : s ∈ starts image a) : a ≤ s := by
  fun_induction starts image a with
  | case1 a h_lt ih =>
    rcases List.mem_cons.mp h with rfl | h
    · exact Nat.le_refl _
    · have h_le := ih h
      omega
  | case2 => cases h

/-- Behind an instruction stands another one, or the walk ends. -/
theorem next_of_mem_starts (h : s ∈ starts image a) :
    s + (Opcode.ofWord (image.getD s 0)).size ∈ starts image a ∨
      s + (Opcode.ofWord (image.getD s 0)).size = stop image a := by
  fun_induction starts image a with
  | case1 a h_lt ih =>
    have h_stop : stop image a = stop image (a + (Opcode.ofWord image[a]).size) :=
      stop_of_getElem? (Array.getElem?_eq_getElem h_lt)
    rw [h_stop]
    rcases List.mem_cons.mp h with rfl | h
    · rw [← Array.getElem_eq_getD 0 (h := h_lt)]
      -- behind the instruction is another stop, or nothing
      by_cases h_next : s + (Opcode.ofWord image[s]).size < image.size
      · refine Or.inl (List.mem_cons_of_mem _ ?_)
        rw [starts_of_getElem? (Array.getElem?_eq_getElem h_next)]
        exact List.mem_cons_self
      · exact Or.inr (by rw [stop, dif_neg h_next])
    · exact (ih h).imp_left (List.mem_cons_of_mem a)
  | case2 => cases h

/-- The distance of a jump is no stop of the walk. -/
theorem distance_notMem_starts (h : s ∈ starts image a)
    (h_two : (Opcode.ofWord (image.getD s 0)).size = 2) : s + 1 ∉ starts image a := by
  fun_induction starts image a with
  | case1 a h_lt ih =>
    intro h_mem
    -- the stop is here, or further on in the walk
    rcases List.mem_cons.mp h with rfl | h
    · rw [← Array.getElem_eq_getD 0 (h := h_lt)] at h_two
      rw [h_two] at h_mem
      rcases List.mem_cons.mp h_mem with h_eq | h_mem
      · omega
      · have h_le := le_of_mem_starts h_mem
        omega
    · have h_le := le_of_mem_starts h
      have h_pos := (Opcode.ofWord image[a]).size_pos
      rcases List.mem_cons.mp h_mem with h_eq | h_mem
      · omega
      · exact ih h h_mem
  | case2 => cases h

/-- The walk from the start stops there first. -/
theorem zero_mem_starts (h : 0 < image.size) : 0 ∈ starts image 0 := by
  rw [starts_of_getElem? (Array.getElem?_eq_getElem h)]
  exact List.mem_cons_self

end Starts

/-! ### Images with the same operations -/

/-- The words are the same, but for the unused bits of those that are operations of
`image`. -/
structure SameOperations (image other : Array UInt8) : Prop where
  size : other.size = image.size
  operation : ∀ a ∈ starts image 0, (other.getD a 0).toNat % 8 = (image.getD a 0).toNat % 8
  distance : ∀ a < image.size, a ∉ starts image 0 → other.getD a 0 = image.getD a 0

variable {image other : Array UInt8}

/-- At a stop of the walk both images have the same operation. -/
theorem SameOperations.ofWord_eq (h : SameOperations image other) {s : ℕ}
    (h_s : s ∈ starts image 0) :
    Opcode.ofWord (other.getD s 0) = Opcode.ofWord (image.getD s 0) := by
  rw [Opcode.ofWord_eq_ofCode, h.operation s h_s, ← Opcode.ofWord_eq_ofCode]

namespace Carries

variable {text : List Char} {p : Program}

/-- The next stop behind an instruction is in the image, or it is its end. -/
theorem next_start (h : Carries image text p) {s : ℕ} (h_s : s ∈ starts image 0) :
    s + (Opcode.ofWord (image.getD s 0)).size ∈ starts image 0 ∨
      s + (Opcode.ofWord (image.getD s 0)).size = image.size := by
  have h_stop : stop image 0 = image.size := h.stop_offset (Nat.zero_le _)
  rw [← h_stop]
  exact next_of_mem_starts h_s

/-- An instruction of a compiled image is not cut off at its end. -/
theorem next_le (h : Carries image text p) {s : ℕ} (h_s : s ∈ starts image 0) :
    s + (Opcode.ofWord (image.getD s 0)).size ≤ image.size := by
  rcases h.next_start h_s with h_next | h_next
  · exact Nat.le_of_lt (lt_of_mem_starts h_next)
  · exact Nat.le_of_eq h_next

/-- The word behind a jump is that of the image. -/
theorem distance_eq (h : Carries image text p) (h_same : SameOperations image other) {s : ℕ}
    (h_s : s ∈ starts image 0) (h_two : (Opcode.ofWord (image.getD s 0)).size = 2) :
    s + 1 < image.size ∧ other.getD (s + 1) 0 = image.getD (s + 1) 0 := by
  have h_le := h.next_le h_s
  have h_lt : s + 1 < image.size := by omega
  exact ⟨h_lt, h_same.distance _ h_lt (distance_notMem_starts h_s h_two)⟩

/-! ### The core -/

/-- **The walk stops at the operations of the program.** -/
theorem mem_starts (h : Carries image text p) {f : Site} (h_in : f.Inside p) {op : Opcode}
    {ops : List Opcode} (h_rest : f.rest = op :: ops) :
    f.address p ∈ starts image 0 ∧ Opcode.ofWord (image.getD (f.address p) 0) = op := by
  obtain ⟨i, h_marks⟩ := exists_position h.tree h_in
  rw [← h_marks.offset_eq h_in h.tree]
  obtain ⟨before, c, rest, rfl, rfl, h_c, -⟩ := h_marks.split h_rest
  have h_op : opcodeAt? (before ++ c :: rest) before.length = some op :=
    opcodeAt?_append.trans h_c
  -- the stops are the offsets of the operations of the text
  have h_starts : starts image 0 = ((positionsFrom (before ++ c :: rest) 0).filter fun k =>
      (opcodeAt? (before ++ c :: rest) k).isSome).map (offset (before ++ c :: rest)) :=
    h.starts_offset (Nat.zero_le _)
  refine ⟨?_, ?_⟩
  · rw [h_starts]
    refine List.mem_map_of_mem (List.mem_filter.mpr ⟨?_, by rw [h_op]; rfl⟩)
    rw [positionsFrom, List.mem_range'_1, List.length_append, List.length_cons]
    omega
  · rw [Array.getD_eq_getD_getElem?, h.word h_op]
    exact Opcode.ofWord_word op

/-- **The program is read alike** from an image with the same operations. -/
theorem readAlike (h : Carries image text p) (h_same : SameOperations image other)
    {code m : Memory} (h_code : ∀ a (ha : a < image.size), code.read a = image[a])
    (h_m : ∀ a (ha : a < other.size), m.read a = other[a]) : p.ReadAlike code m := by
  have h_code' : ∀ a < image.size, code.read a = image.getD a 0 := fun a h_lt => by
    rw [h_code a h_lt, Array.getElem_eq_getD 0]
  have h_m' : ∀ a < image.size, m.read a = other.getD a 0 := fun a h_lt => by
    rw [h_m a (h_same.size ▸ h_lt), Array.getElem_eq_getD 0]
  intro f op ops h_in h_rest
  obtain ⟨h_s, h_op⟩ := h.mem_starts h_in h_rest
  -- the operations are equal up to unused bits, and the distances wholly
  refine ⟨?_, fun h_two => ?_⟩
  · rw [h_m' _ (lt_of_mem_starts h_s), h_same.ofWord_eq h_s, h_op]
  · obtain ⟨h_lt, h_word⟩ := h.distance_eq h_same h_s (by rw [h_op, h_two])
    rw [h_m' _ h_lt, h_word, h_code' _ h_lt]

/-! ### The listing -/

/-- **The instruction at a stop of the walk**, in an image that repeats at its length. -/
theorem decode_other (h : Carries image text p) (h_same : SameOperations image other)
    (capacity : ℤ) {a : ℤ} {s : ℕ} (h_s : s ∈ starts image 0) (h_a : a % image.size = s) :
    Instruction.decode other capacity a = Instruction.decode image capacity a ∧
      (Instruction.decode image capacity a).size = (Opcode.ofWord (image.getD s 0)).size := by
  have h_word : Listing.wordAt image a = image.getD s 0 := by
    rw [Listing.wordAt, h_a, Int.toNat_natCast]
  have h_word' : Listing.wordAt other a = other.getD s 0 := by
    rw [Listing.wordAt, h_same.size, h_a, Int.toNat_natCast]
  have h_op : (Instruction.decode image capacity a).opcode = Opcode.ofWord (image.getD s 0) := by
    rw [← h_word]
    exact Listing.opcode_lineAt
  refine ⟨?_, by rw [Instruction.size, h_op]⟩
  -- a distance is read behind a jump, and is the same in both
  have h_distance : (Opcode.ofWord (image.getD s 0)).size = 2 →
      Listing.wordAt other (a + 1) = Listing.wordAt image (a + 1) := by
    intro h_two
    obtain ⟨h_lt, h_literal⟩ := h.distance_eq h_same h_s h_two
    have h_next : (a + 1) % (image.size : ℤ) = (s + 1 : ℕ) := by
      rw [← Int.emod_add_emod, h_a, Int.emod_eq_of_lt (by omega) (by omega)]
      rfl
    rw [Listing.wordAt, Listing.wordAt, h_same.size, h_next, Int.toNat_natCast, h_literal]
  unfold Instruction.decode
  rw [h_word, h_word', h_same.ofWord_eq h_s]
  cases h_cases : Opcode.ofWord (image.getD s 0) with
  | plain c => rfl
  | jz | jmp =>
    rw [h_cases] at h_distance
    simp only [h_distance rfl]

/-- **A walk from a stop** of the image is one through the other image. -/
theorem exists_rows_other (h : Carries image text p) (h_same : SameOperations image other)
    {capacity stop a e : ℤ} {ls : List Line} (h_rows : Listing.Rows image capacity stop a ls e)
    {s : ℕ} (h_s : s ∈ starts image 0) (h_a : a % image.size = s) :
    ∃ ls', Listing.Rows other capacity stop a ls' e ∧
      Listing.contents ls' = Listing.contents ls := by
  induction h_rows generalizing s with
  | done h_end => exact ⟨[], .done h_end, rfl⟩
  | @line a e rest h_lt h_rest ih =>
    obtain ⟨h_decode, h_size⟩ := h.decode_other h_same capacity h_s h_a
    have h_line : (Listing.lineAt other capacity a).instruction
        = (Listing.lineAt image capacity a).instruction := h_decode
    -- the next line is at a stop again, the first one behind the end
    have h_next : ∃ s' ∈ starts image 0,
        (a + (Listing.lineAt image capacity a).instruction.size) % (image.size : ℤ) = s' := by
      have h_sum : (a + (Listing.lineAt image capacity a).instruction.size) % (image.size : ℤ)
          = ((s + (Opcode.ofWord (image.getD s 0)).size : ℕ) : ℤ) % image.size := by
        rw [← Int.emod_add_emod, h_a, Int.natCast_add, ← h_size]
        rfl
      rcases h.next_start h_s with h_inside | h_end
      · have h_lt := lt_of_mem_starts h_inside
        exact ⟨_, h_inside, by rw [h_sum, Int.emod_eq_of_lt (by omega) (by omega)]⟩
      · refine ⟨0, zero_mem_starts (Nat.zero_lt_of_lt (lt_of_mem_starts h_s)), ?_⟩
        rw [h_sum, h_end, Int.emod_self]
        rfl
    obtain ⟨s', h_s', h_a'⟩ := h_next
    obtain ⟨rest', h_rest', h_contents⟩ := ih h_s' h_a'
    rw [← h_line] at h_rest'
    refine ⟨_, .line h_lt h_rest', ?_⟩
    rw [Listing.contents, List.map_cons, h_line, ← Listing.contents, h_contents]
    rfl

/-- **The listings show the same**, whatever the bound and the capacity are. -/
theorem contents_lines (h : Carries image text p) (h_same : SameOperations image other)
    (stop capacity : ℤ) :
    (Listing.lines other 0 stop capacity).map (fun ls => Listing.contents ls.toList)
      = (Listing.lines image 0 stop capacity).map fun ls => Listing.contents ls.toList := by
  rcases Nat.eq_zero_or_pos image.size with h_zero | h_pos
  · -- there is only one image without words
    have h_zero' : other.size = 0 := h_same.size.trans h_zero
    rw [Array.eq_empty_of_size_eq_zero h_zero, Array.eq_empty_of_size_eq_zero h_zero']
  · obtain ⟨ls, e, h_rows⟩ : ∃ ls e, Listing.Rows image capacity stop 0 ls e :=
      Listing.exists_rows 0
    obtain ⟨ls', h_rows', h_contents⟩ :=
      h.exists_rows_other h_same h_rows (zero_mem_starts h_pos) (Int.zero_emod _)
    have h_size := h_same.size
    rw [h_rows.lines_eq (by omega), h_rows'.lines_eq (by omega)]
    exact congrArg some h_contents

end Carries

/-- **The unused bits do not matter.** Let `other` have the words of a compiled image, but
for the upper five bits of the operations, and let two cores in run mode differ in code
memory only, which holds `image` from address zero in one and `other` in the other. From
address zero, whatever is on their channels, they answer alike and go through the same
states, until the clock on which the program is finished; in a program that fills code
memory this clock leads to its start again, and there is no end to it. A listing shows the
same instructions at the same addresses, with the same distances and targets. -/
theorem unused_bits {c : Core} {n : ℕ} {source : String} {m : Memory} (h_mode : c.InRunMode n)
    (h_compile : Program.compile source c.code.size = .ok image)
    (h_same : SameOperations image other)
    (h_image : ∀ a (ha : a < image.size), c.code.read a = image[a])
    (h_other : ∀ a (ha : a < other.size), m.read a = other[a]) (h_size : m.size = c.code.size)
    (h_ip : c.ip = 0) :
    (∀ inputs : List Core.Inputs, (∀ i ∈ inputs, i.holds = false) →
      c.Unfinished image.size inputs →
      (c.recoded m).through inputs = (c.through inputs).recoded m ∧
        (c.recoded m).retirements inputs = c.retirements inputs) ∧
    ∀ stop capacity : ℤ,
      (Listing.lines other 0 stop capacity).map (fun ls => Listing.contents ls.toList)
        = (Listing.lines image 0 stop capacity).map fun ls => Listing.contents ls.toList := by
  obtain ⟨p, h_tree, h_fits, rfl, h_capacity⟩ := Program.of_compile h_compile
  have h_carries : Carries p.encode source.toList p := ⟨h_tree, h_fits, p.toList_encode⟩
  refine ⟨fun inputs h_run h_going => ?_, h_carries.contents_lines h_same⟩
  have h_start : c.AtSite n p (Site.start p) :=
    .start h_mode h_fits h_image (by exact_mod_cast h_capacity) h_ip
  rw [Program.size_encode] at h_going
  exact h_start.through_recoded h_size (h_carries.readAlike h_same h_image h_other) h_run h_going

/-- A code memory with the given words at its start. -/
def codeOf (words : List UInt8) : Memory := (Memory.zeros (.succ 3)).store 0 words

/-- A core that begins to run `,[.-]`. -/
def plainCore : Core :=
  (Core.new ⟨.succ 3, .succ 0⟩).recoded (codeOf [5, 6, 5, 4, 1, 7, 5])

/-- A host that takes all output and offers the byte one. -/
def generousInputs : Core.Inputs := ⟨false, false, .idle, .idle, true, true, 1⟩

/-- The program `,[.-]` with and without all kinds of unused bits: six clocks finish it. -/
theorem unused_bits_loop :
    SameOperations #[5, 6, 5, 4, 1, 7, 5] #[253, 22, 5, 132, 9, 71, 5] ∧
    (plainCore.recoded (codeOf [253, 22, 5, 132, 9, 71, 5])).retirements
        (List.replicate 6 generousInputs) = List.replicate 6 true ∧
    ((plainCore.recoded (codeOf [253, 22, 5, 132, 9, 71, 5])).through
        (List.replicate 6 generousInputs)).ip = 7 ∧
    (Listing.lines #[253, 22, 5, 132, 9, 71, 5] 0 7 16).map
        (fun ls => (Listing.contents ls.toList).map fun x => (x.1, x.2.text))
      = some [(0, "GET"), (1, "JZ 5  ; -> 0x007"), (3, "PUT"), (4, "DEC"),
        (5, "JMP 5  ; -> 0x001")] := by
  have h_mode : plainCore.InRunMode 2 := ⟨rfl, rfl, by decide +kernel, by decide +kernel⟩
  have h_compile : Program.compile ",[.-]" plainCore.code.size = .ok #[5, 6, 5, 4, 1, 7, 5] := by
    decide +kernel
  have h_same : SameOperations #[5, 6, 5, 4, 1, 7, 5] #[253, 22, 5, 132, 9, 71, 5] :=
    ⟨rfl, by decide +kernel, by decide +kernel⟩
  have h_image : ∀ a (ha : a < 7), plainCore.code.read a = #[5, 6, 5, 4, 1, 7, 5][a] := by
    decide +kernel
  have h_other : ∀ a (ha : a < 7), (codeOf [253, 22, 5, 132, 9, 71, 5]).read a
      = #[253, 22, 5, 132, 9, 71, 5][a] := by
    decide +kernel
  have h_size : (codeOf [253, 22, 5, 132, 9, 71, 5]).size = plainCore.code.size := by
    decide +kernel
  obtain ⟨h_run, h_listing⟩ :=
    unused_bits h_mode h_compile h_same h_image h_other h_size rfl
  have h_going : plainCore.Unfinished 7 (List.replicate 6 generousInputs) := by decide +kernel
  obtain ⟨h_through, h_answers⟩ := h_run _ (by decide) h_going
  refine ⟨h_same, ?_, ?_, ?_⟩
  · rw [h_answers]
    decide +kernel
  · rw [h_through]
    decide +kernel
  · have h_texts := congrArg
      (Option.map fun l : List (ℤ × Instruction) => l.map fun x => (x.1, x.2.text))
      (h_listing 7 16)
    rw [Option.map_map, Option.map_map] at h_texts
    exact h_texts.trans (by decide +kernel)

end Image

end TapeProcessor
