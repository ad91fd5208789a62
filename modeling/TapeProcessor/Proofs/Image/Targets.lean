import TapeProcessor.Proofs.Image.Inverse
import TapeProcessor.Proofs.Listing.Cover

/-!
# Where the jumps of a listing lead

The listing of a compiled image shows each jump with the address that it leads to, and this
is the address of another line: a jump back leads to the line of its loop test, and a loop
test to the line behind its jump back.

* The characters that a listing reads as, one for each line, say which lines belong
  together: those whose brackets are partners. In a balanced text every bracket has one
  (`Source.Balanced.exists_closing`, `Source.Balanced.exists_opening`).
* `Listing.Leads` says of the text of a listing that its jumps lead where their partners
  tell.

The image is that of the text without its comments too (`Image.Carries.bare`), and there
the lines are counted as the characters are (`Image.Carries.toList_lines`). So
`Image.leads_of_compile` comes down to the distances of partners. The walk through the image
ends with its last word (`Image.Carries.rows_end`), so that the listing needs nothing that
is behind the image.
-/

namespace TapeProcessor

/-! ### Partners in a balanced text -/

namespace Source

variable {text : List Char} {i j : ℕ}

/-- A closing bracket of a balanced text has a partner. -/
theorem Balanced.exists_opening (h : Balanced text) (h_close : text[i]? = some ']') :
    ∃ j, Paired text j i := by
  cases h_stack : openBefore text i with
  | nil => exact absurd h_stack (h.openBefore_ne_nil h_close)
  | cons top st =>
    obtain ⟨-, -, rfl, -⟩ := openBefore_eq_cons h_stack
    exact ⟨top, paired_iff.mpr ⟨h_close, h_stack⟩⟩

/-- So has an opening one. -/
theorem Balanced.exists_closing (h : Balanced text) (h_open : text[j]? = some '[') :
    ∃ i, Paired text j i := by
  obtain ⟨p, h_tree⟩ := balanced_iff.mp h
  have h_split : operations text
      = operations (text.take j) ++ .jz :: operations (text.drop (j + 1)) := by
    conv_lhs => rw [take_append_cons_drop h_open]
    rw [operations_append, operations_cons (show Opcode.ofSymbol? '[' = some .jz from rfl)]
  obtain ⟨⟨here, outer⟩, -, h_rest⟩ :=
    Site.exists_of_suffix ⟨operations (text.take j), (h_tree.trans h_split).symm⟩
  cases here with
  | done => cases outer <;> cases h_rest
  | plain c next => cases h_rest
  | loop body next =>
    -- a pair of brackets has the same operations in front of it, and so it opens here
    rw [← h_rest, Site.rest_loop] at h_split
    obtain ⟨j', i, h_paired, -, h_front⟩ := exists_paired h_split
    have h_offset : offset text j' = offset text j := by rw [offset, h_front, offset]
    have h_isSome {k : ℕ} (h_char : text[k]? = some Opcode.jz.symbol) :
        (opcodeAt? text k).isSome :=
      Option.isSome_of_eq_some (opcodeAt?_eq_some_iff.mpr h_char)
    have h_same := Image.offset_injOn (h_isSome h_paired.opening) (h_isSome h_open) h_offset
    exact ⟨i, h_same ▸ h_paired⟩

/-- The operations of a text are those of the text without its comments. -/
theorem operations_commands (source : String) :
    operations (commands source).toList = operations source.toList := by
  rw [commands, String.toList_ofList, ← map_symbol_operations, operations,
    Opcode.filterMap_ofSymbol?]

/-- Without comments there is an operation at every position. -/
theorem isSome_opcodeAt?_commands {source : String} (h_lt : i < (commands source).toList.length) :
    (opcodeAt? (commands source).toList i).isSome := by
  have h_mem : (commands source).toList[i] ∈ (commands source).toList := List.getElem_mem h_lt
  rw [opcodeAt?, List.getElem?_eq_getElem h_lt, Option.bind_some]
  generalize (commands source).toList[i] = c at h_mem
  rw [commands, String.toList_ofList, List.mem_filter] at h_mem
  exact h_mem.2

end Source

namespace Listing

/-! ### The text of the jumps -/

/-- The address that a line of a listing shows. -/
def addressAt? (texts : List String) (k : ℕ) : Option ℤ := texts[k]?.bind Line.addressIn?

/-- The target that a line of a listing shows. -/
def targetAt? (texts : List String) (k : ℕ) : Option ℤ := texts[k]?.bind Line.targetIn?

/-- The jumps in the text of a listing lead where the brackets tell that it reads as.
Behind the last line they lead to `last`. -/
structure Leads (texts : List String) (symbols : List Char) (last : ℤ) : Prop where
  /-- There is a line for each of the brackets and the other characters. -/
  reads : readBack? texts = some (String.ofList symbols)
  length : texts.length = symbols.length
  /-- Every jump has a partner. -/
  closed : ∀ j, symbols[j]? = some '[' → ∃ i, Source.Paired symbols j i
  opened : ∀ i, symbols[i]? = some ']' → ∃ j, Source.Paired symbols j i
  /-- A loop test leads to the line behind its partner. -/
  forward : ∀ j i, Source.Paired symbols j i → ∃ t, targetAt? texts j = some t ∧
    if i + 1 < texts.length then addressAt? texts (i + 1) = some t else t = last
  /-- A jump back leads to the line of its partner. -/
  back : ∀ j i, Source.Paired symbols j i → ∃ t, targetAt? texts i = some t ∧
    addressAt? texts j = some t

/-- A word at an address of the code. -/
theorem wordAt_of_getElem? {code : Array UInt8} {a : ℕ} {w : UInt8} (h : code[a]? = some w) :
    wordAt code a = w := by
  rw [wordAt_natCast (Array.getElem?_eq_some_iff.mp h).1, Array.getD_eq_getD_getElem?, h,
    Option.getD_some]

/-- The walk of a listing ends where a walk through the image does. -/
theorem Rows.end_eq_stop {image : Array UInt8} {capacity e : ℤ} {a : ℕ} {ls : List Line}
    (h : Rows image capacity image.size a ls e) : e = Image.stop image a := by
  fun_induction Image.stop image a generalizing ls with
  | case1 a h_lt ih =>
    have h_word : wordAt image a = image[a] := wordAt_of_getElem? (Array.getElem?_eq_getElem h_lt)
    have h_size : (lineAt image capacity a).instruction.size
        = (Opcode.ofWord image[a]).size := by
      rw [Instruction.size, opcode_lineAt, h_word]
    cases h with
    | done h_end => omega
    | line _ h_rest =>
      rw [h_size] at h_rest
      exact ih h_rest
  | case2 a h_end =>
    cases h with
    | done => rfl
    | line h_lt => omega

end Listing

namespace Image

open Source

namespace Carries

variable {image : Array UInt8} {text : List Char} {p : Program} {i j : ℕ}

/-- **The walk of the listing** of an image of a text ends with its last word. -/
theorem rows_end (h : Carries image text p) {capacity e : ℤ} {ls : List Line}
    (h_rows : Listing.Rows image capacity image.size 0 ls e) : e = image.size := by
  have h_stop : stop image 0 = image.size := h.stop_offset (Nat.zero_le _)
  have h_end : e = stop image 0 := Listing.Rows.end_eq_stop h_rows
  rw [h_end, h_stop]

/-- The image of a text is that of the text without its comments. -/
theorem bare {source : String} (h : Carries image source.toList p) :
    Carries image (commands source).toList p :=
  ⟨h.tree.trans (operations_commands source).symm, h.fits, h.words⟩

/-- **The lines** of the image of a text without comments: one for each character. -/
theorem toList_lines (h : Carries image text p)
    (h_all : ∀ i < text.length, (opcodeAt? text i).isSome) (capacity : ℤ) :
    (starts image 0).map (fun s : ℕ => Listing.lineAt image capacity s)
      = (List.range text.length).map fun i => Listing.lineAt image capacity (offset text i) := by
  have h_starts : starts image 0 = ((positionsFrom text 0).filter fun i =>
      (opcodeAt? text i).isSome).map (offset text) :=
    h.starts_offset (Nat.zero_le _)
  have h_filter : (positionsFrom text 0).filter (fun i => (opcodeAt? text i).isSome)
      = List.range text.length := by
    rw [positionsFrom, Nat.sub_zero, ← List.range_eq_range']
    exact List.filter_eq_self.mpr fun i h_mem => h_all i (List.mem_range.mp h_mem)
  rw [h_starts, h_filter, List.map_map]
  rfl

/-! ### The targets of partners -/

section Targets

variable (h : Carries image text p) (m : Memory) (h_paired : Paired text j i)

include h h_paired

/-- A loop test leads to the address behind its partner, which wraps if the partner is at the
end of a full memory. -/
theorem target_opening :
    (Listing.lineAt image m.size (offset text j)).instruction.target?
      = some ((offset text (i + 1) : ℤ) % m.size) := by
  have h_open : opcodeAt? text j = some .jz := opcodeAt?_eq_some_iff.mpr h_paired.opening
  have h_close : opcodeAt? text i = some .jmp := opcodeAt?_eq_some_iff.mpr h_paired.closing
  have h_next : offset text (i + 1) = offset text i + 2 := offset_succ h_close
  obtain ⟨d, h_first, -, h_span, -⟩ := h.distances h_paired
  have h_word : Listing.wordAt image (offset text j) = Opcode.jz.word :=
    Listing.wordAt_of_getElem? (h.word h_open)
  have h_distance : Listing.wordAt image (offset text j + 1) = d :=
    Listing.wordAt_of_getElem? h_first
  -- the distance counts from the word behind the test to the one behind the jump back
  have h_sum : (offset text j : ℤ) + 1 + d.toNat = offset text (i + 1) := by omega
  rw [Listing.lineAt, Instruction.decode, h_word, Opcode.ofWord_word]
  dsimp only
  rw [h_distance, h_sum, Memory.and_size_sub_one, Memory.wrap_eq_emod]
  rfl

/-- A jump back leads to the address of its partner. -/
theorem target_closing (h_fits : image.size ≤ m.size) :
    (Listing.lineAt image m.size (offset text i)).instruction.target?
      = some (offset text j : ℤ) := by
  have h_close : opcodeAt? text i = some .jmp := opcodeAt?_eq_some_iff.mpr h_paired.closing
  obtain ⟨d, h_first, h_second, h_span, -⟩ := h.distances h_paired
  have h_inside := (Array.getElem?_eq_some_iff.mp h_first).1
  have h_word : Listing.wordAt image (offset text i) = Opcode.jmp.word :=
    Listing.wordAt_of_getElem? (h.word h_close)
  have h_distance : Listing.wordAt image (offset text i + 1) = d :=
    Listing.wordAt_of_getElem? h_second
  have h_sum : (offset text i : ℤ) + 1 - d.toNat = offset text j := by omega
  rw [Listing.lineAt, Instruction.decode, h_word, Opcode.ofWord_word]
  dsimp only
  rw [h_distance, h_sum, Memory.and_size_sub_one, m.wrap_natCast_of_lt (by omega)]
  rfl

end Targets

/-- **The jumps in the listing** of the image of a text without comments. -/
theorem leads (h : Carries image text p) (h_all : ∀ i < text.length, (opcodeAt? text i).isSome)
    (m : Memory) (h_fits : image.size ≤ m.size) {texts : List String}
    (h_reads : Listing.readBack? texts = some (String.ofList text))
    (h_texts : texts = ((List.range text.length).map fun i =>
      Listing.lineAt image m.size (offset text i)).map Line.render) :
    Listing.Leads texts text ((image.size : ℤ) % m.size) := by
  have h_balanced : Balanced text := balanced_iff.mpr ⟨p, h.tree⟩
  have h_length : texts.length = text.length := by
    rw [h_texts, List.length_map, List.length_map, List.length_range]
  -- line `k` is that of the character at `k`
  have h_line {k : ℕ} (h_lt : k < text.length) :
      texts[k]? = some (Listing.lineAt image m.size (offset text k)).render := by
    rw [h_texts, List.getElem?_map, List.getElem?_map, List.getElem?_range h_lt]
    rfl
  have h_address {k : ℕ} (h_lt : k < text.length) :
      Listing.addressAt? texts k = some (offset text k : ℤ) := by
    rw [Listing.addressAt?, h_line h_lt, Option.bind_some, Line.addressIn?_render]
    rfl
  have h_target {k : ℕ} (h_lt : k < text.length) :
      Listing.targetAt? texts k
        = (Listing.lineAt image m.size (offset text k)).instruction.target? := by
    rw [Listing.targetAt?, h_line h_lt, Option.bind_some,
      Line.targetIn?_render Listing.rawText_lineAt]
  refine ⟨h_reads, h_length, fun j => h_balanced.exists_closing, fun i => h_balanced.exists_opening,
    fun j i h_paired => ?_, fun j i h_paired => ?_⟩
  · have h_end := (List.getElem?_eq_some_iff.mp h_paired.closing).1
    refine ⟨_, (h_target (h_paired.lt.trans h_end)).trans (h.target_opening m h_paired), ?_⟩
    split
    · next h_next =>
      rw [h_length] at h_next
      -- a line that follows begins inside the image
      obtain ⟨op, h_op⟩ := Option.isSome_iff_exists.mp (h_all _ h_next)
      have h_inside := (Array.getElem?_eq_some_iff.mp (h.word h_op)).1
      rw [h_address h_next, Int.emod_eq_of_lt (by omega) (by omega)]
    · next h_last =>
      rw [h.size, show i + 1 = text.length by omega]
  · have h_end := (List.getElem?_eq_some_iff.mp h_paired.closing).1
    exact ⟨_, (h_target h_end).trans (h.target_closing m h_paired h_fits),
      h_address (h_paired.lt.trans h_end)⟩

end Carries

/-- **The listing of a compiled image** is a walk that ends with its last word, and its jumps
lead where the brackets of the text tell. -/
theorem leads_of_compile {source : String} {image : Array UInt8} (m : Memory)
    (h : Program.compile source m.size = .ok image) :
    ∃ ls, Listing.Rows image m.size image.size 0 ls image.size ∧
      Listing.Leads (ls.map Line.render) (commands source).toList ((image.size : ℤ) % m.size) := by
  obtain ⟨⟨p, h_image⟩, h_fits⟩ := carries_of_compile h
  obtain ⟨ls, e, h_rows⟩ : ∃ ls e, Listing.Rows image m.size image.size 0 ls e :=
    Listing.exists_rows 0
  obtain rfl := h_image.rows_end h_rows
  obtain ⟨listing, h_lines, h_list, h_reads⟩ := lines_readBack image m.size
  rw [h_rows.lines_eq (by omega), Option.some_inj] at h_lines
  subst h_lines
  have h_all : ∀ i < (commands source).toList.length,
      (opcodeAt? (commands source).toList i).isSome :=
    fun i h_lt => isSome_opcodeAt?_commands h_lt
  rw [h_image.bare.toList_lines h_all] at h_list
  rw [opcodesFrom_of_compile h, map_symbol_operations, ← commands] at h_reads
  refine ⟨ls, h_rows, h_image.bare.leads h_all m (by omega) ?_ (congrArg _ h_list)⟩
  rw [h_reads, String.ofList_toList]

end Image

end TapeProcessor
