import TapeProcessor.Listing
import TapeProcessor.Memory.Basic
import TapeProcessor.Proofs.Image.Layout

/-!
# Reading a listing

A listing is text for a reader, and what it says about the operations of an image can be
read off again.

* `Line.mnemonicIn` is the mnemonic in the text of a line: it stands behind the address
  and behind the columns of the raw words. In the text of a line of a listing this is
  that of the instruction (`Line.mnemonicIn_render`).
* `Listing.readBack?` reads the mnemonics of a row of lines as the characters of source
  text that name the same operations.

The lines of the whole of an image are those of the instructions on a walk through it
(`Image.toList_linesFrom`), so that `Image.lines_readBack` gives the operations met on
the walk for any image, and `Image.Carries.opcodesFrom_offset` says which they are in
the image of a text.
-/

namespace TapeProcessor

/-! ### The columns of a line -/

/-- A column ends in front of a character that it does not hold. -/
theorem ne_of_notMem {column : List Char} {other : Char} (h : other ∉ column) :
    ∀ c ∈ column, (c != other) = true := by
  intro c h_mem
  rw [bne_iff_ne]
  rintro rfl
  exact h h_mem

namespace Hex

/-- What is read as a number is made of digits. -/
theorem isSome_digitValue? {n m : ℕ} {l : List Char} (h : valueFrom? n l = some m) :
    ∀ c ∈ l, (digitValue? c).isSome := by
  induction l generalizing n with
  | nil => exact fun _ h_mem => absurd h_mem List.not_mem_nil
  | cons x rest ih =>
    -- each character has to be a digit for the next one to be read
    obtain ⟨d, h_digit, h_rest⟩ := Option.bind_eq_some_iff.mp h
    intro c h_mem
    rcases List.mem_cons.mp h_mem with rfl | h_mem
    · exact Option.isSome_of_eq_some h_digit
    · exact ih h_rest c h_mem

/-- There is no colon in a numeral, whatever its style. -/
theorem colon_notMem_write (s : Style) (n : ℤ) : ':' ∉ s.write n := by
  -- a colon is no digit, and in neither of the two prefixes
  have h_digits : ':' ∉ digits s.letters n.natAbs := by
    intro h_mem
    have h_digit := isSome_digitValue? (valueFrom?_digits s.letters n.natAbs) ':' h_mem
    revert h_digit
    decide
  have h_sign : ':' ∉ (if n < 0 then ['-'] else []) := by
    split <;> decide
  have h_marker : ':' ∉ (if s.marked then ['0', 'x'] else []) := by
    split <;> decide
  simp only [Style.write, List.mem_append, List.mem_replicate, not_or]
  exact ⟨⟨⟨h_sign, h_marker⟩, fun h => absurd h.2 (by decide)⟩, h_digits⟩

/-- A raw word takes two columns. -/
theorem length_listingByte (w : UInt8) : (Style.listingByte.render w.toNat).length = 2 := by
  -- this is checked for all bytes
  have h_all : ∀ n : Fin 256, (Style.listingByte.write n.val).length = 2 := by
    decide +kernel
  rw [Style.render, String.length_ofList]
  exact h_all ⟨w.toNat, w.toNat_lt⟩

end Hex

namespace Opcode

/-- The operation with a given mnemonic. -/
def ofMnemonic? (name : String) : Option Opcode := all.find? fun op => op.mnemonic == name

/-- A mnemonic names one operation. -/
@[simp] theorem ofMnemonic?_mnemonic (op : Opcode) : ofMnemonic? op.mnemonic = some op := by
  rcases op with c | _ | _
  · cases c <;> rfl
  · rfl
  · rfl

/-- There is no blank in a mnemonic, so it ends in front of the next one. -/
theorem space_notMem_mnemonic (op : Opcode) : ' ' ∉ op.mnemonic.toList := by
  rcases op with c | _ | _
  · cases c <;> decide
  · decide
  · decide

end Opcode

/-- The text of an instruction begins with its mnemonic. -/
theorem Instruction.text_eq (i : Instruction) :
    ∃ rest : List Char, i.text.toList = i.opcode.mnemonic.toList ++ rest ∧
      rest.takeWhile (· != ' ') = [] := by
  cases i with
  | plain c => exact ⟨[], (List.append_nil _).symm, rfl⟩
  | jz distance target | jmp distance target =>
    simp only [Instruction.text, Instruction.opcode, String.toList_append, List.append_assoc]
    exact ⟨_, rfl, rfl⟩

namespace Line

/-- The mnemonic in the text of a line. Behind the colon stand a blank, the columns of
the raw words and a blank. -/
def mnemonicIn (text : String) : String :=
  String.ofList (((text.toList.dropWhile (· != ':')).drop (rawWidth + 3)).takeWhile (· != ' '))

/-- The operation that the text of a line names. -/
def opcodeIn? (text : String) : Option Opcode := Opcode.ofMnemonic? (mnemonicIn text)

/-! The text of a line, column by column. -/

/-- The columns of the raw words, filled up with blanks. -/
def rawColumns (l : Line) : List Char :=
  l.rawText.toList ++ List.replicate (rawWidth - l.rawText.length) ' '

/-- The columns of the raw words have a fixed width. -/
theorem length_rawColumns {l : Line} (h : l.rawText.length ≤ rawWidth) :
    l.rawColumns.length = rawWidth := by
  rw [rawColumns, List.length_append, List.length_replicate, String.length_toList]
  omega

/-- The columns of a line, one after the other. -/
theorem toList_render (l : Line) :
    l.render.toList = Hex.Style.listingAddress.write l.address
      ++ ':' :: ' ' :: (l.rawColumns ++ ' ' :: l.instruction.text.toList) := by
  simp [render, rawColumns, Hex.Style.render]

/-- What stands in front of the colon. -/
theorem takeWhile_render (l : Line) :
    l.render.toList.takeWhile (· != ':') = Hex.Style.listingAddress.write l.address := by
  rw [toList_render, List.takeWhile_append_of_pos (ne_of_notMem (Hex.colon_notMem_write _ _)),
    List.takeWhile_cons_of_neg (by decide), List.append_nil]

/-- What stands behind the colon and a blank. -/
theorem drop_dropWhile_render (l : Line) :
    (l.render.toList.dropWhile (· != ':')).drop 2
      = l.rawColumns ++ ' ' :: l.instruction.text.toList := by
  rw [toList_render, List.dropWhile_append_of_pos (ne_of_notMem (Hex.colon_notMem_write _ _)),
    List.dropWhile_cons_of_neg (by decide)]
  rfl

/-- **The instruction stands behind the columns** of the raw words, if these have room
there. -/
theorem instruction_of_render {l : Line} (h : l.rawText.length ≤ rawWidth) :
    (l.render.toList.dropWhile (· != ':')).drop (rawWidth + 3) = l.instruction.text.toList := by
  rw [show rawWidth + 3 = 2 + (rawWidth + 1) by omega, ← List.drop_drop, drop_dropWhile_render,
    ← List.drop_drop, List.drop_left' (length_rawColumns h), List.drop_one, List.tail_cons]

/-- **The mnemonic of a line** whose raw words have room in their columns. -/
theorem mnemonicIn_render {l : Line} (h : l.rawText.length ≤ rawWidth) :
    mnemonicIn l.render = l.instruction.opcode.mnemonic := by
  obtain ⟨rest, h_text, h_rest⟩ := l.instruction.text_eq
  rw [mnemonicIn, instruction_of_render h, h_text,
    List.takeWhile_append_of_pos (ne_of_notMem (Opcode.space_notMem_mnemonic _)), h_rest,
    List.append_nil, String.ofList_toList]

end Line

namespace Listing

/-- The characters of source text for the operations that the lines of a listing name. -/
def readBack? (lines : List String) : Option String :=
  (lines.mapM Line.opcodeIn?).map fun ops => String.ofList (ops.map Opcode.symbol)

example : readBack? ["0000: 00     INC", "0001: 06 04  JZ 4  ; -> 0x006",
    "0003: 01     DEC", "0004: 07 04  JMP 4  ; -> 0x001"] = some "+[-]" := by
  decide +kernel

section Lines

variable {code : Array UInt8} {capacity a : ℤ}

/-- An instruction has at most two words, which have room in their columns. -/
theorem rawText_lineAt : (lineAt code capacity a).rawText.length ≤ Line.rawWidth := by
  have h_blank : " ".length = 1 := rfl
  have h_byte := Hex.length_listingByte
  rw [Line.rawText, lineAt]
  -- one word for a command, two with a blank between them for a jump
  cases Instruction.decode code capacity a with
  | plain c =>
    rw [show (Instruction.plain c).size = 1 from rfl]
    simp [List.range_succ, h_byte, Line.rawWidth]
  | jz distance target | jmp distance target =>
    simp only [Instruction.size, Instruction.opcode, Opcode.size]
    simp [List.range_succ, String.intercalate_cons_cons, h_byte, h_blank, Line.rawWidth]

/-- The text of a line names its operation. -/
theorem opcodeIn?_render :
    Line.opcodeIn? (lineAt code capacity a).render
      = some (lineAt code capacity a).instruction.opcode := by
  rw [Line.opcodeIn?, Line.mnemonicIn_render rawText_lineAt, Opcode.ofMnemonic?_mnemonic]

/-- What is listed at an address is the operation of the word there. -/
theorem opcode_lineAt :
    (lineAt code capacity a).instruction.opcode = Opcode.ofWord (wordAt code a) := by
  rw [lineAt, Instruction.decode]
  split <;> simp_all [Instruction.opcode]

/-- Lines are read back one by one. -/
theorem readBack?_lineAt (addresses : List ℤ) :
    readBack? ((addresses.map (lineAt code capacity)).map Line.render)
      = some (String.ofList
        (addresses.map fun a => (Opcode.ofWord (wordAt code a)).symbol)) := by
  have h_all : ((addresses.map (lineAt code capacity)).map Line.render).mapM Line.opcodeIn?
      = some (addresses.map fun a => Opcode.ofWord (wordAt code a)) := by
    induction addresses with
    | nil => rfl
    | cons a rest ih =>
      simp only [List.map_cons, List.mapM_cons, ih, opcodeIn?_render, opcode_lineAt]
      rfl
  rw [readBack?, h_all, Option.map_some, List.map_map]
  rfl

end Lines

theorem wordAt_natCast {code : Array UInt8} {a : ℕ} (h : a < code.size) :
    wordAt code a = code.getD a 0 := by
  rw [wordAt, Int.emod_eq_of_lt (by omega) (by omega), Int.toNat_natCast]

end Listing

/-! ### The listing of a memory -/

namespace Memory

/-- The mask of the size cuts an address off as the memory wraps it. -/
theorem and_size_sub_one (m : Memory) (address : ℤ) :
    Bits.and address ((m.size : ℤ) - 1) = (m.wrap address : ℤ) := by
  obtain ⟨w, h_fits⟩ := m.fits
  have h_size : m.size = 1 <<< w.bits := h_fits
  have h_pos := m.size_pos
  have h_mask : (m.size : ℤ) - (1 : ℤ) = ((1 <<< w.bits - 1 : ℕ) : ℤ) := by omega
  rw [m.wrap_eq_emod, h_mask, Bits.and_ones, ← h_size]

/-- A listing of the memory reads the byte that an address names. -/
theorem wordAt_cells (m : Memory) (address : ℤ) :
    Listing.wordAt m.cells address = m.read (m.wrap address) := by
  have h_wrap : (address % (m.cells.size : ℤ)).toNat = m.wrap address := by
    have h_value : (m.wrap address : ℤ) = address % (m.cells.size : ℤ) := m.wrap_eq_emod address
    omega
  rw [Listing.wordAt, h_wrap, read]

end Memory

/-! ### The listing of an image -/

namespace Image

open Source

variable {image : Array UInt8}

/-- The operations met on the walk from an address on. -/
def opcodesFrom (image : Array UInt8) (address : ℕ) : List Opcode :=
  (starts image address).map fun s => Opcode.ofWord (image.getD s 0)

/-- The walk meets the operation of a word, and then those behind it. -/
theorem opcodesFrom_of_getElem? {a : ℕ} {w : UInt8} (h : image[a]? = some w) :
    opcodesFrom image a
      = Opcode.ofWord w :: opcodesFrom image (a + (Opcode.ofWord w).size) := by
  rw [opcodesFrom, starts_of_getElem? h, List.map_cons, Array.getD_eq_getD_getElem?, h]
  rfl

/-- At the end the walk meets nothing more. -/
theorem opcodesFrom_size (image : Array UInt8) : opcodesFrom image image.size = [] := by
  rw [opcodesFrom, starts_size]
  rfl

/-- The walk stops inside the image. -/
theorem lt_of_mem_starts {a s : ℕ} (h : s ∈ starts image a) : s < image.size := by
  fun_induction starts image a with
  | case1 a h_lt ih =>
    rcases List.mem_cons.mp h with rfl | h
    · exact h_lt
    · exact ih h
  | case2 => cases h

/-- **The lines of a listing** from an address on are those of the instructions there. -/
theorem toList_linesFrom (capacity : ℤ) (before : Array Line) (a : ℕ) :
    (Listing.linesFrom image capacity image.size before a).toList
      = before.toList ++ (starts image a).map fun s : ℕ => Listing.lineAt image capacity s := by
  fun_induction starts image a generalizing before with
  | case1 a h_lt ih =>
    have h_size : (Listing.lineAt image capacity a).instruction.size
        = (Opcode.ofWord image[a]).size := by
      rw [Instruction.size, Listing.opcode_lineAt, Listing.wordAt_natCast h_lt,
        Array.getD_eq_getD_getElem?, Array.getElem?_eq_getElem h_lt, Option.getD_some]
    -- the next line is that of the word here, and the walks go on at the same address
    rw [Listing.linesFrom, if_pos (Int.ofNat_lt.mpr h_lt)]
    simp only [h_size]
    rw [← Int.natCast_add, ih, Array.toList_push, List.append_assoc]
    rfl
  | case2 a h_end =>
    rw [Listing.linesFrom, if_neg (fun h => h_end (Int.ofNat_lt.mp h)), List.map_nil,
      List.append_nil]

/-- **Reading back the listing of an image.** There is one line for each instruction met on
the walk through the image, and the mnemonics name the operations. -/
theorem lines_readBack (image : Array UInt8) (capacity : ℤ) :
    ∃ ls, Listing.lines image 0 image.size capacity = some ls ∧
      ls.toList = ((starts image 0).map fun s : ℕ => Listing.lineAt image capacity s) ∧
      Listing.readBack? (ls.toList.map Line.render)
        = some (String.ofList ((opcodesFrom image 0).map Opcode.symbol)) := by
  have h_some : ¬ (image.isEmpty ∧ (0 : ℤ) < image.size) := by
    rintro ⟨h_empty, h_pos⟩
    rw [Array.isEmpty_iff_size_eq_zero] at h_empty
    omega
  have h_lines : (Listing.linesFrom image capacity image.size #[] 0).toList
      = (starts image 0).map fun s : ℕ => Listing.lineAt image capacity s :=
    toList_linesFrom capacity #[] 0
  -- no stop of the walk is behind the end, so no address repeats
  have h_words : ∀ s ∈ starts image 0,
      (Opcode.ofWord (Listing.wordAt image s)).symbol
        = (Opcode.ofWord (image.getD s 0)).symbol := by
    intro s h_mem
    rw [Listing.wordAt_natCast (lt_of_mem_starts h_mem)]
  refine ⟨_, if_neg h_some, h_lines, ?_⟩
  calc Listing.readBack?
        ((Listing.linesFrom image capacity image.size #[] 0).toList.map Line.render)
      = Listing.readBack? ((((starts image 0).map fun s : ℕ => (s : ℤ)).map
          (Listing.lineAt image capacity)).map Line.render) := by
        simp only [h_lines, List.map_map]
        rfl
    _ = some (String.ofList ((starts image 0).map fun s : ℕ =>
          (Opcode.ofWord (Listing.wordAt image s)).symbol)) := by
        rw [Listing.readBack?_lineAt, List.map_map]
        rfl
    _ = some (String.ofList ((opcodesFrom image 0).map Opcode.symbol)) := by
        rw [List.map_congr_left h_words, opcodesFrom, List.map_map]
        rfl

/-- **The operations left** in the image of a text at the offset of a position are those
of the text from there on. -/
theorem Carries.opcodesFrom_offset {text : List Char} {p : Program} {i : ℕ}
    (h : Carries image text p) (h_le : i ≤ text.length) :
    opcodesFrom image (offset text i) = operations (text.drop i) := by
  induction h_le using Nat.decreasingInduction with
  | self =>
    rw [← h.size, opcodesFrom_size, List.drop_length]
    rfl
  | of_succ i h_lt ih =>
    rw [List.drop_eq_getElem_cons h_lt]
    -- a comment has no words and no operation; a command has both
    cases h_op : opcodeAt? text i with
    | none =>
      have h_char : Opcode.ofSymbol? text[i] = none := by
        rwa [opcodeAt?, List.getElem?_eq_getElem h_lt] at h_op
      rw [← offset_comment h_lt h_op, ih, operations, operations,
        List.filterMap_cons_none h_char]
    | some op =>
      have h_char : Opcode.ofSymbol? text[i] = some op := by
        rwa [opcodeAt?, List.getElem?_eq_getElem h_lt] at h_op
      rw [opcodesFrom_of_getElem? (h.word h_op), Opcode.ofWord_word, ← offset_succ h_op, ih,
        operations_cons h_char]

end Image

end TapeProcessor
