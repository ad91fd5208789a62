import TapeProcessor.Proofs.Image.Listing

/-!
# What the text of a listing says

A listing is told apart into its columns, and each column is read back, so that what is
proved about a listing can be said of the text that is printed.

* `Hex.Style.read?` reads a numeral of any style, with its sign and its marker
  (`Hex.Style.read?_write`).
* `Instruction.opcodeIn?`, `Instruction.distanceIn?` and `Instruction.targetIn?` read the
  text of an instruction: its mnemonic, the distance in decimal, and the address behind
  the arrow.
* `Line.addressIn?` and `Line.wordsIn?` read the columns in front of the instruction, and
  `Line.targetIn?` the target in a whole line.

Each of them returns what the line was made from: an address of any size and sign, the raw
words, and for a jump its distance and target.
-/

namespace TapeProcessor

/-! ### Numerals -/

/-- The number that a row of decimal digits denotes. -/
def decimalValue? (digits : List Char) : Option ℕ :=
  if digits ≠ [] ∧ digits.all Char.isDigit then some (Nat.ofDigitChars 10 digits 0) else none

/-- A decimal numeral reads back. -/
theorem decimalValue?_toDigits (n : ℕ) : decimalValue? (Nat.toDigits 10 n) = some n := by
  have h_digits : (Nat.toDigits 10 n).all Char.isDigit = true :=
    List.all_eq_true.mpr fun _ => Nat.isDigit_of_mem_toDigits (by decide) (by decide)
  rw [decimalValue?, if_pos ⟨Nat.toDigits_ne_nil, h_digits⟩, Nat.ofDigitChars_ten_toDigits]

namespace Hex

namespace Style

/-- The number that digits denote, behind the marker if the style has one. -/
def magnitude? (s : Style) (l : List Char) : Option ℕ :=
  if s.marked then if l.take 2 = ['0', 'x'] then value? (l.drop 2) else none else value? l

/-- The integer that a numeral of the style denotes. -/
def read? (s : Style) (l : List Char) : Option ℤ :=
  if l.head? = some '-' then (s.magnitude? l.tail).map fun n : ℕ => -(n : ℤ)
  else (s.magnitude? l).map fun n : ℕ => (n : ℤ)

end Style

/-- Zeros in front make no difference to a numeral. -/
theorem value?_zeros_digits (count : ℕ) (letters : Case) (n : ℕ) :
    value? (List.replicate count '0' ++ digits letters n) = some n := by
  have h_digits : digits letters n ≠ [] := by
    cases letters <;> simp [digits, Nat.toDigits_ne_nil]
  rw [value?, if_neg (by simp [h_digits]), valueFrom?_zeros, valueFrom?_digits]

namespace Style

/-- The number behind the marker, if there is one, and zeros. -/
theorem magnitude?_digits (s : Style) (count n : ℕ) :
    s.magnitude? ((if s.marked then ['0', 'x'] else [])
      ++ (List.replicate count '0' ++ digits s.letters n)) = some n := by
  have h_value := value?_zeros_digits count s.letters n
  unfold magnitude?
  cases s.marked with
  | true => exact h_value
  | false => exact h_value

/-- A number that can be read is not written with a sign. -/
theorem head?_ne_of_magnitude? {s : Style} {l : List Char} {n : ℕ} (h : s.magnitude? l = some n) :
    l.head? ≠ some '-' := by
  intro h_head
  obtain ⟨rest, rfl⟩ := List.head?_eq_some_iff.mp h_head
  unfold magnitude? at h
  -- neither the marker nor a digit is a sign
  split at h
  · rw [if_neg (by simp)] at h
    cases h
  · cases h

/-- **A numeral reads back**, whatever its style, its size and its sign. -/
theorem read?_write (s : Style) (n : ℤ) : s.read? (s.write n) = some n := by
  unfold write
  extract_lets sign marker body zeros
  have h_digits : s.magnitude? (marker ++ (List.replicate zeros '0' ++ body)) = some n.natAbs :=
    s.magnitude?_digits zeros n.natAbs
  -- a sign is told from the first digit, which is none
  have h_plain := head?_ne_of_magnitude? h_digits
  rw [List.append_assoc, List.append_assoc]
  generalize marker ++ (List.replicate zeros '0' ++ body) = numeral at *
  by_cases h_neg : n < 0
  · have h_sign : sign = ['-'] := if_pos h_neg
    rw [h_sign, read?, List.singleton_append, List.head?_cons, if_pos rfl, List.tail_cons,
      h_digits]
    exact congrArg some (show -(n.natAbs : ℤ) = n by omega)
  · have h_sign : sign = [] := if_neg h_neg
    rw [h_sign, read?, List.nil_append, if_neg h_plain, h_digits]
    exact congrArg some (show (n.natAbs : ℤ) = n by omega)

end Style

/-! ### Raw words -/

/-- A raw word is written with its two digits. -/
theorem digitValue?_listingByte (w : UInt8) :
    (Style.listingByte.write w.toNat).map digitValue?
      = [some (w.toNat / 16), some (w.toNat % 16)] := by
  -- this is checked for all bytes
  have h_all : ∀ n : Fin 256, (Style.listingByte.write n.val).map digitValue?
      = [some (n.val / 16), some (n.val % 16)] := by
    decide +kernel
  exact h_all ⟨w.toNat, w.toNat_lt⟩

/-- A raw word is two digits. -/
theorem exists_listingByte (w : UInt8) :
    ∃ high low, Style.listingByte.write w.toNat = [high, low] ∧
      digitValue? high = some (w.toNat / 16) ∧ digitValue? low = some (w.toNat % 16) := by
  have h_values := digitValue?_listingByte w
  match h_write : Style.listingByte.write w.toNat with
  | [high, low] =>
    rw [h_write] at h_values
    simp only [List.map_cons, List.map_nil, List.cons.injEq, and_true] at h_values
    exact ⟨high, low, rfl, h_values.1, h_values.2⟩
  -- a row of another length has no two values
  | [] | [_] | _ :: _ :: _ :: _ => rw [h_write] at h_values; simp at h_values

/-- **Raw words read back.** -/
theorem decodePairs?_listingBytes (before : Array UInt8) (words : List UInt8) :
    (decodePairs? before (words.flatMap fun w => Style.listingByte.write w.toNat)).map
        Array.toList
      = some (before.toList ++ words) := by
  induction words generalizing before with
  | nil => simp [decodePairs?]
  | cons w rest ih =>
    obtain ⟨high, low, h_write, h_high, h_low⟩ := exists_listingByte w
    -- the two digits make up the word again
    have h_word : UInt8.ofNat (16 * (w.toNat / 16) + w.toNat % 16) = w := by
      rw [Nat.div_add_mod, UInt8.ofNat_toNat]
    rw [List.flatMap_cons, h_write, List.cons_append, List.cons_append, List.nil_append,
      decodePairs?, h_high, h_low]
    dsimp only
    rw [h_word, ih, Array.toList_push, List.append_assoc, List.singleton_append]

/-- There is no blank in a raw word. -/
theorem blank_notMem_listingByte (w : UInt8) : ' ' ∉ Style.listingByte.write w.toNat := by
  obtain ⟨high, low, h_write, h_high, h_low⟩ := exists_listingByte w
  rw [h_write, List.mem_cons, List.mem_singleton]
  rintro (rfl | rfl)
  · cases h_high
  · cases h_low

end Hex

/-! ### The text of an instruction -/

namespace Instruction

/-- The operation that the text of an instruction names. -/
def opcodeIn? (text : String) : Option Opcode :=
  Opcode.ofMnemonic? (String.ofList (text.toList.takeWhile (· != ' ')))

/-- The distance in the text of an instruction: the numeral behind the mnemonic. -/
def distanceIn? (text : String) : Option ℕ :=
  decimalValue? (((text.toList.dropWhile (· != ' ')).drop 1).takeWhile (· != ' '))

/-- The target in the text of an instruction: the address behind the arrow. -/
def targetIn? (text : String) : Option ℤ :=
  Hex.Style.shortAddress.read? ((text.toList.dropWhile (· != '>')).drop 2)

example : opcodeIn? "JZ 200  ; -> 0x009" = some .jz ∧ distanceIn? "JZ 200  ; -> 0x009" = some 200 ∧
    targetIn? "JZ 200  ; -> 0x009" = some 9 := by
  decide +kernel

/-- The distance of an instruction that jumps. -/
def distance? : Instruction → Option ℕ
  | plain _ => none
  | jz distance _ | jmp distance _ => some distance.toNat

/-- The target of an instruction that jumps. -/
def target? : Instruction → Option ℤ
  | plain _ => none
  | jz _ target | jmp _ target => some target

/-- The characters of a jump in a listing. -/
def jumpText (op : Opcode) (distance : UInt8) (target : ℤ) : List Char :=
  op.mnemonic.toList ++ ' ' :: (Nat.toDigits 10 distance.toNat
    ++ ' ' :: ' ' :: ';' :: ' ' :: '-' :: '>' :: ' ' :: Hex.Style.shortAddress.write target)

theorem toList_text_jz (distance : UInt8) (target : ℤ) :
    (jz distance target).text.toList = jumpText .jz distance target := by
  simp [text, opcode, jumpText, Hex.Style.render]

theorem toList_text_jmp (distance : UInt8) (target : ℤ) :
    (jmp distance target).text.toList = jumpText .jmp distance target := by
  simp [text, opcode, jumpText, Hex.Style.render]

section JumpText

variable {op : Opcode} {distance : UInt8} {target : ℤ}

/-- In decimal there are digits alone. -/
theorem notMem_decimal {n : ℕ} {other : Char} (h_other : other.isDigit = false) :
    other ∉ Nat.toDigits 10 n := by
  intro h_mem
  rw [Nat.isDigit_of_mem_toDigits (by decide) (by decide) h_mem] at h_other
  cases h_other

/-- There is no arrow in a mnemonic. -/
theorem arrow_notMem_mnemonic (op : Opcode) : '>' ∉ op.mnemonic.toList := by
  rcases op with c | _ | _
  · cases c <;> decide
  · decide
  · decide

/-- Behind the mnemonic and a blank stands the distance. -/
theorem distance_of_jumpText :
    decimalValue? ((((jumpText op distance target).dropWhile (· != ' ')).drop 1).takeWhile
      (· != ' ')) = some distance.toNat := by
  rw [jumpText, List.dropWhile_append_of_pos (ne_of_notMem op.space_notMem_mnemonic),
    List.dropWhile_cons_of_neg (by decide), List.drop_one, List.tail_cons,
    List.takeWhile_append_of_pos (ne_of_notMem (notMem_decimal (by decide))),
    List.takeWhile_cons_of_neg (by decide), List.append_nil, decimalValue?_toDigits]

/-- Behind the arrow and a blank stands the target. -/
theorem target_of_jumpText :
    Hex.Style.shortAddress.read? (((jumpText op distance target).dropWhile (· != '>')).drop 2)
      = some target := by
  have h_front : '>' ∉ op.mnemonic.toList ++ ' ' :: (Nat.toDigits 10 distance.toNat
      ++ [' ', ' ', ';', ' ', '-']) := by
    rw [List.mem_append, List.mem_cons, List.mem_append, not_or, not_or, not_or]
    exact ⟨arrow_notMem_mnemonic op, by decide, notMem_decimal (by decide), by decide⟩
  -- the mnemonic and the distance hold no arrow, so that it is the first one
  have h_split : jumpText op distance target
      = (op.mnemonic.toList ++ ' ' :: (Nat.toDigits 10 distance.toNat
        ++ [' ', ' ', ';', ' ', '-'])) ++ '>' :: ' ' :: Hex.Style.shortAddress.write target := by
    simp [jumpText]
  rw [h_split, List.dropWhile_append_of_pos (ne_of_notMem h_front),
    List.dropWhile_cons_of_neg (by decide)]
  exact Hex.Style.shortAddress.read?_write target

end JumpText

/-- **The mnemonic** names the operation. -/
theorem opcodeIn?_text (i : Instruction) : opcodeIn? i.text = some i.opcode := by
  obtain ⟨rest, h_text, h_rest⟩ := i.text_eq
  rw [opcodeIn?, h_text,
    List.takeWhile_append_of_pos (ne_of_notMem (Opcode.space_notMem_mnemonic _)), h_rest,
    List.append_nil, String.ofList_toList, Opcode.ofMnemonic?_mnemonic]

/-- **The distance that is printed** is that of the instruction. -/
theorem distanceIn?_text (i : Instruction) : distanceIn? i.text = i.distance? := by
  rw [distanceIn?]
  cases i with
  | plain c => cases c <;> rfl
  | jz distance target => rw [toList_text_jz, distance_of_jumpText, distance?]
  | jmp distance target => rw [toList_text_jmp, distance_of_jumpText, distance?]

/-- **The target that is printed** is that of the instruction. -/
theorem targetIn?_text (i : Instruction) : targetIn? i.text = i.target? := by
  rw [targetIn?]
  cases i with
  | plain c => cases c <;> rfl
  | jz distance target => rw [toList_text_jz, target_of_jumpText, target?]
  | jmp distance target => rw [toList_text_jmp, target_of_jumpText, target?]

end Instruction

/-! ### The text of a line -/

namespace Line

/-- The address in the text of a line: the numeral in front of the colon. -/
def addressIn? (text : String) : Option ℤ :=
  Hex.Style.listingAddress.read? (text.toList.takeWhile (· != ':'))

/-- The raw words in the text of a line: pairs of digits in the columns behind the colon. -/
def wordsIn? (text : String) : Option (List UInt8) :=
  (Hex.decodePairs? #[] ((((text.toList.dropWhile (· != ':')).drop 2).take rawWidth).filter
    (· != ' '))).map Array.toList

/-- The target in the text of a line. -/
def targetIn? (text : String) : Option ℤ :=
  Instruction.targetIn? (String.ofList ((text.toList.dropWhile (· != ':')).drop (rawWidth + 3)))

example : addressIn? "-001: 06 04  JZ 4  ; -> 0x004" = some (-1) ∧
    wordsIn? "-001: 06 04  JZ 4  ; -> 0x004" = some [6, 4] ∧
    targetIn? "-001: 06 04  JZ 4  ; -> 0x004" = some 4 := by
  decide +kernel

/-- **The address of a line.** -/
theorem addressIn?_render (l : Line) : addressIn? l.render = some l.address := by
  rw [addressIn?, takeWhile_render, Hex.Style.read?_write]

/-- Without the blanks the columns of the raw words hold their digits. -/
theorem filter_rawColumns (l : Line) :
    l.rawColumns.filter (· != ' ')
      = l.words.flatMap fun w => Hex.Style.listingByte.write w.toNat := by
  have h_blanks (count : ℕ) : (List.replicate count ' ').filter (· != ' ') = [] := by
    simp
  have h_digits (w : UInt8) : (Hex.Style.listingByte.write w.toNat).filter (· != ' ')
      = Hex.Style.listingByte.write w.toNat :=
    List.filter_eq_self.mpr (ne_of_notMem (Hex.blank_notMem_listingByte w))
  rw [rawColumns, List.filter_append, h_blanks, List.append_nil, rawText]
  -- the words are joined by single blanks, and filled up with others behind
  induction l.words with
  | nil => rfl
  | cons w rest ih =>
    cases rest with
    | nil => simp [Hex.Style.render, h_digits]
    | cons next rest =>
      rw [List.map_cons] at ih
      rw [List.map_cons, List.map_cons, String.intercalate_cons_cons, String.toList_append,
        String.toList_append, List.filter_append, List.filter_append, ih, List.flatMap_cons,
        Hex.Style.render, String.toList_ofList, h_digits]
      simp

/-- **The raw words of a line** that has room for them. -/
theorem wordsIn?_render {l : Line} (h : l.rawText.length ≤ rawWidth) :
    wordsIn? l.render = some l.words := by
  rw [wordsIn?, drop_dropWhile_render, List.take_left' (length_rawColumns h), filter_rawColumns,
    Hex.decodePairs?_listingBytes, Array.toList_empty, List.nil_append]

/-- **The target of a line** that has room for its raw words. -/
theorem targetIn?_render {l : Line} (h : l.rawText.length ≤ rawWidth) :
    targetIn? l.render = l.instruction.target? := by
  rw [targetIn?, instruction_of_render h, String.ofList_toList, Instruction.targetIn?_text]

end Line

end TapeProcessor
