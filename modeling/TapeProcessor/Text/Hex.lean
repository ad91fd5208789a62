/-!
# Hexadecimal numerals

Registers, addresses and bytes are written in base sixteen, in a few styles that
differ in the case of the letters, in a leading `0x` and in the least width.

* `Hex.Style.write`: an integer of any size in a given style. A sign and the
  marker `0x` count in the width, and zeros fill the gap behind them.
* `Hex.value?`: the number that a row of digits denotes, in either case.
* `Hex.valueFrom?_digits`: reading the digits of a number returns the number.
* `Hex.encodeBytes` and `Hex.decodeBytes?`: byte strings as pairs of digits.
-/

namespace TapeProcessor.Hex

/-- The case of the digits above nine. -/
inductive Case
  | lower
  | upper
  deriving DecidableEq, Repr

/-- One digit in the given case; `d` is below sixteen. -/
def digit (letters : Case) (d : Nat) : Char :=
  match letters with
  | .lower => d.digitChar
  | .upper => d.digitChar.toUpper

/-- The digits of a natural number, the most significant first. -/
def digits (letters : Case) (n : Nat) : List Char :=
  match letters with
  | .lower => Nat.toDigits 16 n
  | .upper => (Nat.toDigits 16 n).map Char.toUpper

/-- How a numeral is laid out: the case of its letters, whether it is marked with
`0x`, and the number of characters it occupies at least. -/
structure Style where
  letters : Case
  marked : Bool
  width : Nat

namespace Style

/-- The characters of an integer: sign, marker, zeros up to the width, digits. -/
def write (s : Style) (n : Int) : List Char :=
  let sign := if n < 0 then ['-'] else []
  let marker := if s.marked then ['0', 'x'] else []
  let body := digits s.letters n.natAbs
  let zeros := s.width - (sign.length + marker.length + body.length)
  sign ++ marker ++ List.replicate zeros '0' ++ body

/-- The text of an integer. -/
def render (s : Style) (n : Int) : String := String.ofList (s.write n)

/-- An instruction address in a register dump or a jump target: `0x01f`. -/
def shortAddress : Style := ⟨.lower, true, 5⟩

/-- A data address in a register dump: `0x01ff`. -/
def wideAddress : Style := ⟨.lower, true, 6⟩

/-- A byte in a register dump or a channel: `0x0f`. -/
def markedByte : Style := ⟨.lower, true, 4⟩

/-- The address that opens a line of a listing: `001F`. -/
def listingAddress : Style := ⟨.upper, false, 4⟩

/-- A raw word in a listing: `0F`. -/
def listingByte : Style := ⟨.upper, false, 2⟩

end Style

/-- The value of one digit in either case. -/
def digitValue? (c : Char) : Option Nat :=
  if '0' ≤ c ∧ c ≤ '9' then some (c.toNat - 48)
  else if 'a' ≤ c ∧ c ≤ 'f' then some (c.toNat - 87)
  else if 'A' ≤ c ∧ c ≤ 'F' then some (c.toNat - 55)
  else none

/-- Continues the numeral with value `n` by further digits. -/
def valueFrom? (n : Nat) : List Char → Option Nat
  | [] => some n
  | c :: rest => (digitValue? c).bind fun d => valueFrom? (16 * n + d) rest

/-- The number a row of digits denotes; `none` if it is empty or not all digits. -/
def value? (digits : List Char) : Option Nat :=
  if digits.isEmpty then none else valueFrom? 0 digits

/-! ### Byte strings -/

/-- The bytes in order, two lower-case digits each. -/
def encodeBytes (bytes : Array UInt8) : String :=
  bytes.foldl
    (fun text b => (text.push (digit .lower (b.toNat / 16))).push (digit .lower (b.toNat % 16))) ""

/-- Reads pairs of digits behind the bytes read so far. -/
def decodePairs? (before : Array UInt8) : List Char → Option (Array UInt8)
  | [] => some before
  | [_] => none
  | high :: low :: rest =>
    match digitValue? high, digitValue? low with
    | some h, some l => decodePairs? (before.push (UInt8.ofNat (16 * h + l))) rest
    | _, _ => none

/-- The bytes that pairs of digits denote; `none` for an odd or foreign character. -/
def decodeBytes? (text : String) : Option (Array UInt8) := decodePairs? #[] text.toList

/-! ### Reading what was written -/

theorem digitValue?_digitChar {d : Nat} (h_small : d < 16) : digitValue? d.digitChar = some d := by
  have h_check : ∀ e : Fin 16, digitValue? e.val.digitChar = some e.val := by decide
  exact h_check ⟨d, h_small⟩

theorem digitValue?_toUpper {d : Nat} (h_small : d < 16) :
    digitValue? d.digitChar.toUpper = some d := by
  have h_check : ∀ e : Fin 16, digitValue? e.val.digitChar.toUpper = some e.val := by decide
  exact h_check ⟨d, h_small⟩

theorem valueFrom?_append (n : Nat) (first second : List Char) :
    valueFrom? n (first ++ second) = (valueFrom? n first).bind (valueFrom? · second) := by
  induction first generalizing n with
  | nil => rfl
  | cons c rest ih =>
    simp only [List.cons_append, valueFrom?, ih, Option.bind_assoc]

/-- Leading zeros do not change the value. -/
theorem valueFrom?_zeros (count : Nat) (rest : List Char) :
    valueFrom? 0 (List.replicate count '0' ++ rest) = valueFrom? 0 rest := by
  induction count with
  | zero => rfl
  | succ count ih =>
    rw [List.replicate_succ, List.cons_append, valueFrom?]
    exact ih

private theorem valueFrom?_map_digits (f : Char → Char)
    (h_reads : ∀ d, d < 16 → digitValue? (f d.digitChar) = some d) (n : Nat) :
    valueFrom? 0 ((Nat.toDigits 16 n).map f) = some n := by
  induction n using Nat.strongRecOn with
  | ind n ih =>
    by_cases h_small : n < 16
    · simp [Nat.toDigits_of_lt_base h_small, valueFrom?, h_reads n h_small]
    · have h_split : Nat.toDigits 16 n = Nat.toDigits 16 (n / 16) ++ [(n % 16).digitChar] := by
        have h_pos : 0 < n / 16 := by omega
        have h_joined := Nat.toDigits_append_toDigits (show 1 < 16 by omega) h_pos
          (Nat.mod_lt n (show 0 < 16 by omega))
        rw [Nat.toDigits_of_lt_base (Nat.mod_lt n (show 0 < 16 by omega)),
          Nat.div_add_mod] at h_joined
        exact h_joined.symm
      have h_back := h_reads (n % 16) (Nat.mod_lt n (by omega))
      rw [h_split, List.map_append, valueFrom?_append, ih (n / 16) (by omega)]
      simp [valueFrom?, h_back]
      omega

/-- **Digits read back.** -/
theorem valueFrom?_digits (letters : Case) (n : Nat) :
    valueFrom? 0 (digits letters n) = some n := by
  cases letters with
  | lower => simpa [digits] using valueFrom?_map_digits id (fun _ => digitValue?_digitChar) n
  | upper => exact valueFrom?_map_digits Char.toUpper (fun _ => digitValue?_toUpper) n

end TapeProcessor.Hex
