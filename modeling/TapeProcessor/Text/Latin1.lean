/-!
# Characters as single bytes

The channels of the machine carry bytes, its users type and read text. The first
256 code points and the 256 bytes correspond one to one; a character beyond them
has no byte and is sent as a question mark.

* `Latin1.encode` and `Latin1.decode` go from text to bytes and back.
* `Latin1.encode_decode`: every byte string is the encoding of its own text, which has
  a character for each byte (`Latin1.length_decode`).
-/

namespace TapeProcessor.Latin1

/-- The byte sent for a character. -/
def byteOf (c : Char) : UInt8 := if c.toNat < 256 then UInt8.ofNat c.toNat else 63

/-- The character shown for a byte. -/
def charOf (b : UInt8) : Char := Char.ofNat b.toNat

/-- The bytes sent for a text, one for each character. -/
def encode (text : String) : List UInt8 := text.toList.map byteOf

/-- The text shown for a byte string, one character for each byte. -/
def decode (bytes : Array UInt8) : String := String.ofList (bytes.toList.map charOf)

/-- A byte is the code point of its character. -/
theorem toNat_charOf (b : UInt8) : (charOf b).toNat = b.toNat := by
  have h_bound := b.toNat_lt
  have h_valid : b.toNat.isValidChar := Or.inl (by omega)
  have h_same : charOf b = Char.ofNatAux b.toNat h_valid := dif_pos h_valid
  rw [h_same]
  rfl

/-- The character of a byte is sent as that byte. -/
@[simp] theorem byteOf_charOf (b : UInt8) : byteOf (charOf b) = b := by
  have h_bound := b.toNat_lt
  simp [byteOf, toNat_charOf, h_bound]

/-- A text that was received is sent as what was received. -/
theorem encode_decode (bytes : Array UInt8) : encode (decode bytes) = bytes.toList := by
  simp [encode, decode, Function.comp_def]

@[simp] theorem length_decode (bytes : Array UInt8) : (decode bytes).length = bytes.size := by
  simp [decode]

end TapeProcessor.Latin1
