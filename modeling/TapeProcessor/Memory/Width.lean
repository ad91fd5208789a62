import TapeProcessor.Bits
import TapeProcessor.Diagnostic

/-!
# Sizes of memories

An address register is as wide as its memory needs, and arithmetic on it wraps at
the size of the memory, so a memory holds `2 ^ k` words with `k` at least one.

* `Width` is such a `k`; `Width.size` is the number of words.
* `Width.ofSize` accepts exactly those sizes (`Width.ofSize_eq_ok_iff`) and
  otherwise reports the size it was given.
* `Geometry` is the pair of widths of a machine; when both sizes are unusable the
  one of the code memory is reported.
-/

namespace TapeProcessor

/-- The width of an address register. -/
structure Width where
  bits : Nat
  bits_pos : 0 < bits
  deriving DecidableEq, Repr

/-- A requested memory size that no address register fits. -/
structure SizeError where
  size : Int
  deriving DecidableEq, Repr

/-- The text of the refusal. -/
def SizeError.message (e : SizeError) : String :=
  "memory size must be a power of two >= 2, got " ++ toString e.size

/-- An unusable size is an argument out of its range. -/
def SizeError.kind (_ : SizeError) : ErrorKind := .value

namespace Width

/-- The width of one bit more. -/
def succ (bits : Nat) : Width := ⟨bits + 1, bits.succ_pos⟩

/-- The number of words of a memory with addresses of this width: the power of two
with that exponent. -/
def size (w : Width) : Nat := 1 <<< w.bits

theorem two_le_size (w : Width) : 2 ≤ w.size := by
  rw [size, Nat.one_shiftLeft]
  calc 2 = 2 ^ 1 := rfl
    _ ≤ 2 ^ w.bits := Nat.pow_le_pow_right (by omega) w.bits_pos

@[simp] theorem log2_size (w : Width) : w.size.log2 = w.bits := by
  rw [size, Nat.one_shiftLeft, Nat.log2_two_pow]

/-- A size is usable if it is at least two and shares no bit with its
predecessor; its width is then the place of its only bit. -/
def ofSize (size : Int) : Except SizeError Width :=
  if h_usable : 2 ≤ size ∧ Bits.and size (size - 1) = 0 then
    .ok ⟨size.toNat.log2, (Nat.le_log2 (by omega)).2 (by omega)⟩
  else .error ⟨size⟩

/-- A natural number shares no bit with its predecessor exactly if it has only
one bit. -/
private theorem and_pred_eq_zero_iff {n : Nat} (h_two : 2 ≤ n) :
    n &&& (n - 1) = 0 ↔ 1 <<< n.log2 = n := by
  rw [Nat.one_shiftLeft]
  have h_nonzero : n ≠ 0 := by omega
  have h_low : 2 ^ n.log2 ≤ n := (Nat.le_log2 h_nonzero).1 (Nat.le_refl _)
  have h_high : n < 2 ^ (n.log2 + 1) := (Nat.log2_lt h_nonzero).1 (Nat.lt_succ_self _)
  constructor
  · intro h_none
    refine Nat.le_antisymm h_low (Nat.le_of_not_lt fun h_above => ?_)
    -- Above its leading power, `n` and `n - 1` both have the leading bit.
    have h_top (m : Nat) (h_from : 2 ^ n.log2 ≤ m) (h_to : m < 2 ^ (n.log2 + 1)) :
        m.testBit n.log2 = true := by
      rw [Nat.testBit_eq_decide_div_mod_eq]
      have h_one : m / 2 ^ n.log2 = 1 := by
        refine Nat.div_eq_of_lt_le (by omega) ?_
        rw [Nat.pow_succ] at h_to
        omega
      simp [h_one]
    have h_shared : (n &&& (n - 1)).testBit n.log2 = true := by
      rw [Nat.testBit_and, h_top n h_low h_high, h_top (n - 1) (by omega) (by omega)]
      rfl
    rw [h_none] at h_shared
    simp at h_shared
  · intro h_power
    have h_pred : n - 1 = 2 ^ n.log2 - 1 := by omega
    rw [h_pred, Nat.and_two_pow_sub_one_eq_mod, h_power]
    exact Nat.mod_self n

/-- The bits that a size shares with its predecessor, as natural numbers. -/
private theorem and_pred_cast {n : Nat} (h_two : 2 ≤ n) :
    Bits.and n ((n : Int) - 1) = ((n &&& (n - 1) : Nat) : Int) := by
  have h_cast : (n : Int) - 1 = ((n - 1 : Nat) : Int) := by omega
  rw [h_cast]
  rfl

/-- **Exactly the powers of two from two upward are sizes.** -/
theorem ofSize_eq_ok_iff {size : Int} {w : Width} : ofSize size = .ok w ↔ size = w.size := by
  constructor
  · intro h_accepted
    rw [ofSize] at h_accepted
    split at h_accepted
    case isFalse => cases h_accepted
    case isTrue h_usable =>
      cases h_accepted
      obtain ⟨n, rfl⟩ := Int.eq_ofNat_of_zero_le (show 0 ≤ size by omega)
      have h_two : 2 ≤ n := by omega
      have h_single := (and_pred_eq_zero_iff h_two).1 (by
        have h_zero := h_usable.2
        rw [and_pred_cast h_two] at h_zero
        omega)
      simp only [Width.size, Int.toNat_natCast]
      omega
  · rintro rfl
    have h_two := w.two_le_size
    have h_single := (and_pred_eq_zero_iff h_two).2 (by rw [log2_size, size])
    have h_usable : 2 ≤ (w.size : Int) ∧ Bits.and w.size ((w.size : Int) - 1) = 0 := by
      refine ⟨by omega, ?_⟩
      rw [and_pred_cast h_two, h_single]
      rfl
    simp only [ofSize, h_usable, and_self, dite_true, Int.toNat_natCast, log2_size]

end Width

/-- The widths of the two memories of a machine. -/
structure Geometry where
  code : Width
  data : Width
  deriving DecidableEq, Repr

namespace Geometry

/-- The words of code memory a machine has unless asked otherwise. -/
def defaultCodeSize : Nat := 1024

/-- The cells of data memory a machine has unless asked otherwise. -/
def defaultDataSize : Nat := 32768

/-- The geometry with the given numbers of words and cells. -/
def ofSizes (codeSize dataSize : Int) : Except SizeError Geometry := do
  let code ← Width.ofSize codeSize
  let data ← Width.ofSize dataSize
  return ⟨code, data⟩

end Geometry

end TapeProcessor
