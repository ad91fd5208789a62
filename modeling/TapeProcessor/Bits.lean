/-!
# Conjunction of integers as bit patterns

Addresses and bytes reach the machine as integers of any size and sign. A
negative integer stands for its two's-complement pattern, which has a one in
every place beyond some point; cutting such a pattern down to the width of a
register is a conjunction with a mask of low ones.

* `Bits.and` is that conjunction, on integers of any size.
* `Bits.and_ones` says what a mask of `k` low ones does: it takes the remainder
  modulo the power of two above the mask, which is natural also for a negative
  integer.
* `Bits.toByte` is the case `k = 8`, the byte written to a memory or a channel.
-/

namespace TapeProcessor.Bits

/-- The conjunction of two's-complement patterns. The pattern of `-(n + 1)` is
the complement of the pattern of `n`, so a negative operand removes bits from a
natural one, and two negative operands are joined below their complement. -/
def and : Int → Int → Int
  | .ofNat m, .ofNat n => .ofNat (m &&& n)
  | .ofNat m, .negSucc n => .ofNat (m ^^^ (m &&& n))
  | .negSucc m, .ofNat n => .ofNat (n ^^^ (n &&& m))
  | .negSucc m, .negSucc n => .negSucc (m ||| n)

/-- Flipping the bits of `n` below place `k` counts down from the mask of those
places. -/
private theorem ones_xor_and (n k : Nat) :
    (1 <<< k - 1) ^^^ ((1 <<< k - 1) &&& n) = 1 <<< k - (n % 1 <<< k + 1) := by
  rw [Nat.one_shiftLeft, Nat.and_comm, Nat.and_two_pow_sub_one_eq_mod]
  refine Nat.eq_of_testBit_eq fun i => ?_
  rw [Nat.testBit_two_pow_sub_succ (Nat.mod_lt n (Nat.two_pow_pos k)), Nat.testBit_xor,
    Nat.testBit_two_pow_sub_one, Nat.testBit_mod_two_pow]
  -- Below place `k` both sides flip the bit; from there on both are zero.
  cases decide (i < k) <;> simp

/-- **A mask of low ones is a remainder.** -/
theorem and_ones (x : Int) (k : Nat) : and x ((1 <<< k - 1 : Nat) : Int) = x % (1 <<< k : Nat) := by
  have h_pos : 0 < 1 <<< k := by
    rw [Nat.one_shiftLeft]
    exact Nat.two_pow_pos k
  cases x with
  | ofNat m =>
    show ((m &&& (1 <<< k - 1) : Nat) : Int) = (m : Int) % (1 <<< k : Nat)
    rw [Nat.one_shiftLeft, Nat.and_two_pow_sub_one_eq_mod]
    exact Int.natCast_emod m _
  | negSucc m =>
    show (((1 <<< k - 1) ^^^ ((1 <<< k - 1) &&& m) : Nat) : Int) = _
    rw [ones_xor_and, Int.negSucc_emod m (by exact_mod_cast h_pos)]
    have h_small : m % 1 <<< k < 1 <<< k := Nat.mod_lt m h_pos
    have h_cast : (m : Int) % (1 <<< k : Nat) = ((m % 1 <<< k : Nat) : Int) :=
      (Int.natCast_emod m _).symm
    rw [h_cast]
    omega

/-- The low eight bits of an integer. -/
def toByte (x : Int) : UInt8 := UInt8.ofNat (and x 255).toNat

/-- Low bits are a remainder, also of a negative integer. -/
theorem toNat_toByte (x : Int) : ((toByte x).toNat : Int) = x % 256 := by
  have h_low : and x 255 = x % 256 := and_ones x 8
  simp only [toByte, h_low, UInt8.toNat_ofNat']
  omega

@[simp] theorem toByte_toNat (b : UInt8) : toByte (b.toNat : Int) = b := by
  have h_same := toNat_toByte (b.toNat : Int)
  have h_bound := b.toNat_lt
  exact UInt8.toNat_inj.mp (by omega)

end TapeProcessor.Bits
