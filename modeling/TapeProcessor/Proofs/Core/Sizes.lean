import Mathlib.Algebra.BigOperators.Group.List.Basic
import Mathlib.Data.Int.ModEq
import TapeProcessor.Core.Basic

/-!
# The sizes a machine may have, and the masks they make

A size is checked with one conjunction of bit patterns, and every register is cut down to
its memory with another. Neither says what it is for.

* `IsSize n`: the integer is a power of two and at least two. These are the sizes that are
  accepted, with the exponent as the width (`Width.ofSize_iff`), and a machine is made of
  two of them (`Core.exists_ofSizes_iff`); of two unusable sizes the first one is reported.
* The predecessor of a size is a mask that takes the floor remainder of any integer
  (`Width.and_pred_eq_fmod`). Remainders may be taken early, so a register that is masked
  after each of a row of updates holds the masked sum of them all (`Width.foldl_masked`).

`Core.sizes_and_masks` puts the two together for a machine that was made.
-/

namespace TapeProcessor

/-- A power of two that is no less than two. -/
def IsSize (n : ℤ) : Prop := ∃ k : ℕ, 1 ≤ k ∧ n = 2 ^ k

namespace Width

variable {n : ℤ} {w : Width}

/-! ### Accepted sizes -/

theorem size_eq_two_pow (w : Width) : (w.size : ℤ) = 2 ^ w.bits := by
  rw [size, Nat.one_shiftLeft, Nat.cast_pow, Nat.cast_ofNat]

/-- **A power of two is accepted, with its exponent as the width**, and nothing else is. -/
theorem ofSize_iff (n : ℤ) (k : ℕ) :
    (∃ w, ofSize n = .ok w ∧ w.bits = k) ↔ 1 ≤ k ∧ n = 2 ^ k := by
  constructor
  · rintro ⟨w, h_accepted, rfl⟩
    exact ⟨w.bits_pos, (ofSize_eq_ok_iff.mp h_accepted).trans w.size_eq_two_pow⟩
  · rintro ⟨h_pos, rfl⟩
    exact ⟨⟨k, h_pos⟩, ofSize_eq_ok_iff.mpr (size_eq_two_pow ⟨k, h_pos⟩).symm, rfl⟩

/-- An accepted size is a power of two. -/
theorem isSize_of_ofSize (h : ofSize n = .ok w) : IsSize n :=
  ⟨w.bits, (ofSize_iff n w.bits).mp ⟨w, h, rfl⟩⟩

/-- Every such power is accepted. -/
theorem exists_of_isSize (h : IsSize n) : ∃ w, ofSize n = .ok w := by
  obtain ⟨k, h_power⟩ := h
  obtain ⟨w, h_accepted, -⟩ := (ofSize_iff n k).mpr h_power
  exact ⟨w, h_accepted⟩

/-- A size that is refused is no such power, so the two outcomes decide `IsSize`. -/
theorem not_isSize_of_refused {e : SizeError} (h : ofSize n = .error e) : ¬ IsSize n := by
  intro h_size
  obtain ⟨w, h_accepted⟩ := exists_of_isSize h_size
  cases h.symm.trans h_accepted

/-- A size that is refused is the one that is reported. -/
theorem ofSize_of_not_isSize (h : ¬ IsSize n) : ofSize n = .error ⟨n⟩ := by
  cases h_size : ofSize n with
  | ok w => exact absurd (isSize_of_ofSize h_size) h
  | error e =>
    rw [ofSize] at h_size
    split at h_size
    · cases h_size
    · exact h_size.symm

/-! ### Masks -/

/-- **The mask of a size takes the floor remainder.** -/
theorem and_pred_eq_fmod (w : Width) (x : ℤ) :
    Bits.and x ((w.size : ℤ) - 1) = x.fmod w.size := by
  have h_pos : 0 < w.size := Nat.lt_of_lt_of_le Nat.zero_lt_two w.two_le_size
  -- the predecessor of a size has ones in just the bits of an address
  have h_mask : (w.size : ℤ) - (1 : ℤ) = ((1 <<< w.bits - 1 : ℕ) : ℤ) := by
    rw [size] at h_pos ⊢
    omega
  rw [h_mask, Bits.and_ones, Int.fmod_eq_emod_of_nonneg x (Int.natCast_nonneg _), size]

/-- The floor remainder of any integer is an address. -/
theorem fmod_mem_range (w : Width) (x : ℤ) : 0 ≤ x.fmod w.size ∧ x.fmod w.size < w.size := by
  have h_pos : (0 : ℤ) < w.size := by
    have h_two := w.two_le_size
    omega
  exact ⟨Int.fmod_nonneg_of_pos x h_pos, Int.fmod_lt_of_pos x h_pos⟩

/-- A mask may be applied early. -/
theorem and_pred_add (w : Width) (x d : ℤ) :
    Bits.and (Bits.and x ((w.size : ℤ) - 1) + d) ((w.size : ℤ) - 1)
      = Bits.and (x + d) ((w.size : ℤ) - 1) := by
  -- as remainders this is the reduction of one summand
  simp only [and_pred_eq_fmod, Int.fmod_eq_emod_of_nonneg _ (Int.natCast_nonneg _)]
  exact Int.emod_add_emod x w.size d

/-- **Masked updates compose.** A register that is masked after each of a row of updates
holds the masked sum. -/
theorem foldl_masked (w : Width) (x : ℤ) (row : List ℤ) :
    row.foldl (fun r d => Bits.and (r + d) ((w.size : ℤ) - 1)) (Bits.and x ((w.size : ℤ) - 1))
      = Bits.and (x + row.sum) ((w.size : ℤ) - 1) := by
  induction row generalizing x with
  -- the register holds the mask of what was added up so far
  | nil => rw [List.foldl_nil, List.sum_nil, add_zero]
  | cons d row ih => rw [List.foldl_cons, and_pred_add, ih, List.sum_cons, add_assoc]

end Width

/-! ### Machines -/

/-- An address is the floor remainder of the integer that names it. -/
theorem Memory.wrap_eq_fmod (m : Memory) (x : ℤ) : (m.wrap x : ℤ) = x.fmod m.size := by
  rw [m.wrap_eq_emod, Int.fmod_eq_emod_of_nonneg x (Int.natCast_nonneg _)]

/-- The two sizes are checked one after the other, and both checks have to be passed. -/
theorem Geometry.ofSizes_eq_ok_iff {codeSize dataSize : ℤ} {code data : Width} :
    ofSizes codeSize dataSize = .ok ⟨code, data⟩ ↔
      Width.ofSize codeSize = .ok code ∧ Width.ofSize dataSize = .ok data := by
  rw [ofSizes]
  -- the second size is looked at only if the first one is usable
  cases Width.ofSize codeSize with
  | error e => simp [bind, Except.bind]
  | ok code' => cases Width.ofSize dataSize <;> simp [bind, Except.bind, pure, Except.pure]

namespace Core

variable {codeSize dataSize : ℤ}

/-- A machine is made of two accepted sizes, and its memories have these. -/
theorem ofSizes_eq_ok_iff {c : Core} :
    ofSizes codeSize dataSize = .ok c ↔
      ∃ g : Geometry, Width.ofSize codeSize = .ok g.code ∧ Width.ofSize dataSize = .ok g.data ∧
        c = .new g := by
  constructor
  · intro h_made
    cases h_sizes : Geometry.ofSizes codeSize dataSize with
    | error e =>
      rw [ofSizes, h_sizes] at h_made
      -- without a geometry there is no machine
      cases h_made
    | ok g =>
      rw [ofSizes, h_sizes] at h_made
      cases h_made
      obtain ⟨h_code, h_data⟩ := Geometry.ofSizes_eq_ok_iff.mp h_sizes
      exact ⟨g, h_code, h_data, rfl⟩
  · rintro ⟨g, h_code, h_data, rfl⟩
    rw [ofSizes, Geometry.ofSizes_eq_ok_iff.mpr ⟨h_code, h_data⟩]
    rfl

/-- Of two unusable sizes that of the code memory is reported. -/
theorem ofSizes_of_not_code (h : ¬ IsSize codeSize) (dataSize : ℤ) :
    ofSizes codeSize dataSize = .error ⟨codeSize⟩ := by
  rw [ofSizes, Geometry.ofSizes, Width.ofSize_of_not_isSize h]
  rfl

/-- If the size of the code memory is usable, an unusable one of the data memory is reported. -/
theorem ofSizes_of_not_data (h_code : IsSize codeSize) (h_data : ¬ IsSize dataSize) :
    ofSizes codeSize dataSize = .error ⟨dataSize⟩ := by
  obtain ⟨code, h_accepted⟩ := Width.exists_of_isSize h_code
  rw [ofSizes, Geometry.ofSizes, h_accepted, Width.ofSize_of_not_isSize h_data]
  rfl

/-- The memories of a machine have the sizes that were asked for. -/
theorem size_of_ofSizes {c : Core} (h : ofSizes codeSize dataSize = .ok c) :
    (c.code.size : ℤ) = codeSize ∧ (c.data.size : ℤ) = dataSize := by
  obtain ⟨g, h_code, h_data, rfl⟩ := ofSizes_eq_ok_iff.mp h
  rw [Width.ofSize_eq_ok_iff.mp h_code, Width.ofSize_eq_ok_iff.mp h_data]
  exact ⟨congrArg Nat.cast (Memory.size_zeros g.code), congrArg Nat.cast (Memory.size_zeros g.data)⟩

/-- **A machine is made if and only if both sizes are powers of two.** -/
theorem exists_ofSizes_iff :
    (∃ c, ofSizes codeSize dataSize = .ok c) ↔ IsSize codeSize ∧ IsSize dataSize := by
  constructor
  · rintro ⟨c, h_made⟩
    obtain ⟨g, h_code, h_data, -⟩ := ofSizes_eq_ok_iff.mp h_made
    exact ⟨Width.isSize_of_ofSize h_code, Width.isSize_of_ofSize h_data⟩
  · rintro ⟨h_code, h_data⟩
    obtain ⟨code, h_code⟩ := Width.exists_of_isSize h_code
    obtain ⟨data, h_data⟩ := Width.exists_of_isSize h_data
    exact ⟨.new ⟨code, data⟩, ofSizes_eq_ok_iff.mpr ⟨⟨code, data⟩, h_code, h_data, rfl⟩⟩

/-- **Sizes and masks.** An integer is accepted as a size if and only if it is a power of two
with a positive exponent, and then its width is the exponent. A machine is made if and only
if both of its sizes are such powers; its memories have these sizes, and their addresses are
remainders modulo them. Otherwise the size of the code memory is reported if it is unusable,
and that of the data memory only if the other one is usable; the report is on a bad value
and shows the number. The predecessor of an accepted
size masks any integer to its floor remainder, which is in range. So masked updates compose,
one or a row of them. -/
theorem sizes_and_masks (codeSize dataSize : ℤ) :
    (∀ (n : ℤ) (k : ℕ), (∃ w, Width.ofSize n = .ok w ∧ w.bits = k) ↔ 1 ≤ k ∧ n = 2 ^ k) ∧
    ((∃ c, ofSizes codeSize dataSize = .ok c) ↔ IsSize codeSize ∧ IsSize dataSize) ∧
    (∀ c, ofSizes codeSize dataSize = .ok c →
      (c.code.size : ℤ) = codeSize ∧ (c.data.size : ℤ) = dataSize ∧
      ∀ x : ℤ, (c.code.wrap x : ℤ) = x.fmod codeSize ∧ (c.data.wrap x : ℤ) = x.fmod dataSize) ∧
    (¬ IsSize codeSize → ofSizes codeSize dataSize = .error ⟨codeSize⟩) ∧
    (IsSize codeSize → ¬ IsSize dataSize → ofSizes codeSize dataSize = .error ⟨dataSize⟩) ∧
    (∀ e, ofSizes codeSize dataSize = .error e → e.kind = .value ∧
      e.message = "memory size must be a power of two >= 2, got " ++ toString e.size) ∧
    ∀ (n : ℤ) (w : Width), Width.ofSize n = .ok w → ∀ x : ℤ,
      Bits.and x (n - 1) = x.fmod n ∧ 0 ≤ x.fmod n ∧ x.fmod n < n ∧
      (∀ d : ℤ, Bits.and (Bits.and x (n - 1) + d) (n - 1) = Bits.and (x + d) (n - 1)) ∧
      ∀ row : List ℤ, row.foldl (fun r d => Bits.and (r + d) (n - 1)) (Bits.and x (n - 1))
        = Bits.and (x + row.sum) (n - 1) := by
  refine ⟨Width.ofSize_iff, exists_ofSizes_iff, fun c h_made => ?_,
    fun h_code => ofSizes_of_not_code h_code dataSize, ofSizes_of_not_data,
    fun _ _ => ⟨rfl, rfl⟩, ?_⟩
  · -- addresses are remainders modulo the sizes that were asked for
    obtain ⟨h_code, h_data⟩ := size_of_ofSizes h_made
    refine ⟨h_code, h_data, fun x => ⟨?_, ?_⟩⟩
    · rw [Memory.wrap_eq_fmod, h_code]
    · rw [Memory.wrap_eq_fmod, h_data]
  · -- an accepted number is the size of its width
    intro n w h_accepted x
    obtain rfl := Width.ofSize_eq_ok_iff.mp h_accepted
    obtain ⟨h_nonneg, h_lt⟩ := w.fmod_mem_range x
    exact ⟨w.and_pred_eq_fmod x, h_nonneg, h_lt, w.and_pred_add x, w.foldl_masked x⟩

/-- A size of eight gives three bits, and the mask of eight wraps negative integers upward.
A negative size and one that is no power of two are refused, the first of them with its
number. -/
theorem sizes_and_masks_eight :
    Width.ofSize 8 = .ok ⟨3, Nat.zero_lt_succ 2⟩ ∧
      (∃ c, ofSizes 8 2 = .ok c) ∧
      ofSizes (-8) 12 = .error ⟨-8⟩ ∧ ofSizes 8 12 = .error ⟨12⟩ ∧
      Bits.and (-3) (8 - 1) = 5 ∧
      Bits.and (Bits.and (-3) (8 - 1) + 4) (8 - 1) = 1 := by
  have h_eight : Width.ofSize 8 = .ok ⟨3, Nat.zero_lt_succ 2⟩ := rfl
  have h_size : IsSize 8 := ⟨3, by decide, by decide⟩
  have h_negative : ¬ IsSize (-8) := Width.not_isSize_of_refused rfl
  have h_twelve : ¬ IsSize 12 := Width.not_isSize_of_refused rfl
  obtain ⟨-, h_made, -⟩ := sizes_and_masks 8 2
  obtain ⟨-, -, -, h_code, -⟩ := sizes_and_masks (-8) 12
  obtain ⟨-, -, -, -, h_data, -, h_mask⟩ := sizes_and_masks 8 12
  obtain ⟨h_and, -, -, h_compose, -⟩ := h_mask 8 _ h_eight (-3)
  refine ⟨h_eight, h_made.mpr ⟨h_size, 1, Nat.le_refl 1, by decide⟩, h_code h_negative,
    h_data h_size h_twelve, h_and, ?_⟩
  rw [h_compose]
  decide

end Core

end TapeProcessor
