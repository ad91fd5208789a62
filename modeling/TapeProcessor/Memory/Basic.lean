import TapeProcessor.Memory.Width

/-!
# Byte memories

A memory is a row of bytes whose number is a power of two, so that an integer of
any size and sign names one of them: its address wraps at the size of the memory.

* `Memory.wrap` turns an integer into an address; `Memory.wrap_eq_emod` says that
  it is the remainder modulo the size, and `Memory.wrap_lt` that it is in range.
* `Memory.read` and `Memory.write` act on one byte; the laws between them are
  `Memory.read_write` and `Memory.size_write`.
* `Memory.store` writes a row of bytes to consecutive addresses.
-/

namespace TapeProcessor

/-- A row of bytes with a usable size. -/
structure Memory where
  cells : Array UInt8
  fits : ∃ w : Width, cells.size = w.size

namespace Memory

variable (m : Memory)

@[ext] theorem ext {first second : Memory} (h_same : first.cells = second.cells) :
    first = second := by
  cases first
  cases second
  cases h_same
  rfl

/-- The memory of the given width with every byte zero. -/
def zeros (w : Width) : Memory := ⟨Array.replicate w.size 0, ⟨w, by simp⟩⟩

/-- The number of bytes. -/
def size : Nat := m.cells.size

/-- The width of an address. -/
def addressBits : Nat := m.size.log2

/-- The address that an integer names: its low bits, as many as an address has. -/
def wrap (address : Int) : Nat := (Bits.and address ((m.size : Int) - 1)).toNat

/-- The byte at an address in range. -/
def read (address : Nat) : UInt8 := m.cells.getD address 0

/-- Replaces the byte at an address in range. -/
def write (m : Memory) (address : Nat) (byte : UInt8) : Memory :=
  ⟨m.cells.setIfInBounds address byte, by simpa using m.fits⟩

/-- Replaces the bytes from `address` upward, going on at zero behind the end. -/
def store (m : Memory) (address : Int) : List UInt8 → Memory
  | [] => m
  | byte :: rest => (m.write (m.wrap address) byte).store (address + 1) rest

/-! ### Addresses -/

/-- A memory has two bytes at least. -/
theorem two_le_size : 2 ≤ m.size := by
  obtain ⟨w, h_same⟩ := m.fits
  have h_size : m.size = w.size := h_same
  rw [h_size]
  exact w.two_le_size

theorem size_pos : 0 < m.size := Nat.lt_of_lt_of_le (by omega) m.two_le_size

/-- **An address is the remainder modulo the size.** -/
theorem wrap_eq_emod (address : Int) : (m.wrap address : Int) = address % m.size := by
  obtain ⟨w, h_same⟩ := m.fits
  have h_size : m.size = 1 <<< w.bits := h_same
  have h_pos := m.size_pos
  have h_mask : (m.size : Int) - (1 : Int) = ((1 <<< w.bits - 1 : Nat) : Int) := by omega
  have h_nonneg : 0 ≤ address % (m.size : Int) := Int.emod_nonneg _ (by omega)
  rw [wrap, h_mask, Bits.and_ones, ← h_size, Int.toNat_of_nonneg h_nonneg]

/-- An address is in range. -/
theorem wrap_lt (address : Int) : m.wrap address < m.size := by
  have h_pos : (0 : Int) < m.size := by exact_mod_cast m.size_pos
  have h_bound := Int.emod_lt_of_pos address h_pos
  have h_value := m.wrap_eq_emod address
  omega

/-- An address in range names itself. -/
@[simp] theorem wrap_natCast_of_lt {address : Nat} (h_bound : address < m.size) :
    m.wrap (address : Int) = address := by
  have h_value := m.wrap_eq_emod (address : Int)
  rw [Int.emod_eq_of_lt (by omega) (by exact_mod_cast h_bound)] at h_value
  exact_mod_cast h_value

theorem wrap_congr {first second : Memory} (h_same : first.size = second.size) (address : Int) :
    first.wrap address = second.wrap address := by
  rw [wrap, wrap, h_same]

/-! ### Reading what was written -/

@[simp] theorem size_zeros (w : Width) : (zeros w).size = w.size := by
  simp [zeros, size]

@[simp] theorem size_write (address : Nat) (byte : UInt8) :
    (m.write address byte).size = m.size := by
  simp [write, size]

@[simp] theorem wrap_write (address : Nat) (byte : UInt8) (other : Int) :
    (m.write address byte).wrap other = m.wrap other :=
  wrap_congr (m.size_write address byte) other

/-- A memory of zeros reads as zero everywhere, out of range as well. -/
@[simp] theorem read_zeros (w : Width) (address : Nat) : (zeros w).read address = 0 := by
  by_cases h_inside : address < w.size <;> simp [zeros, read, h_inside]

/-- **A write changes one byte.** -/
theorem read_write {address : Nat} (h_bound : address < m.size) (byte : UInt8) (other : Nat) :
    (m.write address byte).read other = if other = address then byte else m.read other := by
  have h_inside : address < m.cells.size := h_bound
  by_cases h_same : other = address
  · subst h_same
    simp [write, read, h_inside]
  · have h_different : address ≠ other := fun h_eq => h_same h_eq.symm
    simp [write, read, Array.getD_eq_getD_getElem?, h_same,
      Array.getElem?_setIfInBounds_ne h_different]

/-- A memory is told by the bytes that are read from it. -/
theorem eq_of_read_eq {first second : Memory} (h_same : first.size = second.size)
    (h_reads : ∀ address < first.size, first.read address = second.read address) :
    first = second := by
  refine ext (Array.ext h_same fun address h_inside h_inside' => ?_)
  have h_byte := h_reads address h_inside
  rwa [read, read, Array.getD_eq_getD_getElem?, Array.getD_eq_getD_getElem?,
    Array.getElem?_eq_getElem h_inside, Array.getElem?_eq_getElem h_inside'] at h_byte

@[simp] theorem size_store (address : Int) (bytes : List UInt8) :
    (m.store address bytes).size = m.size := by
  induction bytes generalizing m address with
  | nil => rfl
  | cons byte rest ih => simp [store, ih]

end Memory

end TapeProcessor
