import TapeProcessor.Proofs.Program.Loops
import TapeProcessor.Proofs.Source.FirstViolation

/-!
# Which source texts are accepted

A text has an image for a code memory of some capacity exactly if its brackets are
balanced, no two partners have more than 252 words between them, and the whole text has
no more words than the capacity (`Source.Acceptable`). These are conditions on the text
alone; they do not speak of the depth of nesting, although the reader refuses a text as
soon as its brackets are nested too deep. `Source.accepts_exactly` says that this check
refuses nothing that the conditions admit, and that the capacity decides only whether
there is an image, not which.

A balanced text has a tree. That the bodies in the tree are short enough is the same as
that the partners in the text are close enough (`Source.fits_iff`), and trees with short
bodies are read (`Program.compile_eq_ok_iff`).
-/

namespace TapeProcessor.Source

/-- The conditions under which a text has an image. -/
structure Acceptable (text : List Char) (capacity : ℤ) : Prop where
  balanced : Balanced text
  /-- The distance of a jump can span what is between partners. -/
  bodies : ∀ j i, Paired text j i → size (between text j i) ≤ 252
  /-- Code memory can hold the text. -/
  whole : (size text : ℤ) ≤ capacity

variable {text : List Char} {capacity : ℤ}

theorem size_of_tree {p : Program} (h_tree : p.opcodes = operations text) :
    size text = p.size := by
  rw [size, ← h_tree, Program.wordCount_opcodes]

/-- **Short bodies are close partners.** -/
theorem fits_iff {p : Program} (h_tree : p.opcodes = operations text) :
    p.Fits ↔ ∀ j i, Paired text j i → size (between text j i) ≤ 252 := by
  constructor
  · intro h_fits j i h_paired
    obtain ⟨b, h_body, h_split⟩ := h_paired.operations
    obtain ⟨next, outer, h_in, -⟩ := Site.exists_loop (h_tree.trans h_split)
    have h_short := Program.fits_iff.mp h_fits b next outer h_in
    rw [size_of_tree h_body]
    rw [Program.jumpDistance, Program.maxDistance] at h_short
    omega
  · intro h_close
    refine Program.fits_iff.mpr fun b next outer h_in => ?_
    -- the loop stands in the text with two partners around its body
    obtain ⟨before, h_before⟩ := h_in.rest_suffix
    rw [Site.rest_loop, h_tree] at h_before
    obtain ⟨j, i, h_paired, h_body, -⟩ := exists_paired h_before.symm
    have h_words := h_close j i h_paired
    rw [size_of_tree h_body.symm] at h_words
    rw [Program.jumpDistance, Program.maxDistance]
    omega

/-- A text has an image exactly if it is acceptable. -/
theorem compile_iff (source : String) (capacity : ℤ) :
    (∃ image, Program.compile source capacity = .ok image) ↔
      Acceptable source.toList capacity := by
  constructor
  · rintro ⟨image, h_compile⟩
    obtain ⟨p, h_tree, h_fits, -, h_size⟩ := Program.of_compile h_compile
    refine ⟨balanced_iff.mpr ⟨p, h_tree⟩, (fits_iff h_tree).mp h_fits, ?_⟩
    rwa [size_of_tree h_tree]
  · intro h
    -- a balanced text has a tree, and the two other conditions are those under which it is read
    obtain ⟨p, h_tree⟩ := balanced_iff.mp h.balanced
    refine ⟨p.encode, Program.compile_eq_ok_iff.mpr ⟨p, h_tree, (fits_iff h_tree).mpr h.bodies,
      rfl, ?_⟩⟩
    rw [← size_of_tree h_tree]
    exact h.whole

/-- No bracket of an acceptable text is nested too deep. -/
theorem Acceptable.shallow {source : String} (h : Acceptable source.toList capacity) {i : ℕ}
    (h_open : source.toList[i]? = some '[') :
    (4 * ((openBefore source.toList i).length + 1) : ℤ) ≤ min capacity 256 := by
  obtain ⟨image, h_compile⟩ := (compile_iff source capacity).mpr h
  -- a text with an image violates nothing at its `i`-th character
  have h_none : violationAt? source.toList capacity i = none :=
    violationAt?_of_compile h_compile i
  rw [violationAt?_jz (opcodeAt?_eq_some_iff.mpr h_open) rfl] at h_none
  by_contra h_deep
  rw [if_pos (show Program.loopOverhead * (((openBefore source.toList i).length : ℤ) + 1)
    > Program.nestingLimit capacity from not_le.mp h_deep)] at h_none
  cases h_none

/-- **Which texts are accepted**, what the length of their images is, and that the early
check on the depth of nesting costs none of them. -/
theorem accepts_exactly (source : String) (capacity : ℤ) :
    ((∃ image, Program.compile source capacity = .ok image) ↔
      Acceptable source.toList capacity) ∧
    (∀ image, Program.compile source capacity = .ok image →
      image.size = size source.toList ∧
      ∀ capacity' image', Program.compile source capacity' = .ok image' → image' = image) ∧
    (Acceptable source.toList capacity → ∀ i, source.toList[i]? = some '[' →
      (4 * ((openBefore source.toList i).length + 1) : ℤ) ≤ min capacity 256) := by
  refine ⟨compile_iff source capacity, ?_, fun h i h_open => h.shallow h_open⟩
  intro image h_compile
  obtain ⟨p, h_tree, -, rfl, -⟩ := Program.of_compile h_compile
  refine ⟨by rw [Program.size_encode, size_of_tree h_tree], ?_⟩
  intro capacity' image' h_other
  -- both images encode the one tree that the operations of the text determine
  obtain ⟨q, h_tree', -, rfl, -⟩ := Program.of_compile h_other
  rw [Program.opcodes_injective (h_tree'.trans h_tree.symm)]

/-- Three loops inside one another take just the words that the check asks for. -/
theorem accepts_exactly_nested :
    Program.compile "[[[]]]" 12 = .ok #[6, 11, 6, 7, 6, 3, 7, 3, 7, 7, 7, 11] ∧
      size "[[[]]]".toList = 12 ∧ Acceptable "[[[]]]".toList 12 ∧
      (4 * ((openBefore "[[[]]]".toList 2).length + 1) : ℤ) ≤ 12 := by
  have h_compile : Program.compile "[[[]]]" 12
      = .ok #[6, 11, 6, 7, 6, 3, 7, 3, 7, 7, 7, 11] := by
    decide +kernel
  have h_accepted : Acceptable "[[[]]]".toList 12 :=
    (accepts_exactly "[[[]]]" 12).1.mp ⟨_, h_compile⟩
  have h_size := ((accepts_exactly "[[[]]]" 12).2.1 _ h_compile).1
  have h_shallow := (accepts_exactly "[[[]]]" 12).2.2 h_accepted 2 rfl
  exact ⟨h_compile, h_size.symm, h_accepted, h_shallow⟩

end TapeProcessor.Source
