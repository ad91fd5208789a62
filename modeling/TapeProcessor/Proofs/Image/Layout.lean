import Mathlib.Data.Set.Function
import TapeProcessor.Proofs.Source.Acceptance

/-!
# The layout of jumps in an image

What can be found out about an image by walking through it, without running it and
without its source text. A walk goes from instruction to instruction, past the distance
of every jump.

* `Image.starts` are the addresses at which the walk stops for an instruction, and
  `Image.stop` the one where it ends.
* `Image.jumpPairs?` pairs the jumps on the way as brackets are paired: a jump back
  belongs to the innermost loop test that was not paired yet.

The walk through the image of a text keeps step with the text (`Image.Carries`). At the
offset of a position the addresses left are those of the operations left
(`Image.Carries.starts_offset`), and the loop tests still to be paired are those of the
brackets that are open (`Image.Carries.jumpPairs?_offset`).

`Image.jump_layout` is the layout of a compiled image: the pairs of jumps are the
partners in the text, each pair carries one distance, and this distance leads past the
jump back in one direction and to the loop test in the other, with no need to wrap.
-/

namespace TapeProcessor

/-! ### Words before they are bytes -/

namespace Program

/-- The words of a program as numbers of any size. -/
def numbers : Program → List ℕ
  | done => []
  | plain c next => (Opcode.plain c).code :: next.numbers
  | loop body next =>
    Opcode.jz.code :: jumpDistance body.size
      :: (body.numbers ++ Opcode.jmp.code :: jumpDistance body.size :: next.numbers)

/-- A distance within the bound is not cut. -/
theorem toNat_distanceWord {body : Program} (h : jumpDistance body.size ≤ maxDistance) :
    body.distanceWord.toNat = jumpDistance body.size := by
  rw [distanceWord, UInt8.toNat_ofNat']
  exact Nat.mod_eq_of_lt (by rw [maxDistance] at h; omega)

theorem toNat_word (op : Opcode) : op.word.toNat = op.code := by
  rcases op with c | _ | _
  · cases c <;> rfl
  · rfl
  · rfl

/-- **No word of a program that fits is cut.** -/
theorem Fits.map_toNat_words {p : Program} (h : p.Fits) : p.words.map UInt8.toNat = p.numbers := by
  induction p with
  | done => rfl
  | plain c next ih => rw [words, List.map_cons, ih h, numbers, toNat_word]
  | loop body next ih_body ih =>
    obtain ⟨h_short, h_body, h_next⟩ := h
    rw [words_loop, numbers, ← ih_body h_body, ← ih h_next]
    simp only [List.map_cons, List.map_append, toNat_word, toNat_distanceWord h_short]

end Program

namespace Image

/-! ### Walking through an image -/

/-- The addresses of the instructions from an address on. -/
def starts (image : Array UInt8) (address : ℕ) : List ℕ :=
  if h : address < image.size then
    address :: starts image (address + (Opcode.ofWord image[address]).size)
  else []
termination_by image.size - address
decreasing_by
  have := (Opcode.ofWord image[address]).size_pos
  omega

/-- The address where the walk from an address on ends. -/
def stop (image : Array UInt8) (address : ℕ) : ℕ :=
  if h : address < image.size then
    stop image (address + (Opcode.ofWord image[address]).size)
  else address
termination_by image.size - address
decreasing_by
  have := (Opcode.ofWord image[address]).size_pos
  omega

/-- The pairs of a loop test and a jump back, in the order of the jumps back. The
addresses in `stack` are those of the loop tests that are not paired yet. There is no
answer if a jump back finds none, or if the walk leaves some. -/
def jumpPairs? (image : Array UInt8) (stack : List ℕ) (address : ℕ) : Option (List (ℕ × ℕ)) :=
  if h : address < image.size then
    match Opcode.ofWord image[address], stack with
    | .plain _, stack => jumpPairs? image stack (address + 1)
    | .jz, stack => jumpPairs? image (address :: stack) (address + 2)
    | .jmp, [] => none
    | .jmp, p :: stack => (jumpPairs? image stack (address + 2)).map ((p, address) :: ·)
  else if stack.isEmpty then some [] else none
termination_by image.size - address

/-- A command, and a loop around an empty one. -/
example : starts #[0, 6, 7, 6, 3, 7, 3, 7, 7] 0 = [0, 1, 3, 5, 7] ∧
    jumpPairs? #[0, 6, 7, 6, 3, 7, 3, 7, 7] [] 0 = some [(3, 5), (1, 7)] := by
  decide +kernel

section Walk

variable {image : Array UInt8} {stack : List ℕ} {a p : ℕ} {w : UInt8}

/-- At a word the walk stops, and goes on behind its instruction. -/
theorem starts_of_getElem? (h : image[a]? = some w) :
    starts image a = a :: starts image (a + (Opcode.ofWord w).size) := by
  obtain ⟨h_lt, rfl⟩ := Array.getElem?_eq_some_iff.mp h
  rw [starts, dif_pos h_lt]

theorem starts_size (image : Array UInt8) : starts image image.size = [] := by
  rw [starts, dif_neg (Nat.lt_irrefl _)]

/-- From a word the walk ends where it ends from behind its instruction. -/
theorem stop_of_getElem? (h : image[a]? = some w) :
    stop image a = stop image (a + (Opcode.ofWord w).size) := by
  obtain ⟨h_lt, rfl⟩ := Array.getElem?_eq_some_iff.mp h
  rw [stop, dif_pos h_lt]

theorem stop_size (image : Array UInt8) : stop image image.size = image.size := by
  rw [stop, dif_neg (Nat.lt_irrefl _)]

theorem jumpPairs?_plain {c : Command} (h : image[a]? = some w)
    (h_op : Opcode.ofWord w = .plain c) :
    jumpPairs? image stack a = jumpPairs? image stack (a + 1) := by
  obtain ⟨h_lt, rfl⟩ := Array.getElem?_eq_some_iff.mp h
  rw [jumpPairs?, dif_pos h_lt, h_op]

/-- A loop test waits to be paired. -/
theorem jumpPairs?_jz (h : image[a]? = some w) (h_op : Opcode.ofWord w = .jz) :
    jumpPairs? image stack a = jumpPairs? image (a :: stack) (a + 2) := by
  obtain ⟨h_lt, rfl⟩ := Array.getElem?_eq_some_iff.mp h
  rw [jumpPairs?, dif_pos h_lt, h_op]

/-- A jump back is paired with the loop test that waited last. -/
theorem jumpPairs?_jmp (h : image[a]? = some w) (h_op : Opcode.ofWord w = .jmp) :
    jumpPairs? image (p :: stack) a = (jumpPairs? image stack (a + 2)).map ((p, a) :: ·) := by
  obtain ⟨h_lt, rfl⟩ := Array.getElem?_eq_some_iff.mp h
  rw [jumpPairs?, dif_pos h_lt, h_op]

/-- At the end nothing is left to be paired. -/
theorem jumpPairs?_size (image : Array UInt8) : jumpPairs? image [] image.size = some [] := by
  rw [jumpPairs?, dif_neg (Nat.lt_irrefl _)]
  rfl

end Walk

/-! ### In step with the text -/

open Source

/-- The image is that of the text `text`, whose tree is `p`. -/
structure Carries (image : Array UInt8) (text : List Char) (p : Program) : Prop where
  tree : p.opcodes = operations text
  fits : p.Fits
  words : image.toList = p.words

/-- A compiled image is that of its text, and within the capacity. -/
theorem carries_of_compile {source : String} {capacity : ℤ} {image : Array UInt8}
    (h : Program.compile source capacity = .ok image) :
    (∃ p, Carries image source.toList p) ∧ (image.size : ℤ) ≤ capacity := by
  obtain ⟨p, h_tree, h_fits, rfl, h_size⟩ := Program.of_compile h
  refine ⟨⟨p, h_tree, h_fits, p.toList_encode⟩, ?_⟩
  rwa [Program.size_encode]

namespace Carries

variable {image : Array UInt8} {text : List Char} {p : Program} {i j k : ℕ} {op : Opcode}

theorem getElem? (h : Carries image text p) (a : ℕ) : image[a]? = p.words[a]? := by
  rw [← h.words, Array.getElem?_toList]

/-- The walk through the text takes as many words as the image has. -/
theorem size (h : Carries image text p) : image.size = offset text text.length := by
  rw [← Array.length_toList, h.words, p.length_words, ← size_of_tree h.tree, size_eq_offset]

/-- The word of an operation stands at its offset. -/
theorem word (h : Carries image text p) (h_op : opcodeAt? text i = some op) :
    image[offset text i]? = some op.word := by
  -- the words in front of an operation are those of the text in front of it
  have h_split := take_append_cons_drop (opcodeAt?_eq_some_iff.mp h_op)
  have h_ops : p.opcodes
      = operations (text.take i) ++ op :: operations (text.drop (i + 1)) := by
    rw [h.tree]
    conv_lhs => rw [h_split]
    rw [operations_append, operations_cons (Opcode.ofSymbol?_symbol op)]
  rw [h.getElem?]
  exact Program.getElem?_words h_ops

/-- **The addresses left** at the offset of a position are those of the operations left. -/
theorem starts_offset (h : Carries image text p) (h_le : i ≤ text.length) :
    starts image (offset text i)
      = ((positionsFrom text i).filter fun k => (opcodeAt? text k).isSome).map (offset text) := by
  induction h_le using Nat.decreasingInduction with
  | self => rw [← h.size, starts_size, positionsFrom_length]; rfl
  | of_succ i h_lt ih =>
    rw [positionsFrom_of_lt h_lt]
    cases h_op : opcodeAt? text i with
    | none =>
      rw [← offset_comment h_lt h_op, ih, List.filter_cons_of_neg (by simp [h_op])]
    | some op =>
      -- the walk stops here, and goes on as behind this position
      rw [starts_of_getElem? (h.word h_op), Opcode.ofWord_word, ← offset_succ h_op, ih,
        List.filter_cons_of_pos (by simp [h_op]), List.map_cons]

/-- From the offset of any position the walk ends with the last word. -/
theorem stop_offset (h : Carries image text p) (h_le : i ≤ text.length) :
    stop image (offset text i) = image.size := by
  -- the induction goes from the end of the text to its start
  induction h_le using Nat.decreasingInduction with
  | self => rw [← h.size, stop_size]
  | of_succ i h_lt ih =>
    cases h_op : opcodeAt? text i with
    | none => rw [← offset_comment h_lt h_op, ih]
    | some op => rw [stop_of_getElem? (h.word h_op), Opcode.ofWord_word, ← offset_succ h_op, ih]

end Carries

/-- The partners of which the closing bracket is at position `i`. -/
def closedAt? (text : List Char) (i : ℕ) : Option (ℕ × ℕ) :=
  if opcodeAt? text i = some .jmp then (openBefore text i).head?.map (·, i) else none

/-- The partners in a text from a position on, in the order of the closing brackets. -/
def closings (text : List Char) (i : ℕ) : List (ℕ × ℕ) :=
  (positionsFrom text i).filterMap (closedAt? text)

/-- The addresses of a pair of positions. -/
def offsets (text : List Char) (x : ℕ × ℕ) : ℕ × ℕ := (offset text x.1, offset text x.2)

section Closings

variable {text : List Char} {i j k : ℕ}

/-- A closing bracket closes its partner. -/
theorem closedAt?_eq_some_iff : closedAt? text k = some (j, i) ↔ k = i ∧ Paired text j i := by
  rw [closedAt?, paired_iff]
  constructor
  · intro h
    split at h
    · rename_i h_close
      obtain ⟨top, h_head, h_eq⟩ := Option.map_eq_some_iff.mp h
      obtain ⟨rfl, rfl⟩ := Prod.mk.inj h_eq
      obtain ⟨st, h_stack⟩ := List.head?_eq_some_iff.mp h_head
      obtain ⟨-, -, rfl, -⟩ := openBefore_eq_cons h_stack
      exact ⟨rfl, opcodeAt?_eq_some_iff.mp h_close, h_stack⟩
    · cases h
  · rintro ⟨rfl, h_close, h_stack⟩
    rw [if_pos (opcodeAt?_eq_some_iff.mpr h_close), h_stack]
    rfl

/-- What is closed from the start of a text on are its partners. -/
theorem mem_closings : (j, i) ∈ closings text 0 ↔ Paired text j i := by
  rw [closings, List.mem_filterMap]
  constructor
  · rintro ⟨k, -, h_closed⟩
    exact (closedAt?_eq_some_iff.mp h_closed).2
  · intro h
    have h_lt := (List.getElem?_eq_some_iff.mp h.closing).1
    refine ⟨i, ?_, closedAt?_eq_some_iff.mpr ⟨rfl, h⟩⟩
    rw [positionsFrom, List.mem_range'_1]
    omega

/-- No pair is closed twice, since each has a closing bracket of its own. -/
theorem nodup_closings (text : List Char) : (closings text 0).Nodup := by
  refine List.Nodup.filterMap ?_ List.nodup_range'
  -- positions with the same pair are the same closing bracket
  rintro k k' ⟨j, i⟩ h h'
  rw [(closedAt?_eq_some_iff.mp h).1, (closedAt?_eq_some_iff.mp h').1]

/-- Operations at different positions have different addresses. -/
theorem offset_lt (h_op : (opcodeAt? text i).isSome) (h_lt : i < k) :
    offset text i < offset text k := by
  obtain ⟨op, h_op⟩ := Option.isSome_iff_exists.mp h_op
  have h_next := offset_succ h_op
  have h_pos := op.size_pos
  obtain ⟨d, rfl⟩ := Nat.exists_eq_add_of_le (Nat.succ_le_of_lt h_lt)
  have h_add := offset_add text (i + 1) d
  rw [Nat.succ_eq_add_one]
  omega

/-- The offset tells the position of an operation. -/
theorem offset_injOn : Set.InjOn (offset text) {i | (opcodeAt? text i).isSome} := by
  intro i h_i k h_k h_eq
  rcases Nat.lt_trichotomy i k with h_lt | rfl | h_lt
  · exact absurd h_eq (Nat.ne_of_lt (offset_lt h_i h_lt))
  · rfl
  · exact absurd h_eq.symm (Nat.ne_of_lt (offset_lt h_k h_lt))

/-- The addresses of a pair of jumps tell the pair of brackets. -/
theorem offsets_injOn : Set.InjOn (offsets text) {x | Paired text x.1 x.2} := by
  rintro ⟨j, i⟩ h ⟨j', i'⟩ h' h_eq
  have h_isSome (op : Opcode) {k : ℕ} (h_char : text[k]? = some op.symbol) :
      (opcodeAt? text k).isSome :=
    Option.isSome_of_eq_some (opcodeAt?_eq_some_iff.mpr h_char)
  obtain ⟨h_first, h_second⟩ := Prod.mk.inj h_eq
  have h_j : j = j' := offset_injOn (h_isSome .jz h.opening) (h_isSome .jz h'.opening) h_first
  have h_i : i = i' := offset_injOn (h_isSome .jmp h.closing) (h_isSome .jmp h'.closing) h_second
  exact Prod.ext h_j h_i

end Closings

namespace Carries

variable {image : Array UInt8} {text : List Char} {p : Program} {i j : ℕ}

/-- **The pairs left** at the offset of a position: the loop tests not paired yet are
those of the open brackets, and the pairs are those of the brackets closed later. -/
theorem jumpPairs?_offset (h : Carries image text p) (h_le : i ≤ text.length) :
    jumpPairs? image ((openBefore text i).map (offset text)) (offset text i)
      = some ((closings text i).map (offsets text)) := by
  have h_balanced : Balanced text := balanced_iff.mpr ⟨p, h.tree⟩
  induction h_le using Nat.decreasingInduction with
  | self =>
    rw [h_balanced.openBefore_length, ← h.size, closings, positionsFrom_length]
    exact jumpPairs?_size image
  | of_succ i h_lt ih =>
    rw [closings, positionsFrom_of_lt h_lt, List.filterMap_cons, ← closings]
    cases h_op : opcodeAt? text i with
    | none =>
      rw [closedAt?, h_op, if_neg (by simp), ← offset_comment h_lt h_op,
        ← openBefore_other (by simp [h_op]) (by simp [h_op])]
      exact ih
    | some op =>
      have h_word := h.word h_op
      have h_next := offset_succ h_op
      rw [closedAt?, h_op]
      cases op with
      | plain c =>
        rw [if_neg (by simp), jumpPairs?_plain h_word (Opcode.ofWord_word _),
          ← openBefore_other (by simp [h_op]) (by simp [h_op])]
        rw [h_next] at ih
        exact ih
      | jz =>
        rw [openBefore_jz h_op, h_next] at ih
        -- the bracket is open for the rest of the text, and the test waits
        rw [if_neg (by simp), jumpPairs?_jz h_word (Opcode.ofWord_word _)]
        exact ih
      | jmp =>
        -- the bracket has a partner, since the text is balanced
        have h_partner := h_balanced.openBefore_ne_nil (opcodeAt?_eq_some_iff.mp h_op)
        rw [openBefore_jmp h_op, h_next] at ih
        cases h_stack : openBefore text i with
        | nil => exact absurd h_stack h_partner
        | cons top st =>
          rw [h_stack, List.tail_cons] at ih
          rw [if_pos rfl, List.map_cons, jumpPairs?_jmp h_word (Opcode.ofWord_word _)]
          rw [show offset text i + 2 = offset text i + Opcode.jmp.size from rfl, ih]
          rfl

/-- **The distances of partners** stand behind their words, and lead from one to the other. -/
theorem distances (h : Carries image text p) (h_paired : Paired text j i) :
    ∃ d : UInt8, image[offset text j + 1]? = some d ∧ image[offset text i + 1]? = some d ∧
      offset text j + d.toNat = offset text i + 1 ∧ 3 ≤ d.toNat := by
  obtain ⟨b, h_body, h_split⟩ := h_paired.operations
  obtain ⟨next, outer, h_in, h_address⟩ := Site.exists_loop (h.tree.trans h_split)
  -- the two words behind the jumps are one distance
  obtain ⟨h_first, h_second⟩ := h_in.distances
  have h_short := Program.toNat_distanceWord (Program.fits_iff.mp h.fits b next outer h_in)
  have h_end := (List.getElem?_eq_some_iff.mp h_paired.closing).1
  have h_open : opcodeAt? text j = some .jz := opcodeAt?_eq_some_iff.mpr h_paired.opening
  have h_between := offset_between h_paired.lt (Nat.le_of_lt h_end)
  rw [offset_succ h_open, size_of_tree h_body, Opcode.size] at h_between
  rw [h_address, ← offset] at h_first h_second
  rw [Program.jumpDistance] at h_short
  refine ⟨b.distanceWord, ?_, ?_, by omega, by omega⟩
  · rw [h.getElem?, h_first]
  · rw [h.getElem?, h_between, h_second]

end Carries

/-- **The layout of a compiled image.** The walk through it ends with its last word; its
jumps are paired as the brackets of the text are; the two jumps of a pair carry the same
distance, which leads forward past the jump back and backward to the loop test. -/
theorem jump_layout {source : String} {capacity : ℤ} {image : Array UInt8}
    (h : Program.compile source capacity = .ok image) :
    stop image 0 = image.size ∧ (image.size : ℤ) ≤ capacity ∧
    (∃ pairs, jumpPairs? image [] 0 = some pairs ∧ pairs.Nodup ∧
      Set.BijOn (fun x => (offset source.toList x.1, offset source.toList x.2))
        {x : ℕ × ℕ | Paired source.toList x.1 x.2} {x | x ∈ pairs} ∧
      ∀ p q, (p, q) ∈ pairs → ∃ d : UInt8,
        image[p + 1]? = some d ∧ image[q + 1]? = some d ∧
        (d.toNat : ℤ) = q - p + 1 ∧ 3 ≤ d.toNat ∧ d.toNat ≤ 255 ∧
        (p : ℤ) + 1 + d.toNat = q + 2 ∧ q + 2 ≤ image.size ∧ (q : ℤ) + 1 - d.toNat = p) ∧
    ∃ tree : Program, tree.opcodes = operations source.toList ∧
      (∀ n ∈ tree.numbers, n ≤ 255) ∧ image.toList.map UInt8.toNat = tree.numbers := by
  obtain ⟨⟨tree, h_image⟩, h_capacity⟩ := carries_of_compile h
  have h_numbers : image.toList.map UInt8.toNat = tree.numbers := by
    rw [h_image.words, h_image.fits.map_toNat_words]
  have h_pairs : jumpPairs? image [] 0
      = some ((closings source.toList 0).map (offsets source.toList)) :=
    h_image.jumpPairs?_offset (Nat.zero_le _)
  have h_mem : ∀ x, x ∈ closings source.toList 0 ↔ Paired source.toList x.1 x.2 :=
    fun _ => mem_closings
  refine ⟨h_image.stop_offset (Nat.zero_le _), h_capacity, ⟨_, h_pairs, ?_, ?_, ?_⟩, tree,
    h_image.tree, ?_, h_numbers⟩
  · refine (nodup_closings _).map_on fun x h_x y h_y => ?_
    exact offsets_injOn ((h_mem x).mp h_x) ((h_mem y).mp h_y)
  · -- the map is onto by construction, and offsets tell brackets apart
    refine ⟨fun x h_x => List.mem_map.mpr ⟨x, (h_mem x).mpr h_x, rfl⟩, offsets_injOn, ?_⟩
    intro y h_y
    obtain ⟨x, h_x, rfl⟩ := List.mem_map.mp h_y
    exact ⟨x, (h_mem x).mp h_x, rfl⟩
  · intro a b h_ab
    obtain ⟨⟨j, i⟩, h_x, h_eq⟩ := List.mem_map.mp h_ab
    obtain ⟨rfl, rfl⟩ := Prod.mk.inj h_eq
    -- all equations follow from the one on the span of the pair
    obtain ⟨d, h_first, h_second, h_span, h_least⟩ := h_image.distances ((h_mem _).mp h_x)
    have h_size := (Array.getElem?_eq_some_iff.mp h_second).1
    have h_byte := d.toNat_lt
    exact ⟨d, h_first, h_second, by omega, h_least, by omega, by omega, by omega, by omega⟩
  · intro n h_n
    rw [← h_numbers] at h_n
    obtain ⟨w, -, rfl⟩ := List.mem_map.mp h_n
    exact Nat.le_of_lt_succ w.toNat_lt

/-- A loop in a loop: its two pairs of jumps are the two pairs of brackets. -/
theorem jump_layout_nested :
    Program.compile "+[>[-]<]" 12 = .ok #[0, 6, 10, 2, 6, 4, 1, 7, 4, 3, 7, 10] ∧
    stop #[0, 6, 10, 2, 6, 4, 1, 7, 4, 3, 7, 10] 0 = 12 ∧
    jumpPairs? #[0, 6, 10, 2, 6, 4, 1, 7, 4, 3, 7, 10] [] 0 = some [(4, 7), (1, 10)] ∧
    Set.BijOn (fun x => (offset "+[>[-]<]".toList x.1, offset "+[>[-]<]".toList x.2))
      {x : ℕ × ℕ | Paired "+[>[-]<]".toList x.1 x.2} {x | x ∈ [(4, 7), (1, 10)]} := by
  have h : Program.compile "+[>[-]<]" 12 = .ok #[0, 6, 10, 2, 6, 4, 1, 7, 4, 3, 7, 10] := by
    decide +kernel
  have h_walk : jumpPairs? #[0, 6, 10, 2, 6, 4, 1, 7, 4, 3, 7, 10] [] 0
      = some [(4, 7), (1, 10)] := by
    decide +kernel
  obtain ⟨h_stop, -, ⟨pairs, h_pairs, -, h_bij, -⟩, -⟩ := jump_layout h
  obtain rfl := Option.some.inj (h_pairs.symm.trans h_walk)
  exact ⟨h, h_stop, h_walk, h_bij⟩

end Image

end TapeProcessor
