import TapeProcessor.Proofs.Image.Listing

/-!
# Compiling and listing are inverse

The image of a text tells which operations the text has, although the distances of jumps
are words like any other, and every image that is laid out as images of texts are is the
image of such a text.

* `Image.WellLaid` is the condition on an image, in terms of the walk through it: it ends
  behind the last word, the words of operations have no unused bits, and the jumps nest
  and carry the distances from one to the other.
* `Image.Segments` is what is known on the way: the words from an address on are those of
  a program for each of the loops that were entered and one for what follows them.
  `Image.segments_of_walk` reads such an image from its end.
* `Image.WellLaid.exists_program` is the tree of a well-laid image.

`Image.readBack_inverse` says that the listing of an image, read back, is the text
without its comments, and that the image of what is read back is the image again.
-/

namespace TapeProcessor

namespace Opcode

/-- A word without unused bits is that of its operation. -/
theorem word_ofWord {w : UInt8} (h : w < 8) : (ofWord w).word = w := by
  -- this is checked for the eight words
  have h_all : ∀ n : Fin 8, (ofWord (UInt8.ofNat n.val)).word = UInt8.ofNat n.val := by
    decide
  have h_word := h_all ⟨w.toNat, UInt8.lt_iff_toNat_lt.mp h⟩
  rwa [UInt8.ofNat_toNat] at h_word

end Opcode

namespace Image

open Source

/-! ### Images that are laid out in loops -/

/-- The loop test at `p` and the jump back at `q` carry the distance between them. -/
def Linked (image : Array UInt8) (p q : ℕ) : Prop :=
  ∃ d : UInt8, image[p + 1]? = some d ∧ image[q + 1]? = some d ∧ (d.toNat : ℤ) = q - p + 1

/-- The image is laid out as the images of texts are. -/
structure WellLaid (image : Array UInt8) : Prop where
  /-- No instruction is cut off at the end. -/
  whole : stop image 0 = image.size
  /-- The words of the operations have no unused bits. -/
  bare : ∀ a ∈ starts image 0, image.getD a 0 < 8
  /-- The jumps nest, and those of a pair lead to one another. -/
  linked : ∃ pairs, jumpPairs? image [] 0 = some pairs ∧ ∀ p q, (p, q) ∈ pairs → Linked image p q

/-- The words from an address on, behind the loop tests at the addresses in the stack, are
those of a program that fits, a jump back to the first of these tests, a program behind
the loop, a jump back to the second one, and so on. -/
def Segments (image : Array UInt8) : List ℕ → ℕ → Prop
  | [], a => ∃ p : Program, p.Fits ∧ image.toList.drop a = p.words
  | s :: stack, a => ∃ (p : Program) (d : UInt8), p.Fits ∧ image[s + 1]? = some d ∧
      s + d.toNat = a + p.size + 1 ∧
      image.toList.drop a
        = p.words ++ Opcode.jmp.word :: d :: image.toList.drop (a + p.size + 2) ∧
      Segments image stack (a + p.size + 2)

section Segments

variable {image : Array UInt8} {stack : List ℕ} {a s : ℕ} {w d : UInt8}

/-- The words from an address on begin with the one there. -/
theorem drop_of_getElem? (h : image[a]? = some w) :
    image.toList.drop a = w :: image.toList.drop (a + 1) := by
  obtain ⟨h_lt, rfl⟩ := Array.getElem?_eq_some_iff.mp h
  exact List.drop_eq_getElem_cons h_lt

/-- **A program in front** of the words read so far. -/
theorem Segments.prepend {q : Program} (h_fits : q.Fits)
    (h_drop : image.toList.drop a = q.words ++ image.toList.drop (a + q.size))
    (h : Segments image stack (a + q.size)) : Segments image stack a := by
  -- the program in front joins the first of those that were read
  cases stack with
  | nil =>
    obtain ⟨p, h_p, h_words⟩ := h
    exact ⟨q.append p, h_fits.append h_p, by rw [h_drop, h_words, Program.words_append]⟩
  | cons s stack =>
    obtain ⟨p, d, h_p, h_first, h_span, h_words, h_stack⟩ := h
    rw [Nat.add_assoc a, ← Program.size_append] at h_span h_words h_stack
    refine ⟨q.append p, d, h_fits.append h_p, h_first, h_span, ?_, h_stack⟩
    rw [h_drop, h_words, Program.words_append, List.append_assoc]

/-- A command in front. -/
theorem Segments.plain {c : Command} (h_word : image[a]? = some (Opcode.plain c).word)
    (h : Segments image stack (a + 1)) : Segments image stack a := by
  have h_fits : (Program.plain c .done).Fits := trivial
  exact .prepend h_fits (drop_of_getElem? h_word) h

/-- A loop test in front, to which the first jump back belongs: the program behind it is
the body of a loop. -/
theorem Segments.enter (h_word : image[a]? = some Opcode.jz.word)
    (h : Segments image (a :: stack) (a + 2)) : Segments image stack a := by
  obtain ⟨body, d, h_body, h_first, h_span, h_words, h_stack⟩ := h
  -- the span of the loop tells the size of its body
  have h_distance : d.toNat = Program.jumpDistance body.size := by
    rw [Program.jumpDistance]
    omega
  have h_byte : Program.jumpDistance body.size ≤ Program.maxDistance := by
    have h_lt := d.toNat_lt
    rw [Program.maxDistance]
    omega
  have h_word_d : body.distanceWord = d := by
    rw [Program.distanceWord, ← h_distance, UInt8.ofNat_toNat]
  have h_fits : (Program.loop body .done).Fits := ⟨h_byte, h_body, trivial⟩
  have h_size : a + (Program.loop body .done).size = a + 2 + body.size + 2 := by
    rw [Program.size_loop, Program.loopOverhead, Program.size_done]
    omega
  refine .prepend h_fits ?_ (h_size ▸ h_stack)
  rw [drop_of_getElem? h_word, drop_of_getElem? h_first, h_words, Program.words_loop, h_word_d,
    h_size, List.cons_append, List.cons_append, List.append_assoc]
  rfl

/-- A jump back in front, to the loop test `s`. -/
theorem Segments.leave (h_word : image[a]? = some Opcode.jmp.word) (h_linked : Linked image s a)
    (h : Segments image stack (a + 2)) : Segments image (s :: stack) a := by
  obtain ⟨d, h_first, h_second, h_span⟩ := h_linked
  refine ⟨.done, d, trivial, h_first, ?_, ?_, h⟩
  · rw [Program.size_done]
    omega
  · rw [drop_of_getElem? h_word, drop_of_getElem? h_second]
    rfl

end Segments

/-- What a walk with bare words meets first, and that the walk goes on in the same way. -/
theorem bare_head {image : Array UInt8} {a : ℕ} {op : Opcode} (h_lt : a < image.size)
    (h_op : Opcode.ofWord image[a] = op) (h_whole : stop image a = image.size)
    (h_bare : ∀ s ∈ starts image a, image.getD s 0 < 8) :
    image[a]? = some op.word ∧ stop image (a + op.size) = image.size ∧
      ∀ s ∈ starts image (a + op.size), image.getD s 0 < 8 := by
  have h_word : image[a]? = some image[a] := Array.getElem?_eq_getElem h_lt
  rw [stop_of_getElem? h_word, h_op] at h_whole
  rw [starts_of_getElem? h_word, h_op] at h_bare
  -- the first word is bare, so it is that of its operation
  have h_low := h_bare a List.mem_cons_self
  rw [Array.getD_eq_getD_getElem?, h_word, Option.getD_some] at h_low
  refine ⟨?_, h_whole, fun s h_mem => h_bare s (List.mem_cons_of_mem a h_mem)⟩
  rw [h_word, ← h_op, Opcode.word_ofWord h_low]

/-- **Reading an image from its end.** -/
theorem segments_of_walk {image : Array UInt8} {stack : List ℕ} {a : ℕ} {pairs : List (ℕ × ℕ)}
    (h_whole : stop image a = image.size) (h_bare : ∀ s ∈ starts image a, image.getD s 0 < 8)
    (h_pairs : jumpPairs? image stack a = some pairs)
    (h_linked : ∀ p q, (p, q) ∈ pairs → Linked image p q) : Segments image stack a := by
  -- the induction is on the walk; each word puts something in front of what is read behind it
  fun_induction jumpPairs? image stack a generalizing pairs with
  | case1 a h_lt c stack h_op ih =>
    obtain ⟨h_word, h_whole, h_bare⟩ := bare_head h_lt h_op h_whole h_bare
    exact .plain h_word (ih h_whole h_bare h_pairs h_linked)
  | case2 a h_lt stack h_op ih =>
    obtain ⟨h_word, h_whole, h_bare⟩ := bare_head h_lt h_op h_whole h_bare
    exact .enter h_word (ih h_whole h_bare h_pairs h_linked)
  | case3 => cases h_pairs
  | case4 a h_lt s stack h_op ih =>
    obtain ⟨h_word, h_whole, h_bare⟩ := bare_head h_lt h_op h_whole h_bare
    obtain ⟨pairs, h_rest, rfl⟩ := Option.map_eq_some_iff.mp h_pairs
    have h_behind : Segments image stack (a + 2) :=
      ih h_whole h_bare h_rest fun p q h_mem => h_linked p q (List.mem_cons_of_mem _ h_mem)
    exact .leave h_word (h_linked s a List.mem_cons_self) h_behind
  | case5 stack a h_end h_empty =>
    rw [stop, dif_neg h_end] at h_whole
    obtain rfl := List.isEmpty_iff.mp h_empty
    refine ⟨.done, trivial, ?_⟩
    rw [h_whole, ← Array.length_toList, List.drop_length]
    rfl
  | case6 => cases h_pairs

/-- **The tree of a well-laid image.** -/
theorem WellLaid.exists_program {image : Array UInt8} (h : WellLaid image) :
    ∃ p : Program, p.Fits ∧ image = p.encode := by
  obtain ⟨pairs, h_pairs, h_linked⟩ := h.linked
  obtain ⟨p, h_fits, h_words⟩ := segments_of_walk h.whole h.bare h_pairs h_linked
  refine ⟨p, h_fits, Array.ext' ?_⟩
  rw [p.toList_encode, ← h_words, List.drop_zero]

/-! ### There and back -/

/-- The operations of an image are those of any text that it is the image of. -/
theorem opcodesFrom_of_compile {source : String} {capacity : ℤ} {image : Array UInt8}
    (h : Program.compile source capacity = .ok image) :
    opcodesFrom image 0 = operations source.toList := by
  obtain ⟨⟨p, h_image⟩, -⟩ := carries_of_compile h
  exact h_image.opcodesFrom_offset (Nat.zero_le _)

/-- **Reading back the image of a text.** The listing has a line for each command of the
text, at the offset of the command, and reads as the text without its comments. -/
theorem lines_of_compile {source : String} {capacity : ℤ} {image : Array UInt8}
    (h : Program.compile source capacity = .ok image) :
    ∃ ls, Listing.lines image 0 image.size capacity = some ls ∧
      ls.size = (commands source).length ∧
      ls.toList.map Line.address
        = ((positionsFrom source.toList 0).filter fun i => (opcodeAt? source.toList i).isSome).map
          (fun i => (offset source.toList i : ℤ)) ∧
      Listing.readBack? (ls.toList.map Line.render) = some (commands source) := by
  obtain ⟨⟨p, h_image⟩, -⟩ := carries_of_compile h
  have h_ops := opcodesFrom_of_compile h
  have h_starts : starts image 0 = ((positionsFrom source.toList 0).filter fun i =>
      (opcodeAt? source.toList i).isSome).map (offset source.toList) :=
    h_image.starts_offset (Nat.zero_le _)
  have h_count : (starts image 0).length = (operations source.toList).length := by
    rw [← h_ops, opcodesFrom, List.length_map]
  obtain ⟨ls, h_lines, h_list, h_back⟩ := lines_readBack image capacity
  rw [h_ops, map_symbol_operations] at h_back
  refine ⟨ls, h_lines, ?_, ?_, h_back⟩
  · rw [← Array.length_toList, h_list, List.length_map, h_count, commands,
      String.length_ofList, ← map_symbol_operations, List.length_map]
  · rw [h_list, h_starts, List.map_map, List.map_map]
    rfl

/-- **Compiling what is read back** from a well-laid image returns the image. -/
theorem WellLaid.compile_readBack {image : Array UInt8} {capacity : ℤ} (h : WellLaid image)
    (h_size : (image.size : ℤ) ≤ capacity) :
    ∃ ls source, Listing.lines image 0 image.size capacity = some ls ∧
      Listing.readBack? (ls.toList.map Line.render) = some source ∧
      Program.compile source capacity = .ok image := by
  obtain ⟨p, h_fits, rfl⟩ := h.exists_program
  rw [Program.size_encode] at h_size
  have h_ops : p.opcodes
      = (String.ofList (p.opcodes.map Opcode.symbol)).toList.filterMap Opcode.ofSymbol? := by
    rw [String.toList_ofList, Opcode.filterMap_ofSymbol?]
  have h_compile : Program.compile (String.ofList (p.opcodes.map Opcode.symbol)) capacity
      = .ok p.encode :=
    Program.compile_eq_ok_iff.mpr ⟨p, h_ops, h_fits, rfl, h_size⟩
  obtain ⟨ls, h_lines, -, -, h_back⟩ := lines_of_compile h_compile
  -- the text has no comments, so nothing of it is lost
  have h_bare : commands (String.ofList (p.opcodes.map Opcode.symbol))
      = String.ofList (p.opcodes.map Opcode.symbol) := by
    rw [commands, ← map_symbol_operations, operations, ← h_ops]
  exact ⟨ls, _, h_lines, h_back, h_bare.symm ▸ h_compile⟩

/-- **Compiling and listing are inverse.** The listing of the image of a text has a line for
each of its commands and reads as the text without its comments, so that texts with one
image differ in comments only; and a well-laid image is that of the text which its listing
reads as. -/
theorem readBack_inverse :
    (∀ (source : String) (capacity : ℤ) (image : Array UInt8),
      Program.compile source capacity = .ok image →
      (∃ ls, Listing.lines image 0 image.size capacity = some ls ∧
        ls.size = (commands source).length ∧
        ls.toList.map Line.address
          = ((positionsFrom source.toList 0).filter fun i =>
            (opcodeAt? source.toList i).isSome).map (fun i => (offset source.toList i : ℤ)) ∧
        Listing.readBack? (ls.toList.map Line.render) = some (commands source)) ∧
      ∀ (source' : String) (capacity' : ℤ), Program.compile source' capacity' = .ok image →
        commands source' = commands source) ∧
    (∀ (image : Array UInt8) (capacity : ℤ), WellLaid image → (image.size : ℤ) ≤ capacity →
      ∃ ls source, Listing.lines image 0 image.size capacity = some ls ∧
        Listing.readBack? (ls.toList.map Line.render) = some source ∧
        Program.compile source capacity = .ok image) := by
  refine ⟨fun source capacity image h => ⟨lines_of_compile h, ?_⟩,
    fun image capacity h h_size => h.compile_readBack h_size⟩
  intro source' capacity' h'
  rw [commands_eq_iff, ← opcodesFrom_of_compile h', opcodesFrom_of_compile h]

/-- A loop whose distance is, as a word, that of a loop test. -/
theorem readBack_inverse_lookalike :
    Program.compile "[ >>> ]" 7 = .ok #[6, 6, 2, 2, 2, 7, 6] ∧
    (∃ ls, Listing.lines #[6, 6, 2, 2, 2, 7, 6] 0 7 7 = some ls ∧ ls.size = 5 ∧
      Listing.readBack? (ls.toList.map Line.render) = some "[>>>]") ∧
    WellLaid #[6, 6, 2, 2, 2, 7, 6] ∧
    ∃ ls source, Listing.lines #[6, 6, 2, 2, 2, 7, 6] 0 7 7 = some ls ∧
      Listing.readBack? (ls.toList.map Line.render) = some source ∧
      Program.compile source 7 = .ok #[6, 6, 2, 2, 2, 7, 6] := by
  have h_compile : Program.compile "[ >>> ]" 7 = .ok #[6, 6, 2, 2, 2, 7, 6] := by
    decide +kernel
  have h_commands : commands "[ >>> ]" = "[>>>]" := by
    decide +kernel
  have h_laid : WellLaid #[6, 6, 2, 2, 2, 7, 6] := by
    refine ⟨by decide +kernel, by decide +kernel, [(0, 5)], by decide +kernel, ?_⟩
    intro p q h_mem
    obtain ⟨rfl, rfl⟩ := Prod.mk.inj (List.mem_singleton.mp h_mem)
    exact ⟨6, rfl, rfl, rfl⟩
  obtain ⟨⟨ls, h_lines, h_size, -, h_back⟩, -⟩ := readBack_inverse.1 _ _ _ h_compile
  rw [h_commands] at h_size h_back
  exact ⟨h_compile, ⟨ls, h_lines, h_size, h_back⟩, h_laid,
    readBack_inverse.2 _ _ h_laid (Int.le_refl 7)⟩

end Image

end TapeProcessor
