import TapeProcessor.Proofs.Program.Place

/-!
# The loops of a program and their words

A loop of a program is a site that begins with it, and a pair of brackets among the
operations is a loop (`Site.exists_loop`). So what is said of all loops can be read off
the operations, with no tree: a program fits if the body of each of its loops does
(`Program.fits_iff`).

The image is looked at in the same way. From the address of a site on stand the words of
what is left of its block and then, outward, the jumps back of the loops around it and
what follows them (`Site.Inside.drop_words`). This gives the word of any operation
(`Program.getElem?_words`) and the distances of any loop (`Site.Inside.distances`), both by
the number of words in front.
-/

namespace TapeProcessor

/-! ### Loops among the operations -/

namespace Program

/-- What is left of a program that fits does fit. -/
theorem IsTail.fits {p q : Program} (h : q.IsTail p) (hp : p.Fits) : q.Fits := by
  induction h with
  | refl => exact hp
  | plain c _ ih => exact ih hp
  | loop body _ ih => exact ih hp.2.2

end Program

namespace Site

variable {p : Program}

/-- The block at a site of a program that fits does fit. -/
theorem Inside.fits {f : Site} (h : f.Inside p) (hp : p.Fits) : f.here.Fits := by
  obtain ⟨here, outer⟩ := f
  induction outer generalizing here with
  | nil => exact Program.IsTail.fits h hp
  | cons loop outer ih =>
    -- the block is a tail of the body of a loop that fits
    obtain ⟨body, next⟩ := loop
    have h_loop : Inside p ⟨.loop body next, outer⟩ := h.2
    exact h.1.fits (ih _ h_loop).2.1

/-- **A pair of brackets is a loop.** If the operations of a program hold those of `b`
between two brackets, there `p` has a loop with the body `b`. -/
theorem exists_loop {b : Program} {before behind : List Opcode}
    (h : p.opcodes = before ++ .jz :: (b.opcodes ++ .jmp :: behind)) :
    ∃ next outer, Inside p ⟨.loop b next, outer⟩ ∧
      address p ⟨.loop b next, outer⟩ = Opcode.wordCount before := by
  obtain ⟨⟨here, outer⟩, h_in, h_rest⟩ := exists_of_suffix ⟨before, h.symm⟩
  have h_count := h_in.address_add
  rw [h_rest, ← Program.wordCount_opcodes, h, Opcode.wordCount_append] at h_count
  cases here with
  | done =>
    -- behind a block stands a closing bracket or nothing
    cases outer <;> cases h_rest
  | plain c next => cases h_rest
  | loop body next =>
    rw [rest_loop] at h_rest
    obtain ⟨rfl, -⟩ := Program.opcodes_append_cancel (Or.inr ⟨_, rfl⟩) (Or.inr ⟨_, rfl⟩)
      (List.cons.inj h_rest).2
    exact ⟨next, outer, h_in, by omega⟩

end Site

namespace Program

/-- A block of a program fits if the loops of the program do. -/
private theorem fits_of_encloses {p : Program}
    (h : ∀ body next outer, Site.Inside p ⟨.loop body next, outer⟩ →
      jumpDistance body.size ≤ maxDistance) {q : Program} {outer : List (Program × Program)}
    (h_in : Site.Encloses p outer q) : q.Fits := by
  induction q generalizing outer with
  | done => trivial
  | plain c next ih => exact ih (h_in.tail (.plain c .refl))
  | loop body next ih_body ih =>
    have h_body : Site.Encloses p ((body, next) :: outer) body := ⟨.refl, h_in⟩
    exact ⟨h body next outer h_in, ih_body h_body, ih (h_in.tail (.loop body .refl))⟩

/-- **A program fits if each of its loops does.** -/
theorem fits_iff {p : Program} :
    p.Fits ↔ ∀ body next outer, Site.Inside p ⟨.loop body next, outer⟩ →
      jumpDistance body.size ≤ maxDistance := by
  constructor
  · intro h body next outer h_in
    exact (h_in.fits h).1
  · intro h
    exact fits_of_encloses h (Site.inside_start p)

end Program

/-! ### The words at a site -/

namespace Program

/-- The distance of the jumps of a loop, as it stands in its words. -/
def distanceWord (body : Program) : UInt8 := UInt8.ofNat (jumpDistance body.size)

/-- The words of a loop: the test, the body, the jump back, and what follows. -/
theorem words_loop (body next : Program) :
    (loop body next).words = Opcode.jz.word :: distanceWord body
      :: (body.words ++ Opcode.jmp.word :: distanceWord body :: next.words) := rfl

/-- The words of programs in sequence. -/
theorem words_append (p q : Program) : (p.append q).words = p.words ++ q.words := by
  induction p with
  | done => rfl
  | plain c next ih => rw [append, words, ih, words, List.cons_append]
  | loop body next _ ih =>
    rw [append, words_loop, ih, words_loop, List.cons_append, List.cons_append,
      List.append_assoc, List.cons_append, List.cons_append]

theorem size_append (p q : Program) : (p.append q).size = p.size + q.size := by
  rw [← length_words, words_append, List.length_append, length_words, length_words]

/-- The image of programs in sequence is made of their images. -/
theorem encode_append (p q : Program) : (p.append q).encode = p.encode ++ q.encode := by
  rw [← Array.toList_inj, Array.toList_append, toList_encode, toList_encode, toList_encode,
    words_append]

/-- The image of a single loop. -/
theorem encode_loop (body : Program) :
    (loop body done).encode = #[Opcode.jz.word, distanceWord body] ++ body.encode
      ++ #[Opcode.jmp.word, distanceWord body] := by
  rw [← Array.toList_inj, Array.toList_append, Array.toList_append, toList_encode, toList_encode,
    words_loop, words]
  rfl

/-- Programs in sequence fit if both do. -/
theorem Fits.append {p q : Program} (h_p : p.Fits) (h_q : q.Fits) : (p.append q).Fits := by
  induction p with
  | done => exact h_q
  | plain c next ih => exact ih h_p
  | loop body next _ ih => exact ⟨h_p.1, h_p.2.1, ih h_p.2.2⟩

/-- The last words of a program are those of what is left of it. -/
theorem IsTail.drop_words {p q : Program} (h : q.IsTail p) :
    p.words.drop (p.size - q.size) = q.words := by
  induction h with
  | refl => rw [Nat.sub_self, List.drop_zero]
  | @plain next c h ih =>
    have h_le := h.size_le
    have h_front : (Program.plain c next).size - q.size = next.size - q.size + 1 := by
      rw [size_plain]
      omega
    rw [h_front, words, List.drop_succ_cons, ih]
  | @loop next body h ih =>
    have h_le := h.size_le
    have h_length := body.length_words
    have h_front : (Program.loop body next).size - q.size
        = body.words.length + (next.size - q.size + 2) + 2 := by
      rw [size_loop, loopOverhead]
      omega
    rw [h_front, words_loop, List.drop_succ_cons, List.drop_succ_cons, ← List.drop_drop,
      List.drop_left, List.drop_succ_cons, List.drop_succ_cons, ih]

end Program

namespace Site

variable {p : Program}

/-- The words behind a block inside the loops `outer`. -/
def wordsBehind : List (Program × Program) → List UInt8
  | [] => []
  | (body, next) :: outer =>
    Opcode.jmp.word :: body.distanceWord :: (next.words ++ wordsBehind outer)

/-- **The words from a site on.** -/
theorem Inside.drop_words {f : Site} (h : f.Inside p) :
    p.words.drop (f.address p) = f.here.words ++ wordsBehind f.outer := by
  obtain ⟨here, outer⟩ := f
  induction outer generalizing here with
  | nil =>
    have h_tail : here.IsTail p := h
    have h_count := h.address_add
    rw [show rest ⟨here, []⟩ = here.opcodes from List.append_nil _,
      Program.wordCount_opcodes] at h_count
    rw [show address p ⟨here, []⟩ = p.size - here.size by omega, h_tail.drop_words, wordsBehind,
      List.append_nil]
  | cons loop outer ih =>
    -- the words of the loop are known, and the place is so many words behind its start
    obtain ⟨body, next⟩ := loop
    have h_loop : Inside p ⟨.loop body next, outer⟩ := h.2
    have h_tail : here.IsTail body := h.1
    have h_length := body.length_words
    have h_front : body.size - here.size ≤ body.words.length := by omega
    have h_words := ih _ h_loop
    rw [Program.words_loop] at h_words
    rw [h.address_inner, Nat.add_assoc, ← List.drop_drop, h_words]
    rw [Nat.add_comm 2, List.cons_append, List.cons_append, List.drop_succ_cons,
      List.drop_succ_cons, List.append_assoc, List.drop_append_of_le_length h_front,
      h_tail.drop_words]
    rfl

/-- The word at a site is that of its next operation. -/
theorem Inside.getElem?_words {f : Site} (h : f.Inside p) {op : Opcode} {ops : List Opcode}
    (h_rest : f.rest = op :: ops) : p.words[f.address p]? = some op.word := by
  have h_words := h.drop_words
  rw [← Nat.add_zero (f.address p), ← List.getElem?_drop, h_words]
  -- each kind of site shows its first word
  obtain ⟨here, outer⟩ := f
  cases here with
  | done =>
    cases outer with
    | nil => cases h_rest
    | cons loop outer =>
      obtain ⟨rfl, -⟩ := List.cons.inj h_rest
      rfl
  | plain c next =>
    obtain ⟨rfl, -⟩ := List.cons.inj h_rest
    rfl
  | loop body next =>
    rw [rest_loop] at h_rest
    obtain ⟨rfl, -⟩ := List.cons.inj h_rest
    rfl

/-- **The distances of a loop** stand behind its two jumps. -/
theorem Inside.distances {body next : Program} {outer : List (Program × Program)}
    (h : Inside p ⟨.loop body next, outer⟩) :
    p.words[address p ⟨.loop body next, outer⟩ + 1]? = some body.distanceWord ∧
      p.words[address p ⟨.loop body next, outer⟩ + 2 + body.size + 1]?
        = some body.distanceWord := by
  have h_words := h.drop_words
  have h_length := body.length_words
  rw [Program.words_loop] at h_words
  constructor
  · rw [← List.getElem?_drop, h_words]
    rfl
  · rw [show ∀ a, a + 2 + body.size + 1 = a + (body.words.length + 1 + 2) by omega,
      ← List.getElem?_drop, h_words, List.cons_append, List.cons_append,
      List.getElem?_cons_succ, List.getElem?_cons_succ, List.append_assoc,
      List.getElem?_append_right (Nat.le_succ _), Nat.succ_eq_add_one, Nat.add_sub_cancel_left]
    rfl

end Site

/-- **The word of an operation** stands behind the words of the operations in front. -/
theorem Program.getElem?_words {p : Program} {before behind : List Opcode} {op : Opcode}
    (h : p.opcodes = before ++ op :: behind) :
    p.words[Opcode.wordCount before]? = some op.word := by
  obtain ⟨f, h_in, h_rest⟩ := Site.exists_of_suffix ⟨before, h.symm⟩
  have h_count := h_in.address_add
  rw [h_rest, ← Program.wordCount_opcodes, h, Opcode.wordCount_append] at h_count
  -- the words in front of the site are those of the operations in front of it
  have h_address : f.address p = Opcode.wordCount before := by omega
  rw [← h_address]
  exact h_in.getElem?_words h_rest

end TapeProcessor
