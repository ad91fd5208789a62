import TapeProcessor.Memory.Basic
import TapeProcessor.Proofs.Program.Reading
import TapeProcessor.Proofs.Semantics.Structured

/-!
# Places of a program in its image

A site of the structured semantics is a place in the tree, an address is a place
in code memory, and a number of operations is a place in the text. This file ties
the three together for one program `p`.

* `Site.Inside p f` says that `f` is a site of `p`: what is left of its block is a
  tail of the body it stands in, and so on outward. Steps stay inside
  (`Site.Inside.turn`).
* `Site.rest f` are the operations from the site to the end of the program. They
  are a tail of the operations of `p` (`Site.Inside.rest_suffix`), and every tail of
  them belongs to a site (`Site.exists_of_suffix`).
* `Site.address p f` counts the words before the site.
* `Program.StandsAt code a p` says that code memory holds the image of `p` from
  address `a`. It asks only for what the processor reads: the operation in each
  word that starts an instruction, and the distance behind a jump. A site of a
  program in memory finds the rest of its block at its address
  (`Site.Inside.standsAt`).
-/

namespace TapeProcessor

/-! ### Counting the words of operations -/

namespace Opcode

/-- The number of words of a row of operations. -/
def wordCount (ops : List Opcode) : ℕ := (ops.map size).sum

@[simp] theorem wordCount_nil : wordCount [] = 0 := rfl

@[simp] theorem wordCount_cons (op : Opcode) (ops : List Opcode) :
    wordCount (op :: ops) = op.size + wordCount ops := rfl

@[simp] theorem wordCount_append (l m : List Opcode) :
    wordCount (l ++ m) = wordCount l + wordCount m := by
  rw [wordCount, List.map_append, List.sum_append, wordCount, wordCount]

theorem size_pos (op : Opcode) : 0 < op.size := by
  cases op <;> simp [size]

end Opcode

namespace Program

/-- The words counted along the operations are the size of the tree. -/
@[simp] theorem wordCount_opcodes (p : Program) : Opcode.wordCount p.opcodes = p.size := by
  induction p with
  | done => rfl
  | plain c next ih =>
    rw [opcodes, Opcode.wordCount_cons, ih, size_plain]
    rfl
  | loop body next ih_body ih =>
    rw [opcodes, Opcode.wordCount_cons, Opcode.wordCount_append, Opcode.wordCount_cons, ih_body,
      ih, size_loop]
    simp only [Opcode.size, loopOverhead]
    omega

/-! ### Tails of a block -/

/-- `q.IsTail p`: the items of `q` are the last ones of `p`. -/
inductive IsTail (q : Program) : Program → Prop
  | refl : IsTail q q
  | plain {next : Program} (c : Command) : IsTail q next → IsTail q (plain c next)
  | loop {next : Program} (body : Program) : IsTail q next → IsTail q (loop body next)

theorem IsTail.trans {p q r : Program} (hr : r.IsTail q) (hq : q.IsTail p) : r.IsTail p := by
  induction hq with
  | refl => exact hr
  | plain c _ ih => exact .plain c ih
  | loop body _ ih => exact .loop body ih

/-- A tail of the items has a tail of the operations. -/
theorem IsTail.opcodes_suffix {p q : Program} (h : q.IsTail p) : q.opcodes <:+ p.opcodes := by
  induction h with
  | refl => exact List.suffix_refl _
  | plain c _ ih => exact ih.trans (List.suffix_cons _ _)
  | @loop next body _ ih =>
    refine ih.trans ?_
    exact ⟨.jz :: (body.opcodes ++ [.jmp]), by simp [opcodes]⟩

theorem IsTail.size_le {p q : Program} (h : q.IsTail p) : q.size ≤ p.size := by
  induction h with
  | refl => exact Nat.le_refl _
  | plain c _ ih => rw [size_plain]; omega
  | loop body _ ih => rw [size_loop]; omega

/-! ### Programs in code memory -/

/-- Code memory holds the image of the program from address `a`. -/
def StandsAt (code : Memory) : ℕ → Program → Prop
  | _, done => True
  | a, plain c next => .ofWord (code.read a) = Opcode.plain c ∧ StandsAt code (a + 1) next
  | a, loop body next =>
    .ofWord (code.read a) = Opcode.jz ∧
    (code.read (a + 1)).toNat = jumpDistance body.size ∧
    StandsAt code (a + 2) body ∧
    .ofWord (code.read (a + 2 + body.size)) = Opcode.jmp ∧
    (code.read (a + 3 + body.size)).toNat = jumpDistance body.size ∧
    StandsAt code (a + 4 + body.size) next

/-- If a block stands in memory, each tail of it stands behind the words it leaves out. -/
theorem StandsAt.tail {code : Memory} {a : ℕ} {p q : Program} (h : p.StandsAt code a)
    (hq : q.IsTail p) : q.StandsAt code (a + (p.size - q.size)) := by
  induction hq generalizing a with
  | refl => rwa [Nat.sub_self]
  | @plain next c hq ih =>
    have h_le := hq.size_le
    have h_next := ih h.2
    rw [size_plain]
    convert h_next using 1
    omega
  | @loop next body hq ih =>
    have h_le := hq.size_le
    -- behind the loop: four words of brackets, and those of its body
    have h_next := ih h.2.2.2.2.2
    rw [size_loop, loopOverhead]
    convert h_next using 1
    omega

/-- **Words in memory are a program in memory.** If the words of a program that fits
are found from address `a` on, the program stands there. -/
theorem Fits.standsAt {code : Memory} {a : ℕ} {p : Program} (h_fits : p.Fits)
    (h : ∀ i (hi : i < p.words.length), code.read (a + i) = p.words[i]) : p.StandsAt code a := by
  induction p generalizing a with
  | done => trivial
  | plain c next ih =>
    refine ⟨?_, ih h_fits fun i hi => ?_⟩
    · have h_first := h 0 (by simp [words])
      rw [Nat.add_zero] at h_first
      rw [h_first]
      exact Opcode.ofWord_word _
    · have h_word := h (i + 1) (by simpa [words] using hi)
      rw [show a + 1 + i = a + (i + 1) by omega, h_word]
      rfl
  | loop body next ih_body ih =>
    obtain ⟨h_dist, h_body_fits, h_next_fits⟩ := h_fits
    have h_length := body.length_words
    have h_words : (loop body next).words = Opcode.jz.word :: UInt8.ofNat (jumpDistance body.size)
        :: (body.words ++ Opcode.jmp.word :: UInt8.ofNat (jumpDistance body.size) :: next.words) :=
      rfl
    have h_literal : (UInt8.ofNat (jumpDistance body.size)).toNat = jumpDistance body.size := by
      rw [UInt8.toNat_ofNat']
      exact Nat.mod_eq_of_lt (by rw [maxDistance] at h_dist; omega)
    -- a word of the loop by its number, as the list that spells the loop out has it
    have h_at : ∀ i w, (loop body next).words[i]? = some w → code.read (a + i) = w := by
      intro i w hi
      obtain ⟨h_lt, rfl⟩ := List.getElem?_eq_some_iff.mp hi
      exact h i h_lt
    refine ⟨?_, ?_, ih_body h_body_fits fun i hi => ?_, ?_, ?_, ih h_next_fits fun i hi => ?_⟩
    -- the loop test and its distance
    · rw [show a = a + 0 by omega, h_at 0 _ rfl]
      exact Opcode.ofWord_word _
    · rw [h_at 1 _ rfl]
      exact h_literal
    -- the body
    · rw [show a + 2 + i = a + (i + 2) by omega]
      refine h_at _ _ ?_
      rw [h_words, List.getElem?_cons_succ, List.getElem?_cons_succ, List.getElem?_append_left hi]
      exact List.getElem?_eq_getElem hi
    -- the jump back and its distance, behind as many words as the body has
    · rw [show a + 2 + body.size = a + (body.words.length + 0 + 2) by omega, h_at _ Opcode.jmp.word]
      · exact Opcode.ofWord_word _
      · rw [h_words, List.getElem?_cons_succ, List.getElem?_cons_succ,
          List.getElem?_append_right (by omega)]
        simp
    · rw [show a + 3 + body.size = a + (body.words.length + 1 + 2) by omega, h_at]
      · exact h_literal
      · rw [h_words, List.getElem?_cons_succ, List.getElem?_cons_succ,
          List.getElem?_append_right (by omega)]
        simp
    -- what follows the loop
    · rw [show a + 4 + body.size + i = a + (body.words.length + (i + 2) + 2) by omega]
      refine h_at _ _ ?_
      rw [h_words, List.getElem?_cons_succ, List.getElem?_cons_succ,
        List.getElem?_append_right (by omega), Nat.add_sub_cancel_left]
      exact List.getElem?_eq_getElem hi

/-- An image that fits and lies at the start of code memory is its program there. -/
theorem Fits.standsAt_of_image {code : Memory} {p : Program} (h_fits : p.Fits)
    (h : ∀ a (ha : a < p.encode.size), code.read a = p.encode[a]) : p.StandsAt code 0 := by
  refine h_fits.standsAt fun i hi => ?_
  have h_lt : i < p.encode.size := by rwa [size_encode, ← p.length_words]
  rw [Nat.zero_add, h i h_lt, ← Array.getElem_toList]
  exact List.getElem_of_eq p.toList_encode _

end Program

/-! ### Sites of a program -/

namespace Site

/-- The operations behind a block inside the loops `outer`. -/
def restBehind : List (Program × Program) → List Opcode
  | [] => []
  | (_, next) :: outer => .jmp :: (next.opcodes ++ restBehind outer)

/-- The operations from a site to the end of the program. -/
def rest (f : Site) : List Opcode := f.here.opcodes ++ restBehind f.outer

/-- `q` is what is left of a block inside the loops `outer` of `p`. -/
def Encloses (p : Program) : List (Program × Program) → Program → Prop
  | [], q => q.IsTail p
  | (body, next) :: outer, q => q.IsTail body ∧ Encloses p outer (.loop body next)

/-- The site is one of the program `p`. -/
def Inside (p : Program) (f : Site) : Prop := Encloses p f.outer f.here

/-- The number of words before a site of `p`. -/
def address (p : Program) (f : Site) : ℕ := p.size - Opcode.wordCount f.rest

variable {p : Program}

theorem inside_start (p : Program) : (start p).Inside p := Program.IsTail.refl

/-- Going on in a block stays inside the loops around it. -/
theorem Encloses.tail {outer : List (Program × Program)} {q r : Program}
    (h : Encloses p outer q) (hr : r.IsTail q) : Encloses p outer r := by
  cases outer with
  | nil => exact hr.trans h
  | cons loop outer => exact ⟨hr.trans h.1, h.2⟩

/-- **Steps stay inside the program.** -/
theorem Inside.turn {n : ℕ} {f f' : Site} {g : Signals} {t : Tape n} {d : Deed n}
    (h : f.Inside p) (h_turn : f.turn g t = .goes f' d) : f'.Inside p := by
  obtain ⟨here, outer⟩ := f
  cases here with
  | done =>
    cases outer with
    | nil => cases h_turn
    | cons loop outer =>
      -- at the end of a body the loop around it is met again
      cases h_turn
      exact h.2
  | plain c next =>
    cases h_act : t.act g c with
    | none => simp [Site.turn, h_act] at h_turn
    | some deed =>
      simp only [Site.turn, h_act, Turn.goes.injEq] at h_turn
      obtain ⟨rfl, -⟩ := h_turn
      exact Encloses.tail h (.plain c .refl)
  | loop body next =>
    by_cases h_cell : t.cell = 0
    · simp only [Site.turn, if_pos h_cell, Turn.goes.injEq] at h_turn
      obtain ⟨rfl, -⟩ := h_turn
      exact Encloses.tail h (.loop body .refl)
    · simp only [Site.turn, if_neg h_cell, Turn.goes.injEq] at h_turn
      obtain ⟨rfl, -⟩ := h_turn
      -- the body is entered, and its loop becomes the innermost one
      exact ⟨.refl, h⟩

/-- Nothing is left to do at the end of the program, and only there. -/
theorem rest_eq_nil_iff (f : Site) : f.rest = [] ↔ f = finish := by
  obtain ⟨here, outer⟩ := f
  cases here with
  | done => cases outer <;> simp [rest, restBehind, Program.opcodes, finish]
  | plain c next => simp [rest, Program.opcodes, finish]
  | loop body next => simp [rest, Program.opcodes, finish]

/-- From a loop on: its test, its body, the jump back, and then what is behind it. -/
theorem rest_loop (body next : Program) (outer : List (Program × Program)) :
    rest ⟨.loop body next, outer⟩
      = .jz :: (body.opcodes ++ .jmp :: (next.opcodes ++ restBehind outer)) := by
  simp [rest, Program.opcodes]

/-- What lies behind a place in a body is a tail of what lies behind the loop's
opening bracket. -/
theorem rest_suffix_rest_loop {here body : Program} (h : here.IsTail body) (next : Program)
    (outer : List (Program × Program)) :
    rest ⟨here, (body, next) :: outer⟩ <:+ rest ⟨.loop body next, outer⟩ := by
  rw [rest_loop]
  obtain ⟨before, h_before⟩ := h.opcodes_suffix
  exact ⟨.jz :: before, by simp [rest, restBehind, ← h_before]⟩

/-- **The operations from a site on are a tail of all operations.** -/
theorem Inside.rest_suffix {f : Site} (h : f.Inside p) : f.rest <:+ p.opcodes := by
  obtain ⟨here, outer⟩ := f
  induction outer generalizing here with
  | nil =>
    have h_tail : here.IsTail p := h
    simpa [rest, restBehind] using h_tail.opcodes_suffix
  | cons loop outer ih =>
    obtain ⟨body, next⟩ := loop
    exact (rest_suffix_rest_loop h.1 next outer).trans (ih _ h.2)

/-- The words before a site and those from it on are all words of the program. -/
theorem Inside.address_add {f : Site} (h : f.Inside p) :
    f.address p + Opcode.wordCount f.rest = p.size := by
  obtain ⟨before, h_before⟩ := h.rest_suffix
  have h_count := congrArg Opcode.wordCount h_before
  rw [Opcode.wordCount_append, Program.wordCount_opcodes] at h_count
  rw [address]
  omega

/-- A site with something left to do has its address inside the program. -/
theorem Inside.address_lt {f : Site} (h : f.Inside p) (h_ne : f ≠ finish) :
    f.address p < p.size := by
  have h_count := h.address_add
  cases h_rest : f.rest with
  | nil => exact absurd (f.rest_eq_nil_iff.mp h_rest) h_ne
  | cons op ops =>
    -- the operation that is next takes a word at least
    have h_pos := op.size_pos
    rw [h_rest, Opcode.wordCount_cons] at h_count
    omega

theorem address_finish (p : Program) : finish.address p = p.size := by
  rw [address, finish.rest_eq_nil_iff.mpr rfl]
  exact Nat.sub_zero _

theorem address_start (p : Program) : (start p).address p = 0 := by
  have h_rest : (start p).rest = p.opcodes := List.append_nil _
  rw [address, h_rest, Program.wordCount_opcodes]
  exact Nat.sub_self _

/-- A program with words does not end where it starts. -/
theorem start_ne_finish (h : 0 < p.size) : start p ≠ finish := by
  intro h_eq
  have h_address := congrArg (address p) h_eq
  rw [address_start, address_finish] at h_address
  omega

/-- The address of a place in a body, from that of the loop. -/
theorem Inside.address_inner {here body next : Program} {outer : List (Program × Program)}
    (h : Inside p ⟨here, (body, next) :: outer⟩) :
    address p ⟨here, (body, next) :: outer⟩
      = address p ⟨.loop body next, outer⟩ + 2 + (body.size - here.size) := by
  have h_loop : Inside p ⟨.loop body next, outer⟩ := h.2
  have h_size : here.size ≤ body.size := h.1.size_le
  -- both addresses by what is left to do from there, which differs by the test and the items before
  have h_here := h.address_add
  have h_outer := h_loop.address_add
  rw [rest_loop] at h_outer
  simp only [rest, restBehind, Opcode.wordCount_cons, Opcode.wordCount_append,
    Program.wordCount_opcodes, Opcode.size] at h_here h_outer
  omega

/-- Behind a command stands the next word. -/
theorem Inside.address_plain {c : Command} {next : Program} {outer : List (Program × Program)}
    (h : Inside p ⟨.plain c next, outer⟩) :
    address p ⟨next, outer⟩ = address p ⟨.plain c next, outer⟩ + 1 := by
  have h_next : Inside p ⟨next, outer⟩ := Encloses.tail h (.plain c .refl)
  have h_here := h.address_add
  have h_count := h_next.address_add
  simp only [rest, Program.opcodes, List.cons_append, Opcode.wordCount_cons, Opcode.size]
    at h_here h_count
  omega

/-- The body of a loop stands behind its test. -/
theorem Inside.address_enter {body next : Program} {outer : List (Program × Program)}
    (h : Inside p ⟨.loop body next, outer⟩) :
    address p ⟨body, (body, next) :: outer⟩ = address p ⟨.loop body next, outer⟩ + 2 := by
  have h_body : Inside p ⟨body, (body, next) :: outer⟩ := ⟨.refl, h⟩
  rw [h_body.address_inner, Nat.sub_self, Nat.add_zero]

/-- What follows a loop stands behind its jump back. -/
theorem Inside.address_skip {body next : Program} {outer : List (Program × Program)}
    (h : Inside p ⟨.loop body next, outer⟩) :
    address p ⟨next, outer⟩ = address p ⟨.loop body next, outer⟩ + 4 + body.size := by
  have h_next : Inside p ⟨next, outer⟩ := Encloses.tail h (.loop body .refl)
  have h_here := h.address_add
  have h_count := h_next.address_add
  rw [rest_loop] at h_here
  simp only [rest, Opcode.wordCount_cons, Opcode.wordCount_append, Program.wordCount_opcodes,
    Opcode.size] at h_here h_count
  omega

/-- **The program at a site.** If the program stands at the start of code memory, the
rest of the block at a site stands at the address of the site. -/
theorem Inside.standsAt {code : Memory} {f : Site} (h : f.Inside p) (hp : p.StandsAt code 0) :
    f.here.StandsAt code (f.address p) := by
  obtain ⟨here, outer⟩ := f
  induction outer generalizing here with
  | nil =>
    have h_tail : here.IsTail p := h
    have h_stands := hp.tail h_tail
    rw [Nat.zero_add] at h_stands
    simpa [address, rest, restBehind] using h_stands
  | cons loop outer ih =>
    -- the block is a tail of the body, and the body stands two words behind the loop
    obtain ⟨body, next⟩ := loop
    have h_loop : Inside p ⟨.loop body next, outer⟩ := h.2
    have h_tail : here.IsTail body := h.1
    rw [h.address_inner]
    exact (ih _ h_loop).2.2.1.tail h_tail

/-- At the end of a body stands the jump back, with the distance of its loop. -/
theorem Inside.reads_back {code : Memory} {body next : Program} {outer : List (Program × Program)}
    (h : Inside p ⟨.done, (body, next) :: outer⟩) (hp : p.StandsAt code 0) :
    let a := address p ⟨.done, (body, next) :: outer⟩
    a = address p ⟨.loop body next, outer⟩ + 2 + body.size ∧
      .ofWord (code.read a) = Opcode.jmp ∧
      (code.read (a + 1)).toNat = Program.jumpDistance body.size := by
  -- the words of the jump back are found from the address of the loop
  have h_loop : Inside p ⟨.loop body next, outer⟩ := h.2
  obtain ⟨-, -, -, h_op, h_literal, -⟩ := h_loop.standsAt hp
  have h_at := h.address_inner
  rw [Program.size_done, Nat.sub_zero] at h_at
  refine ⟨h_at, by rw [h_at]; exact h_op, ?_⟩
  rw [h_at, show ∀ a s : ℕ, a + 2 + s + 1 = a + 3 + s by intros; omega, h_literal]

/-- **The operation at a site.** Code memory holds the next operation at the address of
the site. -/
theorem Inside.reads {code : Memory} {f : Site} (h : f.Inside p) (hp : p.StandsAt code 0)
    {op : Opcode} {ops : List Opcode} (h_rest : f.rest = op :: ops) :
    .ofWord (code.read (f.address p)) = op := by
  have h_here := h.standsAt hp
  obtain ⟨here, outer⟩ := f
  cases here with
  | done =>
    cases outer with
    | nil => cases h_rest
    | cons loop outer =>
      obtain ⟨rfl, -⟩ := List.cons.inj h_rest
      -- at the end of a body the next operation is the jump back, which no block holds
      exact (h.reads_back hp).2.1
  | plain c next =>
    obtain ⟨rfl, -⟩ := List.cons.inj h_rest
    exact h_here.1
  | loop body next =>
    rw [rest_loop] at h_rest
    obtain ⟨rfl, -⟩ := List.cons.inj h_rest
    exact h_here.1

/-- Every way to split the operations of a block belongs to a site of the program. -/
theorem exists_of_append {outer : List (Program × Program)} {q : Program}
    (h : Encloses p outer q) {l m : List Opcode} (h_ops : q.opcodes = l ++ m) :
    ∃ f : Site, f.Inside p ∧ f.rest = m ++ restBehind outer := by
  induction q generalizing outer l m with
  | done =>
    obtain ⟨rfl, rfl⟩ := List.append_eq_nil_iff.mp h_ops.symm
    exact ⟨⟨.done, outer⟩, h, rfl⟩
  | plain c next ih =>
    cases l with
    | nil => exact ⟨⟨.plain c next, outer⟩, h, by rw [rest, h_ops, List.nil_append]⟩
    | cons op l =>
      obtain ⟨-, h_next⟩ := List.cons.inj h_ops
      exact ih (h.tail (.plain c .refl)) h_next
  | loop body next ih_body ih =>
    cases l with
    | nil => exact ⟨⟨.loop body next, outer⟩, h, by rw [rest, h_ops, List.nil_append]⟩
    | cons op l =>
      obtain ⟨-, h_inner⟩ := List.cons.inj h_ops
      have h_body : Encloses p ((body, next) :: outer) body := ⟨.refl, h⟩
      -- the split lies behind the body or inside it
      rcases List.append_eq_append_iff.mp h_inner with ⟨l', h_l, h_rest⟩ | ⟨m', h_left, h_m⟩
      · cases l' with
        | nil =>
          -- the split is in front of the closing bracket
          obtain ⟨f, h_in, h_f⟩ := ih_body h_body (List.append_nil body.opcodes).symm
          refine ⟨f, h_in, ?_⟩
          rw [h_f, List.nil_append, ← List.nil_append m, ← h_rest, restBehind, List.cons_append]
        | cons op' l' =>
          obtain ⟨-, h_next⟩ := List.cons.inj h_rest
          exact ih (h.tail (.loop body .refl)) h_next
      · obtain ⟨f, h_in, h_f⟩ := ih_body h_body h_left
        refine ⟨f, h_in, ?_⟩
        rw [h_f, h_m, restBehind, List.append_assoc, List.cons_append]

/-- **Every place among the operations is a site.** -/
theorem exists_of_suffix {m : List Opcode} (h : m <:+ p.opcodes) :
    ∃ f : Site, f.Inside p ∧ f.rest = m := by
  obtain ⟨l, h_split⟩ := h
  obtain ⟨f, h_in, h_rest⟩ := exists_of_append (inside_start p) h_split.symm
  refine ⟨f, h_in, ?_⟩
  rw [h_rest, start, restBehind, List.append_nil]

end Site

end TapeProcessor
