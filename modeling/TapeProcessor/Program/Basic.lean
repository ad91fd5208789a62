import TapeProcessor.Opcode

/-!
# Structured programs and their images

A program is a row of commands and loops. In code memory a command is one word,
and a loop whose body takes `n` words is laid out as

    JZ  n+3  <body, n words>  JMP  n+3

so that one distance serves both jumps: from the word behind `JZ`, `n + 3` words
on lies the word behind the loop, and from the word behind `JMP`, `n + 3` words
back lies the `JZ`.

* `Program` is the tree of commands and loops; `Program.opcodes` spells it out.
* `Program.words` is its image, and `Program.size` the length of the image
  (`Program.length_words`).
* `Program.encode` builds the same image in an array (`Program.toList_encode`).
-/

namespace TapeProcessor

/-- A row of commands and loops, from the first one on. -/
inductive Program
  | done
  | plain (c : Command) (next : Program)
  | loop (body next : Program)
  deriving DecidableEq, Repr

namespace Program

/-- The words a loop takes besides its body: two jumps and their distances. -/
def loopOverhead : Nat := 4

/-- The largest distance that the word behind a jump can hold. -/
def maxDistance : Nat := 255

/-- The distance of both jumps of a loop around a body of `words` words. -/
def jumpDistance (words : Nat) : Nat := words + 3

/-- The operations as they stand in source text, brackets included. -/
def opcodes : Program → List Opcode
  | done => []
  | plain c next => .plain c :: next.opcodes
  | loop body next => .jz :: (body.opcodes ++ .jmp :: next.opcodes)

/-- One program behind another. -/
def append : Program → Program → Program
  | done, q => q
  | plain c next, q => plain c (next.append q)
  | loop body next, q => loop body (next.append q)

/-- Puts the items of a program, the last one first, in front of `q`. -/
def reverseOnto : Program → Program → Program
  | done, q => q
  | plain c next, q => next.reverseOnto (plain c q)
  | loop body next, q => next.reverseOnto (loop body q)

/-- The items in opposite order; the bodies of loops stay as they are. -/
def reverse (p : Program) : Program := p.reverseOnto done

/-- Adds the number of words of a program to `count`. -/
def sizeOnto (count : Nat) : Program → Nat
  | done => count
  | plain _ next => next.sizeOnto (count + 1)
  | loop body next => next.sizeOnto (body.sizeOnto count + loopOverhead)

/-- The number of words of the image. -/
def size (p : Program) : Nat := p.sizeOnto 0

/-- The image, word for word. A distance stands for a word only up to
`maxDistance`; programs read from source text respect that. -/
def words : Program → List UInt8
  | done => []
  | plain c next => (Opcode.plain c).word :: next.words
  | loop body next =>
    let distance := UInt8.ofNat (jumpDistance body.size)
    Opcode.jz.word :: distance :: (body.words ++ Opcode.jmp.word :: distance :: next.words)

/-- Appends the image of a program to `image`. -/
def encodeOnto (image : Array UInt8) : Program → Array UInt8
  | done => image
  | plain c next => next.encodeOnto (image.push (Opcode.plain c).word)
  | loop body next =>
    let distance := UInt8.ofNat (jumpDistance body.size)
    let opened := (image.push Opcode.jz.word).push distance
    next.encodeOnto (((body.encodeOnto opened).push Opcode.jmp.word).push distance)

/-- The image of a program. -/
def encode (p : Program) : Array UInt8 := p.encodeOnto #[]

/-! ### Counting words -/

/-- Counting on is adding. -/
theorem sizeOnto_eq (count : Nat) (p : Program) : p.sizeOnto count = count + p.size := by
  induction p generalizing count with
  | done => rfl
  | plain c next ih =>
    show next.sizeOnto (count + 1) = count + next.sizeOnto 1
    rw [ih, ih 1]
    omega
  | loop body next ih_body ih =>
    show next.sizeOnto (body.sizeOnto count + loopOverhead)
      = count + next.sizeOnto (body.size + loopOverhead)
    rw [ih, ih (body.size + loopOverhead), ih_body]
    omega

@[simp] theorem size_done : done.size = 0 := rfl

@[simp] theorem size_plain (c : Command) (next : Program) :
    (plain c next).size = 1 + next.size := sizeOnto_eq 1 next

@[simp] theorem size_loop (body next : Program) :
    (loop body next).size = body.size + loopOverhead + next.size :=
  sizeOnto_eq (body.size + loopOverhead) next

/-- **The image has as many words as are counted.** -/
theorem length_words (p : Program) : p.words.length = p.size := by
  induction p with
  | done => rfl
  | plain c next ih => simp [words, ih]; omega
  | loop body next ih_body ih => simp [words, ih_body, ih, loopOverhead]; omega

/-- An image is put behind what is there. -/
theorem toList_encodeOnto (image : Array UInt8) (p : Program) :
    (p.encodeOnto image).toList = image.toList ++ p.words := by
  induction p generalizing image with
  | done => simp [encodeOnto, words]
  | plain c next ih => simp [encodeOnto, words, ih]
  | loop body next ih_body ih => simp [encodeOnto, words, ih, ih_body]

/-- **The array holds the image.** -/
theorem toList_encode (p : Program) : p.encode.toList = p.words := by
  simpa [encode] using toList_encodeOnto #[] p

@[simp] theorem size_encode (p : Program) : p.encode.size = p.size := by
  rw [← Array.length_toList, toList_encode, length_words]

/-! ### Joining and turning round -/

@[simp] theorem opcodes_append (p q : Program) : (p.append q).opcodes = p.opcodes ++ q.opcodes := by
  induction p with
  | done => rfl
  | plain c next ih => simp [append, opcodes, ih]
  | loop body next _ ih => simp [append, opcodes, ih]

@[simp] theorem append_done (p : Program) : p.append done = p := by
  induction p with
  | done => rfl
  | plain c next ih => simp [append, ih]
  | loop body next _ ih => simp [append, ih]

/-- What is put in front of `q` reversed does not depend on `q`. -/
theorem reverseOnto_eq (p q : Program) : p.reverseOnto q = p.reverse.append q := by
  have h_general :
      ∀ p q r : Program, p.reverseOnto (append q r) = (p.reverseOnto q).append r := by
    intro p
    induction p with
    | done => intro q r; rfl
    | plain c next ih => intro q r; exact ih (plain c q) r
    | loop body next _ ih => intro q r; exact ih (loop body q) r
  exact h_general p done q

end Program

end TapeProcessor
