import TapeProcessor.Program.Token
import TapeProcessor.Program.Violation

/-!
# Reading a program from its operations

A program is read by recursive descent, one level for each open loop. A block is
the part of a text up to the bracket that closes the loop it stands in, or up to
the end; reading it returns its program and the operations behind it.

* `Program.block` reads one block. Every loop that is open adds the words of its
  jumps to all bodies around it, so a loop that would be opened too deep is
  refused before its body is looked at; this also bounds the descent.
* `Program.ofTokens` reads a whole text.
* `Program.compile` is the image of a source text for a code memory of a given
  capacity.
-/

namespace TapeProcessor.Program

/-- The number of words that the jumps of the open loops may take: those of code
memory, and of a body that a distance can span. -/
def nestingLimit (capacity : Int) : Int := min capacity (maxDistance + 1)

/-- Reads the rest of a block `depth` loops deep. The items read so far stand in
`before`, the last one first. The result holds the program of the block and the
operations behind it, which are no more than there are in `outer`. -/
def block (limit : Int) (depth : Nat) (outer : List Token) (before : Program)
    (tokens : List Token) (h_inside : tokens.length ≤ outer.length) :
    Except Violation { r : Program × List Token // r.2.length ≤ outer.length } :=
  match tokens, h_inside with
  -- the text ends here; whoever opened a loop around it finds no token left
  | [], h_inside => .ok ⟨(before.reverse, []), h_inside⟩
  | ⟨.plain c, _⟩ :: rest, h_inside =>
    block limit depth outer (.plain c before) rest (Nat.le_of_succ_le h_inside)
  | ⟨.jz, position⟩ :: rest, h_inside =>
    -- refused before the body is looked at, which bounds the descent
    if loopOverhead * (depth + 1) > limit then
      .error ⟨.nestingTooDeep (depth + 1) limit, position⟩
    else
      match block limit (depth + 1) rest .done rest (Nat.le_refl _) with
      | .error violation => .error violation
      | .ok ⟨(_, []), _⟩ => .error ⟨.neverClosed, position⟩
      | .ok ⟨(body, _ :: behind), h_shorter⟩ =>
        -- the body is known now, and its jumps have to span it
        if jumpDistance body.size > maxDistance then
          .error ⟨.bodyTooLong body.size, position⟩
        else
          block limit depth outer (.loop body before) behind (by
            simp only [List.length_cons] at h_inside h_shorter
            omega)
  | ⟨.jmp, position⟩ :: rest, h_inside =>
    -- outside all loops there is nothing to close; else the bracket is left to the level above
    if depth = 0 then .error ⟨.neverOpened, position⟩
    else .ok ⟨(before.reverse, ⟨.jmp, position⟩ :: rest), h_inside⟩
termination_by tokens.length
decreasing_by
  all_goals simp only [List.length_cons] at *
  all_goals omega

/-- Reads the program of a whole text for a code memory of `capacity` words. -/
def ofTokens (capacity : Int) (tokens : List Token) : Except Violation Program :=
  (block (nestingLimit capacity) 0 tokens .done tokens (Nat.le_refl _)).map (·.val.1)

/-- The image of a source text, or the first reason to reject it. -/
def compile (source : String) (capacity : Int) : Except Violation (Array UInt8) := do
  let text := source.toList
  let program ← ofTokens capacity (Token.scan text)
  let image := program.encode
  if image.size > capacity then
    throw ⟨.programTooLong image.size capacity, text.length⟩
  return image

end TapeProcessor.Program
