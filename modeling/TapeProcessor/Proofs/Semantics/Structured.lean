import TapeProcessor.Proofs.Semantics.Tape
import TapeProcessor.Program.Basic

/-!
# The structured semantics of programs

The meaning of a program as a tree of commands and loops, with no addresses, no
jumps and no encoding.

`Config` is a tape together with the input that has not been read and the output
so far. `Program.Runs p s k t` says that `p`, started in `s`, terminates in `t`
after `k` steps, where every command, every loop test and every jump back counts
as one. A `get` on empty input has no rule, so a program that asks for more than
there is has no run, and neither has one that goes round for ever.

`Runs` is big-step and says nothing about the configurations on the way. The
small-step form is a `Site`, a place in the tree: what is left of the block it
stands in, and for each loop around it the body and what follows it. `Site.turn`
is one step under arbitrary signals, and `Site.step?` the step of a configuration,
which offers its own input and takes all output.

The two forms agree step for step. `Site.Finishes f s k t` reads the rest of the
computation at a site through `Runs`: finish the block, jump back, run the loop
around it, and so on outward. A step from a site that is not the end takes exactly
one step off it, in both directions:

* `Site.finishes_of_step` adds a step in front of a rest of a computation;
* `Site.Finishes.step` takes one off;
* `Site.finishes_end_iff` says that at the end nothing is left.
-/

namespace TapeProcessor

variable {n : ℕ}

/-- A tape with its input and output. -/
structure Config (n : ℕ) where
  tape : Tape n
  /-- The bytes that were not read yet, the next one first. -/
  input : List UInt8
  /-- The bytes written so far. -/
  output : List UInt8

namespace Config

/-- A configuration takes all output and offers the next byte of its input. -/
def signals (s : Config n) : Signals := ⟨true, s.input.head?⟩

/-- The configuration after a deed. -/
def after (s : Config n) (d : Deed n) : Config n where
  tape := d.tape
  input := if d.taken then s.input.tail else s.input
  output := s.output ++ d.sent.toList

/-- The configuration after a command; `none` if it asks for input and there is
none. -/
def act (s : Config n) (c : Command) : Option (Config n) :=
  (s.tape.act s.signals c).map s.after

/-- A silent deed that leaves the tape alone leaves the whole configuration alone. -/
@[simp] theorem after_silent (s : Config n) : s.after (.silent s.tape) = s := by
  cases s
  simp [after, Deed.silent]

end Config

/-- **The structured semantics.** `Runs p s k t`: from `s`, the program `p`
terminates in `t` after `k` steps. -/
inductive Program.Runs : Program → Config n → ℕ → Config n → Prop
  | done (s : Config n) : Runs .done s 0 s
  | plain {c : Command} {next : Program} {s u t : Config n} {k : ℕ} :
      s.act c = some u → Runs next u k t → Runs (.plain c next) s (k + 1) t
  /-- The test finds a zero and the loop is left: one step. -/
  | skip {body next : Program} {s t : Config n} {k : ℕ} :
      s.tape.cell = 0 → Runs next s k t → Runs (.loop body next) s (k + 1) t
  /-- The test, the body, the jump back, and the loop again. -/
  | round {body next : Program} {s u t : Config n} {k m : ℕ} :
      s.tape.cell ≠ 0 → Runs body s k u → Runs (.loop body next) u m t →
      Runs (.loop body next) s (1 + k + 1 + m) t

/-- A place in a program: the rest of a block, and for each loop around the block,
the innermost first, its body and what follows the loop. -/
structure Site where
  here : Program
  outer : List (Program × Program)
  deriving DecidableEq, Repr

namespace Site

/-- The end of a whole program. -/
def finish : Site := ⟨.done, []⟩

/-- The start of a whole program. -/
def start (p : Program) : Site := ⟨p, []⟩

/-- One step from a site. At the end of a body it jumps back to the loop. -/
def turn (f : Site) (g : Signals) (t : Tape n) : Turn Site n :=
  match f with
  | ⟨.done, []⟩ => .finished
  | ⟨.done, (body, next) :: outer⟩ => .goes ⟨.loop body next, outer⟩ (.silent t)
  | ⟨.plain c next, outer⟩ =>
    match t.act g c with
    | none => .waits
    | some deed => .goes ⟨next, outer⟩ deed
  | ⟨.loop body next, outer⟩ =>
    if t.cell = 0 then .goes ⟨next, outer⟩ (.silent t)
    else .goes ⟨body, (body, next) :: outer⟩ (.silent t)

/-- A site is finished only at the end of the whole program, whatever the signals and the tape. -/
theorem turn_eq_finished_iff (f : Site) (g : Signals) (t : Tape n) :
    f.turn g t = .finished ↔ f = finish := by
  obtain ⟨here, outer⟩ := f
  -- what is left of the block decides, and only at its end the loops around it
  cases here with
  | done => cases outer <;> simp [turn, finish]
  | plain c next => cases h : t.act g c <;> simp [turn, finish, h]
  | loop body next => by_cases h : t.cell = 0 <;> simp [turn, finish, h]

/-- One step of a configuration at a site; `none` at the end and while a command
waits for input. -/
def step? (f : Site) (s : Config n) : Option (Site × Config n) :=
  match f.turn s.signals s.tape with
  | .goes f' deed => some (f', s.after deed)
  | _ => none

section Steps

variable {c : Command} {body next : Program} {outer : List (Program × Program)} {s : Config n}

@[simp] theorem step?_finish : finish.step? s = none := rfl

/-- A command takes the site to what follows it in its block. -/
theorem step?_plain :
    (⟨.plain c next, outer⟩ : Site).step? s = (s.act c).map fun u => (⟨next, outer⟩, u) := by
  rw [step?, turn, Config.act]
  cases s.tape.act s.signals c <;> rfl

/-- On a zero a loop is left without its body. -/
theorem step?_skip (h : s.tape.cell = 0) :
    (⟨.loop body next, outer⟩ : Site).step? s = some (⟨next, outer⟩, s) := by
  rw [step?, turn, if_pos h]
  simp

/-- On any other cell the loop is entered, and is now the innermost one around the site. -/
theorem step?_enter (h : s.tape.cell ≠ 0) :
    (⟨.loop body next, outer⟩ : Site).step? s = some (⟨body, (body, next) :: outer⟩, s) := by
  rw [step?, turn, if_neg h]
  simp

/-- At the end of a body the site jumps back to its loop. -/
theorem step?_back :
    (⟨.done, (body, next) :: outer⟩ : Site).step? s = some (⟨.loop body next, outer⟩, s) := by
  rw [step?, turn]
  simp

end Steps

/-! ### The rest of a computation -/

/-- What is left when a block has been finished inside the loops `outer`: nothing
outside all loops, and otherwise the jump back and the loop again, with what
follows it. -/
def Returns : List (Program × Program) → Config n → ℕ → Config n → Prop
  | [], s, k, t => k = 0 ∧ s = t
  | (body, next) :: outer, s, k, t =>
    ∃ j m u, k = 1 + j + m ∧ (Program.loop body next).Runs s j u ∧ Returns outer u m t

/-- The whole computation terminates in `t`, after `k` more steps from the site. -/
def Finishes (f : Site) (s : Config n) (k : ℕ) (t : Config n) : Prop :=
  ∃ j m u, k = j + m ∧ f.here.Runs s j u ∧ Returns f.outer u m t

variable {f f' : Site} {s s' t : Config n} {k : ℕ}

/-- From the start of a program, what is left is a run of the program. -/
theorem finishes_start_iff {p : Program} : (start p).Finishes s k t ↔ p.Runs s k t := by
  constructor
  · rintro ⟨j, m, u, rfl, h_run, rfl, rfl⟩
    exact h_run
  · intro h_run
    exact ⟨k, 0, t, rfl, h_run, rfl, rfl⟩

/-- At the end of a program nothing is left. -/
theorem finishes_finish_iff : finish.Finishes s k t ↔ k = 0 ∧ s = t := by
  constructor
  · rintro ⟨j, m, u, rfl, h_run, rfl, rfl⟩
    cases h_run
    exact ⟨rfl, rfl⟩
  · rintro ⟨rfl, rfl⟩
    exact ⟨0, 0, s, rfl, .done s, rfl, rfl⟩

/-- **A step in front.** If the site steps to one from which the computation
terminates, it terminates with one step more. -/
theorem finishes_of_step (h_step : f.step? s = some (f', s')) (h : f'.Finishes s' k t) :
    f.Finishes s (k + 1) t := by
  obtain ⟨here, outer⟩ := f
  obtain ⟨j, m, u, rfl, h_run, h_ret⟩ := h
  cases here with
  | done =>
    cases outer with
    | nil => exact absurd h_step (by simp [step?, turn])
    | cons loop outer =>
      -- the run of the loop becomes what is left behind the jump back
      obtain ⟨body, next⟩ := loop
      rw [step?_back] at h_step
      obtain ⟨rfl, rfl⟩ := h_step
      exact ⟨0, 1 + j + m, s, by omega, .done s, j, m, u, rfl, h_run, h_ret⟩
  | plain c next =>
    -- the command becomes the first step of the run that is left
    rw [step?_plain] at h_step
    cases h_act : s.act c with
    | none => exact absurd h_step (by simp [h_act])
    | some v =>
      rw [h_act] at h_step
      obtain ⟨rfl, rfl⟩ := h_step
      exact ⟨j + 1, m, u, by omega, .plain h_act h_run, h_ret⟩
  | loop body next =>
    by_cases h_cell : s.tape.cell = 0
    · -- the test becomes the first step
      rw [step?_skip h_cell] at h_step
      obtain ⟨rfl, rfl⟩ := h_step
      exact ⟨j + 1, m, u, by omega, .skip h_cell h_run, h_ret⟩
    · -- the rest begins with the body and goes on with the jump back and the loop
      rw [step?_enter h_cell] at h_step
      obtain ⟨rfl, rfl⟩ := h_step
      obtain ⟨i, m', v, rfl, h_loop, h_ret⟩ := h_ret
      exact ⟨1 + j + 1 + i, m', v, by omega, .round h_cell h_run h_loop, h_ret⟩

/-- **A step taken off.** A computation that terminates is at the end, or it steps
and terminates from there with one step less. -/
theorem Finishes.step (h : f.Finishes s k t) :
    (f = finish ∧ k = 0 ∧ s = t) ∨
      ∃ f' s' k', f.step? s = some (f', s') ∧ f'.Finishes s' k' t ∧ k = k' + 1 := by
  obtain ⟨here, outer⟩ := f
  obtain ⟨j, m, u, rfl, h_run, h_ret⟩ := h
  cases h_run with
  | done =>
    cases outer with
    | nil =>
      -- outside all loops this is the end
      obtain ⟨rfl, rfl⟩ := h_ret
      exact Or.inl ⟨rfl, rfl, rfl⟩
    | cons loop outer =>
      -- inside a loop the step is the jump back
      obtain ⟨body, next⟩ := loop
      obtain ⟨i, m', v, rfl, h_loop, h_ret⟩ := h_ret
      exact Or.inr ⟨_, _, i + m', step?_back, ⟨i, m', v, rfl, h_loop, h_ret⟩, by omega⟩
  | @plain c next _ v _ k h_act h_run =>
    refine Or.inr ⟨⟨next, outer⟩, v, k + m, ?_, ⟨k, m, u, rfl, h_run, h_ret⟩, by omega⟩
    rw [step?_plain, h_act]
    rfl
  | @skip body next _ _ k h_cell h_run =>
    exact Or.inr ⟨_, _, k + m, step?_skip h_cell, ⟨k, m, u, rfl, h_run, h_ret⟩, by omega⟩
  | @round body next _ v _ k i h_cell h_run h_loop =>
    -- the jump back and the loop are what is left when the body has been finished
    refine Or.inr ⟨_, _, k + (1 + i + m), step?_enter h_cell, ⟨k, 1 + i + m, v, rfl, h_run, ?_⟩,
      by omega⟩
    exact ⟨i, m, u, rfl, h_loop, h_ret⟩

end Site

end TapeProcessor
