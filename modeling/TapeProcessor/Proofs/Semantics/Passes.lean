import TapeProcessor.Proofs.Program.Loops

/-!
# A program run again and again

There is no halt: behind its last operation a program meets the words that are left in code
memory, and then its own start. Words of zero are operations that count the cell up, so a
memory that is zero behind an image holds a longer program, the one with so many `inc`
behind it (`Program.incs`). A run of this program is a run of the first one, and then the
current cell has grown (`Program.Runs.of_append_incs`).

`Program.Passes p gap m s t` is the meaning of `m` passes: `p` is run `m` times in sequence,
each time on the tape and the input that the last run has left, and after each run the
current cell grows by `gap`. There is at most one outcome (`Program.Passes.unique`), since a
run of a program has only one (`Program.Runs.unique`).
-/

namespace TapeProcessor

variable {n : ℕ}

/-! ### Cells that grow -/

namespace Tape

variable (t : Tape n)

@[simp] theorem cell_set (byte : UInt8) : (t.set byte).cell = byte :=
  Function.update_self ..

@[simp] theorem set_set (first second : UInt8) : (t.set first).set second = t.set second :=
  Tape.ext (Function.update_idem ..) rfl

@[simp] theorem set_cell : t.set t.cell = t :=
  Tape.ext (Function.update_eq_self ..) rfl

/-- The tape with its current cell counted up so many times. -/
def grow (count : ℕ) : Tape n := t.set (t.cell + UInt8.ofNat count)

@[simp] theorem grow_zero : t.grow 0 = t := by
  rw [grow, show UInt8.ofNat 0 = 0 from rfl, UInt8.add_zero, set_cell]

/-- One more, then the rest. -/
theorem grow_succ (count : ℕ) : (t.set (t.cell + 1)).grow count = t.grow (count + 1) := by
  rw [grow, cell_set, set_set, grow, UInt8.add_assoc, Nat.add_comm count 1, UInt8.ofNat_add]
  rfl

end Tape

namespace Config

/-- The configuration with the current cell counted up so many times. -/
def grow (s : Config n) (count : ℕ) : Config n := { s with tape := s.tape.grow count }

@[simp] theorem grow_zero (s : Config n) : s.grow 0 = s := by
  rw [grow, Tape.grow_zero]

theorem act_inc (s : Config n) :
    s.act .inc = some { s with tape := s.tape.set (s.tape.cell + 1) } := by
  simp [act, Tape.act, after, Deed.silent]

end Config

namespace Program

/-! ### Runs -/

/-- **A run has one outcome**, and takes so many steps. -/
theorem Runs.unique {p : Program} {s t u : Config n} {k m : ℕ} (h : p.Runs s k t)
    (h' : p.Runs s m u) : k = m ∧ t = u := by
  induction h generalizing m u with
  | done => cases h'; exact ⟨rfl, rfl⟩
  | plain h_act _ ih =>
    cases h' with
    | plain h_act' h_next =>
      obtain rfl := Option.some.inj (h_act.symm.trans h_act')
      obtain ⟨rfl, rfl⟩ := ih h_next
      exact ⟨rfl, rfl⟩
  | skip h_cell _ ih =>
    cases h' with
    | skip _ h_next =>
      obtain ⟨rfl, rfl⟩ := ih h_next
      exact ⟨rfl, rfl⟩
    | round h_cell' => exact absurd h_cell h_cell'
  | round h_cell _ _ ih_body ih =>
    cases h' with
    | skip h_cell' => exact absurd h_cell' h_cell
    | round _ h_body h_loop =>
      obtain ⟨rfl, rfl⟩ := ih_body h_body
      obtain ⟨rfl, rfl⟩ := ih h_loop
      -- the loop is run again from what the body has left, which is the same in both runs
      exact ⟨rfl, rfl⟩

/-- **A run of one program behind another** is a run of the first and then one of the
second. -/
theorem Runs.of_append {p q : Program} {s t : Config n} {k : ℕ} (h : (p.append q).Runs s k t) :
    ∃ j m u, k = j + m ∧ p.Runs s j u ∧ q.Runs u m t := by
  generalize h_both : p.append q = both at h
  -- the induction is on the run, since a loop is run again
  induction h generalizing p with
  | done s =>
    cases p with
    | done =>
      obtain rfl : q = _ := h_both
      exact ⟨0, 0, s, rfl, .done s, .done s⟩
    | plain | loop => cases h_both
  | @plain c next s u t k h_act h_next ih =>
    cases p with
    | done =>
      obtain rfl : q = _ := h_both
      -- nothing is left of the first program, so the run is one of the second
      exact ⟨0, _, s, (Nat.zero_add _).symm, .done s, .plain h_act h_next⟩
    | plain =>
      obtain ⟨rfl, h_rest⟩ := Program.plain.inj h_both
      obtain ⟨j, m, v, rfl, h_first, h_second⟩ := ih h_rest
      exact ⟨j + 1, m, v, by omega, .plain h_act h_first, h_second⟩
    | loop => cases h_both
  | @skip body next s t k h_cell h_next ih =>
    cases p with
    | done =>
      obtain rfl : q = _ := h_both
      exact ⟨0, _, s, (Nat.zero_add _).symm, .done s, .skip h_cell h_next⟩
    | plain => cases h_both
    | loop =>
      obtain ⟨rfl, h_rest⟩ := Program.loop.inj h_both
      obtain ⟨j, m, v, rfl, h_first, h_second⟩ := ih h_rest
      exact ⟨j + 1, m, v, by omega, .skip h_cell h_first, h_second⟩
  | @round body next s u t k m h_cell h_body h_loop ih_body ih =>
    cases p with
    | done =>
      obtain rfl : q = _ := h_both
      exact ⟨0, _, s, (Nat.zero_add _).symm, .done s, .round h_cell h_body h_loop⟩
    | plain => cases h_both
    | loop =>
      -- after the body the whole is run again, and `ih` splits that run
      obtain ⟨i, j, v, rfl, h_first, h_second⟩ := ih h_both
      obtain ⟨rfl, -⟩ := Program.loop.inj h_both
      exact ⟨1 + k + 1 + i, j, v, by omega, .round h_cell h_body h_first, h_second⟩

/-! ### Zeros behind a program -/

/-- The program that counts the current cell up so many times. -/
def incs : ℕ → Program
  | 0 => done
  | count + 1 => plain .inc (incs count)

/-- Its image is zero. -/
theorem words_incs (count : ℕ) : (incs count).words = List.replicate count 0 := by
  induction count with
  | zero => rfl
  | succ count ih => rw [incs, words, ih]; rfl

theorem size_incs (count : ℕ) : (incs count).size = count := by
  rw [← length_words, words_incs, List.length_replicate]

theorem fits_incs (count : ℕ) : (incs count).Fits := by
  induction count with
  | zero => trivial
  | succ count ih => exact ih

/-- The program behind is a tail of both. -/
theorem isTail_append (p q : Program) : q.IsTail (p.append q) := by
  induction p with
  | done => exact .refl
  | plain c next ih => exact .plain c ih
  | loop body next _ ih => exact .loop body ih

/-- All it does is let the cell grow. -/
theorem Runs.of_incs {count : ℕ} {s t : Config n} {k : ℕ} (h : (incs count).Runs s k t) :
    t = s.grow count := by
  induction count generalizing s k with
  | zero =>
    cases h
    exact (Config.grow_zero _).symm
  | succ count ih =>
    cases h with
    | plain h_act h_next =>
      obtain rfl := Option.some.inj (s.act_inc.symm.trans h_act)
      rw [ih h_next, Config.grow, Config.grow, Tape.grow_succ]

/-- **A run over the zeros behind a program** makes the current cell grow. -/
theorem Runs.of_append_incs {p : Program} {gap : ℕ} {s t : Config n} {k : ℕ}
    (h : (p.append (incs gap)).Runs s k t) : ∃ j u, p.Runs s j u ∧ t = u.grow gap := by
  obtain ⟨j, m, u, -, h_first, h_second⟩ := h.of_append
  exact ⟨j, u, h_first, h_second.of_incs⟩

/-! ### Passes -/

/-- `p` is run `m` times in sequence, and after each run the current cell grows by `gap`. -/
def Passes (p : Program) (gap : ℕ) : ℕ → Config n → Config n → Prop
  | 0, s, t => s = t
  | m + 1, s, t => ∃ k u, p.Runs s k u ∧ Passes p gap m (u.grow gap) t

/-- **Passes have one outcome.** -/
theorem Passes.unique {p : Program} {gap m : ℕ} {s t u : Config n} (h : p.Passes gap m s t)
    (h' : p.Passes gap m s u) : t = u := by
  induction m generalizing s with
  | zero => exact Eq.trans (Eq.symm h) h'
  | succ m ih =>
    obtain ⟨k, v, h_run, h_rest⟩ := h
    obtain ⟨k', v', h_run', h_rest'⟩ := h'
    -- the first pass has one outcome, and the others start from it
    obtain ⟨-, rfl⟩ := h_run.unique h_run'
    exact ih h_rest h_rest'

/-- Passes over a program with zeros behind it. -/
theorem Passes.of_append_incs {p : Program} {gap m : ℕ} {s t : Config n}
    (h : (p.append (incs gap)).Passes 0 m s t) : p.Passes gap m s t := by
  induction m generalizing s with
  | zero => exact h
  | succ m ih =>
    obtain ⟨k, u, h_run, h_rest⟩ := h
    obtain ⟨j, v, h_first, rfl⟩ := h_run.of_append_incs
    rw [Config.grow_zero] at h_rest
    exact ⟨j, v, h_first, ih h_rest⟩

end Program

end TapeProcessor
