import TapeProcessor.Proofs.Core.Recoding
import TapeProcessor.Proofs.Semantics.Passes
import TapeProcessor.Proofs.Source.Walk

/-!
# Passes through code memory

The machine does not halt. Where code memory is zero behind an image, the core counts the
current cell up on each word and then comes to the image again, at address zero. So it never
leaves the longer program that has these words behind the image
(`Program.incs`), and this program fills code memory: its end is its start.

* `Core.AtSite.behind` is the end of the image as a place in the longer program, and
  `Core.AtSite.sweep` the way from there through the words behind the image.
* `Core.EndsPass` says that the last clock of a run took the pointer over the end of code
  memory, and `Core.passesOn` counts such clocks. A jump back to address zero is none.
* `Core.takenOn` and `Core.sentOn` are the bytes that a run takes and sends.

A run that ends a pass is read from its first clock on (`Core.AtSite.exists_passes`): each
clock is a step of the computation at the site of the core, or it waits. At the end of the
program the computation is complete and the next one begins, on the tape and the input that
are left. `Core.passes` puts both together.
-/

namespace TapeProcessor

/-! ### What a step needs of the signals -/

/-- A deed depends on the input only if it takes it, and on nothing else if output is
taken. -/
theorem Tape.act_congr {n : ℕ} {t : Tape n} {g g' : Signals} {command : Command} {d : Deed n}
    (h : t.act g command = some d) (h_ready : g'.ready = true)
    (h_input : d.taken = true → g'.input = g.input) : t.act g' command = some d := by
  -- only `put` asks whether output is taken, and only `get` what is offered
  cases command with
  | inc | dec | right | left => exact h
  | put =>
    rw [act] at h ⊢
    rw [if_pos h_ready]
    split at h
    · exact h
    · cases h
  | get =>
    obtain ⟨byte, h_byte, rfl⟩ := Option.map_eq_some_iff.mp h
    rw [act, h_input rfl, h_byte]
    rfl

/-- A byte that is taken was offered. -/
theorem Tape.input_of_taken {n : ℕ} {t : Tape n} {g : Signals} {command : Command} {d : Deed n}
    (h : t.act g command = some d) (h_taken : d.taken = true) : g.input.isSome := by
  cases command with
  | inc | dec | right | left =>
    obtain rfl := Option.some.inj h
    cases h_taken
  | put =>
    rw [act] at h
    split at h
    · obtain rfl := Option.some.inj h
      cases h_taken
    · cases h
  | get =>
    obtain ⟨byte, h_byte, -⟩ := Option.map_eq_some_iff.mp h
    rw [h_byte]
    rfl

namespace Site

variable {n : ℕ} {f f' : Site} {g : Signals} {t : Tape n} {d : Deed n}

/-- A site goes on by a deed of its command, or silently. -/
theorem turn_eq_goes (h : f.turn g t = .goes f' d) :
    (d.taken = false ∧ ∀ g', f.turn g' t = .goes f' d) ∨
      ∃ command next outer, f = ⟨.plain command next, outer⟩ ∧ f' = ⟨next, outer⟩ ∧
        t.act g command = some d := by
  obtain ⟨here, outer⟩ := f
  cases here with
  | done =>
    cases outer with
    | nil => cases h
    | cons loop outer =>
      obtain ⟨rfl, rfl⟩ := Turn.goes.inj h
      exact Or.inl ⟨rfl, fun _ => rfl⟩
  | plain command next =>
    -- only a command depends on the signals
    rw [turn] at h
    split at h
    · cases h
    · next deed h_act =>
      obtain ⟨rfl, rfl⟩ := Turn.goes.inj h
      exact Or.inr ⟨command, next, outer, rfl, rfl, h_act⟩
  | loop body next =>
    refine Or.inl ⟨?_, fun _ => h⟩
    rw [turn] at h
    split at h <;> obtain ⟨rfl, rfl⟩ := Turn.goes.inj h <;> rfl

/-- **The same step under other signals**, if they take output and offer what is taken. -/
theorem turn_congr (h : f.turn g t = .goes f' d) {g' : Signals} (h_ready : g'.ready = true)
    (h_input : d.taken = true → g'.input = g.input) : f.turn g' t = .goes f' d := by
  rcases turn_eq_goes h with ⟨-, h_any⟩ | ⟨command, next, outer, rfl, rfl, h_act⟩
  · exact h_any g'
  · rw [turn, Tape.act_congr h_act h_ready h_input]

/-- A site takes a byte only if one is offered. -/
theorem input_of_taken (h : f.turn g t = .goes f' d) (h_taken : d.taken = true) :
    g.input.isSome := by
  rcases turn_eq_goes h with ⟨h_none, -⟩ | ⟨command, next, outer, rfl, rfl, h_act⟩
  · rw [h_none] at h_taken
    cases h_taken
  · exact Tape.input_of_taken h_act h_taken

end Site

namespace Core

/-! ### The bytes of a run -/

/-- The byte that is taken on the next clock, if one is. -/
def takenNext (c : Core) : List UInt8 :=
  if c.step.2.link.input.taken then [Bits.toByte c.link.input.bits] else []

/-- The byte that is sent on the next clock, if one is. -/
def sentNext (c : Core) : List UInt8 :=
  if c.step.2.link.output.valid then [Bits.toByte c.step.2.link.output.bits] else []

/-- The bytes taken on a run. -/
def takenOn (c : Core) : List Inputs → List UInt8
  | [] => []
  | i :: rest => (c.given i).takenNext ++ (c.given i).step.2.takenOn rest

/-- The bytes sent on a run. -/
def sentOn (c : Core) : List Inputs → List UInt8
  | [] => []
  | i :: rest => (c.given i).sentNext ++ (c.given i).step.2.sentOn rest

section Bytes

variable {c : Core} {n a : ℕ} {d : Deed n}

/-- A deed takes the byte on the lines, or none. -/
theorem Carries.takenNext_eq (h : c.Carries n a d) :
    c.takenNext = if d.taken then [Bits.toByte c.link.input.bits] else [] := by
  rw [takenNext, h.link]
  rfl

/-- What a deed sends is on the lines after the clock. -/
theorem Carries.sentNext_eq (h : c.Carries n a d) : c.sentNext = d.sent.toList := by
  rw [sentNext, h.link]
  cases d.sent with
  | none => rfl
  | some byte => exact congrArg (fun b => [b]) (Bits.toByte_toNat byte)

/-- A core that waits takes nothing. -/
theorem Stays.takenNext_eq (h : c.Stays n) : c.takenNext = [] := by
  rw [takenNext, h.link]
  rfl

/-- A core that waits sends nothing. -/
theorem Stays.sentNext_eq (h : c.Stays n) : c.sentNext = [] := by
  rw [sentNext, h.link]
  rfl

end Bytes

/-! ### Where a pass ends -/

/-- The number of clocks that took the pointer over the end of code memory. -/
def passesOn (c : Core) : List Inputs → ℕ
  | [] => 0
  | i :: rest => (if (c.given i).plan.ip = c.code.size then 1 else 0)
      + (c.given i).step.2.passesOn rest

/-- The last clock of a run took the pointer over the end of code memory. -/
def EndsPass (c : Core) (inputs : List Inputs) : Prop :=
  ∃ front i, inputs = front ++ [i] ∧ ((c.through front).given i).plan.ip = c.code.size

/-- The last clock of a row is its only one, or the last one of the rest. -/
theorem endsPass_cons_iff {c : Core} {i : Inputs} {rest : List Inputs} :
    c.EndsPass (i :: rest) ↔ (rest = [] ∧ (c.given i).plan.ip = c.code.size) ∨
      (c.given i).step.2.EndsPass rest := by
  -- code memory has the same end on all clocks
  have h_size : (c.given i).step.2.code.size = c.code.size := by
    rw [step_snd, code_commit, Memory.size_apply]
    rfl
  constructor
  · rintro ⟨front, j, h_split, h_ip⟩
    cases front with
    | nil =>
      obtain ⟨rfl, rfl⟩ := List.cons.inj h_split
      exact Or.inl ⟨rfl, h_ip⟩
    | cons i' front =>
      obtain ⟨rfl, rfl⟩ := List.cons.inj h_split
      exact Or.inr ⟨front, j, rfl, by rw [h_size]; exact h_ip⟩
  · rintro (⟨rfl, h_ip⟩ | ⟨front, j, rfl, h_ip⟩)
    · exact ⟨[], i, rfl, h_ip⟩
    · exact ⟨i :: front, j, rfl, by rw [h_size] at h_ip; exact h_ip⟩

/-- An instruction that waits keeps the pointer, also before it wraps. -/
theorem plan_ip_of_not_retired {c : Core} (h : c.execute.verdict ≠ .retired) :
    c.execute.ip = c.ip := by
  cases c.course with
  | holdsBack _ _ h_plan | asks _ _ h_plan =>
    rw [h_plan]
    rfl
  | inc _ h_plan | dec _ h_plan | right _ h_plan | left _ h_plan | returns _ h_plan =>
    rw [h_plan] at h
    exact absurd rfl h
  | sends _ _ h_plan | takes _ _ h_plan | skips _ _ h_plan | enters _ _ h_plan =>
    rw [h_plan] at h
    exact absurd rfl h

/-- The core sends nothing, takes nothing and asks for nothing. -/
def Silent (c : Core) : Prop :=
  c.link.output.valid = false ∧ c.link.input.ready = false ∧ c.link.input.taken = false

namespace AtSite

variable {c : Core} {n : ℕ} {p : Program} {f : Site}

/-- **A clock of a program** waits, or it is a step of the configuration that has the bytes
taken in front of its input and sends behind its output. -/
theorem clock (h : c.AtSite n p f) (h_ne : f ≠ Site.finish) (later out : List UInt8) :
    (c.plan.ip = c.ip ∧ c.step.2.AtSite n p f ∧ c.step.2.tape n = c.tape n ∧
        c.takenNext = [] ∧ c.sentNext = []) ∨
      ∃ f', c.plan.ip = f'.address p ∧ c.step.2.AtSite n p f' ∧
        f.step? ⟨c.tape n, c.takenNext ++ later, out⟩
          = some (f', ⟨c.step.2.tape n, later, out ++ c.sentNext⟩) := by
  have h_obeys := h.obeys h_ne
  cases h_turn : f.turn c.link.signals (c.tape n) with
  | finished => exact absurd ((f.turn_eq_finished_iff _ _).mp h_turn) h_ne
  | waits =>
    rw [h_turn] at h_obeys
    have h_stays : c.Stays n := h_obeys
    -- nothing retires, so the pointer stays where it is before it wraps, too
    have h_verdict : c.execute.verdict ≠ .retired := by
      have h_stalls := h_stays.stalls
      rwa [step_fst, h.mode.plan_eq, beq_eq_false_iff_ne] at h_stalls
    refine Or.inl ⟨?_, h.of_stays h_stays, h_stays.tape, h_stays.takenNext_eq,
      h_stays.sentNext_eq⟩
    rw [h.mode.plan_eq, plan_ip_of_not_retired h_verdict]
  | goes f' d =>
    rw [h_turn] at h_obeys
    have h_carries : c.Carries n (f'.address p) d := h_obeys
    refine Or.inr ⟨f', h.plan_ip_of_goes h_turn, h.of_carries (h.inside.turn h_turn) h_carries, ?_⟩
    -- the byte that is taken is the first one of the input
    have h_input : d.taken = true →
        (c.takenNext ++ later).head? = c.link.signals.input := by
      intro h_taken
      have h_some := Site.input_of_taken h_turn h_taken
      rw [h_carries.takenNext_eq, if_pos h_taken]
      rw [Link.signals] at h_some ⊢
      dsimp only at h_some ⊢
      split at h_some
      · next h_valid => rw [if_pos h_valid]; rfl
      · cases h_some
    rw [Site.step?, Site.turn_congr h_turn rfl h_input]
    dsimp only [Config.after]
    rw [h_carries.tape, h_carries.sentNext_eq, h_carries.takenNext_eq]
    cases d.taken <;> rfl

/-- **A run to the end of a pass.** If the program fills code memory, the computation at the
site of the core comes to its end, and then there are as many passes as are ended behind.
The induction is on the row of inputs. -/
theorem exists_passes (h : c.AtSite n p f) (h_full : p.size = c.code.size)
    (h_ne : f ≠ Site.finish) {inputs : List Inputs} (h_run : ∀ i ∈ inputs, i.holds = false)
    (h_ends : c.EndsPass inputs) (later out : List UInt8) :
    ∃ m k u, c.passesOn inputs = m + 1 ∧
      f.Finishes ⟨c.tape n, c.takenOn inputs ++ later, out⟩ k u ∧
      p.Passes 0 m u ⟨(c.through inputs).tape n, later, out ++ c.sentOn inputs⟩ ∧
      (c.through inputs).ip = 0 := by
  induction inputs generalizing c f out with
  | nil =>
    obtain ⟨front, i, h_split, -⟩ := h_ends
    exact absurd h_split (by simp)
  | cons i rest ih =>
    have h_here : (c.given i).AtSite n p f := h.given (h_run i List.mem_cons_self)
    have h_rest : ∀ j ∈ rest, j.holds = false := fun j h_j => h_run j (List.mem_cons_of_mem i h_j)
    have h_code : (c.given i).step.2.code = c.code := code_step_of_not_init h_here.mode.init
    have h_full' : p.size = (c.given i).step.2.code.size := by rw [h_code, h_full]
    have h_clock := h_here.clock h_ne ((c.given i).step.2.takenOn rest ++ later) out
    rw [passesOn, takenOn, sentOn, through, List.append_assoc]
    rcases h_clock with ⟨h_ip, h_next, h_tape, h_taken, h_sent⟩ | ⟨f', h_ip, h_next, h_step⟩
    · -- the clock waits: the computation is where it was
      have h_lt := h_here.inside.address_lt h_ne
      rw [← h_here.ip_eq h_ne] at h_lt
      have h_not : (c.given i).plan.ip ≠ c.code.size := by omega
      have h_ends' := (endsPass_cons_iff.mp h_ends).resolve_left fun h_last => h_not h_last.2
      obtain ⟨m, k, u, h_count, h_finishes, h_passes⟩ := ih h_next h_full' h_ne h_rest h_ends' out
      rw [h_tape] at h_finishes
      rw [if_neg h_not, Nat.zero_add, h_taken, h_sent]
      exact ⟨m, k, u, h_count, h_finishes, h_passes⟩
    by_cases h_last : f' = Site.finish
    · -- the last step of the program ends a pass, and what is behind begins with another one
      subst h_last
      rw [Site.address_finish, h_full] at h_ip
      rw [if_pos h_ip, ← List.append_assoc out]
      refine ⟨(c.given i).step.2.passesOn rest, 1, _, Nat.add_comm _ _,
        Site.finishes_of_step h_step (Site.finishes_finish_iff.mpr ⟨rfl, rfl⟩), ?_⟩
      have h_start := h_next.restart h_full'
      rcases endsPass_cons_iff.mp h_ends with ⟨rfl, -⟩ | h_ends'
      · refine ⟨?_, by rw [through, h_start.ip, Site.address_start, Nat.zero_mod]⟩
        rw [sentOn, List.append_nil]
        rfl
      · have h_ne' : Site.start p ≠ Site.finish :=
          Site.start_ne_finish (h_full ▸ c.code.size_pos)
        obtain ⟨m, k, u, h_count, h_finishes, h_passes, h_zero⟩ :=
          ih h_start h_full' h_ne' h_rest h_ends' (out ++ (c.given i).sentNext)
        rw [h_count]
        refine ⟨⟨k, u, Site.finishes_start_iff.mp h_finishes, ?_⟩, h_zero⟩
        rwa [Config.grow_zero]
    · -- the clock is a step inside the program
      have h_lt := h_next.inside.address_lt h_last
      have h_not : (c.given i).plan.ip ≠ c.code.size := by omega
      have h_ends' := (endsPass_cons_iff.mp h_ends).resolve_left fun h_last => h_not h_last.2
      obtain ⟨m, k, u, h_count, h_finishes, h_passes⟩ :=
        ih h_next h_full' h_last h_rest h_ends' (out ++ (c.given i).sentNext)
      rw [if_neg h_not, Nat.zero_add, ← List.append_assoc out]
      exact ⟨m, k + 1, u, h_count, Site.finishes_of_step h_step h_finishes, h_passes⟩

/-- **A clock on `inc`** counts the current cell up and touches nothing else. -/
theorem count_up {next : Program} {outer : List (Program × Program)}
    (h : c.AtSite n p ⟨.plain .inc next, outer⟩) :
    c.step.1 = true ∧ c.plan.ip = Site.address p ⟨next, outer⟩ ∧
      c.step.2.AtSite n p ⟨next, outer⟩ ∧
      c.step.2.tape n = (c.tape n).set ((c.tape n).cell + 1) ∧ c.step.2.Silent ∧
      c.step.2.stalls = c.stalls := by
  have h_turn : Site.turn ⟨.plain .inc next, outer⟩ c.link.signals (c.tape n)
      = .goes ⟨next, outer⟩ (.silent ((c.tape n).set ((c.tape n).cell + 1))) := rfl
  have h_carries : c.Carries n (Site.address p ⟨next, outer⟩)
      (.silent ((c.tape n).set ((c.tape n).cell + 1))) := h.obeys (by simp [Site.finish])
  have h_verdict : c.plan.verdict = .retired := by
    have h_retires := h_carries.retires
    rwa [step_fst, beq_iff_eq] at h_retires
  refine ⟨h_carries.retires, h.plan_ip_of_goes h_turn,
    h.of_carries (h.inside.turn h_turn) h_carries, h_carries.tape, ?_, ?_⟩
  · rw [Silent, h_carries.link]
    exact ⟨rfl, rfl, rfl⟩
  · rw [step_snd, stalls_commit, h_verdict]
    rfl

/-- **The sweep.** On the words behind an image each clock counts the current cell up, and
nothing else happens until the pointer is over the end of code memory. -/
theorem sweep {count : ℕ} (h : c.AtSite n p ⟨Program.incs count, []⟩)
    (h_full : p.size = c.code.size) {inputs : List Inputs}
    (h_run : ∀ i ∈ inputs, i.holds = false) (h_length : inputs.length = count) :
    (0 < count → c.EndsPass inputs) ∧ c.retirements inputs = List.replicate count true ∧
      (∀ k < count, (c.through (inputs.take (k + 1))).Silent) ∧
      (c.through inputs).stalls = c.stalls ∧ (c.through inputs).AtSite n p Site.finish ∧
      (c.through inputs).tape n = (c.tape n).grow count := by
  -- the induction is on the words that are left, each of them one clock
  induction count generalizing c inputs with
  | zero =>
    obtain rfl := List.length_eq_zero_iff.mp h_length
    exact ⟨fun h_pos => absurd h_pos (Nat.lt_irrefl 0), rfl,
      fun k h_k => absurd h_k (Nat.not_lt_zero k), rfl, h, (Tape.grow_zero _).symm⟩
  | succ count ih =>
    obtain ⟨i, rest, rfl⟩ := List.exists_cons_of_length_eq_add_one h_length
    have h_here := h.given (h_run i List.mem_cons_self)
    obtain ⟨h_retires, h_ip, h_next, h_cell, h_still, h_same⟩ := h_here.count_up
    have h_full' : p.size = (c.given i).step.2.code.size := by
      rw [h_full, code_step_of_not_init h_here.mode.init]
      rfl
    obtain ⟨h_ends, h_answers, h_silent, h_stalls, h_end, h_tape⟩ :=
      ih h_next h_full' (fun j h_j => h_run j (List.mem_cons_of_mem i h_j)) (Nat.succ.inj h_length)
    have h_over : c.EndsPass (i :: rest) := by
      refine endsPass_cons_iff.mpr ?_
      rcases Nat.eq_zero_or_pos count with rfl | h_pos
      · -- the last word is in front of the end of code memory
        refine Or.inl ⟨List.length_eq_zero_iff.mp (Nat.succ.inj h_length), ?_⟩
        have h_address : Site.address p ⟨Program.incs 0, []⟩ = c.code.size :=
          (Site.address_finish p).trans h_full
        rw [h_ip, h_address]
      · exact Or.inr (h_ends h_pos)
    rw [retirements, through, h_answers, h_stalls, h_tape, h_retires, h_same, h_cell]
    refine ⟨fun _ => h_over, rfl, fun k h_k => ?_, rfl, h_end, Tape.grow_succ _ _⟩
    cases k with
    | zero => exact h_still
    | succ k => exact h_silent k (Nat.lt_of_succ_lt_succ h_k)

/-- Behind its last operation a program with so many `inc` behind it is at the first of
them. -/
theorem behind {gap : ℕ} (h_mode : c.InRunMode n)
    (h_stands : (p.append (Program.incs gap)).StandsAt c.code 0)
    (h_size : p.size + gap = c.code.size) (h_ip : c.ip = p.size % c.code.size) :
    c.AtSite n (p.append (Program.incs gap)) ⟨Program.incs gap, []⟩ := by
  have h_in : Site.Inside (p.append (Program.incs gap)) ⟨Program.incs gap, []⟩ :=
    Program.isTail_append p _
  have h_both : (p.append (Program.incs gap)).size = p.size + gap := by
    rw [Program.size_append, Program.size_incs]
  have h_address := h_in.address_add
  rw [show Site.rest ⟨Program.incs gap, []⟩ = (Program.incs gap).opcodes from
    List.append_nil _, Program.wordCount_opcodes, Program.size_incs, h_both] at h_address
  refine ⟨h_mode, h_stands, (h_both.trans h_size).le, h_in, ?_⟩
  rw [h_ip, Nat.add_right_cancel h_address]

end AtSite

/-- A tape that has grown, as the data memory shows it. -/
theorem data_of_grow {c d : Core} {n count : ℕ} (h_lt : c.dp < n) (h_lt' : d.dp < n)
    (h : d.tape n = (c.tape n).grow count) :
    d.dp = c.dp ∧ d.cell.toNat = (c.cell.toNat + count) % 256 ∧
      ∀ a < n, a ≠ c.dp → d.data.read a = c.data.read a := by
  have h_head : d.dp = c.dp := by
    rw [← head_val h_lt', h, ← head_val h_lt]
    rfl
  refine ⟨h_head, ?_, fun a h_a h_ne => ?_⟩
  · rw [← cell_tape h_lt', h, Tape.grow, Tape.cell_set, cell_tape h_lt, UInt8.toNat_add,
      UInt8.toNat_ofNat']
    exact Nat.add_mod_mod _ _ _
  · -- another address is another place of the tape
    have h_other : (a : ZMod n) ≠ (c.tape n).head := by
      intro h_eq
      have h_val := congrArg ZMod.val h_eq
      rw [ZMod.val_natCast_of_lt h_a, head_val h_lt] at h_val
      exact h_ne h_val
    have h_cell : (d.tape n).cells a = (c.tape n).cells a := by
      rw [h]
      exact Function.update_of_ne h_other _ _
    change d.data.read (a : ZMod n).val = c.data.read (a : ZMod n).val at h_cell
    rwa [ZMod.val_natCast_of_lt h_a] at h_cell

/-- An image with zeros behind it is the image of the program with so many `inc` behind it. -/
theorem reads_append_incs {m : Memory} {p : Program} (gap : ℕ)
    (h_image : ∀ a (ha : a < p.encode.size), m.read a = p.encode[a])
    (h_zeros : ∀ a, p.size ≤ a → a < p.size + gap → m.read a = 0) :
    ∀ a (ha : a < (p.append (Program.incs gap)).encode.size),
      m.read a = (p.append (Program.incs gap)).encode[a] := by
  intro a h_a
  have h_both : (p.append (Program.incs gap)).encode.toList
      = p.words ++ List.replicate gap 0 := by
    rw [Program.toList_encode, Program.words_append, Program.words_incs]
  rw [Program.size_encode, Program.size_append, Program.size_incs] at h_a
  rw [← Array.getElem_toList, List.getElem_of_eq h_both]
  -- in the image, or in the zeros behind it
  by_cases h_lt : a < p.words.length
  · have h_lt' : a < p.encode.size := by rwa [Program.size_encode, ← p.length_words]
    rw [List.getElem_append_left h_lt, h_image a h_lt', ← Array.getElem_toList]
    exact List.getElem_of_eq p.toList_encode _
  · rw [p.length_words] at h_lt
    rw [List.getElem_append_right (by rw [p.length_words]; omega), List.getElem_replicate]
    exact h_zeros a (by omega) h_a

/-- **No halt.** Let code memory hold a compiled image from address zero and be zero behind
it, and let `gap` be the number of words behind it.

At the end of the program, whatever is on the tape and on the channels, the next `gap` clocks
all retire and leave the channels alone; the last of them takes the pointer over the end of
code memory, to zero. Nothing has changed on the tape then but the current cell, which has
grown by `gap` modulo 256.

From address zero, let a run end with a clock on which the pointer went over the end of code
memory, or have no clock, and let `m` clocks of it have done so. Then what the core has on
its tape, what it took and what it sent are the only outcome of the program run `m` times in
sequence, with the current cell growing by `gap` after each time. -/
theorem passes {c : Core} {n : ℕ} {source : String} {image : Array UInt8}
    (h_mode : c.InRunMode n) (h_compile : Program.compile source c.code.size = .ok image)
    (h_image : ∀ a (ha : a < image.size), c.code.read a = image[a])
    (h_zeros : ∀ a, image.size ≤ a → a < c.code.size → c.code.read a = 0) :
    let gap := c.code.size - image.size
    (c.ip = image.size % c.code.size → ∀ inputs : List Inputs,
      (∀ i ∈ inputs, i.holds = false) → inputs.length = gap →
      (0 < gap → c.EndsPass inputs) ∧ c.retirements inputs = List.replicate gap true ∧
        (∀ k < gap, (c.through (inputs.take (k + 1))).Silent) ∧
        (c.through inputs).stalls = c.stalls ∧ (c.through inputs).ip = 0 ∧
        (c.through inputs).dp = c.dp ∧
        (c.through inputs).cell.toNat = (c.cell.toNat + gap) % 256 ∧
        ∀ a < n, a ≠ c.dp → (c.through inputs).data.read a = c.data.read a) ∧
    (c.ip = 0 → ∃ p : Program, p.opcodes = Source.operations source.toList ∧
      ∀ (inputs : List Inputs) (later : List UInt8), (∀ i ∈ inputs, i.holds = false) →
        (inputs = [] ∨ c.EndsPass inputs) →
        (c.through inputs).ip = 0 ∧
          ∀ t, p.Passes gap (c.passesOn inputs) ⟨c.tape n, c.takenOn inputs ++ later, []⟩ t ↔
            t = ⟨(c.through inputs).tape n, later, c.sentOn inputs⟩) := by
  obtain ⟨p, h_tree, h_fits, rfl, h_capacity⟩ := Program.of_compile h_compile
  intro gap
  have h_le : p.size ≤ c.code.size := by exact_mod_cast h_capacity
  have h_gap : p.size + gap = c.code.size := by
    rw [show gap = c.code.size - p.encode.size from rfl, Program.size_encode]
    omega
  -- the program with the words behind it fills code memory
  have h_size : (p.append (Program.incs gap)).size = c.code.size := by
    rw [Program.size_append, Program.size_incs, h_gap]
  have h_words := reads_append_incs gap h_image fun a h_from h_to =>
    h_zeros a (by rwa [Program.size_encode]) (by omega)
  have h_fits' : (p.append (Program.incs gap)).Fits := h_fits.append (Program.fits_incs gap)
  rw [Program.size_encode]
  refine ⟨fun h_ip inputs h_run h_length => ?_, fun h_ip => ⟨p, h_tree, ?_⟩⟩
  · -- at the end of the image begin the words that count
    have h_behind := AtSite.behind h_mode (h_fits'.standsAt_of_image h_words) h_gap h_ip
    obtain ⟨h_ends, h_answers, h_silent, h_stalls, h_end, h_tape⟩ :=
      h_behind.sweep h_size h_run h_length
    have h_zero : (c.through inputs).ip = 0 := by
      rw [h_end.ip, Site.address_finish, h_size, code_through h_run, Nat.mod_self]
    exact ⟨h_ends, h_answers, h_silent, h_stalls, h_zero,
      data_of_grow h_mode.dp_lt h_end.mode.dp_lt h_tape⟩
  · intro inputs later h_run h_begins
    have h_start := AtSite.start h_mode h_fits' h_words h_size.le h_ip
    -- the longer program grows no cell between its runs, so its passes are counted with zero
    have h_passes : (c.through inputs).ip = 0 ∧
        p.Passes gap (c.passesOn inputs) ⟨c.tape n, c.takenOn inputs ++ later, []⟩
          ⟨(c.through inputs).tape n, later, c.sentOn inputs⟩ := by
      rcases h_begins with rfl | h_ends
      · exact ⟨h_ip, rfl⟩
      · have h_ne := Site.start_ne_finish (h_size ▸ c.code.size_pos)
        obtain ⟨m, k, u, h_count, h_finishes, h_rest, h_zero⟩ :=
          h_start.exists_passes h_size h_ne h_run h_ends later []
        refine ⟨h_zero, Program.Passes.of_append_incs ?_⟩
        rw [h_count]
        exact ⟨k, u, Site.finishes_start_iff.mp h_finishes, by rwa [Config.grow_zero]⟩
    refine ⟨h_passes.1, fun t => ⟨fun h => h.unique h_passes.2, ?_⟩⟩
    rintro rfl
    exact h_passes.2

/-- A core of four words and two cells that begins to run `.,` on a seven. -/
def courier : Core := ((new ⟨.succ 1, .succ 0⟩).store .code 0 [4, 5]).store .data 0 [7]

/-- Ten clocks: output is taken from the second one on, and the bytes 40 and 255 are offered
when they are wanted, the second one a clock late. -/
def courierInputs : List Inputs :=
  let clock (ready valid : Bool) (bits : ℤ) : Inputs :=
    ⟨false, false, .idle, .idle, ready, valid, bits⟩
  [clock false true 40, clock true true 40, clock true true 40, clock true false 0,
    clock true false 0, clock true false 0, clock true false 0, clock true true (-1),
    clock true false 0, clock true false 0]

/-- The core when it has taken the 40, and the program is finished for the first time. -/
def delivered : Core := courier.through (courierInputs.take 3)

/-- Two passes send the seven and then 42, which is 40 and the two words behind the image;
the last byte has grown over 255. -/
theorem passes_courier :
    Program.compile ".," courier.code.size = .ok #[4, 5] ∧
      courier.passesOn courierInputs = 2 ∧
      (∃ p : Program, p.opcodes = Source.operations ".,".toList ∧
        p.Passes 2 2 ⟨courier.tape 2, [40, 255], []⟩
          ⟨(courier.through courierInputs).tape 2, [], [7, 42]⟩) ∧
      (courier.through courierInputs).cell = 1 ∧
      delivered.ip = 2 ∧ delivered.cell = 40 ∧
      delivered.EndsPass ((courierInputs.drop 3).take 2) ∧
      (delivered.through ((courierInputs.drop 3).take 2)).cell.toNat = 42 := by
  have h_compile : Program.compile ".," courier.code.size = .ok #[4, 5] := by decide +kernel
  have h_mode : courier.InRunMode 2 := ⟨rfl, rfl, by decide +kernel, by decide +kernel⟩
  have h_image : ∀ a (ha : a < 2), courier.code.read a = #[4, 5][a] := by decide +kernel
  have h_size : courier.code.size = 4 := by decide +kernel
  have h_zeros : ∀ a, 2 ≤ a → a < courier.code.size → courier.code.read a = 0 := by
    rw [h_size]
    decide +kernel
  have h_count : courier.passesOn courierInputs = 2 := by decide +kernel
  have h_taken : courier.takenOn courierInputs = [40, 255] := by decide +kernel
  have h_sent : courier.sentOn courierInputs = [7, 42] := by decide +kernel
  have h_ends : courier.EndsPass courierInputs :=
    ⟨courierInputs.take 9, courierInputs.getLast (by decide), rfl, by decide +kernel⟩
  obtain ⟨-, h_passes⟩ := passes h_mode h_compile h_image h_zeros
  obtain ⟨p, h_tree, h_run⟩ := h_passes rfl
  obtain ⟨-, h_outcome⟩ := h_run courierInputs [] (by decide) (Or.inr h_ends)
  rw [h_count, h_taken, h_sent, h_size] at h_outcome
  refine ⟨h_compile, h_count, ⟨p, h_tree, (h_outcome _).mpr rfl⟩, by decide +kernel, ?_⟩
  have h_mode' : delivered.InRunMode 2 :=
    ⟨by decide +kernel, by decide +kernel, by decide +kernel, by decide +kernel⟩
  have h_code : delivered.code = courier.code := code_through (by decide)
  have h_ip : delivered.ip = 2 := by decide +kernel
  have h_cell : delivered.cell = 40 := by decide +kernel
  rw [← h_code] at h_compile h_image h_size h_zeros
  obtain ⟨h_sweep, -⟩ := passes h_mode' h_compile h_image h_zeros
  rw [h_size] at h_sweep
  obtain ⟨h_over, -, -, -, -, -, h_grown, -⟩ :=
    h_sweep h_ip ((courierInputs.drop 3).take 2) (by decide) rfl
  rw [h_cell] at h_grown
  exact ⟨h_ip, h_cell, h_over (by decide), h_grown⟩

end Core

end TapeProcessor
