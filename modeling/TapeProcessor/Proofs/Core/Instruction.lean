import TapeProcessor.Core.Step
import TapeProcessor.Proofs.Program.Place

/-!
# One clock of the core in run mode

The clock of the core is specified by what its instruction means. `Core.tape` is
the data memory seen as a cyclic tape, with the head at the data pointer, and
`Link.signals` are the signals that the host drives on the link.

A clock in run mode has one of two forms. `Core.Carries c n a d`: the core carries
out the deed `d` and goes on at address `a`, wrapped; everything the deed says is
on the link afterwards, and code memory is as before. `Core.Stays c n`: an
instruction waits, and nothing but the counters and the signals of the core
changes. `Core.Obeys` says which of the two a `Turn` asks for.

One lemma for each kind of instruction says which form its clock has:
`Core.InRunMode.obeys_command`, `carries_jz_zero`, `carries_jz_nonzero` and
`carries_jmp`. They need only the word at the instruction pointer and, for a jump,
the word behind it, so they hold of arbitrary code. From them follows
`Core.InRunMode.obeys_turn`: **at the address of a site of the program in code
memory, the core obeys the turn of the site**. The target of a jump is the address
of a site up to a wrap that only the end of the program needs. `Core.AtSite` is what
a core that runs the program keeps from clock to clock; where it goes
is seen in the pointer before it wraps (`Core.AtSite.plan_ip_of_goes`).
-/

namespace TapeProcessor

/-- The signals that the host drives on a link. -/
def Link.signals (l : Link) : Signals :=
  ⟨l.output.ready, if l.input.valid then some (Bits.toByte l.input.bits) else none⟩

/-- The link after the core has driven its side: the byte it sends, whether it took
the byte offered, and whether it waits for one. -/
def Link.report (l : Link) (sent : Option UInt8) (taken waiting : Bool) : Link where
  output := { l.output with
    valid := sent.isSome
    bits := match sent with
      | some byte => byte.toNat
      | none => 0 }
  input := { l.input with ready := waiting, taken }

namespace Memory

/-- Wrapping an address keeps its residue. -/
theorem natCast_wrap (m : Memory) (address : Int) :
    ((m.wrap address : ℕ) : ZMod m.size) = (address : ZMod m.size) := by
  have h := congrArg (Int.cast : Int → ZMod m.size) (m.wrap_eq_emod address)
  rwa [ZMod.intCast_mod, Int.cast_natCast] at h

/-- A natural number is wrapped to its remainder. -/
theorem wrap_natCast (m : Memory) (address : ℕ) : m.wrap (address : Int) = address % m.size := by
  have h := m.wrap_eq_emod (address : Int)
  exact_mod_cast h

/-- A wrapped address is congruent to the one that it comes from. -/
theorem wrap_modEq (m : Memory) (address : ℤ) : (m.wrap address : ℤ) ≡ address [ZMOD m.size] := by
  rw [m.wrap_eq_emod]
  exact Int.mod_modEq _ _

/-- Addresses name the same byte if they are congruent. -/
theorem wrap_eq_wrap_iff (m : Memory) {first second : ℤ} :
    m.wrap first = m.wrap second ↔ first ≡ second [ZMOD m.size] := by
  rw [← Int.natCast_inj, m.wrap_eq_emod, m.wrap_eq_emod]
  rfl

theorem wrap_eq_of_modEq (m : Memory) {first second : ℤ} (h : first ≡ second [ZMOD m.size]) :
    m.wrap first = m.wrap second :=
  m.wrap_eq_wrap_iff.mpr h

end Memory

namespace Core

/-- The data memory as a tape of `n` cells, with the head at the data pointer. -/
def tape (c : Core) (n : ℕ) : Tape n := ⟨fun i => c.data.read i.val, (c.dp : ZMod n)⟩

/-- The core runs instructions on a data memory of `n` cells. -/
structure InRunMode (c : Core) (n : ℕ) : Prop where
  init : c.init = false
  boot : c.boot = false
  size : c.data.size = n
  dp_lt : c.dp < n

/-- On its next clock the core carries out `d` and goes on at address `a`. -/
structure Carries (c : Core) (n : ℕ) (a : ℕ) (d : Deed n) : Prop where
  retires : c.step.1 = true
  ip : c.step.2.ip = a % c.code.size
  tape : c.step.2.tape n = d.tape
  link : c.step.2.link = c.link.report d.sent d.taken false
  code : c.step.2.code = c.code

/-- On its next clock the core waits for a channel. It asks for input exactly if the
instruction is a `get`. -/
structure Stays (c : Core) (n : ℕ) : Prop where
  stalls : c.step.1 = false
  ip : c.step.2.ip = c.code.wrap c.ip
  tape : c.step.2.tape n = c.tape n
  link : c.step.2.link = c.link.report none false (c.opcode = .plain .get)
  code : c.step.2.code = c.code

/-- On its next clock the core does what a turn asks for, where `address` tells the
address of a place. -/
def Obeys {Place : Type} (c : Core) (n : ℕ) (address : Place → ℕ) : Turn Place n → Prop
  | .finished => True
  | .waits => c.Stays n
  | .goes place deed => c.Carries n (address place) deed

/-! ### The tape after a clock -/

section Tape

variable {c : Core} {n : ℕ} {p : Plan}

/-- The head stands at the data pointer. -/
theorem head_val (h : c.dp < n) : (c.tape n).head.val = c.dp :=
  ZMod.val_natCast_of_lt h

/-- The byte under the head is the cell that the core reads. -/
theorem cell_tape (h : c.dp < n) : (c.tape n).cell = c.cell := by
  change c.data.read (c.tape n).head.val = c.data.read c.dp
  rw [head_val h]

/-- A plan that writes nothing moves the head by the distance of the data pointer. -/
theorem tape_commit_move (h_size : c.data.size = n) {distance : Int}
    (h_write : p.dataWrite = none) (h_dp : p.dp = c.dp + distance) :
    (c.commit p).tape n = (c.tape n).move (distance : ZMod n) := by
  subst h_size
  refine Tape.ext ?_ ?_
  · rw [tape, data_commit, h_write]
    rfl
  · -- the wrap of the pointer is no wrap on the cycle
    change ((c.data.wrap p.dp : ℕ) : ZMod c.data.size)
      = (c.dp : ZMod c.data.size) + (distance : ZMod c.data.size)
    rw [Memory.natCast_wrap, h_dp]
    push_cast
    rfl

/-- A plan that neither writes nor moves leaves the tape alone. -/
theorem tape_commit_same (h_size : c.data.size = n) (h_write : p.dataWrite = none)
    (h_dp : p.dp = c.dp) : (c.commit p).tape n = c.tape n := by
  rw [tape_commit_move h_size h_write (show p.dp = c.dp + (0 : Int) by omega), Tape.move,
    Int.cast_zero, add_zero]

/-- A write under the data pointer is a write under the head. -/
theorem tape_commit_set (h_size : c.data.size = n) (h_lt : c.dp < n) {byte : UInt8}
    (h_write : p.dataWrite = some (c.dp, byte)) (h_dp : p.dp = c.dp) :
    (c.commit p).tape n = (c.tape n).set byte := by
  have h_head := head_val h_lt
  subst h_size
  have : NeZero c.data.size := ⟨Nat.ne_of_gt c.data.size_pos⟩
  refine Tape.ext (funext fun i => ?_) ?_
  -- a position is that of the head if it has the same representative
  · change (c.data.apply p.dataWrite).read i.val
      = Function.update (c.tape c.data.size).cells (c.tape c.data.size).head byte i
    rw [h_write, Memory.apply, Memory.read_write _ h_lt, Function.update_apply]
    refine if_congr ?_ rfl rfl
    rw [← h_head]
    exact (ZMod.val_injective _).eq_iff
  · change ((c.data.wrap p.dp : ℕ) : ZMod c.data.size) = (c.dp : ZMod c.data.size)
    rw [Memory.natCast_wrap, h_dp, Int.cast_natCast]

end Tape

/-! ### The clocks of the instructions -/

/-- A plan that retires is carried out. -/
theorem carries_of_plan {c : Core} {n : ℕ} {p : Plan} {a : ℕ} {d : Deed n} (h_plan : c.plan = p)
    (h_verdict : p.verdict = .retired) (h_code : p.codeWrite = none) (h_waiting : p.waiting = false)
    (h_ip : p.ip = a) (h_tape : (c.commit p).tape n = d.tape) (h_sent : p.sent = d.sent)
    (h_taken : p.taken = d.taken) : c.Carries n a d := by
  subst h_plan
  -- each part of the deed is read off the plan
  refine ⟨?_, ?_, h_tape, ?_, ?_⟩
  · rw [step_fst, h_verdict]
    rfl
  · rw [step_snd, ip_commit, h_ip]
    exact c.code.wrap_natCast a
  · rw [← h_sent, ← h_taken, ← h_waiting]
    rfl
  · rw [step_snd, code_commit, h_code]
    rfl

/-- A command that retires goes on to the next word. -/
theorem ip_executeCommand {c : Core} {command : Command}
    (h : (c.executeCommand command).verdict = .retired) :
    (c.executeCommand command).ip = (c.ip : Int) + 1 := by
  cases command with
  | inc | dec | right | left => rfl
  | put =>
    rw [executeCommand] at h ⊢
    split at h
    · next h_ready => rw [if_pos h_ready]; rfl
    · cases h
  | get =>
    rw [executeCommand] at h ⊢
    split at h
    · next h_valid => rw [if_pos h_valid]; rfl
    · cases h

namespace InRunMode

variable {c : Core} {n : ℕ}

/-- In run mode every clock has the plan of an instruction. -/
theorem plan_eq (h : c.InRunMode n) : c.plan = c.execute := by
  rw [plan, h.init, h.boot]
  rfl

/-- **Run mode lasts.** -/
theorem step (h : c.InRunMode n) : c.step.2.InRunMode n where
  init := h.init
  boot := h.boot
  size := by rw [step_snd, data_commit, Memory.size_apply, h.size]
  dp_lt := by
    rw [step_snd, dp_commit, ← h.size]
    exact c.data.wrap_lt _

/-- A plan to stall waits, and asks for input if the instruction is a `get`. -/
theorem stays_of_plan (h : c.InRunMode n) {waiting : Bool}
    (h_plan : c.plan = { c.stall with waiting })
    (h_op : (decide (c.opcode = .plain .get)) = waiting) : c.Stays n := by
  refine ⟨?_, ?_, ?_, ?_, ?_⟩
  · rw [step_fst, h_plan]
    rfl
  · rw [step_snd, ip_commit, h_plan]
    rfl
  · rw [step_snd, h_plan]
    exact tape_commit_same h.size rfl rfl
  · rw [step_snd, h_plan, h_op]
    rfl
  · rw [step_snd, code_commit, h_plan]
    rfl

/-- **A command** is carried out, or it waits, as the tape has it. -/
theorem obeys_command (h : c.InRunMode n) {command : Command} (h_op : c.opcode = .plain command)
    {Place : Type} (address : Place → ℕ) (place : Place) (h_place : address place = c.ip + 1) :
    c.Obeys n address
      (match (c.tape n).act c.link.signals command with
        | none => .waits
        | some deed => .goes place deed) := by
  have h_plan : c.plan = c.executeCommand command := by
    rw [h.plan_eq, execute, h_op]
  have h_ip : c.advance.ip = (address place : ℕ) := by
    rw [h_place]
    push_cast
    rfl
  -- the core reads and writes the cell under the head
  have h_cell := cell_tape h.dp_lt
  cases command with
  -- what the plan writes or moves is what the tape has
  | inc =>
    refine carries_of_plan h_plan rfl rfl rfl h_ip ?_ rfl rfl
    rw [h_cell]
    exact tape_commit_set h.size h.dp_lt rfl rfl
  | dec =>
    refine carries_of_plan h_plan rfl rfl rfl h_ip ?_ rfl rfl
    rw [h_cell]
    exact tape_commit_set h.size h.dp_lt rfl rfl
  | right =>
    refine carries_of_plan h_plan rfl rfl rfl h_ip ?_ rfl rfl
    exact (tape_commit_move h.size rfl rfl).trans (by rw [Int.cast_one]; rfl)
  | left =>
    refine carries_of_plan h_plan rfl rfl rfl h_ip ?_ rfl rfl
    exact (tape_commit_move h.size rfl (Int.sub_eq_add_neg ..)).trans
      (by rw [Int.cast_neg, Int.cast_one]; rfl)
  | put =>
    cases h_ready : c.link.output.ready with
    | false =>
      have h_stall : c.plan = { c.stall with waiting := false } := by
        rw [h_plan, executeCommand, h_ready]
        rfl
      have h_waits : (c.tape n).act c.link.signals .put = none := by
        simp [Tape.act, Link.signals, h_ready]
      rw [h_waits]
      exact h.stays_of_plan h_stall (by rw [h_op]; rfl)
    | true =>
      -- the cell is sent and stays what it is
      have h_goes : (c.tape n).act c.link.signals .put = some ⟨c.tape n, some c.cell, false⟩ := by
        simp [Tape.act, Link.signals, h_ready, h_cell]
      rw [h_goes]
      rw [executeCommand, h_ready, if_pos rfl] at h_plan
      exact carries_of_plan h_plan rfl rfl rfl h_ip (tape_commit_same h.size rfl rfl) rfl rfl
  | get =>
    cases h_valid : c.link.input.valid with
    | false =>
      have h_stall : c.plan = { c.stall with waiting := true } := by
        rw [h_plan, executeCommand, h_valid]
        rfl
      have h_waits : (c.tape n).act c.link.signals .get = none := by
        simp [Tape.act, Link.signals, h_valid]
      rw [h_waits]
      exact h.stays_of_plan h_stall (by rw [h_op]; rfl)
    | true =>
      -- the byte offered replaces the cell
      have h_goes : (c.tape n).act c.link.signals .get
          = some ⟨(c.tape n).set (Bits.toByte c.link.input.bits), none, true⟩ := by
        simp [Tape.act, Link.signals, h_valid]
      rw [h_goes]
      rw [executeCommand, h_valid, if_pos rfl] at h_plan
      exact carries_of_plan h_plan rfl rfl rfl h_ip (tape_commit_set h.size h.dp_lt rfl rfl) rfl rfl

/-- **A loop test on a zero** goes on where the distance says. -/
theorem carries_jz_zero (h : c.InRunMode n) (h_op : c.opcode = .jz) (h_cell : (c.tape n).cell = 0)
    {a : ℕ} (h_a : a = c.ip + 1 + c.distance.toNat) : c.Carries n a (.silent (c.tape n)) := by
  have h_plan : c.plan = { c.advance with ip := (c.ip : Int) + 1 + c.distance.toNat } := by
    rw [h.plan_eq, execute, h_op]
    rw [cell_tape h.dp_lt] at h_cell
    exact if_pos h_cell
  refine carries_of_plan h_plan rfl rfl rfl ?_ (tape_commit_same h.size rfl rfl) rfl rfl
  change (c.ip : Int) + 1 + c.distance.toNat = a
  omega

/-- **A loop test on another cell** goes on behind the distance. -/
theorem carries_jz_nonzero (h : c.InRunMode n) (h_op : c.opcode = .jz)
    (h_cell : (c.tape n).cell ≠ 0) : c.Carries n (c.ip + 2) (.silent (c.tape n)) := by
  have h_plan : c.plan = { c.advance with ip := (c.ip : Int) + 2 } := by
    rw [h.plan_eq, execute, h_op]
    rw [cell_tape h.dp_lt] at h_cell
    exact if_neg h_cell
  refine carries_of_plan h_plan rfl rfl rfl ?_ (tape_commit_same h.size rfl rfl) rfl rfl
  push_cast
  rfl

/-- **A jump back** goes on where the distance says. -/
theorem carries_jmp (h : c.InRunMode n) (h_op : c.opcode = .jmp) {a : ℕ}
    (h_a : a + c.distance.toNat = c.ip + 1) : c.Carries n a (.silent (c.tape n)) := by
  have h_plan : c.plan = { c.advance with ip := (c.ip : Int) + 1 - c.distance.toNat } := by
    rw [h.plan_eq, execute, h_op]
  refine carries_of_plan h_plan rfl rfl rfl ?_ (tape_commit_same h.size rfl rfl) rfl rfl
  change (c.ip : Int) + 1 - c.distance.toNat = a
  omega

/-! ### The sites of a program in code memory -/

/-- In front of the last word the distance is simply the next word. -/
theorem distance_eq (h_lt : c.ip + 1 < c.code.size) : c.distance = c.code.read (c.ip + 1) := by
  have h_wrap := c.code.wrap_natCast_of_lt h_lt
  rw [Nat.cast_add, Nat.cast_one] at h_wrap
  rw [distance, h_wrap]

/-- **The core obeys the sites of its program.** -/
theorem obeys_turn (h : c.InRunMode n) {p : Program} (hp : p.StandsAt c.code 0)
    (h_size : p.size ≤ c.code.size) {f : Site} (h_in : f.Inside p) (h_ip : c.ip = f.address p) :
    c.Obeys n (Site.address p) (f.turn c.link.signals (c.tape n)) := by
  have h_count := h_in.address_add
  have h_here := h_in.standsAt hp
  rw [← h_ip] at h_count h_here
  obtain ⟨here, outer⟩ := f
  cases here with
  | done =>
    cases outer with
    | nil => trivial
    | cons loop outer =>
      obtain ⟨body, next⟩ := loop
      -- at the end of a body the core jumps back to the loop test
      obtain ⟨h_at, h_op, h_literal⟩ := h_in.reads_back hp
      rw [← h_ip] at h_at h_op h_literal
      simp only [Site.rest, Site.restBehind, Program.opcodes, List.nil_append,
        Opcode.wordCount_cons, Opcode.size] at h_count
      refine h.carries_jmp h_op ?_
      rw [distance_eq (by omega), h_literal, Program.jumpDistance]
      omega
  | plain command next =>
    refine h.obeys_command h_here.1 (Site.address p) ⟨next, outer⟩ ?_
    rw [h_in.address_plain, h_ip]
  | loop body next =>
    -- the loop is left for what follows it, or entered at its body
    obtain ⟨h_op, h_literal, -⟩ := h_here
    rw [Site.rest_loop] at h_count
    simp only [Opcode.wordCount_cons, Opcode.size] at h_count
    by_cases h_cell : (c.tape n).cell = 0
    · rw [Site.turn, if_pos h_cell]
      refine h.carries_jz_zero h_op h_cell ?_
      rw [distance_eq (by omega), h_literal, Program.jumpDistance, h_in.address_skip, h_ip]
      omega
    · rw [Site.turn, if_neg h_cell, Obeys, h_in.address_enter, ← h_ip]
      exact h.carries_jz_nonzero h_op h_cell

end InRunMode

/-! ### Staying with a program -/

/-- The core runs `p` and is at the site `f`. The address of the end wraps if the
program fills code memory. -/
structure AtSite (c : Core) (n : ℕ) (p : Program) (f : Site) : Prop where
  mode : c.InRunMode n
  program : p.StandsAt c.code 0
  size_le : p.size ≤ c.code.size
  inside : f.Inside p
  ip : c.ip = f.address p % c.code.size

namespace AtSite

variable {c : Core} {n : ℕ} {p : Program} {f f' : Site}

/-- The core is at the start of a program whose image is at the start of code memory. -/
theorem start (h_mode : c.InRunMode n) (h_fits : p.Fits)
    (h_image : ∀ a (ha : a < p.encode.size), c.code.read a = p.encode[a])
    (h_size : p.size ≤ c.code.size) (h_ip : c.ip = 0) : c.AtSite n p (Site.start p) := by
  refine ⟨h_mode, h_fits.standsAt_of_image h_image, h_size, Site.inside_start p, ?_⟩
  rw [h_ip, Site.address_start, Nat.zero_mod]

/-- Where a program fills code memory, its end is its start. -/
theorem restart (h : c.AtSite n p Site.finish) (h_full : p.size = c.code.size) :
    c.AtSite n p (Site.start p) := by
  refine ⟨h.mode, h.program, h.size_le, Site.inside_start p, ?_⟩
  rw [h.ip, Site.address_finish, h_full, Nat.mod_self, Site.address_start, Nat.zero_mod]

/-- The site does not depend on the link. -/
theorem withLink (h : c.AtSite n p f) (link : Link) : ({ c with link } : Core).AtSite n p f :=
  ⟨⟨h.mode.init, h.mode.boot, h.mode.size, h.mode.dp_lt⟩, h.program, h.size_le, h.inside, h.ip⟩

/-- Away from the end no address of the program wraps. -/
theorem ip_eq (h : c.AtSite n p f) (h_ne : f ≠ Site.finish) : c.ip = f.address p := by
  have h_lt := h.inside.address_lt h_ne
  rw [h.ip]
  exact Nat.mod_eq_of_lt (Nat.lt_of_lt_of_le h_lt h.size_le)

/-- **A core at a site obeys its turn.** -/
theorem obeys (h : c.AtSite n p f) (h_ne : f ≠ Site.finish) :
    c.Obeys n (Site.address p) (f.turn c.link.signals (c.tape n)) :=
  h.mode.obeys_turn h.program h.size_le h.inside (h.ip_eq h_ne)

/-- The operation at the pointer is the first one of the rest of the program. -/
theorem opcode_eq (h : c.AtSite n p f) {op : Opcode} {ops : List Opcode}
    (h_rest : f.rest = op :: ops) : c.opcode = op := by
  have h_ne : f ≠ Site.finish := by
    intro h_finish
    rw [f.rest_eq_nil_iff.mpr h_finish] at h_rest
    cases h_rest
  rw [opcode, instruction, h.ip_eq h_ne]
  exact h.inside.reads h.program h_rest

/-- **The pointer before it wraps** is at the address of the next site, also if this is the
end of a program that fills code memory. -/
theorem plan_ip_of_goes (h : c.AtSite n p f) {d : Deed n}
    (h_turn : f.turn c.link.signals (c.tape n) = .goes f' d) : c.plan.ip = f'.address p := by
  have h_ne : f ≠ Site.finish := by
    rintro rfl
    cases h_turn
  have h_carries : c.Carries n (f'.address p) d := by
    have h_obeys := h.obeys h_ne
    rwa [h_turn] at h_obeys
  have h_ip := h.ip_eq h_ne
  -- how many words are left tells where the jumps lead
  have h_count := h.inside.address_add
  have h_size := h.size_le
  obtain ⟨here, outer⟩ := f
  cases here with
  | done =>
    cases outer with
    | nil => exact absurd rfl h_ne
    | cons loop outer =>
      -- the jump back leads to the loop test
      obtain ⟨body, next⟩ := loop
      obtain ⟨rfl, -⟩ := Turn.goes.inj h_turn
      have h_op : c.opcode = .jmp := h.opcode_eq rfl
      obtain ⟨h_at, -, h_literal⟩ := h.inside.reads_back h.program
      simp only [Site.rest, Site.restBehind, Program.opcodes, List.nil_append,
        Opcode.wordCount_cons, Opcode.size] at h_count
      rw [← h_ip] at h_at h_literal h_count
      rw [h.mode.plan_eq, execute, h_op]
      dsimp only
      rw [InRunMode.distance_eq (by omega), h_literal, Program.jumpDistance, h_at]
      omega
  | plain command next =>
    have h_op := h.opcode_eq (f := ⟨.plain command next, outer⟩) rfl
    have h_next : (⟨next, outer⟩ : Site) = f' := by
      rw [Site.turn] at h_turn
      split at h_turn
      · cases h_turn
      · exact (Turn.goes.inj h_turn).1
    have h_plan : c.plan = c.executeCommand command := by
      rw [h.mode.plan_eq, execute, h_op]
    -- the command did not wait, so it goes on to the next word
    have h_retires := h_carries.retires
    rw [step_fst, beq_iff_eq, h_plan] at h_retires
    rw [h_plan, ip_executeCommand h_retires, ← h_next, h.inside.address_plain, h_ip]
    rfl
  | loop body next =>
    have h_op := h.opcode_eq (Site.rest_loop body next outer)
    rw [Site.rest_loop, ← h_ip] at h_count
    simp only [Opcode.wordCount_cons, Opcode.size] at h_count
    rw [h.mode.plan_eq, execute, h_op]
    dsimp only
    by_cases h_cell : (c.tape n).cell = 0
    · rw [Site.turn, if_pos h_cell] at h_turn
      obtain ⟨rfl, -⟩ := Turn.goes.inj h_turn
      obtain ⟨-, h_literal, -⟩ := h.inside.standsAt h.program
      rw [cell_tape h.mode.dp_lt] at h_cell
      rw [if_pos h_cell, InRunMode.distance_eq (by omega), h_ip, h_literal, Program.jumpDistance,
        h.inside.address_skip]
      dsimp only
      omega
    · rw [Site.turn, if_neg h_cell] at h_turn
      obtain ⟨rfl, -⟩ := Turn.goes.inj h_turn
      rw [cell_tape h.mode.dp_lt] at h_cell
      rw [if_neg h_cell, h.inside.address_enter, h_ip]
      rfl

/-- A core that waits stays at its site. -/
theorem of_stays (h : c.AtSite n p f) (h_stays : c.Stays n) : c.step.2.AtSite n p f := by
  have h_code := h_stays.code
  refine ⟨h.mode.step, h_code ▸ h.program, h_code ▸ h.size_le, h.inside, ?_⟩
  rw [h_code, h_stays.ip, Memory.wrap_natCast, h.ip, Nat.mod_mod]

/-- A core that carries out the deed of a turn comes to the next site. -/
theorem of_carries (h : c.AtSite n p f) {d : Deed n} (h_in : f'.Inside p)
    (h_carries : c.Carries n (f'.address p) d) : c.step.2.AtSite n p f' := by
  have h_code := h_carries.code
  refine ⟨h.mode.step, h_code ▸ h.program, h_code ▸ h.size_le, h_in, ?_⟩
  rw [h_code, h_carries.ip]

end AtSite

end Core

end TapeProcessor
