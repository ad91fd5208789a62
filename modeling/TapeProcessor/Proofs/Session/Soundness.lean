import TapeProcessor.Board.Dump
import TapeProcessor.Proofs.Board.Refusals
import TapeProcessor.Proofs.Core.Access
import TapeProcessor.Proofs.Session.Moments

/-!
# Every session keeps the machine sound

A new board of an accepted size is given any session, in which everything can be done
to it that can be done at all: every operation, refused or not, clocks past the
terminal, signals and control lines set by hand, and integers of any size and sign on
the buses and the channels. Only a pointer that is set by hand is asked to be in range
(`Action.InRange`).

`Board.session_sound` says that the machine stays sound at every moment
(`Board.Sound`): the memories keep their sizes, the pointers stay inside them, the
image fits, and no more stalls than clocks are counted. So every access to a memory is
in range (`Core.Guarded`), on every clock of the board, and on every clock that the
core is given on its own. The only ways for an operation to end without its answer are
the refusals listed by `Action.MayMeet`.

`Core.Sound.commit` is the one lemma about clocks. It holds of any plan, since the
pointers wrap when a plan takes effect and not where it is made.
-/

namespace TapeProcessor

/-! ### Sound cores -/

/-- The core has memories of the given sizes, and its pointers are in them. -/
structure Core.Sound (c : Core) (words cells : Int) : Prop where
  code_size : (c.code.size : Int) = words
  data_size : (c.data.size : Int) = cells
  ip_lt : (c.ip : Int) < words
  dp_lt : (c.dp : Int) < cells
  stalls_le : c.stalls ≤ c.cycles

/-- A pointer that is set is in range. -/
def Core.Action.InRange (words cells : Int) : Core.Action → Prop
  | .setIp address => (address : Int) < words
  | .setDp address => (address : Int) < cells
  | _ => True

namespace Core.Sound

variable {c : Core} {words cells : Int}

/-- **Any plan leaves a sound core.** -/
theorem commit (h : c.Sound words cells) (p : Plan) : (c.commit p).Sound words cells := by
  have h_code : ((c.commit p).code.size : Int) = words := by
    rw [code_commit, Memory.size_apply, h.code_size]
  have h_data : ((c.commit p).data.size : Int) = cells := by
    rw [data_commit, Memory.size_apply, h.data_size]
  -- the pointers wrap at the sizes, and a stall is counted only with its cycle
  have h_ip := c.ip_commit_lt p
  have h_dp := c.dp_commit_lt p
  have h_stalls := h.stalls_le
  refine ⟨h_code, h_data, by omega, by omega, ?_⟩
  rw [stalls_commit, cycles_commit]
  split <;> omega

/-- So does a run of any number of clocks. -/
theorem after (h : c.Sound words cells) (count : Nat) :
    (Clock.after step count c).Sound words cells := by
  induction count generalizing c with
  | zero => exact h
  | succ count ih => exact ih (h.commit c.plan)

/-- A sound core makes no access out of range on its next clock. -/
theorem guarded (h : c.Sound words cells) : c.Guarded := by
  have h_ip := h.ip_lt
  have h_dp := h.dp_lt
  rw [← h.code_size] at h_ip
  rw [← h.data_size] at h_dp
  exact Core.guarded (by exact_mod_cast h_ip) (by exact_mod_cast h_dp)

/-- The link plays no part. -/
theorem withLink (h : c.Sound words cells) (link : Link) :
    ({ c with link } : Core).Sound words cells :=
  ⟨h.code_size, h.data_size, h.ip_lt, h.dp_lt, h.stalls_le⟩

/-- **Whatever is done to a core by itself leaves it sound.** -/
theorem perform (h : c.Sound words cells) {action : Core.Action}
    (h_action : action.InRange words cells) : (c.perform action).2.Sound words cells := by
  cases action with
  | step => exact h.commit c.plan
  | run count =>
    change (c.run count).2.Sound words cells
    rw [run, Clock.run_eq]
    exact h.after count.toNat
  | store bank address bytes =>
    cases bank with
    | code =>
      refine ⟨?_, h.data_size, h.ip_lt, h.dp_lt, h.stalls_le⟩
      -- a memory keeps its size whatever is stored in it, wherever it starts
      change ((c.code.store address bytes).size : Int) = words
      rw [Memory.size_store, h.code_size]
    | data =>
      refine ⟨h.code_size, ?_, h.ip_lt, h.dp_lt, h.stalls_le⟩
      change ((c.data.store address bytes).size : Int) = cells
      rw [Memory.size_store, h.data_size]
  | setIp address => exact ⟨h.code_size, h.data_size, h_action, h.dp_lt, h.stalls_le⟩
  | setDp address => exact ⟨h.code_size, h.data_size, h.ip_lt, h_action, h.stalls_le⟩
  | setInit | setBoot => exact ⟨h.code_size, h.data_size, h.ip_lt, h.dp_lt, h.stalls_le⟩
  | offer bank | withdraw bank =>
    cases bank <;> exact ⟨h.code_size, h.data_size, h.ip_lt, h.dp_lt, h.stalls_le⟩

end Core.Sound

namespace Board

/-! ### Sound boards -/

/-- All bytes that a board holds. -/
def bytes (b : Board) : List UInt8 :=
  b.core.code.cells.toList ++ b.core.data.cells.toList ++ b.terminal.received.toList
    ++ b.terminal.pending

/-- The core of the board is sound, and the image it was given fits. -/
structure Sound (b : Board) (words cells : Int) : Prop where
  core : b.core.Sound words cells
  imageSize_le : (b.imageSize : Int) ≤ words

/-- An action that sets no pointer out of range. -/
def Action.InRange (words cells : Int) : Action → Prop
  | .core action => action.InRange words cells
  | _ => True

/-- A move that sets no pointer out of range and claims no image that does not fit. -/
def Move.InRange (words cells : Int) : Move → Prop
  | .core action => action.InRange words cells
  | .loaded size => (size : Int) ≤ words
  | _ => True

variable {b : Board} {words cells : Int}

/-- What operations are made of sets no pointer, and notes an image only if it fits. -/
theorem Move.Internal.inRange {m : Move} (h : m.Internal b.core.code.size)
    (h_size : (b.core.code.size : Int) = words) : m.InRange words cells := by
  cases h with
  | loaded size h_le =>
    change (size : Int) ≤ words
    omega
  | clock | offer | withdraw | setInit | setBoot | started => trivial

/-- An action in range is made of moves in range. -/
theorem Action.InRange.moves {action : Action} (h : action.InRange words cells)
    (h_b : b.Sound words cells) : ∀ m ∈ b.moves action, m.InRange words cells := by
  intro m h_m
  rcases moves_cases h_m with h_internal | ⟨a, rfl, rfl⟩ | ⟨a, rfl, rfl⟩ | ⟨a, -, rfl⟩
  · exact h_internal.inRange h_b.core.code_size
  · exact h
  · trivial
  · trivial

namespace Sound

/-- **Every move keeps a board sound.** -/
theorem apply (h : b.Sound words cells) {m : Move} (h_m : m.InRange words cells) :
    (m.apply b).Sound words cells := by
  cases m with
  -- a board clocks its core with the link as the terminal drives it, which plays no part
  | clock => exact ⟨(h.core.withLink _).commit _, h.imageSize_le⟩
  | core action => exact ⟨h.core.perform h_m, h.imageSize_le⟩
  | link | terminal => exact ⟨h.core.withLink _, h.imageSize_le⟩
  | loaded size => exact ⟨h.core, h_m⟩
  | started => exact ⟨h.core, h.imageSize_le⟩

end Sound

/-- **A new board is sound** for the sizes that were asked for. -/
theorem sound_of_ofSizes (h : ofSizes words cells = .ok b) : b.Sound words cells := by
  unfold ofSizes Geometry.ofSizes at h
  cases h_code : Width.ofSize words with
  | error e => rw [h_code] at h; cases h
  | ok code =>
    cases h_data : Width.ofSize cells with
    | error e => rw [h_code, h_data] at h; cases h
    | ok data =>
      rw [h_code, h_data] at h
      obtain rfl : new ⟨code, data⟩ = b := Except.ok.inj h
      -- the sizes that are accepted are those of the memories
      obtain rfl := Width.ofSize_eq_ok_iff.mp h_code
      obtain rfl := Width.ofSize_eq_ok_iff.mp h_data
      have h_words := code.two_le_size
      have h_cells := data.two_le_size
      refine ⟨⟨?_, ?_, ?_, ?_, Nat.le_refl 0⟩, ?_⟩
      · exact congrArg Int.ofNat (Memory.size_zeros code)
      · exact congrArg Int.ofNat (Memory.size_zeros data)
      · change ((0 : Nat) : Int) < code.size
        omega
      · change ((0 : Nat) : Int) < data.size
        omega
      · change ((0 : Nat) : Int) ≤ code.size
        omega

/-- The image of a board can always be listed, since there is code memory. -/
theorem isSome_listing (b : Board) :
    (Listing.lines b.core.code.cells 0 b.imageSize b.core.code.size).isSome := by
  have h_pos : 0 < b.core.code.cells.size := b.core.code.size_pos
  rw [Listing.lines, if_neg]
  · rfl
  · rintro ⟨h_empty, -⟩
    rw [Array.isEmpty_iff_size_eq_zero] at h_empty
    omega

/-- **The machine stays sound.** On a new board of an accepted size, in any session
whose actions set no pointer out of range, and at every moment of it: the board is
sound; all that it holds are bytes; the next clock of the board makes only accesses
that are in range, and so does every clock of however many the core is given on its
own. In the end the board is the one that the session leaves; an operation on it is
refused only with one of the refusals of its kind, and its image can be listed. -/
theorem session_sound {codeSize dataSize : Int} {b : Board}
    (h_new : Board.ofSizes codeSize dataSize = .ok b) {actions : List Action}
    (h_actions : ∀ action ∈ actions, action.InRange codeSize dataSize) :
    (∀ moves, moves <+: b.sessionMoves actions →
      let b' := b.after moves
      b'.Sound codeSize dataSize ∧ (∀ byte ∈ b'.bytes, byte.toNat ≤ 255) ∧
        b'.drivenCore.Guarded ∧ ∀ count, (Clock.after Core.step count b'.core).Guarded) ∧
    b.after (b.sessionMoves actions) = b.session actions ∧
    (∀ action refusal, ((b.session actions).perform action).answer = .error refusal →
      action.MayMeet refusal) ∧
    (Listing.lines (b.session actions).core.code.cells 0 (b.session actions).imageSize
      (b.session actions).core.code.size).isSome := by
  refine ⟨fun moves h_front => ?_, b.after_sessionMoves actions, fun _ _ => mayMeet_of_error,
    isSome_listing _⟩
  have h_sound : (b.after moves).Sound codeSize dataSize :=
    invariant_at_moments (I := fun b => b.Sound codeSize dataSize)
      (fun _ _ h_m h => h.apply h_m) (fun _ _ h_action h => h_action.moves h) h_actions
      (sound_of_ofSizes h_new) moves h_front
  -- the terminal drives the link before a clock, and a core on its own keeps the one it has
  refine ⟨h_sound, fun byte _ => ?_, (h_sound.core.withLink _).guarded,
    fun count => (h_sound.core.after count).guarded⟩
  exact Nat.le_of_lt_succ byte.toNat_lt

/-- A session that does what it can to leave the memories: integers of any size on the
buses and the channels, a jump back below zero and a pointer moved down from zero. -/
def wildSession : List Action :=
  [.core (.setInit true), .core (.offer .code (-3) (-1)), .core (.offer .data 1000 (-300)),
    .core .step, .core (.offer .code 2 250), .core .step, .core (.setInit false),
    .link (.inputValid true), .link (.inputBits (-77)), .core (.setIp 1), .core (.run 5),
    .core (.store .code (-1) [3, 3, 3, 3]), .boot, .run 7, .link (.outputValid true),
    .link (.outputReady true), .link (.outputBits (-1000)), .terminal .sample,
    .loadSource "[" #[] true]

/-- It ends with both pointers in range. -/
theorem session_sound_wild :
    (∀ action ∈ wildSession, action.InRange 4 2) ∧
      ∃ b, Board.ofSizes 4 2 = .ok b ∧ (b.session wildSession).core.ip < 4 ∧
        (b.session wildSession).core.dp < 2 ∧ (b.session wildSession).core.code.size = 4 ∧
        (b.session wildSession).core.cycles = 15 ∧ (b.session wildSession).core.stalls ≤ 15 := by
  have h_range : ∀ action ∈ wildSession, action.InRange 4 2 := by
    simp [wildSession, Action.InRange, Core.Action.InRange]
  refine ⟨h_range, new ⟨⟨2, Nat.zero_lt_two⟩, ⟨1, Nat.zero_lt_one⟩⟩, rfl, ?_⟩
  obtain ⟨h_moments, h_last, -, -⟩ :=
    session_sound (b := new ⟨⟨2, Nat.zero_lt_two⟩, ⟨1, Nat.zero_lt_one⟩⟩) rfl h_range
  obtain ⟨⟨h_core, -⟩, -⟩ := h_moments _ (List.prefix_refl _)
  -- the last moment of the session is the board that it leaves
  rw [h_last] at h_core
  have h_cycles : ((new ⟨⟨2, Nat.zero_lt_two⟩, ⟨1, Nat.zero_lt_one⟩⟩).session
      wildSession).core.cycles = 15 := by decide +kernel
  refine ⟨?_, ?_, ?_, h_cycles, h_cycles ▸ h_core.stalls_le⟩
  · exact_mod_cast h_core.ip_lt
  · exact_mod_cast h_core.dp_lt
  · exact_mod_cast h_core.code_size

end Board

end TapeProcessor
