import TapeProcessor.Proofs.Core.Instruction
import TapeProcessor.Proofs.Source.Walk

/-!
# The core in lock step with its source text

The walk through a source text and the core that runs its image, clock by clock,
under whatever the host does on the channels.

The setting is a core in run mode whose code memory begins with the image of the
text; what lies behind the image is arbitrary. `Core.lockstep` has two parts.

* **One clock.** From the address of any operation of the text, whatever the data
  memory and the signals are, the core does what the character at that position
  does, and its instruction pointer is the address of the next position, wrapped.
* **A run.** From address zero, under any row of links, the core is where the walk
  is (`Core.StandsIn`) until the walk has come to the end of the text. So each
  instruction that it fetches on the way is an operation of the text: never the
  distance behind a bracket, and never a word behind the image.

The proof goes by way of the tree: a position of the text is that of a site
(`Source.Marks`), at whose address the core obeys the turn of the site
(`Core.InRunMode.obeys_turn`), and this is the turn of the text
(`Source.Marks.turn`). `Core.Tracks` is what one clock keeps of it.
-/

namespace TapeProcessor

namespace Source

variable {n : ℕ} {text : List Char}

/-- A walk that ended before the last clock was at a position where it is finished. -/
theorem exists_of_walk_eq_none {gs : List Signals} {i : ℕ} {t : Tape n}
    (h : walk text gs i t = none) :
    ∃ front g back j u, gs = front ++ g :: back ∧ walk text front i t = some (j, u) ∧
      turn text g j u = .finished := by
  induction gs generalizing i t with
  | nil => cases h
  | cons g rest ih =>
    rw [walk] at h
    -- the walk ends here, or it goes on and ends later
    cases h_land : (turn text g i t).land i t with
    | none => exact ⟨[], g, rest, i, t, rfl, rfl, Turn.land_eq_none_iff.mp h_land⟩
    | some next =>
      rw [h_land] at h
      obtain ⟨front, g', back, j, u, rfl, h_front, h_last⟩ := ih h
      refine ⟨g :: front, g', back, j, u, rfl, ?_, h_last⟩
      rw [walk, h_land]
      exact h_front

/-- Where an operation stands in the text, there is a site of the tree. -/
theorem exists_marks {p : Program} (h_tree : p.opcodes = operations text) {i : ℕ}
    (h : (opcodeAt? text i).isSome) : ∃ f : Site, f.Inside p ∧ Marks text f i := by
  obtain ⟨op, h_op⟩ := Option.isSome_iff_exists.mp h
  obtain ⟨c, h_char, h_c⟩ := Option.bind_eq_some_iff.mp h_op
  obtain ⟨h_lt, rfl⟩ := List.getElem?_eq_some_iff.mp h_char
  -- the operations from there on are a tail of all of them, and every tail belongs to a site
  have h_suffix : operations (text.drop i) <:+ p.opcodes := by
    rw [h_tree]
    exact (List.drop_suffix i text).filterMap _
  obtain ⟨f, h_in, h_rest⟩ := Site.exists_of_suffix h_suffix
  refine ⟨f, h_in, text.take i, text.drop i, (List.take_append_drop i text).symm, ?_,
    h_rest.symm, ?_⟩
  · exact List.length_take_of_le (Nat.le_of_lt h_lt)
  · intro x tail h_eq
    rw [List.drop_eq_getElem_cons h_lt] at h_eq
    rw [← (List.cons.inj h_eq).1, h_c]
    simp

/-- A walk starts where the tree does. -/
theorem marks_start {p : Program} (h_tree : p.opcodes = operations text) :
    Marks text (Site.start p) (settle text 0) :=
  marks_settle [] (h_tree.symm.trans (List.append_nil _).symm)

end Source

namespace Core

/-- The core after a row of clocks, each with the link as it is given. -/
def runUnder (c : Core) : List Link → Core
  | [] => c
  | link :: rest => ({ c with link } : Core).step.2.runUnder rest

/-- In run mode the core is where position `i` of a text is whose image has `words`
words. It is at the end, or the instruction it fetches is the operation at the
position, inside the image and not the distance of a bracket. -/
structure StandsIn (c : Core) (n : ℕ) (text : List Char) (words i : ℕ) : Prop where
  mode : c.InRunMode n
  ip : c.ip = Source.offset text i % c.code.size
  fetch : (i = text.length ∧ Source.offset text i = words) ∨
    ∃ op, Source.opcodeAt? text i = some op ∧ c.opcode = op ∧ c.ip = Source.offset text i ∧
      c.ip + op.size ≤ words ∧
      ∀ k, Source.opcodeAt? text k = some .jz ∨ Source.opcodeAt? text k = some .jmp →
        c.ip ≠ Source.offset text k + 1

/-- The core runs `p`, whose text is at position `i`, and is at that site. -/
structure Tracks (c : Core) (n : ℕ) (p : Program) (text : List Char) (f : Site) (i : ℕ) :
    Prop where
  site : c.AtSite n p f
  marks : Source.Marks text f i

namespace Tracks

variable {c : Core} {n : ℕ} {p : Program} {text : List Char} {f : Site} {i : ℕ}

/-- The turn of the site and that of the position, and where they lead. -/
theorem turn_rel (h : c.Tracks n p text f i) (h_tree : p.opcodes = Source.operations text)
    (g : Signals) (t : Tape n) :
    Turn.Rel (fun f' j => f'.Inside p ∧ Source.Marks text f' j) (f.turn g t)
      (Source.turn text g i t) := by
  have h_rel := h.marks.turn h.site.inside h_tree g t
  have h_inside : ∀ f' d, f.turn g t = .goes f' d → f'.Inside p :=
    fun _ _ => h.site.inside.turn
  generalize f.turn g t = turn at h_rel h_inside ⊢
  generalize Source.turn text g i t = turn' at h_rel ⊢
  -- the two turns agree, and the one of the tree stays inside it
  cases h_rel with
  | finished => exact .finished
  | waits => exact .waits
  | goes deed h_marks => exact .goes deed ⟨h_inside _ deed rfl, h_marks⟩

/-- **The core obeys the character at its position.** -/
theorem obeys (h : c.Tracks n p text f i) (h_tree : p.opcodes = Source.operations text)
    (h_ne : f ≠ Site.finish) :
    Source.turn text c.link.signals i (c.tape n) ≠ .finished ∧
      c.Obeys n (Source.offset text) (Source.turn text c.link.signals i (c.tape n)) := by
  have h_obeys := h.site.obeys h_ne
  have h_rel := h.turn_rel h_tree c.link.signals (c.tape n)
  have h_end := (f.turn_eq_finished_iff c.link.signals (c.tape n)).not.mpr h_ne
  generalize Source.turn text c.link.signals i (c.tape n) = turn at h_rel ⊢
  generalize f.turn c.link.signals (c.tape n) = turn' at h_rel h_obeys h_end
  cases h_rel with
  | finished => exact absurd rfl h_end
  | waits => exact ⟨by simp, h_obeys⟩
  | goes deed h_next =>
    refine ⟨by simp, ?_⟩
    -- the position has the address of the site that the core goes on to
    change c.Carries n _ deed
    rw [h_next.2.offset_eq h_next.1 h_tree]
    exact h_obeys

/-- **One clock keeps the core where the walk is.** -/
theorem step (h : c.Tracks n p text f i) (h_tree : p.opcodes = Source.operations text)
    (h_ne : f ≠ Site.finish) :
    ∃ f' j, (Source.turn text c.link.signals i (c.tape n)).land i (c.tape n)
        = some (j, c.step.2.tape n) ∧
      c.step.2.Tracks n p text f' j ∧ c.step.2.code = c.code := by
  obtain ⟨h_turn, h_obeys⟩ := h.obeys h_tree h_ne
  have h_rel := h.turn_rel h_tree c.link.signals (c.tape n)
  generalize Source.turn text c.link.signals i (c.tape n) = turn at h_rel h_turn h_obeys ⊢
  generalize f.turn c.link.signals (c.tape n) = turn' at h_rel
  cases h_rel with
  | finished => exact absurd rfl h_turn
  | waits =>
    have h_stays : c.Stays n := h_obeys
    exact ⟨f, i, by rw [h_stays.tape]; rfl, ⟨h.site.of_stays h_stays, h.marks⟩, h_stays.code⟩
  | @goes f' j deed h_next =>
    have h_carries : c.Carries n (Source.offset text j) deed := h_obeys
    rw [h_next.2.offset_eq h_next.1 h_tree] at h_carries
    exact ⟨f', j, by rw [h_carries.tape]; rfl, ⟨h.site.of_carries h_next.1 h_carries, h_next.2⟩,
      h_carries.code⟩

/-- **A run keeps the core where the walk is.** The induction is on the row of links;
once the site is the end of the program, the walk has no clock left. -/
theorem run (h : c.Tracks n p text f i) (h_tree : p.opcodes = Source.operations text)
    {links : List Link} {j : ℕ} {t : Tape n}
    (h_walk : Source.walk text (links.map Link.signals) i (c.tape n) = some (j, t)) :
    (∃ f', (c.runUnder links).Tracks n p text f' j) ∧ (c.runUnder links).tape n = t ∧
      (c.runUnder links).code = c.code := by
  induction links generalizing c f i with
  | nil =>
    obtain ⟨rfl, rfl⟩ := h_walk
    exact ⟨⟨f, h⟩, rfl, rfl⟩
  | cons link rest ih =>
    have h_driven : ({ c with link } : Core).Tracks n p text f i :=
      ⟨h.site.withLink link, h.marks⟩
    rw [List.map_cons, Source.walk] at h_walk
    by_cases h_ne : f = Site.finish
    · -- the walk is at the end of the text
      rw [h.marks.eq_length (f.rest_eq_nil_iff.mpr h_ne), Source.turn,
        Source.opcodeAt?_length] at h_walk
      cases h_walk
    · obtain ⟨f', k, h_land, h_next, h_code⟩ := h_driven.step h_tree h_ne
      replace h_land : (Source.turn text link.signals i (c.tape n)).land i (c.tape n)
        = some (k, ({ c with link } : Core).step.2.tape n) := h_land
      rw [h_land] at h_walk
      obtain ⟨h_last, h_tape, h_same⟩ := ih h_next h_walk
      exact ⟨h_last, h_tape, h_same.trans h_code⟩

/-- Where the core is in the tree, it is in the text. -/
theorem standsIn (h : c.Tracks n p text f i) (h_tree : p.opcodes = Source.operations text) :
    c.StandsIn n text p.size i := by
  have h_offset := h.marks.offset_eq h.site.inside h_tree
  refine ⟨h.site.mode, by rw [h_offset]; exact h.site.ip, ?_⟩
  cases h_rest : f.rest with
  | nil =>
    refine Or.inl ⟨h.marks.eq_length h_rest, ?_⟩
    rw [h_offset, f.rest_eq_nil_iff.mp h_rest, Site.address_finish]
  | cons op ops =>
    have h_ne : f ≠ Site.finish := by
      rintro rfl
      cases h_rest
    have h_ip := h.site.ip_eq h_ne
    have h_count := h.site.inside.address_add
    have h_op : Source.opcodeAt? text i = some op := by
      obtain ⟨before, x, rest, rfl, rfl, h_x, -⟩ := h.marks.split h_rest
      rw [Source.opcodeAt?_append, h_x]
    rw [h_rest, Opcode.wordCount_cons] at h_count
    -- the word fetched, and that it is no distance
    refine Or.inr ⟨op, h_op, ?_, by rw [h_offset, h_ip], by omega, fun k h_k => ?_⟩
    · rw [opcode, instruction, h_ip]
      exact h.site.inside.reads h.site.program h_rest
    · rw [h_ip, ← h_offset]
      exact Source.offset_ne_distance h_op h_k

end Tracks

/-- **The core runs in lock step with its source text.** -/
theorem lockstep {c : Core} {n : ℕ} {source : String} {image : Array UInt8}
    (h_mode : c.InRunMode n) (h_compile : Program.compile source c.code.size = .ok image)
    (h_image : ∀ a (ha : a < image.size), c.code.read a = image[a]) :
    (∀ i, (Source.opcodeAt? source.toList i).isSome → c.ip = Source.offset source.toList i →
      Source.turn source.toList c.link.signals i (c.tape n) ≠ .finished ∧
        c.Obeys n (Source.offset source.toList)
          (Source.turn source.toList c.link.signals i (c.tape n))) ∧
    (c.ip = 0 → ∀ links : List Link,
      match Source.walk source.toList (links.map Link.signals) (Source.settle source.toList 0)
        (c.tape n) with
      | some (i, t) =>
        (c.runUnder links).StandsIn n source.toList image.size i ∧
          (c.runUnder links).tape n = t ∧ (c.runUnder links).code = c.code
      | none =>
        ∃ front link back u, links = front ++ link :: back ∧
          Source.walk source.toList (front.map Link.signals) (Source.settle source.toList 0)
            (c.tape n) = some (source.toList.length, u)) := by
  obtain ⟨p, h_tree, h_fits, rfl, h_capacity⟩ := Program.of_compile h_compile
  have h_program := h_fits.standsAt_of_image h_image
  have h_size : p.size ≤ c.code.size := by exact_mod_cast h_capacity
  refine ⟨fun i h_op h_ip => ?_, fun h_ip links => ?_⟩
  -- one clock: the operation is that of a site, which is not the end
  · obtain ⟨f, h_in, h_marks⟩ := Source.exists_marks h_tree h_op
    have h_ne : f ≠ Site.finish := by
      rintro rfl
      rw [h_marks.eq_length rfl, Source.opcodeAt?_length] at h_op
      cases h_op
    have h_lt := h_in.address_lt h_ne
    have h_at : c.ip = f.address p % c.code.size := by
      rw [h_ip, h_marks.offset_eq h_in h_tree, Nat.mod_eq_of_lt (by omega)]
    exact Tracks.obeys ⟨⟨h_mode, h_program, h_size, h_in, h_at⟩, h_marks⟩ h_tree h_ne
  -- a run: it begins at the start of the tree
  · have h_start : c.Tracks n p source.toList (Site.start p) (Source.settle source.toList 0) :=
      ⟨.start h_mode h_fits h_image h_size h_ip, Source.marks_start h_tree⟩
    rw [Program.size_encode]
    cases h_walk : Source.walk source.toList (links.map Link.signals)
        (Source.settle source.toList 0) (c.tape n) with
    | some last =>
      obtain ⟨i, t⟩ := last
      obtain ⟨⟨f, h_last⟩, h_rest⟩ := h_start.run h_tree h_walk
      exact ⟨h_last.standsIn h_tree, h_rest⟩
    | none =>
      obtain ⟨gs, g, gs', i, u, h_split, h_front, h_turn⟩ := Source.exists_of_walk_eq_none h_walk
      obtain ⟨front, after, rfl, rfl, h_after⟩ := List.map_eq_append_iff.mp h_split
      obtain ⟨link, back, rfl, rfl, -⟩ := List.map_eq_cons_iff.mp h_after
      refine ⟨front, link, back, u, rfl, ?_⟩
      -- the site reached in front of the last clock has no turn left
      obtain ⟨⟨f, h_last⟩, rfl, -⟩ := h_start.run h_tree h_front
      rw [h_front]
      by_cases h_ne : f = Site.finish
      · rw [h_last.marks.eq_length (f.rest_eq_nil_iff.mpr h_ne)]
      · have h_driven : ({ c.runUnder front with link } : Core).Tracks n p source.toList f i :=
          ⟨h_last.site.withLink link, h_last.marks⟩
        exact absurd h_turn (h_driven.obeys h_tree h_ne).1

/-- A core whose code memory is filled by the image of `,[.-]+`. -/
def filled : Core :=
  (Core.new ⟨⟨3, Nat.succ_pos 2⟩, ⟨1, Nat.zero_lt_one⟩⟩).store .code 0 [5, 6, 5, 4, 1, 7, 5, 0]

/-- A host that takes all output and offers the byte one. -/
def generousLink : Link := ⟨⟨false, true, 0⟩, ⟨⟨true, false, 1⟩, false⟩⟩

/-- In a filled memory the end of the text is address zero again. -/
theorem lockstep_filled :
    filled.InRunMode 2 ∧ Program.compile ",[.-]+" filled.code.size = .ok #[5, 6, 5, 4, 1, 7, 5, 0] ∧
      (∀ a (ha : a < 8), filled.code.read a = #[5, 6, 5, 4, 1, 7, 5, 0][a]) ∧
      (filled.runUnder (List.replicate 7 generousLink)).StandsIn 2 ",[.-]+".toList 8 6 := by
  have h_mode : filled.InRunMode 2 := ⟨rfl, rfl, by decide +kernel, by decide +kernel⟩
  have h_compile : Program.compile ",[.-]+" filled.code.size = .ok #[5, 6, 5, 4, 1, 7, 5, 0] := by
    decide +kernel
  have h_image : ∀ a (ha : a < 8), filled.code.read a = #[5, 6, 5, 4, 1, 7, 5, 0][a] := by
    decide +kernel
  refine ⟨h_mode, h_compile, h_image, ?_⟩
  have h_run := (lockstep h_mode h_compile h_image).2 rfl (List.replicate 7 generousLink)
  have h_walk : (Source.walk ",[.-]+".toList ((List.replicate 7 generousLink).map Link.signals)
      (Source.settle ",[.-]+".toList 0) (filled.tape 2)).map Prod.fst = some 6 := by
    decide +kernel
  obtain ⟨⟨i, t⟩, h_last, rfl⟩ := Option.map_eq_some_iff.mp h_walk
  rw [h_last] at h_run
  exact h_run.1

end Core

end TapeProcessor
