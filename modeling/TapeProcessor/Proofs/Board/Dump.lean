import TapeProcessor.Board.Dump
import TapeProcessor.Proofs.Board.Writing
import TapeProcessor.Proofs.Listing.Cover
import TapeProcessor.Proofs.Session.Standstill

/-!
# Which line of a dump is marked

A dump lists the loaded image, with the current instruction marked. The mark does not come
from the address of a line but from the first four characters of its text, which are read
as a number.

* `Board.listingIn` are the lines of the listing in a dump. They are the lines of
  `Board.listing`, each behind its marker (`Board.listingIn_dump`).
* `Line.isMarkedIn` and `Line.behindMarker` take a line of the dump apart.
* `Hex.leading` is the number that the first four digits of an address denote. A line is
  marked exactly if this is the instruction pointer (`Line.isMarked_iff`).

Up to 65536 words an address has no more than four digits, and `Board.dump_marks` says that
the mark is then where it belongs: on the line of the current instruction, if it has one,
and nowhere else. Behind that an address is taken for one with its last digit cut off, so
that a second line is marked (`Board.dump_marks_two`).
-/

namespace TapeProcessor

/-! ### The first four digits -/

namespace Hex

/-- The number that the first four digits of a number denote, those of the address in a
listing: digits are cut off at the end until it has no more than four. -/
def leading (n : ℕ) : ℕ := if n < 65536 then n else leading (n / 16)

/-- A number of up to four digits is its own beginning. -/
theorem leading_of_lt {n : ℕ} (h : n < 65536) : leading n = n := by
  rw [leading, if_pos h]

/-- Of a longer number the last digit is cut off. -/
theorem leading_of_le {n : ℕ} (h : 65536 ≤ n) : leading n = leading (n / 16) := by
  rw [leading, if_neg (Nat.not_lt.mpr h)]

example : leading 0x1F = 0x1F ∧ leading 0x10000 = 0x1000 ∧ leading 0x12345678 = 0x1234 := by
  decide +kernel

/-- Letters of either case take the same room. -/
theorem length_digits (letters : Case) (n : ℕ) :
    (digits letters n).length = (Nat.toDigits 16 n).length := by
  cases letters with
  | lower => rfl
  | upper => exact List.length_map _

/-- A number has no more than four digits if it is small enough. -/
theorem length_digits_le_four_iff {letters : Case} {n : ℕ} :
    (digits letters n).length ≤ 4 ↔ n < 65536 := by
  rw [length_digits, Nat.length_toDigits_le_iff (by decide) (by decide)]

/-- The last digit of a number that has more than one. -/
theorem digits_eq_append {letters : Case} {n : ℕ} (h : 16 ≤ n) :
    digits letters n = digits letters (n / 16) ++ digits letters (n % 16) := by
  have h_digit : n % 16 < 16 := Nat.mod_lt n (by decide)
  have h_joined : Nat.toDigits 16 (n / 16) ++ Nat.toDigits 16 (n % 16) = Nat.toDigits 16 n := by
    rw [Nat.toDigits_append_toDigits (by decide) (by omega) h_digit, Nat.div_add_mod]
  cases letters with
  | lower => exact h_joined.symm
  | upper => exact ((congrArg _ h_joined.symm).trans List.map_append)

/-- **The first four digits** of a number. -/
theorem valueFrom?_take_digits (letters : Case) (n : ℕ) :
    valueFrom? 0 ((digits letters n).take 4) = some (leading n) := by
  induction n using Nat.strongRecOn with
  | ind n ih =>
    -- the induction is on the number, which loses its last digit
    by_cases h_lt : n < 65536
    · rw [List.take_of_length_le (length_digits_le_four_iff.mpr h_lt), valueFrom?_digits,
        leading_of_lt h_lt]
    -- there are four digits in front of the last
    · have h_front : 4 ≤ (digits letters (n / 16)).length := by
        by_contra h_short
        have h_three : (Nat.toDigits 16 (n / 16)).length ≤ 3 := by
          rw [← length_digits letters]
          omega
        rw [Nat.length_toDigits_le_iff (by decide) (by decide)] at h_three
        omega
      rw [digits_eq_append (by omega), List.take_append_of_le_length h_front, ih _ (by omega),
        leading_of_le (n := n) (by omega)]

/-- **The first four characters of an address** in a listing. -/
theorem value?_take_listingAddress (n : ℕ) :
    value? ((Style.listingAddress.write n).take 4) = some (leading n) := by
  have h_write : Style.listingAddress.write n
      = List.replicate (4 - (digits .upper n).length) '0' ++ digits .upper n := by
    have h_sign : ¬ (n : ℤ) < 0 := by omega
    simp [Style.write, Style.listingAddress, h_sign]
  -- up to four digits are filled up with zeros, and more are cut off
  by_cases h_lt : n < 65536
  · have h_length : (digits .upper n).length ≤ 4 := length_digits_le_four_iff.mpr h_lt
    rw [h_write, List.take_of_length_le (by simp; omega), value?_zeros_digits, leading_of_lt h_lt]
  · have h_length : 4 < (digits .upper n).length := by
      rw [← not_le, length_digits_le_four_iff]
      exact h_lt
    have h_some : ((digits .upper n).take 4).isEmpty = false := by
      rw [List.isEmpty_eq_false_iff, ← List.length_pos_iff, List.length_take]
      omega
    rw [h_write, show 4 - (digits .upper n).length = 0 by omega, List.replicate_zero,
      List.nil_append, value?, if_neg (by simp [h_some]), valueFrom?_take_digits]

end Hex

/-! ### The lines of a dump -/

namespace Line

/-- Whether a line of a dump carries the marker. -/
def isMarkedIn (text : String) : Bool := text.toList.take 2 == [' ', '>']

/-- The line of the listing in a line of a dump. -/
def behindMarker (text : String) : String := String.ofList (text.toList.drop 2)

/-- The marker is read back from the text of a line. -/
theorem isMarkedIn_renderMarked (ip : ℕ) (l : Line) :
    isMarkedIn (l.renderMarked ip) = l.isMarked ip := by
  rw [isMarkedIn, renderMarked, String.toList_append]
  cases l.isMarked ip <;> rfl

/-- Behind the marker stands the line as it is listed. -/
theorem behindMarker_renderMarked (ip : ℕ) (l : Line) :
    behindMarker (l.renderMarked ip) = l.render := by
  rw [behindMarker, renderMarked, String.toList_append]
  cases l.isMarked ip <;> exact String.ofList_toList

/-- **The line that is marked.** -/
theorem isMarked_iff {ip n : ℕ} {l : Line} (h : l.address = n) :
    l.isMarked ip = true ↔ Hex.leading n = ip := by
  rw [isMarked, h, Hex.value?_take_listingAddress, beq_iff_eq, Option.some_inj]

end Line

namespace Board

/-- The lines of the listing in a dump: those behind the title. -/
def listingIn (dump : List String) : List String := (dump.dropWhile (· != "=== Code ===")).drop 1

/-- Nothing in front of the listing looks like its title. -/
theorem ne_title (b : Board) :
    ∀ text ∈ "=== Core ===" :: b.core.dump ++ [b.dumpCounters, "", "=== UART ===", b.dumpTerminal],
      (text != "=== Code ===") = true := by
  have h_blank {text : String} (h : text.toList.head? = some ' ') :
      (text != "=== Code ===") = true := by
    rw [bne_iff_ne]
    rintro rfl
    cases h
  -- the lines of the core and the terminal are indented, which no title is
  delta Core.dump Core.dumpChannel dumpCounters dumpTerminal
  simp only [List.cons_append, List.nil_append, List.forall_mem_cons]
  refine ⟨by decide, ?_, ?_, ?_, ?_, ?_, by decide, by decide, ?_, by simp⟩
  all_goals
    refine h_blank ?_
    simp only [String.toList_append, List.append_assoc]
    rfl

/-- **The listing of a board** is the walk through its image. -/
theorem exists_rows_listing (b : Board) :
    ∃ e, Listing.Rows b.core.code.cells b.core.code.size b.imageSize 0 b.listing.toList e := by
  obtain ⟨ls, e, h_rows⟩ : ∃ ls e,
      Listing.Rows b.core.code.cells b.core.code.size b.imageSize 0 ls e :=
    Listing.exists_rows 0
  have h_listing : b.listing = ls.toArray := by
    -- code memory has words, so that there is a listing
    have h_some : ¬ (b.core.code.cells.size = 0 ∧ (0 : ℤ) < b.imageSize) :=
      fun h_none => Nat.ne_of_gt b.core.code.size_pos h_none.1
    rw [listing, h_rows.lines_eq h_some, Option.getD_some]
  rw [h_listing]
  exact ⟨e, h_rows⟩

/-- **The listing in a dump** is that of the image, behind the markers. -/
theorem listingIn_dump (b : Board) :
    listingIn b.dump = b.listing.toList.map (Line.renderMarked b.core.ip) := by
  rw [listingIn, dump, List.dropWhile_append_of_pos b.ne_title, dumpCode]
  split
  · next h_none =>
    -- without an image the listing has no lines
    obtain ⟨e, h_rows⟩ := b.exists_rows_listing
    rw [h_none] at h_rows
    generalize b.listing.toList = ls at h_rows ⊢
    cases h_rows with
    | done h_end => rfl
    | line h_lt => exact absurd h_lt (Int.lt_irrefl 0)
  · rfl

/-- Behind the markers are the lines of the listing. -/
theorem map_behindMarker_listingIn (b : Board) :
    (listingIn b.dump).map Line.behindMarker = b.listing.toList.map Line.render := by
  rw [b.listingIn_dump, List.map_map]
  exact List.map_congr_left fun l _ => Line.behindMarker_renderMarked _ l

/-- The addresses that are listed are those of words of the image. -/
theorem exists_address {b : Board} {l : Line} (h_mem : l ∈ b.listing.toList) :
    ∃ n : ℕ, l.address = n ∧ n < b.imageSize := by
  obtain ⟨e, h_rows⟩ := b.exists_rows_listing
  have h_from := h_rows.le_address h_mem
  have h_to := (h_rows.mem_line h_mem).2
  exact ⟨l.address.toNat, by omega, by omega⟩

/-- In an image of no more than 65536 words the mark is on the line of the pointer. -/
theorem isMarked_iff_address {b : Board} (h_size : b.imageSize ≤ 65536) {l : Line}
    (h_mem : l ∈ b.listing.toList) :
    l.isMarked b.core.ip = true ↔ l.address = b.core.ip := by
  obtain ⟨n, h_address, h_lt⟩ := exists_address h_mem
  rw [Line.isMarked_iff h_address, Hex.leading_of_lt (by omega), h_address, Nat.cast_inj]

/-- **How many lines are marked**: one if the address of the pointer is listed. -/
theorem countP_isMarked {b : Board} (h_size : b.imageSize ≤ 65536) :
    b.listing.toList.countP (Line.isMarked b.core.ip)
      = if (b.core.ip : ℤ) ∈ b.listing.toList.map Line.address then 1 else 0 := by
  obtain ⟨e, h_rows⟩ := b.exists_rows_listing
  have h_nodup : (b.listing.toList.map Line.address).Nodup := h_rows.rising.imp ne_of_lt
  -- no address is listed twice, so that the lines are counted by their addresses
  rw [← h_nodup.count, List.count, List.countP_map]
  refine List.countP_congr fun l h_mem => ?_
  rw [isMarked_iff_address h_size h_mem, Function.comp_apply, beq_iff_eq]

/-- **What the marker of a dump says.** On any board whatever, a line of the listing is marked
exactly if the first four digits of its address denote the instruction pointer. If the image
has no more than 65536 words, these are the whole address: a line is marked exactly if its
address is the instruction pointer, at most one line is, and one is if the pointer is listed. -/
theorem dump_marks (b : Board) :
    (listingIn b.dump).map Line.behindMarker = b.listing.toList.map Line.render ∧
    (∀ text ∈ listingIn b.dump, ∃ n : ℕ,
      Line.addressIn? (Line.behindMarker text) = some (n : ℤ) ∧
        (Line.isMarkedIn text = true ↔ Hex.leading n = b.core.ip)) ∧
    (b.imageSize ≤ 65536 →
      (∀ text ∈ listingIn b.dump, Line.isMarkedIn text = true ↔
        Line.addressIn? (Line.behindMarker text) = some (b.core.ip : ℤ)) ∧
      (listingIn b.dump).countP Line.isMarkedIn ≤ 1 ∧
      ((∃ text ∈ listingIn b.dump,
          Line.addressIn? (Line.behindMarker text) = some (b.core.ip : ℤ)) →
        (listingIn b.dump).countP Line.isMarkedIn = 1)) := by
  refine ⟨b.map_behindMarker_listingIn, ?_⟩
  rw [b.listingIn_dump]
  refine ⟨?_, fun h_size => ⟨?_, ?_⟩⟩
  · -- each line of the dump is one of the listing behind its marker
    rw [List.forall_mem_map]
    intro l h_mem
    obtain ⟨n, h_address, -⟩ := exists_address h_mem
    rw [Line.behindMarker_renderMarked, Line.addressIn?_render, Line.isMarkedIn_renderMarked,
      Line.isMarked_iff h_address, h_address]
    exact ⟨n, rfl, Iff.rfl⟩
  · -- in a short image the four digits are the whole address
    rw [List.forall_mem_map]
    intro l h_mem
    rw [Line.behindMarker_renderMarked, Line.addressIn?_render, Line.isMarkedIn_renderMarked,
      isMarked_iff_address h_size h_mem, Option.some_inj]
  · -- marked lines are counted in the listing
    have h_count : (b.listing.toList.map (Line.renderMarked b.core.ip)).countP Line.isMarkedIn
        = if (b.core.ip : ℤ) ∈ b.listing.toList.map Line.address then 1 else 0 := by
      rw [List.countP_map, ← countP_isMarked h_size]
      exact List.countP_congr fun l _ => by
        rw [Function.comp_apply, Line.isMarkedIn_renderMarked]
    rw [h_count]
    refine ⟨by split <;> omega, ?_⟩
    rintro ⟨text, h_text, h_address⟩
    obtain ⟨l, h_mem, rfl⟩ := List.mem_map.mp h_text
    rw [Line.behindMarker_renderMarked, Line.addressIn?_render, Option.some_inj] at h_address
    exact if_pos (List.mem_map.mpr ⟨l, h_mem, h_address⟩)

/-- A board that has come to the second instruction of the image of `+[-].`. -/
def midway : Board :=
  { new ⟨.succ 2, .succ 0⟩ with
    core := { (Core.new ⟨.succ 2, .succ 0⟩).store .code 0 [0, 6, 4, 1, 7, 4, 4] with ip := 3 }
    imageSize := 7
    booted := true }

/-- The pointer is on the third of the five lines, and this one is marked. -/
theorem dump_marks_midway :
    midway.imageSize ≤ 65536 ∧
      listingIn midway.dump = ["  0000: 00     INC", "  0001: 06 04  JZ 4  ; -> 0x006",
        " >0003: 01     DEC", "  0004: 07 04  JMP 4  ; -> 0x001", "  0006: 04     PUT"] ∧
      (listingIn midway.dump).countP Line.isMarkedIn = 1 := by
  have h_listing : listingIn midway.dump = ["  0000: 00     INC", "  0001: 06 04  JZ 4  ; -> 0x006",
      " >0003: 01     DEC", "  0004: 07 04  JMP 4  ; -> 0x001", "  0006: 04     PUT"] := by
    decide +kernel
  have h_size : midway.imageSize ≤ 65536 := by decide
  refine ⟨h_size, h_listing, (midway.dump_marks.2.2 h_size).2.2 ?_⟩
  rw [h_listing]
  exact ⟨" >0003: 01     DEC", by decide, by decide +kernel⟩

/-! ### Behind the first 65536 words -/

section Zeros

variable {b : Board} (h_zeros : ∀ a, b.core.code.read a = 0)

include h_zeros

/-- On a zero a clock moves the pointer on by a word. -/
theorem Running.clock_of_zeros (h : b.Running) :
    b.clock.2.core.code = b.core.code ∧
      b.clock.2.core.ip = b.core.code.wrap (b.core.ip + 1) := by
  -- a word of zero is an increment, which goes on behind itself
  have h_op : b.drivenCore.opcode = .plain .inc := by
    rw [Core.opcode, Core.instruction, show b.drivenCore.code = b.core.code from rfl, h_zeros]
    rfl
  refine ⟨Core.code_step_of_not_init h.init, ?_⟩
  rw [core_clock, Core.step_snd, Core.ip_commit, Core.plan_of_not_held h.not_held, Core.execute,
    h_op]
  rfl

/-- **A run through zeros** moves the pointer on by the number of its clocks. -/
theorem Running.after_of_zeros (h : b.Running) (count : ℕ) :
    (Clock.after Board.clock count b).core.code = b.core.code ∧
      (Clock.after Board.clock count b).imageSize = b.imageSize ∧
      ((Clock.after Board.clock count b).core.ip : ℤ)
        ≡ b.core.ip + count [ZMOD b.core.code.size] := by
  induction count generalizing b with
  | zero => exact ⟨rfl, rfl, by rw [Nat.cast_zero, add_zero]; rfl⟩
  | succ count ih =>
    obtain ⟨h_code, h_ip⟩ := h.clock_of_zeros h_zeros
    obtain ⟨h_code', h_image', h_ip'⟩ := ih (fun a => h_code ▸ h_zeros a) h.clock
    -- the pointer wraps on this clock, which makes no difference modulo the size
    rw [h_ip, h_code, Memory.wrap_eq_emod] at h_ip'
    refine ⟨h_code'.trans h_code, h_image', h_ip'.trans ?_⟩
    rw [Nat.cast_succ, add_comm (count : ℤ), ← add_assoc]
    exact (Int.mod_modEq _ _).add_right _

/-- A board that has loaded nothing but zeros over zeros, after a reset. -/
theorem running_boot_load {words : ℕ} (h_fits : words ≤ b.core.code.size) :
    let b' := (b.load (Array.replicate words 0) #[] true).board.boot.board
    b'.Running ∧ (∀ a, b'.core.code.read a = 0) ∧ b'.core.ip = 0 ∧
      b'.core.code.size = b.core.code.size ∧ b'.imageSize = words ∧ b'.booted = true := by
  have h_image : (Array.replicate words (0 : UInt8)).size ≤ b.core.code.size := by
    rwa [Array.size_replicate]
  have h_data : (#[] : Array UInt8).size ≤ b.core.data.size := Nat.zero_le _
  have h_words := b.code_load true h_image h_data
  have h_loaded := (b.load_spec h_image h_data).2
  generalize (b.load (Array.replicate words 0) #[] true).board = loaded at h_words h_loaded ⊢
  have h_booted := boot_spec h_loaded.init
  refine ⟨⟨h_booted.init, h_booted.boot, ?_, ?_⟩, fun a => ?_, h_booted.ip, ?_, ?_,
    h_booted.booted⟩
  · rw [h_booted.ip]
    exact Memory.size_pos _
  · rw [h_booted.dp]
    exact Memory.size_pos _
  · rw [h_booted.code, h_words, Array.getD_eq_getD_getElem?, Array.getElem?_replicate, h_zeros]
    split <;> rfl
  · rw [h_booted.code, h_loaded.code_size]
  · exact h_loaded.imageSize.trans Array.size_replicate

/-- Every address of an image of zeros is listed, with the mark that its first four digits
deserve. -/
theorem mem_listingIn_of_zeros {n : ℕ} (h_lt : n < b.imageSize) :
    ∃ text ∈ listingIn b.dump, (Line.isMarkedIn text = true ↔ Hex.leading n = b.core.ip) ∧
      Line.addressIn? (Line.behindMarker text) = some (n : ℤ) := by
  obtain ⟨e, h_rows⟩ := b.exists_rows_listing
  -- each word is an instruction of its own, so that each address begins a line
  have h_one (m : ℤ) :
      (Listing.lineAt b.core.code.cells b.core.code.size m).instruction.size = 1 := by
    rw [Instruction.size, Listing.opcode_lineAt, Memory.wordAt_cells, h_zeros]
    rfl
  have h_mem := h_rows.mem_of_size_one h_one (Int.natCast_nonneg n) (Int.ofNat_lt.mpr h_lt)
  rw [b.listingIn_dump]
  refine ⟨_, List.mem_map_of_mem h_mem, ?_, ?_⟩
  · rw [Line.isMarkedIn_renderMarked]
    exact Line.isMarked_iff rfl
  · rw [Line.behindMarker_renderMarked, Line.addressIn?_render]
    rfl

/-- A run through zeros from the address zero on leaves a mark on every line whose address has
the number of clocks as its first four digits. -/
theorem Running.marked_run (h : b.Running) (h_ip : b.core.ip = 0) (h_booted : b.booted = true)
    {count n : ℕ} (h_count : count < b.core.code.size) (h_lt : n < b.imageSize)
    (h_leading : Hex.leading n = count) :
    (b.run count).board.core.ip = count ∧
      ∃ text ∈ listingIn (b.run count).board.dump, Line.isMarkedIn text = true ∧
        Line.addressIn? (Line.behindMarker text) = some (n : ℤ) := by
  have h_run : (b.run count).board = Clock.after Board.clock count b :=
    congrArg Outcome.board (run_of_booted h_booted count)
  obtain ⟨h_code, h_image, h_congr⟩ := h.after_of_zeros h_zeros count
  have h_inside := (h.after count).ip_lt
  rw [← h_run] at h_code h_image h_congr h_inside
  generalize (b.run count).board = b' at h_code h_image h_congr h_inside ⊢
  -- the pointer did not come round, so it is the number of clocks itself
  have h_pointer : b'.core.ip = count := by
    rw [h_code] at h_inside
    rw [h_ip, Nat.cast_zero, zero_add] at h_congr
    exact (Int.natCast_modEq_iff.mp h_congr).eq_of_lt_of_lt h_inside h_count
  obtain ⟨text, h_mem, h_marked, h_address⟩ :=
    mem_listingIn_of_zeros (fun a => h_code ▸ h_zeros a) (h_image ▸ h_lt)
  exact ⟨h_pointer, text, h_mem, h_marked.mpr (h_leading.trans h_pointer.symm), h_address⟩

end Zeros

/-- A board with 65537 words of zero in its code memory, after a reset. -/
def overlong : Board :=
  ((new ⟨.succ 16, .succ 0⟩).load (Array.replicate 65537 0) #[] true).board.boot.board

/-- **A second line is marked.** When 4096 clocks have been run on the long image, the pointer
is at 4096. The line of this address is marked, and so is that of the address 65536. -/
theorem dump_marks_two :
    (overlong.run (4096 : ℕ)).board.core.ip = 4096 ∧
      (∃ text ∈ listingIn (overlong.run (4096 : ℕ)).board.dump, Line.isMarkedIn text = true ∧
        Line.addressIn? (Line.behindMarker text) = some (4096 : ℕ)) ∧
      ∃ text ∈ listingIn (overlong.run (4096 : ℕ)).board.dump, Line.isMarkedIn text = true ∧
        Line.addressIn? (Line.behindMarker text) = some (65536 : ℕ) := by
  have h_size : (new ⟨.succ 16, .succ 0⟩).core.code.size = 131072 := Memory.size_zeros _
  obtain ⟨h, h_zeros, h_ip, h_code, h_image, h_booted⟩ :
      overlong.Running ∧ (∀ a, overlong.core.code.read a = 0) ∧ overlong.core.ip = 0 ∧
        overlong.core.code.size = _ ∧ overlong.imageSize = 65537 ∧ overlong.booted = true :=
    running_boot_load (fun a => Memory.read_zeros _ a) (by omega)
  have h_own : Hex.leading 4096 = 4096 := Hex.leading_of_lt (by decide)
  have h_other : Hex.leading 65536 = 4096 := (Hex.leading_of_le (by decide)).trans h_own
  obtain ⟨h_pointer, h_first⟩ := h.marked_run h_zeros h_ip h_booted (by omega) (by omega) h_own
  obtain ⟨-, h_second⟩ := h.marked_run h_zeros h_ip h_booted (by omega) (by omega) h_other
  exact ⟨h_pointer, h_first, h_second⟩

end Board

end TapeProcessor
