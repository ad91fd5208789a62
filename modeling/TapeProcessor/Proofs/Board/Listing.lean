import TapeProcessor.Proofs.Board.Dump
import TapeProcessor.Proofs.Image.Targets

/-!
# The listing of a loaded program

A program can be listed from its image, and from the code memory that it was loaded into.
The image repeats at its own length and the memory at another, and behind the image the
memory holds what was there before. `Board.listing_loadSource` says that there is no
difference between the two listings: a compiled image ends with a whole instruction, so that
neither of them reads anything but the words of the image
(`Board.rows_of_image`). Both show each jump with the line that belongs to its partner.
-/

namespace TapeProcessor.Board

open Source (commands)

variable {b : Board} {image : Array UInt8}

/-- **A walk inside an image** is the same in a memory that begins with it. -/
theorem rows_of_image (h_fits : image.size ≤ b.core.code.size)
    (h_words : ∀ a (h : a < image.size), b.core.code.read a = image[a]) {capacity : ℤ}
    {ls : List Line} (h : Listing.Rows image capacity image.size 0 ls image.size) :
    Listing.Rows b.core.code.cells capacity image.size 0 ls image.size := by
  refine h.congr fun k h_from h_to => ?_
  obtain ⟨a, rfl⟩ := Int.eq_ofNat_of_zero_le h_from
  have h_lt : a < image.size := Int.ofNat_lt.mp h_to
  rw [Memory.wordAt_cells, b.core.code.wrap_natCast_of_lt (by omega), h_words a h_lt]
  exact Listing.wordAt_of_getElem? (Array.getElem?_eq_getElem h_lt)

/-- A load does not change how many words code memory has. -/
theorem code_size_load (b : Board) {image data : Array UInt8} (zeroData : Bool)
    (h_image : image.size ≤ b.core.code.size) (h_data : data.size ≤ b.core.data.size) :
    (b.load image data zeroData).board.core.code.size = b.core.code.size := by
  rw [b.load_of_fits h_image h_data rfl]
  exact (congrArg Memory.size (b.filledFrom image.toList _).code).trans (Memory.size_store _ _ _)

/-- **Listing the loaded program.** Let a source text be compiled for a board, whatever its
code memory holds, and loaded with data that fit. Then the image and code memory have one
listing, and it is the one in a dump of the board. Each of its loop tests leads to the line
behind its jump back, and behind the last line to the length of the image modulo the size of
code memory; each jump back leads to the line of its loop test. -/
theorem listing_loadSource (b : Board) {source : String} {image data : Array UInt8}
    (zeroData : Bool) (h_compile : Program.compile source b.core.code.size = .ok image)
    (h_data : data.size ≤ b.core.data.size) :
    let b' := (b.loadSource source data zeroData).board
    b'.imageSize = image.size ∧
    ∃ ls, Listing.lines image 0 image.size b.core.code.size = some ls ∧
      Listing.lines b'.core.code.cells 0 b'.imageSize b'.core.code.size = some ls ∧
      (listingIn b'.dump).map Line.behindMarker = ls.toList.map Line.render ∧
      Listing.Leads (ls.toList.map Line.render) (commands source).toList
        ((image.size : ℤ) % b.core.code.size) := by
  obtain ⟨-, h_capacity⟩ := Image.carries_of_compile h_compile
  have h_image : image.size ≤ b.core.code.size := by omega
  have h_board : (b.loadSource source data zeroData).board
      = (b.load image data zeroData).board := by
    unfold loadSource
    rw [h_compile]
  rw [h_board]
  -- what is known of code memory after the load is enough from here on
  have h_read := b.code_load zeroData h_image h_data
  have h_code_size := b.code_size_load zeroData h_image h_data
  obtain ⟨-, -, -, h_size, -⟩ := b.closed_load zeroData h_image h_data
  generalize (b.load image data zeroData).board = b' at h_read h_code_size h_size ⊢
  -- the walk through the image is one through the memory as well
  obtain ⟨ls, h_rows, h_leads⟩ := Image.leads_of_compile b.core.code h_compile
  have h_loaded :
      Listing.Rows b'.core.code.cells b'.core.code.size b'.imageSize 0 ls image.size := by
    rw [h_code_size, h_size]
    refine rows_of_image (by omega) (fun a h_lt => ?_) h_rows
    rw [h_read, Array.getD_eq_getD_getElem?, Array.getElem?_eq_getElem h_lt, Option.getD_some]
  have h_lines : Listing.lines b'.core.code.cells 0 b'.imageSize b'.core.code.size
      = some ls.toArray := by
    refine h_loaded.lines_eq fun h_none => ?_
    exact Nat.ne_of_gt b'.core.code.size_pos h_none.1
  refine ⟨h_size, ls.toArray, h_rows.lines_eq (by omega), h_lines, ?_, h_leads⟩
  rw [b'.map_behindMarker_listingIn, listing, h_lines]
  rfl

/-- A board with jumps in every word of its code memory. -/
def worn : Board :=
  { new ⟨.succ 3, .succ 0⟩ with
    core := (Core.new ⟨.succ 3, .succ 0⟩).store .code 0 (List.replicate 16 0xFF) }

/-- A loop at the end of a text leads to the first of the words that were there before, and
the listing does not show it. -/
theorem listing_loadSource_worn :
    let b' := (worn.loadSource "+,. [-]" #[] true).board
    Program.compile "+,. [-]" worn.core.code.size = .ok #[0, 5, 4, 6, 4, 1, 7, 4] ∧
      b'.core.code.read 8 = 0xFF ∧
      (listingIn b'.dump).map Line.behindMarker = ["0000: 00     INC", "0001: 05     GET",
        "0002: 04     PUT", "0003: 06 04  JZ 4  ; -> 0x008", "0005: 01     DEC",
        "0006: 07 04  JMP 4  ; -> 0x003"] ∧
      Listing.Leads ((listingIn b'.dump).map Line.behindMarker) "+,.[-]".toList 8 := by
  have h_compile : Program.compile "+,. [-]" worn.core.code.size
      = .ok #[0, 5, 4, 6, 4, 1, 7, 4] := by
    decide +kernel
  have h_commands : commands "+,. [-]" = "+,.[-]" := by decide +kernel
  have h_data : (#[] : Array UInt8).size ≤ worn.core.data.size := Nat.zero_le _
  have h_texts : (Listing.lines #[0, 5, 4, 6, 4, 1, 7, 4] 0 (8 : ℕ) (16 : ℕ)).map
      (fun ls => ls.toList.map Line.render) = some ["0000: 00     INC", "0001: 05     GET",
        "0002: 04     PUT", "0003: 06 04  JZ 4  ; -> 0x008", "0005: 01     DEC",
        "0006: 07 04  JMP 4  ; -> 0x003"] := by
    decide +kernel
  obtain ⟨-, ls, h_image, -, h_dump, h_leads⟩ := worn.listing_loadSource true h_compile h_data
  have h_size : worn.core.code.size = 16 := by decide +kernel
  have h_length : (#[0, 5, 4, 6, 4, 1, 7, 4] : Array UInt8).size = 8 := rfl
  rw [h_size, h_length] at h_image h_leads
  rw [h_image, Option.map_some, Option.some_inj] at h_texts
  rw [h_commands, ← h_dump] at h_leads
  exact ⟨h_compile, by decide +kernel, h_dump.trans h_texts, h_leads⟩

end TapeProcessor.Board
