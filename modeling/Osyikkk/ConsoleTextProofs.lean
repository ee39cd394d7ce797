import Osyikkk.ScreenBoundProofs
import Osyikkk.StandardMemory
import Osyikkk.TextWindow

/-!
# What `framebuffer_write_string` leaves on the screen

The loop of `framebuffer_write_string` types into a window of 25 rows (`writeLoop_typeIn`),
and the two cursor registers carry every offset up to 2000 from one call to the next, so
printing composes. The cells are those of an unbounded terminal as long as `framebuffer_write`
stores a byte with the attribute it was given. For a byte from `0x80` on it does not: the
`char` is sign-extended over the attribute.
-/

namespace OsyConsole

open OsyMemory TextWindow

/-! ## Cells -/

/-- The cell `framebuffer_write` stores for a character on black. -/
def shownCell (textColor c : UInt8) : UInt16 :=
  charToInt c ||| (black.toUInt16 <<< 4 ||| (textColor &&& white).toUInt16) <<< 8

/-- A character in a colour on black: the byte, and the attribute above it. -/
def textCell (textColor c : UInt8) : UInt16 :=
  c.toUInt16 ||| (textColor &&& white).toUInt16 <<< 8

/-- A space in white on black. -/
def blankCell : UInt16 := textCell white 32

theorem charToInt_of_lt {c : UInt8} (h : c < 0x80) : charToInt c = c.toUInt16 := if_pos h

theorem attribute_lt (textColor : UInt8) :
    ((textColor &&& white).toUInt16 <<< 8).toNat < 2 ^ 15 := by
  have hnibble : (textColor &&& white).toNat < 2 ^ 4 := by
    rw [UInt8.toNat_and]
    exact Nat.and_lt_two_pow _ (by decide)
  rw [UInt16.toNat_shiftLeft, UInt8.toNat_toUInt16, show (8 : UInt16).toNat % 16 = 8 from rfl,
    Nat.shiftLeft_eq]
  exact Nat.lt_of_le_of_lt (Nat.mod_le _ _) (by omega)

/-- A cell has the byte and the colour exactly when the byte is no negative `char`. -/
theorem shownCell_eq_iff {textColor c : UInt8} :
    shownCell textColor c = textCell textColor c ↔ c < 0x80 := by
  have hblack : black.toUInt16 <<< 4 ||| (textColor &&& white).toUInt16
      = (textColor &&& white).toUInt16 := UInt16.zero_or
  rw [shownCell, hblack, textCell]
  constructor
  · intro h
    by_contra hc
    have hshown : 2 ^ 15 ≤ (charToInt c ||| (textColor &&& white).toUInt16 <<< 8).toNat := by
      rw [charToInt, if_neg hc, UInt16.toNat_or, UInt16.toNat_or]
      exact Nat.le_trans (by decide : 2 ^ 15 ≤ (0xFF00 : UInt16).toNat)
        (Nat.le_trans Nat.left_le_or Nat.left_le_or)
    have hbyte : c.toUInt16.toNat < 2 ^ 15 := by
      rw [UInt8.toNat_toUInt16]
      exact Nat.lt_trans (UInt8.toNat_lt c) (by decide)
    rw [h, UInt16.toNat_or] at hshown
    exact absurd (Nat.or_lt_two_pow hbyte (attribute_lt textColor)) (Nat.not_lt.mpr hshown)
  · intro hc
    rw [charToInt_of_lt hc]

/-! ## Scrolling -/

variable {s : Console} {textColor : UInt8} {offset : ℕ}

/-- The cell of a text memory that is addressed in bytes. -/
def cellAt (mem : ℕ → UInt8) (k : ℕ) : UInt16 :=
  (mem (2 * k)).toUInt16 ||| (mem (2 * k + 1)).toUInt16 <<< 8

/-- The copy in `framebuffer_scroll_ln` is the byte copy of `memcpy` from one row further
    down, although the two ranges overlap. -/
theorem scrollLn_memcpy {mem : ℕ → UInt8} (h : s.cells = cellAt mem) (offset : ℕ) :
    s.scrollLn offset
      = (blankRow
          { s with
            cells := cellAt (memcpy 0 (maxCols * 2) (maxCols * 2 * maxRows) mem) } maxCols 0,
          offset - maxCols) := by
  have hcopy : (fun k => if k < maxCols * maxRows then s.cells (k + maxCols) else s.cells k)
      = cellAt (memcpy 0 (maxCols * 2) (maxCols * 2 * maxRows) mem) := by
    funext k
    rw [h, memcpy_down (Nat.zero_le _)]
    simp only [cellAt, maxCols, maxRows]
    by_cases hk : k < 80 * 25
    · rw [if_pos hk, if_pos (by omega), if_pos (by omega)]
      exact congrArg₂ (fun i j => (mem i).toUInt16 ||| (mem j).toUInt16 <<< 8) (by omega) (by omega)
    · rw [if_neg hk, if_neg (by omega), if_neg (by omega)]
  rw [Console.scrollLn, hcopy]

theorem place_of_lt (ho : offset < 256 * maxCols) :
    (UInt8.ofNat (offset / maxCols)).toNat * maxCols + (UInt8.ofNat (offset % maxCols)).toNat
      = offset := by
  simp only [maxCols] at ho ⊢
  rw [ofNat_toNat_of_lt (by omega), ofNat_toNat_of_lt (by omega)]
  omega

theorem write_cells {row col c : UInt8} :
    (s.write row col c textColor black).cells
      = Function.update s.cells (row.toNat * maxCols + col.toNat) (shownCell textColor c) := rfl

theorem blankRow_cells {n i : ℕ} (h : i + n ≤ maxCols) (k : ℕ) :
    (blankRow s n i).cells k
      = if (maxRows - 1) * maxCols + i ≤ k ∧ k < (maxRows - 1) * maxCols + i + n then blankCell
        else s.cells k := by
  induction n generalizing s i with
  | zero =>
      rw [if_neg (by omega)]
      rfl
  | succ n ih =>
      have hplace : (UInt8.ofNat (maxRows - 1)).toNat * maxCols + (UInt8.ofNat i).toNat
          = (maxRows - 1) * maxCols + i := by
        simp only [maxCols] at h
        rw [ofNat_toNat_of_lt (n := i) (by omega)]
        rfl
      have hspace : shownCell white 32 = blankCell := by decide
      rw [blankRow, ih (by omega), write_cells, hplace, hspace]
      by_cases hk : k = (maxRows - 1) * maxCols + i
      · rw [if_neg (by omega), if_pos (by omega), hk, Function.update_self]
      · rw [Function.update_of_ne hk]
        by_cases hin : (maxRows - 1) * maxCols + (i + 1) ≤ k ∧
            k < (maxRows - 1) * maxCols + (i + 1) + n
        · rw [if_pos hin, if_pos (by omega)]
        · rw [if_neg hin, if_neg (by omega)]

/-- `framebuffer_scroll_ln` moves the window down by one row. -/
theorem scrollLn_cells (s : Console) (offset : ℕ) :
    (s.scrollLn offset).1.cells = scroll maxRows maxCols blankCell s.cells := by
  funext k
  rw [Console.scrollLn, blankRow_cells (Nat.le_refl _), scroll]
  simp only [maxRows, maxCols]
  by_cases hlast : (25 - 1) * 80 + 0 ≤ k ∧ k < (25 - 1) * 80 + 0 + 80
  · rw [if_pos hlast, if_pos (by omega), if_neg (by omega)]
  · rw [if_neg hlast]
    by_cases hk : k < 80 * 25
    · rw [if_pos hk, if_pos (by omega), if_pos (by omega)]
    · rw [if_neg hk, if_neg (by omega)]

theorem scrolled_makeRoom (s : Console) (offset : ℕ) :
    (scrolled s offset).1.cells = (makeRoom maxRows maxCols blankCell s.cells offset).1 ∧
      (scrolled s offset).2 = (makeRoom maxRows maxCols blankCell s.cells offset).2 := by
  rw [scrolled, makeRoom]
  by_cases hfull : maxCols * maxRows ≤ offset
  · rw [if_pos hfull, if_pos (Nat.mul_comm maxCols maxRows ▸ hfull)]
    exact ⟨scrollLn_cells s offset, rfl⟩
  · rw [if_neg hfull, if_neg (Nat.mul_comm maxCols maxRows ▸ hfull)]
    exact ⟨rfl, rfl⟩

/-- From a place of the screen or the first one behind it, the scrolling leads to a place of
    the screen. -/
theorem scrolled_lt (s : Console) (ho : offset ≤ maxRows * maxCols) :
    (scrolled s offset).2 < maxRows * maxCols := by
  have hoff := scrolled_offset s offset
  simp only [maxRows, maxCols] at ho hoff ⊢
  split at hoff <;> omega

/-! ## The loop is typing into the window -/

/-- A byte of a string as a stroke. -/
def strokeOf (c : UInt8) : Stroke UInt8 := if c = 10 then .newline else .char c

theorem writeLoop_typeIn (str : List UInt8) (h0 : 0 ∉ str) (ho : offset ≤ maxRows * maxCols) :
    ((writeLoop textColor str s offset).1.cells, (writeLoop textColor str s offset).2)
      = typeIn maxRows maxCols blankCell (shownCell textColor) (str.map strokeOf) s.cells
          offset := by
  induction str generalizing s offset with
  | nil => rfl
  | cons c rest ih =>
      have hc : c ≠ 0 := fun h => h0 (h ▸ List.mem_cons_self)
      have hrest : 0 ∉ rest := fun h => h0 (List.mem_cons_of_mem _ h)
      have hin := scrolled_lt s ho
      obtain ⟨hcells, hplace⟩ := scrolled_makeRoom s offset
      rw [List.map_cons, typeIn, ← hcells, ← hplace]
      by_cases hn : c = 10
      · have hstroke : strokeOf c = .newline := if_pos hn
        rw [hn, writeLoop_newline, ← hn, hstroke]
        exact ih hrest (advance_le (Stroke.newline : Stroke UInt8) hin)
      · have hstroke : strokeOf c = .char c := if_neg hn
        have hbyte : (scrolled s offset).2 < 256 * maxCols := Nat.lt_trans hin (by decide)
        rw [writeLoop_char hc hn, hstroke, ih hrest hin, write_cells, place_of_lt hbyte]
        rfl

/-! ## What is drawn, and where the cursor is -/

/-- A drawing that wrote on the screen only. -/
structure Draws (s s' : Console) : Prop where
  writes : ∃ places, s'.writes = s.writes ++ places ∧ ∀ place ∈ places, OnScreen place
  behind : ∀ k, maxRows * maxCols ≤ k → s'.cells k = s.cells k

theorem Draws.refl (s : Console) : Draws s s where
  writes := ⟨[], (List.append_nil _).symm, fun _ h => absurd h List.not_mem_nil⟩
  behind _ _ := rfl

theorem Draws.trans {s₁ s₂ s₃ : Console} (h : Draws s₁ s₂) (h' : Draws s₂ s₃) : Draws s₁ s₃ where
  writes := by
    obtain ⟨places, hwrites, hon⟩ := h.writes
    obtain ⟨places', hwrites', hon'⟩ := h'.writes
    refine ⟨places ++ places', by rw [hwrites', hwrites, List.append_assoc], ?_⟩
    intro place hplace
    rcases List.mem_append.mp hplace with hold | hnew
    · exact hon place hold
    · exact hon' place hnew
  behind k hk := (h'.behind k hk).trans (h.behind k hk)

theorem write_draws {row col c fg bg : UInt8} (h : OnScreen (row, col)) :
    Draws s (s.write row col c fg bg) where
  writes := ⟨[(row, col)], rfl, fun _ hplace => List.mem_singleton.mp hplace ▸ h⟩
  behind k hk := by
    obtain ⟨hrow, hcol⟩ := h
    simp only [maxRows, maxCols] at hrow hcol hk
    refine Function.update_of_ne ?_ _ _
    simp only [maxCols]
    omega

theorem blankRow_draws {n i : ℕ} (h : i + n ≤ maxCols) : Draws s (blankRow s n i) := by
  induction n generalizing s i with
  | zero => exact Draws.refl s
  | succ n ih =>
      refine (write_draws ⟨(by decide : (UInt8.ofNat (maxRows - 1)).toNat < maxRows), ?_⟩).trans
        (ih (by omega))
      simp only [maxCols] at h ⊢
      rw [ofNat_toNat_of_lt (by omega)]
      omega

theorem scrolled_draws (s : Console) (offset : ℕ) : Draws s (scrolled s offset).1 := by
  unfold scrolled
  split
  · refine Draws.trans ?_ (blankRow_draws (Nat.le_refl _))
    exact ⟨(Draws.refl s).writes, fun k hk => if_neg (Nat.not_lt.mpr hk)⟩
  · exact Draws.refl s

theorem writeLoop_draws (textColor : UInt8) (str : List UInt8) (ho : offset ≤ maxRows * maxCols) :
    Draws s (writeLoop textColor str s offset).1 ∧
      (writeLoop textColor str s offset).2 ≤ maxRows * maxCols := by
  induction str generalizing s offset with
  | nil => exact ⟨Draws.refl s, ho⟩
  | cons c rest ih =>
      have hin := scrolled_lt s ho
      have hroom := scrolled_draws s offset
      by_cases hc : c = 0
      · rw [hc, writeLoop_end]
        exact ⟨Draws.refl s, ho⟩
      by_cases hn : c = 10
      · rw [hn, writeLoop_newline]
        obtain ⟨hdraws, hle⟩ := ih (s := (scrolled s offset).1)
          (advance_le (Stroke.newline : Stroke UInt8) hin)
        exact ⟨hroom.trans hdraws, hle⟩
      · rw [writeLoop_char hc hn]
        have hplace : OnScreen (UInt8.ofNat ((scrolled s offset).2 / maxCols),
            UInt8.ofNat ((scrolled s offset).2 % maxCols)) :=
          (offset_onScreen_iff (Nat.lt_trans hin (by decide))).mpr hin
        obtain ⟨hdraws, hle⟩ := ih (s := (scrolled s offset).1.write _ _ c textColor black) hin
        exact ⟨hroom.trans ((write_draws hplace).trans hdraws), hle⟩

/-- The two registers keep an offset up to the first place behind the screen. -/
theorem setCursor_position (s : Console) (ho : offset ≤ maxRows * maxCols) :
    (s.setCursor (UInt8.ofNat (offset / maxCols)) (UInt8.ofNat (offset % maxCols))).position.toNat
      = offset := by
  simp only [maxRows, maxCols] at ho
  show ((UInt8.ofNat (offset / 80)).toUInt16 * 80 + (UInt8.ofNat (offset % 80)).toUInt16).toNat = _
  rw [UInt16.toNat_add, UInt16.toNat_mul, UInt8.toNat_toUInt16, UInt8.toNat_toUInt16,
    ofNat_toNat_of_lt (by omega), ofNat_toNat_of_lt (by omega),
    show (80 : UInt16).toNat = 80 from rfl]
  omega

/-- The offset a call starts from. -/
theorem getCursor_offset (h : s.position.toNat ≤ maxRows * maxCols) :
    s.getCursor.row.toNat * maxCols + s.getCursor.col.toNat = s.position.toNat :=
  place_of_lt (Nat.lt_of_le_of_lt h (by decide))

theorem writeString_eq (str : List UInt8) (h : s.position.toNat ≤ maxRows * maxCols) :
    s.writeString str textColor
      = (writeLoop textColor str s s.position.toNat).1.setCursor
          (UInt8.ofNat ((writeLoop textColor str s s.position.toNat).2 / maxCols))
          (UInt8.ofNat ((writeLoop textColor str s s.position.toNat).2 % maxCols)) := by
  rw [Console.writeString, getCursor_offset h]

/-! ## Printing composes -/

theorem blankRow_setCursor (r c : UInt8) (n i : ℕ) :
    blankRow (s.setCursor r c) n i = (blankRow s n i).setCursor r c := by
  induction n generalizing s i with
  | zero => rfl
  | succ n ih => exact ih (s := s.write _ _ 32 white black) (i + 1)

theorem scrolled_setCursor (r c : UInt8) (offset : ℕ) :
    scrolled (s.setCursor r c) offset
      = ((scrolled s offset).1.setCursor r c, (scrolled s offset).2) := by
  unfold scrolled
  split
  · exact congrArg (·, offset - maxCols) (blankRow_setCursor (s := { s with cells := _ }) r c _ _)
  · rfl

/-- The loop does not look at the registers. -/
theorem writeLoop_setCursor (r c : UInt8) (str : List UInt8) (offset : ℕ) :
    writeLoop textColor str (s.setCursor r c) offset
      = ((writeLoop textColor str s offset).1.setCursor r c,
          (writeLoop textColor str s offset).2) := by
  induction str generalizing s offset with
  | nil => rfl
  | cons b rest ih =>
      by_cases hb : b = 0
      · rw [hb, writeLoop_end, writeLoop_end]
      by_cases hn : b = 10
      · rw [hn, writeLoop_newline, writeLoop_newline, scrolled_setCursor, ih]
      · rw [writeLoop_char hb hn, writeLoop_char hb hn, scrolled_setCursor]
        exact ih (s := (scrolled s offset).1.write _ _ b textColor black) _

theorem writeLoop_append {str : List UInt8} (h0 : 0 ∉ str) (str' : List UInt8) (offset : ℕ) :
    writeLoop textColor (str ++ str') s offset
      = writeLoop textColor str' (writeLoop textColor str s offset).1
          (writeLoop textColor str s offset).2 := by
  induction str generalizing s offset with
  | nil => rfl
  | cons c rest ih =>
      have hc : c ≠ 0 := fun h => h0 (h ▸ List.mem_cons_self)
      have hrest : 0 ∉ rest := fun h => h0 (List.mem_cons_of_mem _ h)
      rw [List.cons_append]
      by_cases hn : c = 10
      · rw [hn, writeLoop_newline, writeLoop_newline, ih hrest]
      · rw [writeLoop_char hc hn, writeLoop_char hc hn, ih hrest]

/-- A call leaves the cursor on the screen or at the first place behind it, and it wrote on
    the screen only. -/
structure PrintsInside (s : Console) (str : List UInt8) (textColor : UInt8) : Prop where
  cursor : (s.writeString str textColor).position.toNat ≤ maxRows * maxCols
  draws : Draws s (s.writeString str textColor)

theorem printsInside (str : List UInt8) (textColor : UInt8)
    (h : s.position.toNat ≤ maxRows * maxCols) : PrintsInside s str textColor := by
  obtain ⟨hdraws, hle⟩ := writeLoop_draws (s := s) textColor str h
  refine ⟨?_, ?_⟩
  · rw [writeString_eq str h, setCursor_position _ hle]
    exact hle
  · rw [writeString_eq str h]
    exact ⟨hdraws.writes, hdraws.behind⟩

/-- **Printing composes**, and each call stays on the screen. -/
theorem writeString_composes (s : Console) (textColor : UInt8) (str str' : List UInt8)
    (h0 : 0 ∉ str) (h : s.position.toNat ≤ maxRows * maxCols) :
    (s.writeString str textColor).writeString str' textColor
        = s.writeString (str ++ str') textColor ∧
      PrintsInside s str textColor ∧
      PrintsInside (s.writeString str textColor) str' textColor ∧
      PrintsInside s (str ++ str') textColor := by
  have hfirst := printsInside str textColor h
  refine ⟨?_, hfirst, printsInside str' textColor hfirst.cursor,
    printsInside (str ++ str') textColor h⟩
  have hle := (writeLoop_draws (s := s) textColor str h).2
  have hposition : (s.writeString str textColor).position.toNat
      = (writeLoop textColor str s s.position.toNat).2 := by
    rw [writeString_eq str h, setCursor_position _ hle]
  rw [writeString_eq str' hfirst.cursor, hposition, writeString_eq str h,
    writeString_eq (str ++ str') h, writeLoop_setCursor, writeLoop_append h0]
  rfl

/-- `hi` and a new line, then `!`, at the top of a cleared screen. -/
theorem writeString_composes_hi :
    (Console.blank.writeString [104, 105, 10] white).writeString [33] white
        = Console.blank.writeString ([104, 105, 10] ++ [33]) white ∧
      PrintsInside Console.blank [104, 105, 10] white ∧
      PrintsInside (Console.blank.writeString [104, 105, 10] white) [33] white ∧
      PrintsInside Console.blank ([104, 105, 10] ++ [33]) white :=
  writeString_composes Console.blank white [104, 105, 10] [33] (by decide) (by decide)

/-! ## The unbounded terminal -/

/-- The page of an unbounded terminal after a string: the screen with blank rows below it,
    and the string from the cursor on. -/
def terminalPage (s : Console) (str : List UInt8) (textColor : UInt8) : ℕ → UInt16 :=
  (typeset maxCols (textCell textColor) (str.map strokeOf)
    (fun i => if i < maxRows * maxCols then s.cells i else blankCell) s.position.toNat).1

/-- The characters of a string with their places on the page. -/
def printedAt (s : Console) (str : List UInt8) : List (ℕ × UInt8) :=
  placed maxCols (str.map strokeOf) s.position.toNat

/-- The rows the page has been scrolled up by. -/
def scrolledRows (s : Console) (str : List UInt8) : ℕ :=
  scrolls maxRows maxCols (str.map strokeOf) s.position.toNat

/-- After a string the screen is that of the unbounded terminal: every character that is
    still visible is in its cell, the other cells hold what they held before, and the rows
    scrolled in are blank. -/
structure ShowsText (s : Console) (str : List UInt8) (textColor : UInt8) : Prop where
  terminal : ∀ i < maxRows * maxCols, (s.writeString str textColor).cells i
    = terminalPage s str textColor (i + scrolledRows s str * maxCols)
  characters : ∀ place c, (place, c) ∈ printedAt s str → scrolledRows s str * maxCols ≤ place →
    (s.writeString str textColor).cells (place - scrolledRows s str * maxCols)
      = textCell textColor c
  others : ∀ i < maxRows * maxCols,
    (∀ c, (i + scrolledRows s str * maxCols, c) ∉ printedAt s str) →
    (s.writeString str textColor).cells i
      = if i + scrolledRows s str * maxCols < maxRows * maxCols then
          s.cells (i + scrolledRows s str * maxCols)
        else blankCell

/-- Every character that is still visible is an ASCII one. -/
def VisibleAscii (s : Console) (str : List UInt8) : Prop :=
  ∀ place c, (place, c) ∈ printedAt s str → scrolledRows s str * maxCols ≤ place → c < 0x80

/-- The page the code types on. -/
def shownPage (s : Console) (str : List UInt8) (textColor : UInt8) : ℕ → UInt16 :=
  (typeset maxCols (shownCell textColor) (str.map strokeOf)
    (fun i => if i < maxRows * maxCols then s.cells i else blankCell) s.position.toNat).1

theorem writeString_shows (s : Console) (str : List UInt8) (textColor : UInt8) (h0 : 0 ∉ str)
    (h : s.position.toNat ≤ maxRows * maxCols) :
    Shows maxRows maxCols (scrolledRows s str) (shownPage s str textColor)
        (s.writeString str textColor).cells ∧
      ∀ place c, (place, c) ∈ printedAt s str →
        place < (maxRows + scrolledRows s str) * maxCols := by
  have hblank : BlankBehind maxRows maxCols 0 blankCell
      (fun i => if i < maxRows * maxCols then s.cells i else blankCell) :=
    fun i hi => if_neg (Nat.not_lt.mpr hi)
  have hshows : Shows maxRows maxCols 0
      (fun i => if i < maxRows * maxCols then s.cells i else blankCell) s.cells := by
    intro i hi
    rw [Nat.zero_mul, Nat.add_zero]
    exact (if_pos hi).symm
  obtain ⟨hpage, hplace, hle⟩ := typeIn_shows (shownCell textColor) (by decide)
    (by decide) (str.map strokeOf) hblank hshows h
  rw [Nat.zero_mul, Nat.add_zero, Nat.zero_add] at hpage hplace
  have hcells : (s.writeString str textColor).cells
      = (typeIn maxRows maxCols blankCell (shownCell textColor) (str.map strokeOf) s.cells
          s.position.toNat).1 := by
    rw [← writeLoop_typeIn str h0 h, writeString_eq str h]
    rfl
  refine ⟨hcells ▸ hpage, fun place c hmem => ?_⟩
  have hlt := placed_lt (shownCell textColor)
    (fun i => if i < maxRows * maxCols then s.cells i else blankCell) (by decide) hmem
  rw [hplace] at hlt
  rw [Nat.add_mul]
  exact Nat.lt_of_lt_of_le hlt (Nat.add_le_add_right hle _)

/-- **The console shows the text** exactly when every character still visible is an ASCII
    one. -/
theorem showsText_iff (s : Console) (str : List UInt8) (textColor : UInt8) (h0 : 0 ∉ str)
    (h : s.position.toNat ≤ maxRows * maxCols) :
    ShowsText s str textColor ↔ VisibleAscii s str := by
  obtain ⟨hshows, hvisible⟩ := writeString_shows s str textColor h0 h
  have hcell : ∀ place c, (place, c) ∈ printedAt s str → scrolledRows s str * maxCols ≤ place →
      (s.writeString str textColor).cells (place - scrolledRows s str * maxCols)
        = shownCell textColor c := by
    intro place c hmem hin
    have hlt := hvisible place c hmem
    rw [Nat.add_mul] at hlt
    rw [hshows _ (by omega), Nat.sub_add_cancel hin]
    exact typeset_placed (by decide) hmem
  constructor
  · intro htext place c hmem hin
    have hshown := (hcell place c hmem hin).symm.trans (htext.characters place c hmem hin)
    exact shownCell_eq_iff.mp hshown
  · intro hascii
    have hsame : ∀ place c, (place, c) ∈ printedAt s str →
        scrolledRows s str * maxCols ≤ place → shownCell textColor c = textCell textColor c :=
      fun place c hmem hin => shownCell_eq_iff.mpr (hascii place c hmem hin)
    refine ⟨?_, ?_, ?_⟩
    · intro i hi
      rw [hshows i hi]
      by_cases hchar : ∃ c, (i + scrolledRows s str * maxCols, c) ∈ printedAt s str
      · obtain ⟨c, hmem⟩ := hchar
        have hpage := hsame _ c hmem (Nat.le_add_left _ _)
        exact (typeset_placed (by decide) hmem).trans
          (hpage.trans (typeset_placed (by decide) hmem).symm)
      · have hnone := not_exists.mp hchar
        rw [shownPage, terminalPage, typeset_other hnone, typeset_other hnone]
    · intro place c hmem hin
      rw [hcell place c hmem hin, hsame place c hmem hin]
    · intro i hi hnone
      rw [hshows i hi]
      exact typeset_other hnone

/-- Two cells in front of the end of a blank screen. -/
def nearEnd : Console := Console.blank.setCursor 24 78

/-- `abc`, a new line and `d` from there on wrap and scroll by two rows. -/
theorem showsText_iff_nearEnd : scrolledRows nearEnd [97, 98, 99, 10, 100] = 2 ∧
    ShowsText nearEnd [97, 98, 99, 10, 100] white := by
  refine ⟨by decide, (showsText_iff nearEnd _ white (by decide) (by decide)).mpr ?_⟩
  have hprinted : printedAt nearEnd [97, 98, 99, 10, 100]
      = [(1998, 97), (1999, 98), (2000, 99), (2080, 100)] := by decide
  have hascii : ∀ x ∈ printedAt nearEnd [97, 98, 99, 10, 100], x.2 < 0x80 := by
    rw [hprinted]
    decide
  exact fun place c hmem _ => hascii (place, c) hmem

/-- The byte `0x80` is shown in white on white, blinking. -/
theorem signedByte_not_shown : ¬ ShowsText Console.blank [0x80] 0x02 := by
  intro h
  have hcell := h.characters 0 0x80 List.mem_cons_self (by decide)
  exact absurd hcell (by decide)

end OsyConsole
