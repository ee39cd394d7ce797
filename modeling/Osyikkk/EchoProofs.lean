import Osyikkk.ConsoleTextProofs
import Osyikkk.ModifierKeyProofs

/-!
# The line on the screen and the line in the buffer

`keyboard_isr` edits two copies of the line: the buffer with its index, and the cells behind
the prompt with the cursor. They stay the same line as long as each key that edits it finds
the cursor behind the line (`screen_spells_line`). The Left arrow moves the cursor and not the
index, so the keys behind it edit different places of the two (`leftArrow_splits`).
-/

namespace OsyConsole

open TextWindow

/-! ## Keys -/

/-- The keys of a line editor, on the map that the flags choose, and releases. -/
def EditScancode (tabTypes : Bool) (behind : ℕ → UInt8) (kb : KeyboardDriverState)
    (scancode : UInt8) : Prop :=
  scancode ≠ scancodeLshift ∧ scancode ≠ scancodeLshift + scancodeKeyupThreshold ∧
    scancode ≠ scancodeCaps ∧
    (scancode < scancodeKeyupThreshold →
      scancode = scancodeBackspace ∨ scancode = scancodeLeftarrow ∨
        Printable tabTypes (kb.mappedChar behind scancode))

/-- A new press of the Left arrow that moves the cursor. -/
def MovesLeft (t : Terminal) (scancode : UInt8) : Prop :=
  scancode = scancodeLeftarrow ∧ scancode ≠ t.tempCode ∧ t.console.getCursor.col ≠ 2

instance (t : Terminal) (scancode : UInt8) : Decidable (MovesLeft t scancode) :=
  inferInstanceAs (Decidable (_ ∧ _ ∧ _))

/-- The terminal, and whether the Left arrow has moved its cursor. -/
def typist (behind : ℕ → UInt8) (s : Terminal × Bool) (scancode : UInt8) : Terminal × Bool :=
  (keyboardIsr behind s.1 scancode, s.2 || decide (MovesLeft s.1 scancode))

/-- A new press edits the line where the cursor is left by typing: Backspace and the Left
    arrow are answered by the lower map, the Left arrow has not moved the cursor when the
    line is edited, and a character finds room on the screen and in the index. -/
def KeyInPlace (s : Terminal × Bool) (scancode : UInt8) : Prop :=
  NewlyPressed s.1.tempCode scancode →
    (scancode = scancodeLeftarrow → s.1.keyboard.upper = false) ∧
    (scancode = scancodeBackspace → s.1.keyboard.upper = false ∧
      (s.1.keyboard.typed ≠ [] → s.2 = false)) ∧
    (scancode ≠ scancodeLeftarrow → scancode ≠ scancodeBackspace →
      s.2 = false ∧ s.1.keyboard.bufferIndex ≠ 255 ∧
        s.1.console.position.toNat < maxRows * maxCols)

instance (s : Terminal × Bool) (scancode : UInt8) : Decidable (KeyInPlace s scancode) :=
  inferInstanceAs (Decidable (_ → (_ → _) ∧ (_ → _ ∧ (_ → _)) ∧ (_ → _ → _)))

/-! ## The line on the screen -/

/-- The end of the prompt of `t₀` when the screen has scrolled by some rows since. -/
def promptEnd (t₀ : Terminal) (rows : ℕ) : ℕ := t₀.console.position.toNat - rows * maxCols

/-- The cells behind the prompt spell the characters of the buffer, and what was in front of
    them has moved up with the prompt. -/
structure LineShown (t₀ t : Terminal) (rows : ℕ) : Prop where
  moved : rows * maxCols ≤ t₀.console.position.toNat
  front : ∀ i < promptEnd t₀ rows, t.console.cells i = t₀.console.cells (i + rows * maxCols)
  onScreen : t.keyboard.typed ≠ [] →
    promptEnd t₀ rows + t.keyboard.typed.length ≤ maxRows * maxCols
  spelled : ∀ (j : ℕ) (h : j < t.keyboard.typed.length),
    t.console.cells (promptEnd t₀ rows + j) = textCell white t.keyboard.typed[j]

/-- Exactly the cell of the last character is blanked, and the character leaves the line. -/
structure BlanksLast (t₀ t t' : Terminal) (rows : ℕ) : Prop where
  cells : t'.console.cells = Function.update t.console.cells
    (promptEnd t₀ rows + (t.keyboard.typed.length - 1)) (textCell white 0)
  line : t'.keyboard.typed = t.keyboard.typed.dropLast

/-- The cursor stands behind the line, on the screen. -/
def CursorBehind (t₀ t : Terminal) (rows : ℕ) : Prop :=
  t.console.position.toNat = promptEnd t₀ rows + t.keyboard.typed.length ∧
    (t.keyboard.typed ≠ [] → t.console.position.toNat < maxRows * maxCols)

variable {tabTypes : Bool} {behind : ℕ → UInt8} {t₀ t : Terminal} {s : Console} {rows : ℕ}
  {scancode c : UInt8}

/-! ## The console -/

theorem setCursor_toNat (s : Console) (r c : UInt8) :
    (s.setCursor r c).position.toNat = r.toNat * maxCols + c.toNat := by
  have hr := UInt8.toNat_lt r
  have hc := UInt8.toNat_lt c
  show (r.toUInt16 * 80 + c.toUInt16).toNat = _
  rw [UInt16.toNat_add, UInt16.toNat_mul, UInt8.toNat_toUInt16, UInt8.toNat_toUInt16,
    show (80 : UInt16).toNat = 80 from rfl]
  simp only [maxCols]
  omega

theorem echoed_cells {p : Console × ℕ} (h : p.2 < maxRows * maxCols) :
    (echoed p c).cells = Function.update p.1.cells p.2 (shownCell white c) := by
  show Function.update p.1.cells ((UInt8.ofNat (p.2 / maxCols)).toNat * maxCols
    + (UInt8.ofNat (p.2 % maxCols)).toNat) (shownCell white c) = _
  rw [place_of_lt (Nat.lt_trans h (by decide))]

theorem echoed_position {p : Console × ℕ} (h : p.2 < maxRows * maxCols) :
    (echoed p c).position.toNat = p.2 + 1 := by
  simp only [maxRows, maxCols] at h
  rw [echoed, setCursor_toNat]
  simp only [maxCols]
  rw [ofNat_toNat_of_lt (by omega), ofNat_toNat_of_lt (by omega)]
  omega

/-- The branch that stores a character, away from the last cell of the screen. -/
theorem store_console {row col : UInt8} {o : ℕ} (hrow : row.toNat * maxCols + col.toNat = o)
    (hcol : col.toNat < maxCols) (ho : o + 1 < maxRows * maxCols) :
    (t.store row col c).console = echoed (t.console, o) c := by
  have hlast : ¬ (row.toNat = maxRows - 1 ∧ col.toNat = maxCols - 1) := by
    simp only [maxRows, maxCols] at hrow hcol ho ⊢
    omega
  simp only [Terminal.store, if_neg hlast, echoed, hrow]

/-- At the last cell the screen scrolls first. -/
theorem store_console_last {row col : UInt8}
    (hrow : row.toNat * maxCols + col.toNat + 1 = maxRows * maxCols)
    (hcol : col.toNat < maxCols) :
    (t.store row col c).console
      = echoed (t.console.scrollLn (row.toNat * maxCols + col.toNat)) c := by
  have hlast : row.toNat = maxRows - 1 ∧ col.toNat = maxCols - 1 := by
    simp only [maxRows, maxCols] at hrow hcol ⊢
    omega
  simp only [Terminal.store, if_pos hlast, echoed]

/-- The Backspace branch blanks the cell before the cursor and leaves the cursor there. -/
theorem erase_console {row col : UInt8} {o : ℕ}
    (hrow : row.toNat * maxCols + col.toNat = o + 1) (hcol : col.toNat < maxCols) :
    (t.erase row col).console.cells
        = Function.update t.console.cells o (textCell white 0) ∧
      (t.erase row col).console.position.toNat = o := by
  have hblank : shownCell white 0 = textCell white 0 := by decide
  have hcell : ∀ r c : UInt8, r.toNat * maxCols + c.toNat = o →
      ((t.console.setCursor r c).write r c 0 white black).cells
          = Function.update t.console.cells o (textCell white 0) ∧
        ((t.console.setCursor r c).write r c 0 white black).position.toNat = o := by
    intro r c hplace
    refine ⟨?_, (setCursor_toNat t.console r c).trans hplace⟩
    rw [write_cells, hplace, hblank]
    rfl
  simp only [maxCols] at hrow hcol
  by_cases h0 : col = 0
  · have hpos : row ≠ 0 := by
      rintro rfl
      rw [h0] at hrow
      exact absurd hrow (by simp)
    simp only [Terminal.erase, if_pos h0]
    refine hcell _ _ ?_
    rw [h0] at hrow
    rw [pred_toNat hpos]
    simp only [maxCols]
    have hrow0 : row.toNat ≠ 0 := fun h => hpos (UInt8.toNat_inj.mp h)
    have hcol0 : (0 : UInt8).toNat = 0 := rfl
    have hlast : (UInt8.ofNat (80 - 1)).toNat = 79 := rfl
    omega
  · simp only [Terminal.erase, if_neg h0]
    refine hcell _ _ ?_
    have hcol0 : col.toNat ≠ 0 := fun h => h0 (UInt8.toNat_inj.mp h)
    rw [pred_toNat h0]
    simp only [maxCols]
    omega

/-! ## What a key leaves of the line -/

/-- The line of another terminal with the same line and cells. -/
theorem LineShown.congr {t' : Terminal} (h : LineShown t₀ t rows)
    (hcells : t'.console.cells = t.console.cells)
    (htyped : t'.keyboard.typed = t.keyboard.typed) : LineShown t₀ t' rows where
  moved := h.moved
  front i hi := by rw [hcells, h.front i hi]
  onScreen := by
    rw [htyped]
    exact h.onScreen
  spelled := by
    rw [hcells, htyped]
    exact h.spelled

/-- Backspace with the cursor behind the line. -/
theorem erase_lineShown (h : LineShown t₀ t rows) (hcursor : CursorBehind t₀ t rows)
    (hline : t.keyboard.typed ≠ []) :
    BlanksLast t₀ t (t.erase t.console.getCursor.row t.console.getCursor.col) rows ∧
      LineShown t₀ (t.erase t.console.getCursor.row t.console.getCursor.col) rows ∧
      CursorBehind t₀ (t.erase t.console.getCursor.row t.console.getCursor.col) rows := by
  obtain ⟨hplace, hon⟩ := hcursor
  have hin := hon hline
  have hpos := List.length_pos_iff.mpr hline
  have hi : 0 < t.keyboard.bufferIndex := by
    rw [UInt8.lt_iff_toNat_lt, ← typed_length]
    exact hpos
  have hrow : t.console.getCursor.row.toNat * maxCols + t.console.getCursor.col.toNat
      = promptEnd t₀ rows + (t.keyboard.typed.length - 1) + 1 := by
    rw [getCursor_offset (Nat.le_of_lt hin), hplace]
    omega
  obtain ⟨hcells, hposition⟩ := erase_console (t := t) hrow (getCursor_col_lt t.console)
  have htyped := erase_typed hi t.console.getCursor.row t.console.getCursor.col
  have hlength : (t.erase t.console.getCursor.row t.console.getCursor.col).keyboard.typed.length
      = t.keyboard.typed.length - 1 := by rw [htyped, List.length_dropLast]
  refine ⟨⟨hcells, htyped⟩, ⟨h.moved, ?_, ?_, ?_⟩, ?_, ?_⟩
  · intro i hlt
    rw [hcells, Function.update_of_ne (by omega), h.front i hlt]
  · intro _
    rw [hlength]
    have := h.onScreen hline
    omega
  · intro j hj
    have hj' : j < t.keyboard.typed.length - 1 := hlength ▸ hj
    rw [hcells, Function.update_of_ne (by omega), h.spelled j (by omega)]
    simp only [htyped, List.getElem_dropLast]
  · rw [hposition, hlength]
  · intro _
    rw [hposition]
    omega

/-- The line is one character longer in a console whose next cell shows it. -/
theorem lineShown_snoc (cells : ℕ → UInt16) {t' : Terminal} {rows' : ℕ}
    (h : LineShown t₀ t rows) (hmoved : rows' * maxCols ≤ t₀.console.position.toNat)
    (hfront : ∀ i < promptEnd t₀ rows',
      cells i = t₀.console.cells (i + rows' * maxCols))
    (hkept : ∀ j < t.keyboard.typed.length,
      cells (promptEnd t₀ rows' + j) = t.console.cells (promptEnd t₀ rows + j))
    (hin : promptEnd t₀ rows' + t.keyboard.typed.length < maxRows * maxCols)
    (hcells : t'.console.cells = Function.update cells
      (promptEnd t₀ rows' + t.keyboard.typed.length) (textCell white c))
    (htyped : t'.keyboard.typed = t.keyboard.typed ++ [c]) : LineShown t₀ t' rows' where
  moved := hmoved
  front i hi := by
    rw [hcells, Function.update_of_ne (by omega), hfront i hi]
  onScreen _ := by
    rw [htyped, List.length_append, List.length_singleton]
    omega
  spelled j hj := by
    rw [htyped, List.length_append, List.length_singleton] at hj
    simp only [htyped]
    by_cases hlast : j = t.keyboard.typed.length
    · subst hlast
      rw [hcells, Function.update_self, List.getElem_concat_length rfl]
    · have hlt : j < t.keyboard.typed.length := by omega
      rw [hcells, Function.update_of_ne (by omega), hkept j hlt, h.spelled j hlt,
        List.getElem_append_left hlt]

theorem store_length (hi : t.keyboard.bufferIndex ≠ 255) (row col c : UInt8) :
    (t.store row col c).keyboard.typed.length = t.keyboard.typed.length + 1 := by
  rw [store_typed hi row col c, List.length_append, List.length_singleton]

/-- A character at the last cell: the screen scrolls, and the prompt with it. -/
theorem store_scrolls (h : LineShown t₀ t rows) (hcursor : CursorBehind t₀ t rows)
    (hc : c < 0x80) (hi : t.keyboard.bufferIndex ≠ 255)
    (hlast : t.console.position.toNat + 1 = maxRows * maxCols) :
    LineShown t₀ (t.store t.console.getCursor.row t.console.getCursor.col c) (rows + 1) ∧
      CursorBehind t₀ (t.store t.console.getCursor.row t.console.getCursor.col c) (rows + 1) := by
  have hplace := hcursor.1
  have hin : t.console.position.toNat < maxRows * maxCols := Nat.lt_of_succ_le (le_of_eq hlast)
  have hrow := getCursor_offset (Nat.le_of_lt hin)
  have hcell : shownCell white c = textCell white c := shownCell_eq_iff.mpr hc
  have htyped := store_typed hi t.console.getCursor.row t.console.getCursor.col c
  have hlength := store_length hi t.console.getCursor.row t.console.getCursor.col c
  have hcount : t.keyboard.typed.length < 255 := by
    have hlt := UInt8.toNat_lt t.keyboard.bufferIndex
    have hne : t.keyboard.bufferIndex.toNat ≠ 255 := fun h => hi (UInt8.toNat_inj.mp h)
    rw [typed_length]
    omega
  have hconsole := store_console_last (t := t) (c := c)
    (show t.console.getCursor.row.toNat * maxCols + t.console.getCursor.col.toNat + 1
      = maxRows * maxCols by rw [hrow, hlast]) (getCursor_col_lt t.console)
  have hend : promptEnd t₀ (rows + 1) + maxCols = promptEnd t₀ rows ∧
      (rows + 1) * maxCols ≤ t₀.console.position.toNat := by
    have hmoved := h.moved
    simp only [promptEnd, maxRows, maxCols] at hplace hlast hmoved ⊢
    omega
  have hoffset : t.console.position.toNat - maxCols
      = promptEnd t₀ (rows + 1) + t.keyboard.typed.length := by omega
  have hsmall : t.console.position.toNat - maxCols < maxRows * maxCols :=
    Nat.lt_of_le_of_lt (Nat.sub_le _ _) hin
  have hscroll : ∀ i, i + maxCols < maxRows * maxCols →
      (t.console.scrollLn t.console.position.toNat).1.cells i
        = t.console.cells (i + maxCols) := by
    intro i hlt
    rw [scrollLn_cells, scroll, if_pos (by omega), if_pos hlt]
  rw [hrow] at hconsole
  refine ⟨lineShown_snoc (t.console.scrollLn t.console.position.toNat).1.cells h hend.2
    ?_ ?_ ?_ ?_ htyped, ?_, ?_⟩
  · intro i hlt
    rw [hscroll i (by omega), h.front (i + maxCols) (by omega), Nat.add_mul, Nat.one_mul,
      Nat.add_assoc, Nat.add_comm maxCols]
  · intro j hlt
    rw [hscroll _ (by omega), Nat.add_right_comm, hend.1]
  · rw [← hoffset]
    exact hsmall
  · rw [hconsole, echoed_cells hsmall, hcell]
    exact congrArg (fun o => Function.update _ o _) hoffset
  · rw [hconsole, echoed_position hsmall, hlength]
    show t.console.position.toNat - maxCols + 1 = _
    rw [hoffset, Nat.add_assoc]
  · intro _
    rw [hconsole, echoed_position hsmall]
    show t.console.position.toNat - maxCols + 1 < _
    simp only [maxRows, maxCols] at hlast ⊢
    omega

/-- A character at another cell. -/
theorem store_stays (h : LineShown t₀ t rows) (hcursor : CursorBehind t₀ t rows)
    (hc : c < 0x80) (hi : t.keyboard.bufferIndex ≠ 255)
    (hnext : t.console.position.toNat + 1 < maxRows * maxCols) :
    LineShown t₀ (t.store t.console.getCursor.row t.console.getCursor.col c) rows ∧
      CursorBehind t₀ (t.store t.console.getCursor.row t.console.getCursor.col c) rows := by
  have hplace := hcursor.1
  have hin : t.console.position.toNat < maxRows * maxCols := Nat.lt_of_succ_lt hnext
  have hcell : shownCell white c = textCell white c := shownCell_eq_iff.mpr hc
  have htyped := store_typed hi t.console.getCursor.row t.console.getCursor.col c
  have hconsole := store_console (t := t) (c := c) (getCursor_offset (Nat.le_of_lt hin))
    (getCursor_col_lt t.console) hnext
  refine ⟨lineShown_snoc t.console.cells h h.moved h.front (fun _ _ => rfl) ?_ ?_ htyped, ?_, ?_⟩
  · rw [← hplace]
    exact hin
  · rw [hconsole, echoed_cells hin, hcell, ← hplace]
  · rw [hconsole, echoed_position hin, store_length hi]
    show t.console.position.toNat + 1 = _
    rw [hplace, Nat.add_assoc]
  · intro _
    rw [hconsole, echoed_position hin]
    exact hnext

/-- A character with the cursor behind the line. -/
theorem store_lineShown (h : LineShown t₀ t rows) (hcursor : CursorBehind t₀ t rows)
    (hc : c < 0x80) (hi : t.keyboard.bufferIndex ≠ 255)
    (hin : t.console.position.toNat < maxRows * maxCols) :
    ∃ rows', LineShown t₀ (t.store t.console.getCursor.row t.console.getCursor.col c) rows' ∧
      CursorBehind t₀ (t.store t.console.getCursor.row t.console.getCursor.col c) rows' := by
  by_cases hlast : t.console.position.toNat + 1 = maxRows * maxCols
  · exact ⟨rows + 1, store_scrolls h hcursor hc hi hlast⟩
  · exact ⟨rows, store_stays h hcursor hc hi (by omega)⟩

/-! ## One scancode -/

theorem printable_stored (h : Printable tabTypes c) :
    c ≠ charBackspace ∧ c ≠ charNewline ∧ c ≠ scancodeEsc ∧ c < 0x80 := by
  rcases h with ⟨hlow, hhigh⟩ | ⟨-, rfl⟩
  · refine ⟨?_, ?_, ?_, ?_⟩
    · rintro rfl
      exact absurd hlow (by decide)
    · rintro rfl
      exact absurd hlow (by decide)
    · rintro rfl
      exact absurd hlow (by decide)
    · exact UInt8.lt_of_le_of_lt hhigh (by decide)
  · decide

theorem pressed_store (row col : UInt8) (hb : c ≠ charBackspace) (hn : c ≠ charNewline)
    (he : c ≠ scancodeEsc) (hleft : scancode ≠ scancodeLeftarrow) :
    t.pressed row col scancode c = { t.store row col c with tempCode := scancode } := by
  simp only [Terminal.pressed, hb, false_and, if_false, if_neg hn, ne_eq, not_false_eq_true,
    hleft, and_self, if_true, if_neg he]

theorem pressed_erase (row col : UInt8) (hi : 0 < t.keyboard.bufferIndex) :
    t.pressed row col scancode charBackspace
      = { t.erase row col with tempCode := scancode } := by
  simp only [Terminal.pressed, hi, and_self, if_true,
    if_neg (show charBackspace ≠ scancodeEsc by decide)]

theorem pressed_erase_empty (row col : UInt8) (hi : ¬ 0 < t.keyboard.bufferIndex)
    (hleft : scancode ≠ scancodeLeftarrow) :
    t.pressed row col scancode charBackspace = { t with tempCode := scancode } := by
  simp only [Terminal.pressed, hi, and_false, if_false, ne_eq, not_true_eq_false, false_and,
    hleft, if_neg (show charBackspace ≠ scancodeEsc by decide),
    if_neg (show charBackspace ≠ charNewline by decide)]

/-- The console after the Left arrow, which stays behind the first two columns. -/
def leftOf (s : Console) : Console :=
  if s.getCursor.col ≠ 2 then s.setCursor s.getCursor.row (s.getCursor.col - 1) else s

theorem pressed_left :
    t.pressed t.console.getCursor.row t.console.getCursor.col scancodeLeftarrow 0
      = { t with console := leftOf t.console, tempCode := scancodeLeftarrow } := by
  have hback : (0 : UInt8) ≠ charBackspace := by decide
  simp only [Terminal.pressed, hback, false_and, if_false, ne_eq, not_true_eq_false, and_false,
    if_neg (show (0 : UInt8) ≠ scancodeEsc by decide),
    if_neg (show (0 : UInt8) ≠ charNewline by decide), true_and, leftOf]
  split <;> rfl

/-- Releases and repeats change nothing but the last scancode. -/
theorem keyboardIsr_still (hon : t.keyboard.keyboardInputOn = true)
    (hl : scancode ≠ scancodeLshift) (hup : scancode ≠ scancodeLshift + scancodeKeyupThreshold)
    (hcaps : scancode ≠ scancodeCaps) (hold : ¬ NewlyPressed t.tempCode scancode) :
    keyboardIsr behind t scancode = { t with tempCode := scancode } := by
  simp only [keyboardIsr, hon, modifiers_other hl hup hcaps, Bool.not_true, Bool.false_eq_true,
    if_false]
  split
  · next hkey =>
      have hlast : scancode = t.tempCode := by
        by_contra hne
        exact hold ⟨hkey.1, hne⟩
      rw [if_neg (not_not.mpr hlast), hlast]
  · rfl

/-- The driver listens with the flags it had, and what it holds of the line is on the
    screen. -/
structure EchoesLine (t₀ : Terminal) (s : Terminal × Bool) : Prop where
  on : s.1.keyboard.keyboardInputOn = true
  flags : SameFlags s.1.keyboard t₀.keyboard
  line : ∃ rows, LineShown t₀ s.1 rows ∧ (s.2 = false → CursorBehind t₀ s.1 rows)

/-- A key that leaves the input on, by what it leaves of the line. -/
theorem EchoesLine.step {s : Terminal × Bool} (h : EchoesLine t₀ s) {t' : Terminal}
    (hisr : keyboardIsr behind s.1 scancode = { t' with tempCode := scancode })
    (hon : t'.keyboard.keyboardInputOn = s.1.keyboard.keyboardInputOn)
    (hflags : SameFlags t'.keyboard s.1.keyboard)
    (hline : ∃ rows, LineShown t₀ t' rows ∧
      ((s.2 || decide (MovesLeft s.1 scancode)) = false → CursorBehind t₀ t' rows)) :
    EchoesLine t₀ (typist behind s scancode) := by
  obtain ⟨rows, hshown, hcursor⟩ := hline
  refine ⟨?_, ?_, rows, ?_, ?_⟩
  · show (keyboardIsr behind s.1 scancode).keyboard.keyboardInputOn = true
    rw [hisr]
    exact hon.trans h.on
  · show SameFlags (keyboardIsr behind s.1 scancode).keyboard t₀.keyboard
    rw [hisr]
    exact ⟨hflags.1.trans h.flags.1, hflags.2.trans h.flags.2⟩
  · show LineShown t₀ (keyboardIsr behind s.1 scancode) rows
    rw [hisr]
    exact hshown.congr rfl rfl
  · intro hstill
    show CursorBehind t₀ (keyboardIsr behind s.1 scancode) rows
    rw [hisr]
    exact hcursor hstill

theorem mappedChar_lower (hu : t.keyboard.upper = false) :
    t.keyboard.mappedChar behind scancode = character scancode := by
  rw [mappedChar_eq, hu]
  rfl

/-- Backspace, answered by the lower map. -/
theorem keyboardIsr_backspace (behind : ℕ → UInt8) (hon : t.keyboard.keyboardInputOn = true)
    (hnew : scancodeBackspace ≠ t.tempCode) (hu : t.keyboard.upper = false) :
    keyboardIsr behind t scancodeBackspace
      = t.pressed t.console.getCursor.row t.console.getCursor.col scancodeBackspace
          charBackspace := by
  have hchar : t.keyboard.mappedChar behind scancodeBackspace = charBackspace := by
    rw [mappedChar_lower hu]
    decide
  rw [keyboardIsr_fresh behind hon (by decide) (by decide) (by decide) hnew, hchar]

section Echoes

variable {s : Terminal × Bool} (h : EchoesLine t₀ s)
include h

/-- The Left arrow moves the cursor only. -/
theorem EchoesLine.left (hnew : scancodeLeftarrow ≠ s.1.tempCode)
    (hu : s.1.keyboard.upper = false) : EchoesLine t₀ (typist behind s scancodeLeftarrow) := by
  obtain ⟨rows, hshown, hcursor⟩ := h.line
  have hisr : keyboardIsr behind s.1 scancodeLeftarrow
      = { { s.1 with console := leftOf s.1.console } with tempCode := scancodeLeftarrow } := by
    have hnul : s.1.keyboard.mappedChar behind scancodeLeftarrow = 0 := by
      rw [mappedChar_lower hu]
      rfl
    rw [keyboardIsr_fresh behind h.on (by decide) (by decide) (by decide) hnew, hnul,
      pressed_left]
  refine h.step hisr rfl ⟨rfl, rfl⟩ ⟨rows, ?_, fun hstill => ?_⟩
  · refine hshown.congr ?_ rfl
    show (leftOf s.1.console).cells = _
    rw [leftOf]
    split <;> rfl
  · obtain ⟨hmoved, hstay⟩ := Bool.or_eq_false_iff.mp hstill
    have hcol : ¬ s.1.console.getCursor.col ≠ 2 := by
      intro hne
      exact of_decide_eq_false hstay ⟨rfl, hnew, hne⟩
    simp only [leftOf, if_neg hcol]
    exact hcursor hmoved

/-- Backspace takes the last character away, if there is one. -/
theorem EchoesLine.backspace (hnew : scancodeBackspace ≠ s.1.tempCode)
    (hu : s.1.keyboard.upper = false) (hunmoved : s.1.keyboard.typed ≠ [] → s.2 = false) :
    EchoesLine t₀ (typist behind s scancodeBackspace) := by
  obtain ⟨rows, hshown, hcursor⟩ := h.line
  have hfresh := keyboardIsr_backspace behind h.on hnew hu
  by_cases hi : 0 < s.1.keyboard.bufferIndex
  · have hline : s.1.keyboard.typed ≠ [] := by
      refine List.ne_nil_of_length_pos ?_
      rw [typed_length]
      exact UInt8.lt_iff_toNat_lt.mp hi
    obtain ⟨-, hshown', hcursor'⟩ := erase_lineShown hshown (hcursor (hunmoved hline)) hline
    rw [pressed_erase _ _ hi] at hfresh
    refine h.step hfresh ?_ ?_ ⟨rows, hshown', fun _ => hcursor'⟩
    · simp only [Terminal.erase]
    · exact ⟨by simp only [Terminal.erase], by simp only [Terminal.erase]⟩
  · rw [pressed_erase_empty _ _ hi (by decide)] at hfresh
    exact h.step hfresh rfl ⟨rfl, rfl⟩
      ⟨rows, hshown, fun hstill => hcursor (Bool.or_eq_false_iff.mp hstill).1⟩

/-- A character is put behind the line. -/
theorem EchoesLine.character (hnew : NewlyPressed s.1.tempCode scancode)
    (hl : scancode ≠ scancodeLshift) (hcaps : scancode ≠ scancodeCaps)
    (hleft : scancode ≠ scancodeLeftarrow)
    (hprint : Printable tabTypes (t₀.keyboard.mappedChar behind scancode)) (hmoved : s.2 = false)
    (hroom : s.1.keyboard.bufferIndex ≠ 255)
    (hin : s.1.console.position.toNat < maxRows * maxCols) :
    EchoesLine t₀ (typist behind s scancode) := by
  obtain ⟨rows, hshown, hcursor⟩ := h.line
  obtain ⟨hb, hn, he, hascii⟩ := printable_stored hprint
  have hsame : s.1.keyboard.mappedChar behind scancode
      = t₀.keyboard.mappedChar behind scancode := by
    rw [mappedChar_eq, mappedChar_eq, h.flags.upper]
  have hfresh := keyboardIsr_fresh behind h.on hnew.1 hl hcaps hnew.2
  rw [hsame, pressed_store _ _ hb hn he hleft] at hfresh
  obtain ⟨rows', hshown', hcursor'⟩ :=
    store_lineShown hshown (hcursor hmoved) hascii hroom hin
  refine h.step hfresh ?_ ?_ ⟨rows', hshown', fun _ => hcursor'⟩
  · simp only [Terminal.store]
  · exact ⟨by simp only [Terminal.store], by simp only [Terminal.store]⟩

end Echoes

/-- **One scancode** in place keeps the line on the screen. -/
theorem typist_echoes (s : Terminal × Bool) (scancode : UInt8)
    (hkey : EditScancode tabTypes behind t₀.keyboard scancode) (h : EchoesLine t₀ s)
    (hplace : KeyInPlace s scancode) : EchoesLine t₀ (typist behind s scancode) := by
  obtain ⟨hl, hup, hcaps, hkind⟩ := hkey
  by_cases hnew : NewlyPressed s.1.tempCode scancode
  swap
  · obtain ⟨rows, hshown, hcursor⟩ := h.line
    exact h.step (keyboardIsr_still h.on hl hup hcaps hnew) rfl ⟨rfl, rfl⟩
      ⟨rows, hshown, fun hstill => hcursor (Bool.or_eq_false_iff.mp hstill).1⟩
  obtain ⟨hleftLower, hbackLower, hother⟩ := hplace hnew
  by_cases hleft : scancode = scancodeLeftarrow
  · subst hleft
    exact h.left hnew.2 (hleftLower rfl)
  by_cases hback : scancode = scancodeBackspace
  · subst hback
    obtain ⟨hu, hunmoved⟩ := hbackLower rfl
    exact h.backspace hnew.2 hu hunmoved
  · obtain ⟨hmoved, hroom, hin⟩ := hother hleft hback
    have hprint := ((hkind hnew.1).resolve_left hback).resolve_left hleft
    exact h.character hnew hl hcaps hleft hprint hmoved hroom hin

/-! ## Runs -/

theorem foldl_typist (behind : ℕ → UInt8) (t : Terminal) (moved : Bool) (scancodes : List UInt8) :
    (scancodes.foldl (typist behind) (t, moved)).1 = scancodes.foldl (keyboardIsr behind) t := by
  induction scancodes generalizing t moved with
  | nil => rfl
  | cons scancode rest ih => exact ih _ _

theorem echoesLine_start (hon : t.keyboard.keyboardInputOn = true)
    (hempty : t.keyboard.bufferIndex = 0) : EchoesLine t (t, false) := by
  have hnil : t.keyboard.typed = [] := by
    refine List.length_eq_zero_iff.mp ?_
    rw [typed_length, hempty]
    rfl
  refine ⟨hon, ⟨rfl, rfl⟩, 0, ⟨Nat.zero_le _, fun _ _ => rfl, fun h => absurd hnil h, ?_⟩,
    fun _ => ⟨?_, fun h => absurd hnil h⟩⟩
  · intro j hj
    rw [hnil] at hj
    exact absurd hj (Nat.not_lt_zero j)
  · rw [promptEnd, hnil]
    rfl

theorem backspace_blanks (behind : ℕ → UInt8) (hon : t.keyboard.keyboardInputOn = true)
    (hnew : scancodeBackspace ≠ t.tempCode) (hu : t.keyboard.upper = false)
    (hshown : LineShown t₀ t rows) (hcursor : CursorBehind t₀ t rows)
    (hchars : t.keyboard.typed ≠ []) :
    BlanksLast t₀ t (keyboardIsr behind t scancodeBackspace) rows := by
  have hi : 0 < t.keyboard.bufferIndex := by
    rw [UInt8.lt_iff_toNat_lt, ← typed_length]
    exact List.length_pos_iff.mpr hchars
  have hblanks := (erase_lineShown hshown hcursor hchars).1
  rw [keyboardIsr_backspace behind hon hnew hu, pressed_erase _ _ hi]
  exact ⟨hblanks.cells, hblanks.line⟩

/-- **What is on the screen is what is in the buffer**, in every state of a run whose keys
    edit the line in place, and Backspace blanks the cell of the character it removes. -/
theorem screen_spells_line (tabTypes : Bool) (behind : ℕ → UInt8) (t : Terminal)
    (scancodes : List UInt8) (hon : t.keyboard.keyboardInputOn = true)
    (hempty : t.keyboard.bufferIndex = 0)
    (hkeys : ∀ scancode ∈ scancodes, EditScancode tabTypes behind t.keyboard scancode)
    (hplace : PartialRun.Guarded (fun s scancode => some (typist behind s scancode)) KeyInPlace
      (t, false) scancodes) :
    ∀ before, before <+: scancodes →
      ∃ rows, LineShown t (before.foldl (keyboardIsr behind) t) rows ∧
        (before ++ [scancodeBackspace] <+: scancodes →
          (before.foldl (keyboardIsr behind) t).tempCode ≠ scancodeBackspace →
          (before.foldl (keyboardIsr behind) t).keyboard.typed ≠ [] →
          BlanksLast t (before.foldl (keyboardIsr behind) t)
            (keyboardIsr behind (before.foldl (keyboardIsr behind) t) scancodeBackspace)
            rows) := by
  intro before hbefore
  obtain ⟨hline, hnext⟩ := PartialRun.foldl_invariant
    (fun s scancode hkey h hp => typist_echoes s scancode hkey h hp)
    (echoesLine_start hon hempty) hkeys hplace hbefore
  have hstate := foldl_typist behind t false before
  obtain ⟨rows, hshown, hcursor⟩ := hline.line
  rw [hstate] at hshown hcursor
  refine ⟨rows, hshown, fun hpress hfresh hchars => ?_⟩
  have hguard := hnext scancodeBackspace hpress
  have hnew : NewlyPressed (before.foldl (typist behind) (t, false)).1.tempCode
      scancodeBackspace := by
    rw [hstate]
    exact ⟨by decide, hfresh.symm⟩
  obtain ⟨hu, hunmoved⟩ := (hguard hnew).2.1 rfl
  rw [hstate] at hu hunmoved
  have hisOn := hline.on
  rw [hstate] at hisOn
  exact backspace_blanks behind hisOn hfresh.symm hu hshown (hcursor (hunmoved hchars)) hchars

/-- `a` is on the screen, and Backspace blanks its cell. -/
theorem screen_spells_line_a :
    ∃ rows, LineShown listening ([30, 158].foldl (keyboardIsr fun _ => 0) listening) rows ∧
      BlanksLast listening ([30, 158].foldl (keyboardIsr fun _ => 0) listening)
        (keyboardIsr (fun _ => 0) ([30, 158].foldl (keyboardIsr fun _ => 0) listening)
          scancodeBackspace) rows := by
  have hkeys : ∀ scancode ∈ [30, 158, 14, 142],
      EditScancode true (fun _ => 0) listening.keyboard scancode := by
    intro scancode hmem
    simp only [List.mem_cons, List.not_mem_nil, or_false] at hmem
    rcases hmem with rfl | rfl | rfl | rfl <;>
      exact ⟨by decide, by decide, by decide, by decide⟩
  have hplace : PartialRun.Guarded
      (fun s scancode => some (typist (fun _ => 0) s scancode)) KeyInPlace
      (listening, false) [30, 158, 14, 142] := by
    simp only [PartialRun.Guarded, Option.some.injEq, forall_eq', and_true]
    exact ⟨by decide, by decide, by decide, by decide⟩
  obtain ⟨rows, hshown, hblanks⟩ := screen_spells_line true (fun _ => 0) listening
    [30, 158, 14, 142] rfl rfl hkeys hplace [30, 158] ⟨[14, 142], rfl⟩
  exact ⟨rows, hshown, hblanks ⟨[142], rfl⟩ (by decide) (by decide)⟩

/-- `abc`, the Left arrow and `d`: the screen shows `abd` and the buffer holds `abcd`. -/
theorem leftArrow_splits :
    (∀ scancode ∈ [30, 158, 48, 176, 46, 174, 75, 203, 32],
      EditScancode true (fun _ => 0) listening.keyboard scancode) ∧
    ¬ ∃ rows, LineShown listening
      ([30, 158, 48, 176, 46, 174, 75, 203, 32].foldl (keyboardIsr fun _ => 0) listening)
        rows := by
  constructor
  · intro scancode hmem
    simp only [List.mem_cons, List.not_mem_nil, or_false] at hmem
    rcases hmem with rfl | rfl | rfl | rfl | rfl | rfl | rfl | rfl | rfl <;>
      exact ⟨by decide, by decide, by decide, by decide⟩
  · rintro ⟨rows, h⟩
    have hend : promptEnd listening rows = 0 := Nat.zero_sub _
    have hcell := h.spelled 3 (by decide)
    rw [hend] at hcell
    exact absurd hcell (by decide)

end OsyConsole
