import Osyikkk.KeyboardDriver
import Osyikkk.PartialRun

/-!
# Writes on and off the screen

Each console action is given the exact condition under which every cell it writes is on the
screen. `framebuffer_write_string` scrolls once before a character, so it copes with the row
behind the last one and with no other (`writeLoop_onScreen_iff`). The interrupt scrolls at
the last cell only, and the end of a command moves the cursor down without scrolling.
-/

namespace OsyConsole

/-- A place of the 80 by 25 screen. -/
def OnScreen (place : UInt8 × UInt8) : Prop :=
  place.1.toNat < maxRows ∧ place.2.toNat < maxCols

instance (place : UInt8 × UInt8) : Decidable (OnScreen place) :=
  inferInstanceAs (Decidable (_ ∧ _))

/-- Every write so far was on the screen. -/
def Console.Bounded (s : Console) : Prop := ∀ place ∈ s.writes, OnScreen place

variable {s : Console} {t : Terminal} {behind : ℕ → UInt8}

/-! ## Drawing -/

theorem write_bounded_iff {row col c fg bg : UInt8} :
    (s.write row col c fg bg).Bounded ↔ s.Bounded ∧ OnScreen (row, col) := by
  show (∀ place ∈ s.writes ++ [(row, col)], OnScreen place) ↔ _
  simp only [List.mem_append, List.mem_singleton]
  constructor
  · intro h
    exact ⟨fun place hplace => h place (Or.inl hplace), h _ (Or.inr rfl)⟩
  · rintro ⟨hs, hnew⟩ place (hplace | rfl)
    · exact hs place hplace
    · exact hnew

@[simp] theorem setCursor_bounded_iff {r c : UInt8} :
    (s.setCursor r c).Bounded ↔ s.Bounded := Iff.rfl

@[simp] theorem clear_bounded_iff : s.clear.Bounded ↔ s.Bounded := Iff.rfl

theorem ofNat_toNat_of_lt {n : ℕ} (h : n < 256) : (UInt8.ofNat n).toNat = n :=
  UInt8.toNat_ofNat_of_lt' h

/-- The blank row is the last one of the screen. -/
theorem blankRow_bounded_iff {n i : ℕ} (h : i + n ≤ maxCols) :
    (blankRow s n i).Bounded ↔ s.Bounded := by
  induction n generalizing s i with
  | zero => rfl
  | succ n ih =>
      simp only [maxCols] at h
      have hplace : OnScreen (UInt8.ofNat (maxRows - 1), UInt8.ofNat i) := by
        refine ⟨(by decide : (UInt8.ofNat (maxRows - 1)).toNat < maxRows), ?_⟩
        rw [ofNat_toNat_of_lt (by omega)]
        show i < 80
        omega
      rw [blankRow, ih (by simp only [maxCols]; omega), write_bounded_iff, and_iff_left hplace]

@[simp] theorem scrollLn_bounded_iff {offset : ℕ} :
    (s.scrollLn offset).1.Bounded ↔ s.Bounded := by
  rw [Console.scrollLn, blankRow_bounded_iff (by decide)]
  rfl

/-- The offset whose row and column the source computes is on the screen below 2000. -/
theorem offset_onScreen_iff {offset : ℕ} (h : offset < 256 * maxCols) :
    OnScreen (UInt8.ofNat (offset / maxCols), UInt8.ofNat (offset % maxCols)) ↔
      offset < maxRows * maxCols := by
  simp only [maxCols] at h
  have hrow : (UInt8.ofNat (offset / maxCols)).toNat = offset / maxCols :=
    ofNat_toNat_of_lt (by simp only [maxCols]; omega)
  have hcol : (UInt8.ofNat (offset % maxCols)).toNat = offset % maxCols :=
    ofNat_toNat_of_lt (by simp only [maxCols]; omega)
  simp only [OnScreen, hrow, hcol, maxRows, maxCols]
  omega

/-- The text before the terminator has line feeds only. -/
def OnlyNewlines (str : List UInt8) : Prop := ∀ c ∈ str.takeWhile (· ≠ 0), c = 10

theorem onlyNewlines_cons {c : UInt8} {rest : List UInt8} (hc : c ≠ 0) :
    OnlyNewlines (c :: rest) ↔ c = 10 ∧ OnlyNewlines rest := by
  rw [OnlyNewlines, List.takeWhile_cons_of_pos (by simpa using hc)]
  simp only [List.mem_cons, forall_eq_or_imp, OnlyNewlines]

/-- The scrolling in front of a character. -/
def scrolled (s : Console) (offset : ℕ) : Console × ℕ :=
  if maxCols * maxRows ≤ offset then s.scrollLn offset else (s, offset)

theorem scrolled_bounded_iff {offset : ℕ} : (scrolled s offset).1.Bounded ↔ s.Bounded := by
  unfold scrolled
  split
  · exact scrollLn_bounded_iff
  · rfl

theorem scrolled_offset (s : Console) (offset : ℕ) :
    (scrolled s offset).2 = if maxCols * maxRows ≤ offset then offset - maxCols else offset := by
  unfold scrolled
  split <;> rfl

section WriteLoop

variable {textColor c : UInt8} {rest : List UInt8}

theorem writeLoop_newline (offset : ℕ) :
    writeLoop textColor (10 :: rest) s offset
      = writeLoop textColor rest (scrolled s offset).1
          (((scrolled s offset).2 / maxCols + 1) * maxCols) := by
  rw [writeLoop, if_neg (by decide)]
  simp only [if_true]
  rfl

theorem writeLoop_char (hc : c ≠ 0) (hn : c ≠ 10) (offset : ℕ) :
    writeLoop textColor (c :: rest) s offset
      = writeLoop textColor rest
          ((scrolled s offset).1.write (UInt8.ofNat ((scrolled s offset).2 / maxCols))
            (UInt8.ofNat ((scrolled s offset).2 % maxCols)) c textColor black)
          ((scrolled s offset).2 + 1) := by
  rw [writeLoop, if_neg hc]
  simp only [if_neg hn]
  rfl

theorem writeLoop_end (offset : ℕ) : writeLoop textColor (0 :: rest) s offset = (s, offset) := by
  rw [writeLoop, if_pos rfl]

end WriteLoop

/-- The loop never takes a write back. -/
theorem writeLoop_bounded {textColor : UInt8} {str : List UInt8} {offset : ℕ}
    (h : (writeLoop textColor str s offset).1.Bounded) : s.Bounded := by
  induction str generalizing s offset with
  | nil => exact h
  | cons c rest ih =>
      by_cases hc : c = 0
      · rw [hc, writeLoop_end] at h
        exact h
      by_cases hn : c = 10
      · rw [hn, writeLoop_newline] at h
        exact scrolled_bounded_iff.mp (ih h)
      · rw [writeLoop_char hc hn] at h
        exact scrolled_bounded_iff.mp (write_bounded_iff.mp (ih h)).1

/-- **A string stays on the screen** from the rows of the screen and from the one behind
    it; from further below only line feeds do. -/
theorem writeLoop_bounded_iff {textColor : UInt8} {str : List UInt8} {offset : ℕ}
    (ho : offset < 256 * maxCols) :
    (writeLoop textColor str s offset).1.Bounded ↔
      s.Bounded ∧ (offset < (maxRows + 1) * maxCols ∨ OnlyNewlines str) := by
  induction str generalizing s offset with
  | nil =>
      refine (and_iff_left ?_).symm
      exact Or.inr fun c hc => nomatch hc
  | cons c rest ih =>
      have hoff := scrolled_offset s offset
      by_cases hc : c = 0
      · subst hc
        rw [writeLoop_end]
        refine (and_iff_left ?_).symm
        exact Or.inr fun c hc => nomatch hc
      rw [onlyNewlines_cons hc]
      simp only [maxRows, maxCols] at ho hoff ih ⊢
      by_cases hn : c = 10
      · subst hn
        have hbound : ((scrolled s offset).2 / 80 + 1) * 80 < 256 * 80 := by
          split at hoff <;> omega
        rw [writeLoop_newline, ih hbound, scrolled_bounded_iff]
        simp only [true_and]
        refine and_congr_right fun _ => or_congr_left ?_
        split at hoff <;> omega
      · rw [writeLoop_char hc hn]
        simp only [hn, false_and, or_false]
        by_cases hlow : offset < (25 + 1) * 80
        · have hplace : (scrolled s offset).2 < 25 * 80 := by split at hoff <;> omega
          have hnext : (scrolled s offset).2 + 1 < (25 + 1) * 80 := by omega
          rw [ih (by omega), write_bounded_iff, scrolled_bounded_iff,
            offset_onScreen_iff (by simp only [maxCols]; omega)]
          simp only [maxRows, maxCols, hplace, hnext, hlow, true_or, and_true]
        · -- after the one scroll the row is still behind the screen
          refine iff_of_false ?_ fun h => hlow h.2
          intro h
          have hplace := (write_bounded_iff.mp (writeLoop_bounded h)).2
          rw [offset_onScreen_iff (by simp only [maxCols]; split at hoff <;> omega)] at hplace
          simp only [maxRows, maxCols] at hplace
          split at hoff <;> omega

theorem getCursor_col_lt (s : Console) : s.getCursor.col.toNat < maxCols := by
  have hmod : s.position.toNat % maxCols < maxCols := Nat.mod_lt _ (by decide)
  have hcol : s.getCursor.col.toNat = s.position.toNat % maxCols :=
    ofNat_toNat_of_lt (Nat.lt_trans hmod (by decide))
  rw [hcol]
  exact hmod

theorem writeString_bounded_iff {str : List UInt8} {textColor : UInt8} :
    (s.writeString str textColor).Bounded ↔
      s.Bounded ∧ (s.getCursor.row.toNat ≤ maxRows ∨ OnlyNewlines str) := by
  have hcol := getCursor_col_lt s
  have hrow := UInt8.toNat_lt s.getCursor.row
  simp only [maxCols] at hcol
  have hstart : s.getCursor.row.toNat * maxCols + s.getCursor.col.toNat < 256 * maxCols := by
    simp only [maxCols]
    omega
  show (writeLoop textColor str s
    (s.getCursor.row.toNat * maxCols + s.getCursor.col.toNat)).1.Bounded ↔ _
  rw [writeLoop_bounded_iff hstart]
  refine and_congr_right fun _ => or_congr_left ?_
  simp only [maxRows, maxCols]
  omega

/-- The prompt of a cleared screen goes to its top. -/
theorem clearScreen_bounded_iff : t.clearScreen.console.Bounded ↔ t.console.Bounded := by
  have hrow : ((t.console.clear).setCursor 0 0).getCursor.row.toNat ≤ maxRows := by
    show (UInt8.ofNat (((0 : UInt8).toUInt16 * 80 + (0 : UInt8).toUInt16).toNat / maxCols)).toNat
      ≤ maxRows
    decide
  show (((t.console.clear).setCursor 0 0).writeString promptString white).Bounded ↔ _
  rw [writeString_bounded_iff, and_iff_left (Or.inl hrow), setCursor_bounded_iff,
    clear_bounded_iff]

/-! ## Echoing a key -/

variable {row col scancode c : UInt8}

/-- The place Backspace blanks. -/
def ErasesOnScreen (row col : UInt8) : Prop :=
  if col = 0 then 1 ≤ row.toNat ∧ row.toNat ≤ maxRows else row.toNat < maxRows

theorem pred_toNat {b : UInt8} (hb : b ≠ 0) : (b - 1).toNat = b.toNat - 1 := by
  refine UInt8.toNat_sub_of_le _ _ ?_
  rw [UInt8.le_iff_toNat_le]
  exact Nat.one_le_iff_ne_zero.mpr fun h => hb (UInt8.toNat_inj.mp h)

theorem erase_bounded_iff (hcol : col.toNat < maxCols) :
    (t.erase row col).console.Bounded ↔ t.console.Bounded ∧ ErasesOnScreen row col := by
  by_cases h0 : col = 0
  · have herase : (t.erase row col).console
        = (t.console.setCursor (row - 1) (UInt8.ofNat (maxCols - 1))).write (row - 1)
            (UInt8.ofNat (maxCols - 1)) 0 white black := by
      simp only [Terminal.erase, if_pos h0]
    have hlast : (UInt8.ofNat (maxCols - 1)).toNat < maxCols := by decide
    rw [herase, write_bounded_iff, setCursor_bounded_iff, ErasesOnScreen, if_pos h0, OnScreen,
      and_iff_left hlast]
    refine and_congr_right fun _ => ?_
    by_cases hrow : row = 0
    · -- the row before row 0 is row 255
      subst hrow
      decide
    · have hpos : row.toNat ≠ 0 := fun h => hrow (UInt8.toNat_inj.mp h)
      rw [pred_toNat hrow]
      simp only [maxRows]
      omega
  · have herase : (t.erase row col).console
        = (t.console.setCursor row (col - 1)).write row (col - 1) 0 white black := by
      simp only [Terminal.erase, if_neg h0]
    have hleft : (col - 1).toNat < maxCols := by
      rw [pred_toNat h0]
      omega
    rw [herase, write_bounded_iff, setCursor_bounded_iff, ErasesOnScreen, if_neg h0, OnScreen,
      and_iff_left hleft]

/-- The echo of a character, from the console and the offset after the scrolling. -/
def echoed (p : Console × ℕ) (c : UInt8) : Console :=
  (p.1.write (UInt8.ofNat (p.2 / maxCols)) (UInt8.ofNat (p.2 % maxCols)) c white black).setCursor
    (UInt8.ofNat (p.2 / maxCols)) (UInt8.ofNat (p.2 % maxCols + 1))

theorem echoed_bounded_iff {p : Console × ℕ} (h : p.2 < 256 * maxCols) :
    (echoed p c).Bounded ↔ p.1.Bounded ∧ p.2 < maxRows * maxCols := by
  rw [echoed, setCursor_bounded_iff, write_bounded_iff, offset_onScreen_iff h]

theorem store_bounded_iff (hcol : col.toNat < maxCols) :
    (t.store row col c).console.Bounded ↔ t.console.Bounded ∧ row.toNat < maxRows := by
  have hrow := UInt8.toNat_lt row
  simp only [maxCols] at hcol
  by_cases hlast : row.toNat = maxRows - 1 ∧ col.toNat = maxCols - 1
  · -- at the last cell the screen scrolls first
    have hstore : (t.store row col c).console
        = echoed (t.console.scrollLn (row.toNat * maxCols + col.toNat)) c := by
      simp only [Terminal.store, if_pos hlast, echoed]
    have hoffset : (t.console.scrollLn (row.toNat * maxCols + col.toNat)).2
        = row.toNat * maxCols + col.toNat - maxCols := rfl
    rw [hstore, echoed_bounded_iff (by rw [hoffset]; simp only [maxCols]; omega),
      scrollLn_bounded_iff, hoffset]
    refine and_congr_right fun _ => ?_
    simp only [maxRows, maxCols] at hlast ⊢
    omega
  · have hstore : (t.store row col c).console
        = echoed (t.console, row.toNat * maxCols + col.toNat) c := by
      simp only [Terminal.store, if_neg hlast, echoed]
    rw [hstore, echoed_bounded_iff (by simp only [maxCols]; omega)]
    refine and_congr_right fun _ => ?_
    simp only [maxRows, maxCols]
    omega

/-- What a newly pressed key needs of the cursor. -/
def PressedOnScreen (bufferIndex row col scancode c : UInt8) : Prop :=
  (c = charBackspace → 0 < bufferIndex → ErasesOnScreen row col) ∧
    (c ≠ charBackspace → c ≠ charNewline → scancode ≠ scancodeLeftarrow →
      row.toNat < maxRows)

/-- The last two statements for a key: its scancode is kept, and Esc clears the screen. -/
theorem finished_bounded_iff (t : Terminal) (scancode c : UInt8) :
    (if c = scancodeEsc then ({ t with tempCode := scancode } : Terminal).clearScreen
      else { t with tempCode := scancode }).console.Bounded ↔ t.console.Bounded := by
  split
  · exact clearScreen_bounded_iff
  · rfl

theorem pressed_bounded_iff (hcol : col.toNat < maxCols) :
    (t.pressed row col scancode c).console.Bounded ↔
      t.console.Bounded ∧ PressedOnScreen t.keyboard.bufferIndex row col scancode c := by
  unfold Terminal.pressed PressedOnScreen
  simp only [finished_bounded_iff]
  by_cases hback : c = charBackspace
  · have hnewline : charBackspace ≠ charNewline := by decide
    subst hback
    by_cases hi : 0 < t.keyboard.bufferIndex
    · simp only [hi, and_self, if_true, erase_bounded_iff hcol, ne_eq, not_true_eq_false,
        forall_const, false_implies, and_true]
    · simp only [hi, and_false, if_false, if_neg hnewline, ne_eq, not_true_eq_false, false_and,
        false_implies, implies_true, and_true]
      split <;> rfl
  by_cases hn : c = charNewline
  · have hnewline : charNewline ≠ charBackspace := by decide
    subst hn
    simp only [hnewline, false_and, if_false, if_true, false_implies, ne_eq, not_true_eq_false,
      implies_true, and_true]
    rfl
  by_cases hleft : scancode = scancodeLeftarrow
  · simp only [hback, hn, hleft, false_and, if_false, ne_eq, not_true_eq_false, and_false,
      false_implies, implies_true, and_true]
    split <;> rfl
  · simp only [hback, hn, hleft, false_and, if_false, ne_eq, not_false_eq_true, and_self,
      if_true, store_bounded_iff hcol, false_implies, forall_const, true_and]

/-- What a keyboard interrupt needs of the cursor. -/
def KeyOnScreen (behind : ℕ → UInt8) (t : Terminal) (scancode : UInt8) : Prop :=
  t.keyboard.keyboardInputOn = true → scancode < scancodeKeyupThreshold →
    scancode ≠ scancodeLshift → scancode ≠ scancodeCaps → scancode ≠ t.tempCode →
    PressedOnScreen t.keyboard.bufferIndex t.console.getCursor.row t.console.getCursor.col scancode
      ((t.keyboard.modifiers scancode).mappedChar behind scancode)

theorem keyboardIsr_bounded_iff :
    (keyboardIsr behind t scancode).console.Bounded ↔
      t.console.Bounded ∧ KeyOnScreen behind t scancode := by
  by_cases hon : t.keyboard.keyboardInputOn = true
  swap
  · rw [keyboardIsr_off (Bool.eq_false_of_not_eq_true hon)]
    exact (and_iff_left fun h => absurd h hon).symm
  have hcol := getCursor_col_lt t.console
  simp only [keyboardIsr, KeyOnScreen, hon, Bool.not_true, Bool.false_eq_true, if_false,
    forall_const]
  split_ifs with hkey hnew
  · simp only [pressed_bounded_iff hcol, modifiers_bufferIndex, hkey, hnew, ne_eq,
      not_false_eq_true, forall_const]
  · refine (and_iff_left ?_).symm
    intro _ _ _ hne
    exact absurd hne hnew
  · refine (and_iff_left ?_).symm
    intro h1 h2 h3 _
    exact absurd ⟨h1, h2, h3⟩ hkey

/-! ## Runs of the console -/

/-- What the system does with the console: the system calls that draw, as the shell issues
    them, the interrupt, and the two functions of the keyboard driver that let the next line
    be typed. -/
inductive ConsoleAction where
  | writeString (str : List UInt8) (textColor : UInt8)
  | endCommand
  | clearScreen
  | activate
  | resetKeyboardBuffer
  | key (scancode : UInt8)

/-- The terminal after an action. -/
def Terminal.act (behind : ℕ → UInt8) (t : Terminal) : ConsoleAction → Terminal
  | .writeString str textColor => { t with console := t.console.writeString str textColor }
  | .endCommand => { t with console := t.console.moveCursor 1 0 }
  | .clearScreen => t.clearScreen
  | .activate => t.activate
  | .resetKeyboardBuffer => t.resetKeyboardBuffer
  | .key scancode => keyboardIsr behind t scancode

/-- What an action needs of the cursor to stay on the screen. -/
def StaysOnScreen (behind : ℕ → UInt8) (t : Terminal) : ConsoleAction → Prop
  | .writeString str _ => t.console.getCursor.row.toNat ≤ maxRows ∨ OnlyNewlines str
  | .key scancode => KeyOnScreen behind t scancode
  | .endCommand | .clearScreen | .activate | .resetKeyboardBuffer => True

theorem act_bounded_iff (behind : ℕ → UInt8) (t : Terminal) (action : ConsoleAction)
    (h : t.console.Bounded) :
    (t.act behind action).console.Bounded ↔ StaysOnScreen behind t action := by
  cases action with
  | writeString str textColor => exact writeString_bounded_iff.trans (and_iff_right h)
  | endCommand => exact iff_of_true h trivial
  | clearScreen => exact iff_of_true (clearScreen_bounded_iff.mpr h) trivial
  | activate => exact iff_of_true h trivial
  | resetKeyboardBuffer => exact iff_of_true h trivial
  | key scancode => exact keyboardIsr_bounded_iff.trans (and_iff_right h)

/-- **A run stays on the screen exactly when every action does.** -/
theorem console_bounded_iff (behind : ℕ → UInt8) (kb : KeyboardDriverState) (tempCode : UInt8)
    (actions : List ConsoleAction) :
    (∀ before, before <+: actions →
      (before.foldl (Terminal.act behind) ⟨kb, tempCode, Console.blank⟩).console.Bounded) ↔
      PartialRun.Guarded (fun t action => some (t.act behind action)) (StaysOnScreen behind)
        ⟨kb, tempCode, Console.blank⟩ actions := by
  refine PartialRun.always_iff (fun t action h => act_bounded_iff behind t action h) ?_
  intro place hplace
  exact nomatch hplace

/-- The end of 25 commands leaves the cursor behind the screen, where the next key is
    written. -/
theorem endCommand_leaves_screen :
    ¬ ((List.replicate 25 ConsoleAction.endCommand ++
        [ConsoleAction.activate, ConsoleAction.key 30]).foldl
      (Terminal.act fun _ => 0) (Terminal.initial Console.blank)).console.Bounded := by
  intro h
  exact absurd (h (25, 0) (by decide +kernel)) (by decide)

end OsyConsole
