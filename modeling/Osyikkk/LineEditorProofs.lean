import Osyikkk.KeyboardDriver
import Osyikkk.PartialRun
import Mathlib.Data.List.GetD

/-!
# The keyboard driver as a line editor

What a line editor does with a key is `editKey`, over the line as a list. The driver's
buffer and index are that line (`HoldsLine`) as long as every key that is newly pressed is
one it handles as the editor does. Three kinds are not: keys without a character, which
store a NUL; Esc, which empties the buffer and leaves the index behind the Esc it stored;
and the 256th character, with which the 8-bit index wraps.
-/

namespace OsyConsole

/-! ## The editor -/

/-- The character of a key in the lower map. -/
def character (scancode : UInt8) : UInt8 := keyboardScancode1ToAsciiMap.getD scancode.toNat 0

/-- A character to type. Whether the tabulator is one is left open. -/
def Printable (tabTypes : Bool) (c : UInt8) : Prop :=
  (32 ≤ c ∧ c ≤ 126) ∨ (tabTypes = true ∧ c = 9)

instance (tabTypes : Bool) (c : UInt8) : Decidable (Printable tabTypes c) :=
  inferInstanceAs (Decidable (_ ∨ _))

/-- The characters an 8-bit index can count. -/
abbrev lineCapacity : ℕ := 255

/-- The line after a key was pressed. -/
def editKey (tabTypes : Bool) (line : List UInt8) (scancode : UInt8) : List UInt8 :=
  if Printable tabTypes (character scancode) then
    if line.length < lineCapacity then line ++ [character scancode] else line
  else if character scancode = charBackspace then line.dropLast
  else if character scancode = scancodeEsc then []
  else line

/-- The scancode of a key that goes down and is not a repeat of the scancode before it. -/
def NewlyPressed (last scancode : UInt8) : Prop :=
  scancode < scancodeKeyupThreshold ∧ scancode ≠ last

instance (last scancode : UInt8) : Decidable (NewlyPressed last scancode) :=
  inferInstanceAs (Decidable (_ ∧ _))

/-- The keys a list of scancodes presses anew when `last` is the scancode before
    it. -/
def newlyPressed : UInt8 → List UInt8 → List UInt8
  | _, [] => []
  | last, scancode :: rest =>
      if NewlyPressed last scancode then scancode :: newlyPressed scancode rest
      else newlyPressed scancode rest

/-- Buffer and index hold a line of characters: its bytes, and zeros behind them. -/
structure HoldsLine (kb : KeyboardDriverState) (line : List UInt8) : Prop where
  index : kb.bufferIndex.toNat = line.length
  buffer : ∀ j : Fin keyboardBufferSize, kb.keyboardBuffer j = line.getD j 0
  nonzero : ∀ c ∈ line, c ≠ 0

/-- The driver listens and neither shift nor caps lock is on. -/
structure Typing (kb : KeyboardDriverState) : Prop where
  inputOn : kb.keyboardInputOn = true
  shiftOff : kb.shiftPressed = false
  capsOff : kb.capsCond = false

/-- Neither Enter nor a key that changes the shift or caps state. -/
def PlainScancode (scancode : UInt8) : Prop :=
  scancode ≠ scancodeEnter ∧ scancode ≠ scancodeLshift ∧ scancode ≠ scancodeCaps

/-- A key the driver handles as the editor does. -/
def KeyHandled (tabTypes : Bool) (t : Terminal) (scancode : UInt8) : Prop :=
  NewlyPressed t.tempCode scancode →
    character scancode = charBackspace ∨ scancode = scancodeLeftarrow ∨
    (Printable tabTypes (character scancode) ∧ t.keyboard.bufferIndex.toNat < lineCapacity) ∨
    (character scancode = scancodeEsc ∧ t.keyboard.bufferIndex.toNat = lineCapacity)

variable {tabTypes : Bool} {kb : KeyboardDriverState} {t : Terminal} {line : List UInt8}
  {scancode c : UInt8}

theorem printable_ne_zero (h : Printable tabTypes c) : c ≠ 0 := by
  rintro rfl
  revert h
  cases tabTypes <;> decide

/-! ## The character map -/

theorem character_newline (h : character scancode = charNewline) : scancode = scancodeEnter := by
  have hmap : ∀ k < 79, keyboardScancode1ToAsciiMap.getD k 0 = charNewline → k = 28 := by
    decide
  by_cases hk : scancode.toNat < 79
  · exact UInt8.toNat_inj.mp (hmap _ hk h)
  · rw [character, List.getD_eq_default _ _ (Nat.not_lt.mp hk)] at h
    exact absurd h (by decide)

theorem character_leftarrow : character scancodeLeftarrow = 0 := by decide

/-! ## What the branches leave in the buffer -/

/-- Backspace takes the last character. -/
theorem erase_holdsLine (h : HoldsLine t.keyboard line) (hi : 0 < t.keyboard.bufferIndex)
    (row col : UInt8) : HoldsLine (t.erase row col).keyboard line.dropLast := by
  have hpos : 0 < t.keyboard.bufferIndex.toNat := UInt8.lt_iff_toNat_lt.mp hi
  have hsub : (t.keyboard.bufferIndex - 1).toNat = t.keyboard.bufferIndex.toNat - 1 :=
    UInt8.toNat_sub_of_le _ _ (UInt8.le_iff_toNat_le.mpr hpos)
  constructor
  case index =>
    show (t.keyboard.bufferIndex - 1).toNat = _
    rw [hsub, List.length_dropLast, h.index]
  case buffer =>
    intro j
    show Function.update t.keyboard.keyboardBuffer
      ⟨(t.keyboard.bufferIndex - 1).toNat, UInt8.toNat_lt _⟩ 0 j = _
    have hlen := h.index
    rw [List.getD_eq_getElem?_getD, List.getElem?_dropLast]
    by_cases hj : (j : ℕ) = t.keyboard.bufferIndex.toNat - 1
    · have hcell : j = ⟨(t.keyboard.bufferIndex - 1).toNat, UInt8.toNat_lt _⟩ :=
        Fin.ext (hj.trans hsub.symm)
      rw [hcell, Function.update_self, if_neg (by simp only; omega)]
      rfl
    · have hne : j ≠ ⟨(t.keyboard.bufferIndex - 1).toNat, UInt8.toNat_lt _⟩ :=
        fun heq => hj ((congrArg Fin.val heq).trans hsub)
      rw [Function.update_of_ne hne, h.buffer]
      by_cases hlt : (j : ℕ) < line.length - 1
      · rw [if_pos hlt, ← List.getD_eq_getElem?_getD]
      · rw [if_neg hlt, List.getD_eq_default _ _ (by omega)]
        rfl
  case nonzero => exact fun c hc => h.nonzero c (List.dropLast_subset line hc)

/-- A character is appended while the index can count it. -/
theorem store_holdsLine (h : HoldsLine t.keyboard line) (hc : c ≠ 0)
    (hi : t.keyboard.bufferIndex.toNat < lineCapacity) (row col : UInt8) :
    HoldsLine (t.store row col c).keyboard (line ++ [c]) := by
  have hlen := h.index
  constructor
  case index =>
    show (t.keyboard.bufferIndex + 1).toNat = _
    have hadd : (t.keyboard.bufferIndex + 1).toNat
        = (t.keyboard.bufferIndex.toNat + 1) % 2 ^ 8 := UInt8.toNat_add _ _
    rw [hadd, List.length_append, List.length_singleton]
    simp only [lineCapacity] at hi
    omega
  case buffer =>
    intro j
    show Function.update t.keyboard.keyboardBuffer t.keyboard.current c j = _
    by_cases hj : (j : ℕ) = t.keyboard.bufferIndex.toNat
    · have hcell : j = t.keyboard.current := Fin.ext hj
      rw [hcell, Function.update_self, List.getD_append_right _ _ _ _ (by
        show line.length ≤ t.keyboard.bufferIndex.toNat
        omega)]
      show c = [c].getD (t.keyboard.bufferIndex.toNat - line.length) 0
      rw [hlen, Nat.sub_self]
      rfl
    · have hne : j ≠ t.keyboard.current := fun heq => hj (congrArg Fin.val heq)
      rw [Function.update_of_ne hne, h.buffer]
      by_cases hlt : (j : ℕ) < line.length
      · rw [List.getD_append _ _ _ _ hlt]
      · rw [List.getD_eq_default _ _ (Nat.not_lt.mp hlt), List.getD_eq_default]
        rw [List.length_append, List.length_singleton]
        omega
  case nonzero =>
    intro d hd
    rcases List.mem_append.mp hd with hd | hd
    · exact h.nonzero d hd
    · exact List.mem_singleton.mp hd ▸ hc

/-- Storing a character always moves the index. -/
theorem store_index_ne (h : HoldsLine t.keyboard line) (row col c : UInt8) :
    ¬ HoldsLine (t.store row col c).keyboard line := by
  intro h'
  have hindex : t.keyboard.bufferIndex + 1 = t.keyboard.bufferIndex :=
    UInt8.toNat_inj.mp (h'.index.trans h.index.symm)
  have hadd : (t.keyboard.bufferIndex + 1).toNat
      = (t.keyboard.bufferIndex.toNat + 1) % 2 ^ 8 := UInt8.toNat_add _ _
  have hlt := UInt8.toNat_lt t.keyboard.bufferIndex
  rw [hindex] at hadd
  omega

/-- Esc leaves an empty buffer, and the index behind the Esc it stored. -/
theorem escape_holdsLine_iff (kb : KeyboardDriverState) :
    HoldsLine { kb with keyboardBuffer := fun _ => 0, bufferIndex := kb.bufferIndex + 1 } [] ↔
      kb.bufferIndex.toNat = lineCapacity := by
  have hadd : (kb.bufferIndex + 1).toNat = (kb.bufferIndex.toNat + 1) % 2 ^ 8 :=
    UInt8.toNat_add _ _
  have hlt := UInt8.toNat_lt kb.bufferIndex
  constructor
  · intro h
    have hindex : (kb.bufferIndex + 1).toNat = 0 := h.index
    simp only [lineCapacity]
    omega
  · intro h
    simp only [lineCapacity] at h
    refine ⟨?_, fun _ => rfl, fun c hc => nomatch hc⟩
    show (kb.bufferIndex + 1).toNat = 0
    omega

/-! ## One scancode -/

theorem modifiers_plain (hkb : Typing kb) (hplain : PlainScancode scancode) :
    kb.modifiers scancode = kb := by
  obtain ⟨-, hshift, -⟩ := hkb
  simp only [KeyboardDriverState.modifiers, if_neg hplain.2.1, if_neg hplain.2.2]
  split
  · cases kb
    simp only at hshift
    rw [hshift]
  · rfl

theorem mappedChar_typing (hkb : Typing kb) (behind : ℕ → UInt8) :
    kb.mappedChar behind scancode = character scancode := by
  rw [KeyboardDriverState.mappedChar, hkb.shiftOff, hkb.capsOff]
  rfl

theorem keyboardIsr_pressed (behind : ℕ → UInt8) (ht : Typing t.keyboard)
    (hplain : PlainScancode scancode) (hnew : NewlyPressed t.tempCode scancode) :
    keyboardIsr behind t scancode
      = t.pressed t.console.getCursor.row t.console.getCursor.col scancode
          (character scancode) := by
  have hkey : scancode < scancodeKeyupThreshold ∧ scancode ≠ scancodeLshift ∧
      scancode ≠ scancodeCaps := ⟨hnew.1, hplain.2⟩
  simp only [keyboardIsr, ht.inputOn, modifiers_plain ht hplain, mappedChar_typing ht,
    if_pos hkey, if_pos hnew.2, Bool.not_true, Bool.false_eq_true, if_false]

/-- Releases and repeats leave the line alone. -/
theorem keyboardIsr_not_pressed (behind : ℕ → UInt8) (ht : Typing t.keyboard)
    (hplain : PlainScancode scancode) (hold : ¬ NewlyPressed t.tempCode scancode) :
    keyboardIsr behind t scancode = { t with tempCode := scancode } := by
  simp only [keyboardIsr, ht.inputOn, modifiers_plain ht hplain, Bool.not_true,
    Bool.false_eq_true, if_false]
  split
  · next hkey =>
      have hlast : scancode = t.tempCode := by
        by_contra hne
        exact hold ⟨hkey.1, hne⟩
      rw [if_neg (not_not.mpr hlast), hlast]
  · rfl

/-- A plain key does not end the input. -/
theorem pressed_typing (ht : Typing t.keyboard) (hc : c ≠ charNewline)
    (row col : UInt8) : Typing (t.pressed row col scancode c).keyboard := by
  obtain ⟨hon, hshift, hcaps⟩ := ht
  unfold Terminal.pressed
  simp only [if_neg hc]
  constructor <;> split_ifs <;> assumption

theorem pressed_tempCode (row col : UInt8) :
    (t.pressed row col scancode c).tempCode = scancode := by
  unfold Terminal.pressed
  simp only
  split <;> rfl

/-- Backspace takes the last character, if there is one. -/
theorem pressed_backspace (h : HoldsLine t.keyboard line) (row col : UInt8)
    (hkey : scancode ≠ scancodeLeftarrow) :
    HoldsLine (t.pressed row col scancode charBackspace).keyboard line.dropLast := by
  have hnewline : charBackspace ≠ charNewline := by decide
  have hesc : charBackspace ≠ scancodeEsc := by decide
  by_cases hi : 0 < t.keyboard.bufferIndex
  · have hpressed : (t.pressed row col scancode charBackspace).keyboard
        = (t.erase row col).keyboard := by
      simp only [Terminal.pressed, hi, and_self, if_true, if_neg hesc]
    rw [hpressed]
    exact erase_holdsLine h hi row col
  · have hpressed : (t.pressed row col scancode charBackspace).keyboard = t.keyboard := by
      simp only [Terminal.pressed, hi, and_false, if_false, if_neg hnewline, ne_eq,
        not_true_eq_false, hkey, false_and, if_neg hesc]
    have hzero : t.keyboard.bufferIndex.toNat = 0 := by
      rw [UInt8.lt_iff_toNat_lt] at hi
      exact Nat.eq_zero_of_not_pos hi
    have hnil : line = [] := List.length_eq_zero_iff.mp (h.index.symm.trans hzero)
    rw [hpressed, hnil, List.dropLast_nil, ← hnil]
    exact h

theorem pressed_leftarrow (row col : UInt8) :
    (t.pressed row col scancodeLeftarrow 0).keyboard = t.keyboard := by
  have hback : (0 : UInt8) ≠ charBackspace := by decide
  have hnewline : (0 : UInt8) ≠ charNewline := by decide
  have hesc : (0 : UInt8) ≠ scancodeEsc := by decide
  simp only [Terminal.pressed, hback, false_and, if_false, if_neg hnewline, ne_eq,
    not_true_eq_false, and_false, if_neg hesc]
  split <;> rfl

/-- Every other key is stored; Esc clears the buffer behind that. -/
theorem pressed_stored (row col : UInt8) (hb : c ≠ charBackspace) (hn : c ≠ charNewline)
    (hkey : scancode ≠ scancodeLeftarrow) :
    (t.pressed row col scancode c).keyboard
      = if c = scancodeEsc then
          { (t.store row col c).keyboard with keyboardBuffer := fun _ => 0 }
        else (t.store row col c).keyboard := by
  simp only [Terminal.pressed, hb, false_and, if_false, if_neg hn, ne_eq, not_false_eq_true,
    hkey, and_self, if_true]
  split <;> rfl

/-- **One scancode** is handled as by the editor exactly under the condition. -/
theorem keyboardIsr_holdsLine_iff (behind : ℕ → UInt8) (ht : Typing t.keyboard)
    (hplain : PlainScancode scancode) (h : HoldsLine t.keyboard line) :
    HoldsLine (keyboardIsr behind t scancode).keyboard
        (if NewlyPressed t.tempCode scancode then editKey tabTypes line scancode else line) ↔
      KeyHandled tabTypes t scancode := by
  by_cases hnew : NewlyPressed t.tempCode scancode
  swap
  · rw [if_neg hnew, keyboardIsr_not_pressed behind ht hplain hnew]
    exact iff_of_true h fun hyes => absurd hyes hnew
  have hnewline : character scancode ≠ charNewline := fun h => hplain.1 (character_newline h)
  rw [if_pos hnew, keyboardIsr_pressed behind ht hplain hnew]
  simp only [KeyHandled, hnew, forall_const]
  by_cases hleft : scancode = scancodeLeftarrow
  · subst hleft
    have hedit : editKey tabTypes line scancodeLeftarrow = line := by
      cases tabTypes <;> rfl
    rw [hedit, character_leftarrow, pressed_leftarrow]
    exact iff_of_true h (Or.inr (Or.inl rfl))
  by_cases hback : character scancode = charBackspace
  · have hno : ¬ Printable tabTypes charBackspace := by cases tabTypes <;> decide
    have hedit : editKey tabTypes line scancode = line.dropLast := by
      rw [editKey, hback, if_neg hno, if_pos rfl]
    rw [hedit, hback]
    exact iff_of_true (pressed_backspace h _ _ hleft) (Or.inl rfl)
  rw [pressed_stored _ _ hback hnewline hleft]
  simp only [hback, hleft, false_or]
  by_cases hprint : Printable tabTypes (character scancode)
  · have hesc : character scancode ≠ scancodeEsc := by
      intro heq
      rw [heq] at hprint
      revert hprint
      cases tabTypes <;> decide
    rw [if_neg hesc, editKey, if_pos hprint]
    simp only [hprint, true_and, hesc, false_and, or_false]
    by_cases hroom : t.keyboard.bufferIndex.toNat < lineCapacity
    · rw [if_pos (h.index ▸ hroom)]
      exact iff_of_true (store_holdsLine h (printable_ne_zero hprint) hroom _ _) hroom
    · -- the index wraps where the editor refuses the character
      rw [if_neg (h.index ▸ hroom)]
      exact iff_of_false (store_index_ne h _ _ _) hroom
  · rw [editKey, if_neg hprint, if_neg hback]
    simp only [hprint, false_and, false_or]
    by_cases hesc : character scancode = scancodeEsc
    · rw [if_pos hesc, if_pos hesc]
      simp only [hesc, true_and]
      exact escape_holdsLine_iff t.keyboard
    · rw [if_neg hesc, if_neg hesc]
      exact iff_of_false (store_index_ne h _ _ _) fun hyes => hesc hyes.1

/-! ## Runs -/

/-- The last scancode and the line, after one more scancode. -/
def editScancode (tabTypes : Bool) (s : UInt8 × List UInt8) (scancode : UInt8) :
    UInt8 × List UInt8 :=
  (scancode, if NewlyPressed s.1 scancode then editKey tabTypes s.2 scancode else s.2)

theorem foldl_editScancode (tabTypes : Bool) (last : UInt8) (line scancodes : List UInt8) :
    (scancodes.foldl (editScancode tabTypes) (last, line)).2
      = (newlyPressed last scancodes).foldl (editKey tabTypes) line := by
  induction scancodes generalizing last line with
  | nil => rfl
  | cons scancode rest ih =>
      rw [List.foldl_cons, editScancode, ih, newlyPressed]
      by_cases hnew : NewlyPressed last scancode
      · rw [if_pos hnew, if_pos hnew, List.foldl_cons]
      · rw [if_neg hnew, if_neg hnew]

theorem keyboardIsr_typing (behind : ℕ → UInt8) (ht : Typing t.keyboard)
    (hplain : PlainScancode scancode) :
    Typing (keyboardIsr behind t scancode).keyboard ∧
      (keyboardIsr behind t scancode).tempCode = scancode := by
  by_cases hnew : NewlyPressed t.tempCode scancode
  · rw [keyboardIsr_pressed behind ht hplain hnew]
    exact ⟨pressed_typing ht (fun h => hplain.1 (character_newline h)) _ _,
      pressed_tempCode _ _⟩
  · rw [keyboardIsr_not_pressed behind ht hplain hnew]
    exact ⟨ht, rfl⟩

/-- The driver listens, and it holds the editor's line and last scancode. -/
structure InStep (t : Terminal) (s : UInt8 × List UInt8) : Prop where
  typing : Typing t.keyboard
  last : t.tempCode = s.1
  line : HoldsLine t.keyboard s.2

theorem keyboardIsr_inStep_iff (tabTypes : Bool) (behind : ℕ → UInt8) (t : Terminal)
    (s : UInt8 × List UInt8)
    (scancode : UInt8) (hplain : PlainScancode scancode) (h : InStep t s) :
    InStep (keyboardIsr behind t scancode) (editScancode tabTypes s scancode) ↔
      KeyHandled tabTypes t scancode := by
  obtain ⟨ht, hlast⟩ := keyboardIsr_typing behind h.typing hplain
  rw [← keyboardIsr_holdsLine_iff behind h.typing hplain h.line, h.last]
  exact ⟨InStep.line, fun hline => ⟨ht, hlast, hline⟩⟩

/-- The flags and the last scancode never depend on how the keys were handled. -/
theorem foldl_inStep_iff (behind : ℕ → UInt8) (s : UInt8 × List UInt8) {scancodes : List UInt8}
    (ht : Typing t.keyboard) (hlast : t.tempCode = s.1)
    (hplain : ∀ scancode ∈ scancodes, PlainScancode scancode) :
    InStep (scancodes.foldl (keyboardIsr behind) t) (scancodes.foldl (editScancode tabTypes) s) ↔
      HoldsLine (scancodes.foldl (keyboardIsr behind) t).keyboard
        ((newlyPressed s.1 scancodes).foldl (editKey tabTypes) s.2) := by
  have hflags : Typing (scancodes.foldl (keyboardIsr behind) t).keyboard ∧
      (scancodes.foldl (keyboardIsr behind) t).tempCode
        = (scancodes.foldl (editScancode tabTypes) s).1 := by
    induction scancodes generalizing t s with
    | nil => exact ⟨ht, hlast⟩
    | cons scancode rest ih =>
        obtain ⟨ht', hlast'⟩ := keyboardIsr_typing behind ht (hplain _ List.mem_cons_self)
        exact ih _ ht' hlast' fun k hk => hplain k (List.mem_cons_of_mem _ hk)
  have hline := foldl_editScancode tabTypes s.1 s.2 scancodes
  rw [← hline]
  exact ⟨InStep.line, fun h => ⟨hflags.1, hflags.2, h⟩⟩

/-- An empty line. -/
theorem reset_inStep (ht : Typing t.keyboard) (hindex : t.keyboard.bufferIndex = 0)
    (hbuffer : t.keyboard.keyboardBuffer = fun _ => 0) : InStep t (t.tempCode, []) := by
  refine ⟨ht, rfl, ?_, ?_, fun c hc => nomatch hc⟩
  · rw [hindex]
    rfl
  · intro j
    rw [hbuffer]
    rfl

/-- **The driver is a line editor for exactly the runs whose keys it handles.** -/
theorem lineEditor_iff (tabTypes : Bool) (behind : ℕ → UInt8) (t : Terminal)
    (ht : Typing t.keyboard) (hindex : t.keyboard.bufferIndex = 0)
    (hbuffer : t.keyboard.keyboardBuffer = fun _ => 0) (scancodes : List UInt8)
    (hplain : ∀ scancode ∈ scancodes, PlainScancode scancode) :
    (∀ before, before <+: scancodes →
      HoldsLine (before.foldl (keyboardIsr behind) t).keyboard
        ((newlyPressed t.tempCode before).foldl (editKey tabTypes) [])) ↔
      PartialRun.Guarded (fun t scancode => some (keyboardIsr behind t scancode))
        (KeyHandled tabTypes) t scancodes := by
  rw [← PartialRun.lockstep_iff (keyboardIsr_inStep_iff tabTypes behind)
    (reset_inStep ht hindex hbuffer) hplain]
  refine forall_congr' fun before => forall_congr' fun hbefore => ?_
  have hfront : ∀ scancode ∈ before, PlainScancode scancode :=
    fun k hk => hplain k (hbefore.subset hk)
  exact (foldl_inStep_iff behind (t.tempCode, []) ht rfl hfront).symm

/-- The console at the first prompt, with the input on. -/
def listening : Terminal := (Terminal.initial Console.blank).activate

theorem listening_typing : Typing listening.keyboard := ⟨rfl, rfl, rfl⟩

/-- `h` and `i`, with the release of the first. -/
theorem lineEditor_hi :
    (∀ before, before <+: [35, 163, 23] →
      HoldsLine (before.foldl (keyboardIsr fun _ => 0) listening).keyboard
        ((newlyPressed listening.tempCode before).foldl (editKey true) [])) ↔
      PartialRun.Guarded (fun t scancode => some (keyboardIsr (fun _ => 0) t scancode))
        (KeyHandled true) listening [35, 163, 23] := by
  refine lineEditor_iff true _ listening listening_typing rfl rfl _ ?_
  intro scancode hmem
  simp only [List.mem_cons, List.not_mem_nil, or_false] at hmem
  rcases hmem with rfl | rfl | rfl <;> exact ⟨by decide, by decide, by decide⟩

/-- A number of presses of the key `a`, each with its release. -/
def typedLine (n : ℕ) : List UInt8 := (List.replicate n [30, 158]).flatten

/-- Ctrl moves the index over a NUL, Esc moves it over an empty buffer, and the 256th
    character wraps it. -/
theorem lineEditor_control_esc_wrap :
    ¬ HoldsLine ([29].foldl (keyboardIsr fun _ => 0) listening).keyboard
        ((newlyPressed listening.tempCode [29]).foldl (editKey true) []) ∧
      ¬ HoldsLine ([1].foldl (keyboardIsr fun _ => 0) listening).keyboard
        ((newlyPressed listening.tempCode [1]).foldl (editKey true) []) ∧
      ¬ HoldsLine ((typedLine 255 ++ [30]).foldl (keyboardIsr fun _ => 0) listening).keyboard
        ((newlyPressed listening.tempCode (typedLine 255 ++ [30])).foldl (editKey true) []) := by
  refine ⟨?_, ?_, ?_⟩
  · intro h
    exact absurd h.index (by decide)
  · intro h
    exact absurd h.index (by decide)
  · intro h
    exact absurd h.index (by decide +kernel)

end OsyConsole
