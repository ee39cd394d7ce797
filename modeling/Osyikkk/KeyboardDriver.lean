import Osyikkk.Console
import Mathlib.Data.List.Basic

/-!
# The keyboard driver of `keyboard.c`

The interrupt service routine with its two character maps, the edit buffer with its 8-bit
index, and the functions `syscall` uses to read a line. `scancode_capital_letters` has 58
entries and is indexed with every scancode, so what lies behind it in memory is a parameter.
-/

namespace OsyConsole

abbrev keyboardBufferSize : ℕ := 256
abbrev scancodeKeyupThreshold : UInt8 := 0x80
abbrev scancodeLshift : UInt8 := 42
abbrev scancodeCaps : UInt8 := 58
abbrev scancodeLeftarrow : UInt8 := 75
abbrev scancodeEnter : UInt8 := 28
abbrev charBackspace : UInt8 := 8
abbrev charNewline : UInt8 := 10

/-- `SCANCODE_ESC`, which the source compares with the mapped character. -/
abbrev scancodeEsc : UInt8 := 27

/-- The entries of `keyboard_scancode_1_to_ascii_map` up to the last one that is not 0. -/
def keyboardScancode1ToAsciiMap : List UInt8 :=
  [  0,  27,  49,  50,  51,  52,  53,  54,  55,  56,  57,  48,  45,
    61,   8,   9, 113, 119, 101, 114, 116, 121, 117, 105, 111, 112,
    91,  93,  10,   0,  97, 115, 100, 102, 103, 104, 106, 107, 108,
    59,  39,  96,   0,  92, 122, 120,  99, 118,  98, 110, 109,  44,
    46,  47,   0,  42,   0,  32,   0,   0,   0,   0,   0,   0,   0,
     0,   0,   0,   0,   0,   0,   0,   0,   0,  45,   0,   0,   0,
    43]

/-- `scancode_capital_letters`. -/
def scancodeCapitalLetters : List UInt8 :=
  [  0,  27,  33,  64,  35,  36,  37,  94,  38,  42,  40,  41,
    95,  43,   0,   0,  81,  87,  69,  82,  84,  89,  85,  73,
    79,  80,  91,  93,  63,  63,  65,  83,  68,  70,  71,  72,
    74,  75,  76,  58,  34, 126,   0,  92,  90,  88,  67,  86,
    66,  78,  77,  60,  62,  63,   0,   0,   0,   0]

/-- `struct KeyboardDriverState`. -/
structure KeyboardDriverState where
  readExtendedMode : Bool
  keyboardInputOn : Bool
  shiftPressed : Bool
  ctrlPressed : Bool
  altPressed : Bool
  capsCond : Bool
  bufferIndex : UInt8
  keyboardBuffer : Fin keyboardBufferSize → UInt8

/-- The driver's static state with the console it echoes to; `tempCode` is an `int` that
    holds scancodes only. -/
structure Terminal where
  keyboard : KeyboardDriverState
  tempCode : UInt8
  console : Console

/-- The static state as it is initialised. -/
def Terminal.initial (console : Console) : Terminal where
  keyboard :=
    { readExtendedMode := false
      keyboardInputOn := false
      shiftPressed := false
      ctrlPressed := false
      altPressed := false
      capsCond := false
      bufferIndex := 0
      keyboardBuffer := fun _ => 0 }
  tempCode := 0
  console := console

/-- `scancode_capital_letters[scancode]`, with the bytes behind the array. -/
def capitalLetter (behind : ℕ → UInt8) (scancode : UInt8) : UInt8 :=
  scancodeCapitalLetters.getD scancode.toNat
    (behind (scancode.toNat - scancodeCapitalLetters.length))

/-- The shift and caps lock branches of `keyboard_isr`. -/
def KeyboardDriverState.modifiers (kb : KeyboardDriverState) (scancode : UInt8) :
    KeyboardDriverState :=
  let kb := if scancode = scancodeLshift then { kb with shiftPressed := true } else kb
  let kb :=
    if scancode = scancodeLshift + scancodeKeyupThreshold then { kb with shiftPressed := false }
    else kb
  if scancode = scancodeCaps then { kb with capsCond := !kb.capsCond } else kb

/-- `mapped_char` of `keyboard_isr`. -/
def KeyboardDriverState.mappedChar (kb : KeyboardDriverState) (behind : ℕ → UInt8)
    (scancode : UInt8) : UInt8 :=
  if !(kb.shiftPressed ^^ kb.capsCond) then
    keyboardScancode1ToAsciiMap.getD scancode.toNat 0
  else capitalLetter behind scancode

/-- `keyboard_buffer[buffer_index]`; an 8-bit index is always inside the 256 bytes. -/
def KeyboardDriverState.current (kb : KeyboardDriverState) : Fin keyboardBufferSize :=
  ⟨kb.bufferIndex.toNat, UInt8.toNat_lt kb.bufferIndex⟩

/-- `keyboard_state_activate`. -/
def Terminal.activate (t : Terminal) : Terminal :=
  { t with keyboard := { t.keyboard with keyboardInputOn := true } }

/-- `keyboard_state_deactivate`. -/
def Terminal.deactivate (t : Terminal) : Terminal :=
  { t with keyboard := { t.keyboard with keyboardInputOn := false } }

/-- `reset_keyboard_buffer`. -/
def Terminal.resetKeyboardBuffer (t : Terminal) : Terminal :=
  { t with keyboard := { t.keyboard with keyboardBuffer := fun _ => 0, bufferIndex := 0 } }

/-- `"> "`. -/
def promptString : List UInt8 := [62, 32]

/-- `clear_screen`. -/
def Terminal.clearScreen (t : Terminal) : Terminal :=
  { t with
    console := ((t.console.clear).setCursor 0 0).writeString promptString white
    keyboard := { t.keyboard with keyboardBuffer := fun _ => 0 } }

/-- The Backspace branch of `keyboard_isr`: the cell before the cursor is blanked and the
    last character leaves the buffer. -/
def Terminal.erase (t : Terminal) (row col : UInt8) : Terminal :=
  let (r, c) : UInt8 × UInt8 :=
    if col = 0 then (row - 1, UInt8.ofNat (maxCols - 1)) else (row, col - 1)
  let kb := { t.keyboard with bufferIndex := t.keyboard.bufferIndex - 1 }
  { t with
    console := (t.console.setCursor r c).write r c 0 white black
    keyboard :=
      { kb with keyboardBuffer := Function.update kb.keyboardBuffer kb.current 0 } }

/-- The branch of `keyboard_isr` that stores the character and echoes it. -/
def Terminal.store (t : Terminal) (row col mappedChar : UInt8) : Terminal :=
  let kb := t.keyboard
  let offset := row.toNat * maxCols + col.toNat
  let (console, offset) :=
    if row.toNat = maxRows - 1 ∧ col.toNat = maxCols - 1 then t.console.scrollLn offset
    else (t.console, offset)
  { t with
    keyboard :=
      { kb with
        keyboardBuffer := Function.update kb.keyboardBuffer kb.current mappedChar
        bufferIndex := kb.bufferIndex + 1 }
    console :=
      (console.write (UInt8.ofNat (offset / maxCols)) (UInt8.ofNat (offset % maxCols)) mappedChar
        white black).setCursor (UInt8.ofNat (offset / maxCols))
          (UInt8.ofNat (offset % maxCols + 1)) }

/-- What `keyboard_isr` does with a key that was newly pressed. -/
def Terminal.pressed (t : Terminal) (row col scancode mappedChar : UInt8) : Terminal :=
  let t₁ :=
    if mappedChar = charBackspace ∧ 0 < t.keyboard.bufferIndex then t.erase row col
    else if mappedChar = charNewline then t.deactivate
    else if mappedChar ≠ charBackspace ∧ scancode ≠ scancodeLeftarrow then
      t.store row col mappedChar
    else if scancode = scancodeLeftarrow ∧ col ≠ 2 then
      { t with console := t.console.setCursor row (col - 1) }
    else t
  let t₂ := { t₁ with tempCode := scancode }
  if mappedChar = scancodeEsc then t₂.clearScreen else t₂

/-- `keyboard_isr` with the byte the keyboard's data port holds. -/
def keyboardIsr (behind : ℕ → UInt8) (t : Terminal) (scancode : UInt8) : Terminal :=
  let cursor := t.console.getCursor
  if !t.keyboard.keyboardInputOn then
    { t with keyboard := { t.keyboard with bufferIndex := 0 } }
  else
    let t := { t with keyboard := t.keyboard.modifiers scancode }
    let mappedChar := t.keyboard.mappedChar behind scancode
    if scancode < scancodeKeyupThreshold ∧ scancode ≠ scancodeLshift ∧
        scancode ≠ scancodeCaps then
      if scancode ≠ t.tempCode then t.pressed cursor.row cursor.col scancode mappedChar
      else t
    else { t with tempCode := scancode }

/-! ## The modifiers and the switched off input -/

@[simp] theorem modifiers_keyboardInputOn (kb : KeyboardDriverState) (scancode : UInt8) :
    (kb.modifiers scancode).keyboardInputOn = kb.keyboardInputOn := by
  unfold KeyboardDriverState.modifiers
  split_ifs <;> rfl

@[simp] theorem modifiers_keyboardBuffer (kb : KeyboardDriverState) (scancode : UInt8) :
    (kb.modifiers scancode).keyboardBuffer = kb.keyboardBuffer := by
  unfold KeyboardDriverState.modifiers
  split_ifs <;> rfl

@[simp] theorem modifiers_bufferIndex (kb : KeyboardDriverState) (scancode : UInt8) :
    (kb.modifiers scancode).bufferIndex = kb.bufferIndex := by
  unfold KeyboardDriverState.modifiers
  split_ifs <;> rfl

/-- With the input off the interrupt sets the index and nothing else. -/
theorem keyboardIsr_off {behind : ℕ → UInt8} {t : Terminal} {scancode : UInt8}
    (h : t.keyboard.keyboardInputOn = false) :
    keyboardIsr behind t scancode
      = { t with keyboard := { t.keyboard with bufferIndex := 0 } } := by
  simp only [keyboardIsr, h, Bool.not_false, if_true]

end OsyConsole
