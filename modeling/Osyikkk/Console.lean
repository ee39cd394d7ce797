import Mathlib.Data.UInt
import Mathlib.Logic.Function.Basic

/-!
# The console of `framebuffer.c`

The hardware cursor is one 16-bit position, written through 8-bit rows and columns and read
back as 8-bit rows and columns. The text memory is a function from the cell behind
`MEMORY_FRAMEBUFFER`, so a row behind the 25th is a cell behind the screen. Beside the cells
the model keeps the row and column of every `framebuffer_write`.
-/

namespace OsyConsole

abbrev maxRows : ℕ := 25
abbrev maxCols : ℕ := 80
abbrev white : UInt8 := 0x0F
abbrev black : UInt8 := 0x00

/-- `struct Cursor`. -/
structure Cursor where
  row : UInt8
  col : UInt8
  deriving DecidableEq

/-- The text memory, the cursor position of the CRT controller, and the places
    `framebuffer_write` was called with, first one first. -/
structure Console where
  cells : ℕ → UInt16
  position : UInt16
  writes : List (UInt8 × UInt8)

/-- A cleared screen with the cursor at its top left corner. -/
def Console.blank : Console where
  cells := fun _ => (0x20 : UInt16) ||| (0x07 : UInt16) <<< 8
  position := 0
  writes := []

/-- `framebuffer_set_cursor`. -/
def Console.setCursor (s : Console) (r c : UInt8) : Console :=
  { s with position := r.toUInt16 * 80 + c.toUInt16 }

/-- `framebuffer_get_cursor`. -/
def Console.getCursor (s : Console) : Cursor :=
  let offset := s.position.toNat
  { row := UInt8.ofNat (offset / maxCols), col := UInt8.ofNat (offset % maxCols) }

/-- A `char` where an `int` is expected: the sign bit is copied upward. -/
def charToInt (c : UInt8) : UInt16 := if c < 0x80 then c.toUInt16 else 0xFF00 ||| c.toUInt16

/-- `framebuffer_write`. -/
def Console.write (s : Console) (row col c fg bg : UInt8) : Console :=
  let attrib : UInt16 := bg.toUInt16 <<< 4 ||| (fg &&& white).toUInt16
  { s with
    cells := Function.update s.cells (row.toNat * maxCols + col.toNat)
      (charToInt c ||| attrib <<< 8)
    writes := s.writes ++ [(row, col)] }

/-- `framebuffer_clear`. -/
def Console.clear (s : Console) : Console :=
  let space := (0x20 : UInt16) ||| (0x07 : UInt16) <<< 8
  { s with cells := fun k => if k < maxCols * maxRows then space else s.cells k }

/-- The loop of `framebuffer_scroll_ln` that blanks the last row, from column `i` on. -/
def blankRow (s : Console) : ℕ → ℕ → Console
  | 0, _ => s
  | n + 1, i =>
      blankRow (s.write (UInt8.ofNat (maxRows - 1)) (UInt8.ofNat i) 32 white black) n (i + 1)

/-- `framebuffer_scroll_ln`: the console after it and the offset it returns. The copy also
    takes the row behind the screen. -/
def Console.scrollLn (s : Console) (offset : ℕ) : Console × ℕ :=
  let moved :=
    { s with cells := fun k => if k < maxCols * maxRows then s.cells (k + maxCols) else s.cells k }
  (blankRow moved maxCols 0, offset - maxCols)

/-- The loop of `framebuffer_write_string`: the console after it and the last offset. -/
def writeLoop (textColor : UInt8) : List UInt8 → Console → ℕ → Console × ℕ
  | [], s, offset => (s, offset)
  | c :: rest, s, offset =>
      if c = 0 then (s, offset)
      else
        let (s, offset) :=
          if maxCols * maxRows ≤ offset then s.scrollLn offset else (s, offset)
        if c = 10 then writeLoop textColor rest s ((offset / maxCols + 1) * maxCols)
        else
          writeLoop textColor rest
            (s.write (UInt8.ofNat (offset / maxCols)) (UInt8.ofNat (offset % maxCols)) c
              textColor black)
            (offset + 1)

/-- `framebuffer_write_string`; `str` holds the bytes up to the terminator. -/
def Console.writeString (s : Console) (str : List UInt8) (textColor : UInt8) : Console :=
  let c := s.getCursor
  let (s, offset) := writeLoop textColor str s (c.row.toNat * maxCols + c.col.toNat)
  s.setCursor (UInt8.ofNat (offset / maxCols)) (UInt8.ofNat (offset % maxCols))

/-- `syscall` with `eax == 6`. -/
def Console.moveCursor (s : Console) (rows col : UInt32) : Console :=
  s.setCursor (s.getCursor.row.toUInt32 + rows).toUInt8 col.toUInt8

end OsyConsole
