import Mathlib.Data.List.Basic
import Mathlib.Data.List.TakeWhile
import Mathlib.Data.Int.Notation
import Mathlib.Data.Option.Basic
import Mathlib.Logic.Function.Basic

/-!
# Lines and tokens of `user-shell.c`

The strings of the shell, the trimming of the input buffer, the splitting of a line into the
rows of `char cmd[40][15]` and the parsing of a file name. An array of 256 entries that the
source indexes from 0 to 255 is a function of a byte. `none` is an access outside an array.

`parse_file_cmd` stores behind the end of `target_name` when a token has no `.` in its first
nine bytes, and behind `target_ext` in the same way. On its own it has two unbounded arrays
(`parseFileCmd`). Its callers have `target_name` right behind `target_ext`, and what they read
afterwards is `parseTarget`.
-/

namespace OsyShell

/-! ## Strings -/

/-- The characters the shell tests for: `' '`, `'.'` and `'/'`. -/
abbrev space : UInt8 := 32
abbrev dot : UInt8 := 46
abbrev slash : UInt8 := 47

/-- The bytes of a string literal. -/
def text (s : String) : List UInt8 := s.toList.map fun c => UInt8.ofNat c.toNat

/-- The string an array holds: its bytes before the first NUL. -/
def cString (s : List UInt8) : List UInt8 := s.takeWhile (· ≠ 0)

/-- `strcmp`, over arrays of signed characters. The end of a list stands for its NUL. -/
def strcmp : List UInt8 → List UInt8 → ℤ
  | [], [] => 0
  | a :: _, [] => a.toInt8.toInt
  | [], b :: _ => - b.toInt8.toInt
  | a :: s1, b :: s2 =>
      if a = b then if a = 0 then 0 else strcmp s1 s2
      else a.toInt8.toInt - b.toInt8.toInt

@[simp] theorem cString_nil : cString [] = [] := rfl

theorem cString_cons (a : UInt8) (s : List UInt8) :
    cString (a :: s) = if a = 0 then [] else a :: cString s := by
  by_cases ha : a = 0
  · rw [if_pos ha, cString, List.takeWhile_cons_of_neg (by simpa)]
  · rw [if_neg ha, cString, List.takeWhile_cons_of_pos (by simpa), cString]

theorem toInt8_toInt_inj {a b : UInt8} (h : a.toInt8.toInt = b.toInt8.toInt) : a = b := by
  have h8 : a.toInt8 = b.toInt8 := Int8.toInt_inj.mp h
  rw [← UInt8.toUInt8_toInt8 a, h8, UInt8.toUInt8_toInt8]

theorem toInt8_toInt_eq_zero {a : UInt8} : a.toInt8.toInt = 0 ↔ a = 0 := by
  constructor
  · intro h
    exact toInt8_toInt_inj (h.trans (by decide))
  · rintro rfl
    decide

/-- `strcmp` tells whether two arrays hold the same string. -/
theorem strcmp_eq_zero_iff {s1 s2 : List UInt8} :
    strcmp s1 s2 = 0 ↔ cString s1 = cString s2 := by
  induction s1 generalizing s2 with
  | nil =>
      cases s2 with
      | nil => simp only [strcmp]
      | cons b s2 =>
          rw [strcmp, Int.neg_eq_zero, toInt8_toInt_eq_zero, cString_cons, cString_nil]
          by_cases hb : b = 0 <;> simp [hb]
  | cons a s1 ih =>
      cases s2 with
      | nil =>
          rw [strcmp, toInt8_toInt_eq_zero, cString_cons, cString_nil]
          by_cases ha : a = 0 <;> simp [ha]
      | cons b s2 =>
          rw [strcmp, cString_cons, cString_cons]
          by_cases hab : a = b
          · subst hab
            by_cases ha : a = 0
            · simp only [ha, if_true]
            · rw [if_pos rfl, if_neg ha, if_neg ha, if_neg ha, List.cons_inj_right, ih]
          · have hdiff : ¬ a.toInt8.toInt - b.toInt8.toInt = 0 := by
              intro h
              exact hab (toInt8_toInt_inj (by omega))
            rw [if_neg hab, iff_false_left hdiff]
            -- different first bytes: one of the strings is empty, or both begin with theirs
            by_cases ha : a = 0
            · have hb : b ≠ 0 := fun hb => hab (ha.trans hb.symm)
              rw [if_pos ha, if_neg hb]
              exact (List.cons_ne_nil _ _).symm
            · rw [if_neg ha]
              by_cases hb : b = 0
              · rw [if_pos hb]
                exact List.cons_ne_nil _ _
              · rw [if_neg hb]
                exact fun h => hab (List.cons.inj h).1

/-- An array without a NUL holds all its bytes. -/
theorem cString_eq_self {s : List UInt8} (h : 0 ∉ s) : cString s = s := by
  refine List.takeWhile_eq_self_iff.mpr ?_
  intro b hb
  simp only [ne_eq, decide_not, Bool.not_eq_eq_eq_not, Bool.not_true, decide_eq_false_iff_not]
  rintro rfl
  exact h hb

/-! ## Trimming -/

/-- `char input[256]`. -/
abbrev Buffer := UInt8 → UInt8

/-- The first loop of `execute_cmd`: a leading space is shifted out. The shift reads one
    byte behind the buffer; with a space there a buffer of spaces is shifted for ever. -/
def trimFront (behind : UInt8) : ℕ → Buffer → Option Buffer
  | 0, _ => none
  | n + 1, input =>
      if input 0 = space then
        trimFront behind n fun i => if i = 255 then behind else input (i + 1)
      else some input

/-- `while (input[k] == '\0') k--`, from `k - 1` on. -/
def lastByte (input : Buffer) : ℕ → Option ℕ
  | 0 => none
  | k + 1 => if input (UInt8.ofNat k) = 0 then lastByte input k else some k

/-- `while (input[k] == ' ')`, from `k - 1` on: trailing spaces are cleared. -/
def trimBack : ℕ → Buffer → Option Buffer
  | 0, _ => none
  | k + 1, input =>
      if input (UInt8.ofNat k) = space then
        trimBack k (Function.update input (UInt8.ofNat k) 0)
      else some input

/-- The loops at the start of `execute_cmd`. -/
def trim (behind : UInt8) (input : Buffer) : Option Buffer := do
  let input ← trimFront behind 257 input
  let k ← lastByte input 256
  trimBack (k + 1) input

/-- The line in the buffer, for loops that stop at its NUL. -/
def lineOf (input : Buffer) : Option (List UInt8) :=
  let bytes := (List.range 256).map fun i => input (UInt8.ofNat i)
  if 0 ∈ bytes then some (cString bytes) else none

/-! ## The accesses of the trimming loops -/

/-- `char* input` with the memory on both sides of the buffer, and the indices of every
    access. -/
structure InputArray where
  bytes : ℤ → UInt8
  accesses : List ℤ

/-- The buffer in memory, before the first access. -/
def InputArray.ofBuffer (around : ℤ → UInt8) (input : Buffer) : InputArray where
  bytes := fun i => if 0 ≤ i ∧ i < 256 then input (UInt8.ofNat i.toNat) else around i
  accesses := []

/-- `input[0]` to `input[255]`. -/
def InputArray.buffer (input : InputArray) : Buffer := fun i => input.bytes i.toNat

/-- `input[i]` is read. -/
def InputArray.touch (input : InputArray) (i : ℤ) : InputArray :=
  { input with accesses := input.accesses ++ [i] }

/-- `input[i] = c`. -/
def InputArray.put (input : InputArray) (i : ℤ) (c : UInt8) : InputArray where
  bytes := Function.update input.bytes i c
  accesses := input.accesses ++ [i]

/-- `input[i] = input[i + 1]`. -/
def InputArray.pull (input : InputArray) (i : ℕ) : InputArray :=
  (input.touch (i + 1)).put i (input.bytes (i + 1))

/-- The first loop, for at most `n` tests of its condition. -/
def shiftSpaces : ℕ → InputArray → Option InputArray
  | 0, _ => none
  | n + 1, input =>
      if input.bytes 0 = space then
        shiftSpaces n ((List.range 256).foldl InputArray.pull (input.touch 0))
      else some (input.touch 0)

/-- `while (input[k] == '\0') k--`, for at most `n` tests. -/
def skipNuls : ℕ → ℤ → InputArray → Option (ℤ × InputArray)
  | 0, _, _ => none
  | n + 1, k, input =>
      if input.bytes k = 0 then skipNuls n (k - 1) (input.touch k) else some (k, input.touch k)

/-- `while (input[k] == ' ') { input[k] = '\0'; k--; }`, for at most `n` tests. -/
def clearSpaces : ℕ → ℤ → InputArray → Option InputArray
  | 0, _, _ => none
  | n + 1, k, input =>
      if input.bytes k = space then clearSpaces n (k - 1) ((input.touch k).put k 0)
      else some (input.touch k)

/-- The three loops, when none of them tests more than `n` times. -/
def trimLoops (n : ℕ) (input : InputArray) : Option InputArray := do
  let input ← shiftSpaces n input
  let (k, input) ← skipNuls n 255 input
  clearSpaces n k input

/-! ## Tokens -/

/-- `char cmd[40][15]`, `cmd_length` and `neff`: the rows that were written, without their NULs.
    The rows behind them are empty. -/
structure TokenTable where
  rows : List (List UInt8)
  cmdLength : ℕ
  neff : ℕ := rows.length

/-- The zeroed table. -/
def TokenTable.empty : TokenTable where
  rows := []
  cmdLength := 0

/-- A row with its NUL goes to `cmd[neff]`, and `neff++`. -/
def TokenTable.write (cmd : TokenTable) (row : List UInt8) : Option TokenTable :=
  if cmd.rows.length < 40 ∧ row.length < 15 then
    some { cmd with rows := cmd.rows ++ [row], neff := cmd.neff + 1 }
  else none

/-- `cmd[i]`. -/
def TokenTable.row (cmd : TokenTable) (i : ℕ) : Option (List UInt8) :=
  if i < 40 then some (cmd.rows.getD i []) else none

/-- `row[j]`, for `j` inside the row. -/
def charAt (row : List UInt8) (j : ℕ) : UInt8 := row.getD j 0

/-- `input[i] != ' ' && input[i] != '/'`. -/
def inWord (c : UInt8) : Bool := c ≠ space ∧ c ≠ slash

/-- `if (input[i] == '/') i++`. -/
def skipSlash : List UInt8 → List UInt8
  | [] => []
  | c :: input => if c = slash then input else c :: input

/-- One round of the tokenizer: a word, and behind a space the row of a space. -/
def tokenRound (input : List UInt8) (cmd : TokenTable) : Option (List UInt8 × TokenTable) := do
  -- between two slashes the word is empty and still takes a row
  let cmd ← cmd.write (input.takeWhile inWord)
  let input := input.dropWhile inWord
  if input.head? = some space then
    let cmd ← cmd.write [space]
    some (skipSlash (input.dropWhile (· = space)), { cmd with cmdLength := cmd.cmdLength + 1 })
  else some (skipSlash input, cmd)

/-- The loop of `execute_cmd` that fills the table. A round takes at least one character. -/
def tokenLoop : ℕ → List UInt8 → TokenTable → Option TokenTable
  | _, [], cmd => some cmd
  | 0, _ :: _, _ => none
  | n + 1, c :: input, cmd => do
      let (input, cmd) ← tokenRound (c :: input) cmd
      tokenLoop n input cmd

/-- The tokens of a line whose components fit the rows. -/
def tokenize (line : List UInt8) : Option TokenTable :=
  tokenLoop line.length line TokenTable.empty

/-! ## The stores of the tokenizer -/

/-- `char cmd[40][15]` as the bytes from its address on, with the indices of every store, and
    the counters. The loops read the line only, so the stores are those of the source up to
    the first one outside the array. -/
structure CmdArray where
  bytes : ℕ → UInt8
  stores : List (ℕ × ℕ)
  neff : ℕ
  cmdLength : ℕ

/-- The array after the loop that zeroes it. -/
def CmdArray.zeroed : CmdArray where
  bytes := fun _ => 0
  stores := []
  neff := 0
  cmdLength := 0

/-- `cmd[i][j] = c`. -/
def CmdArray.put (cmd : CmdArray) (i j : ℕ) (c : UInt8) : CmdArray :=
  { cmd with
    bytes := Function.update cmd.bytes (15 * i + j) c
    stores := cmd.stores ++ [(i, j)] }

/-- The bytes of `cmd[i]`. -/
def CmdArray.row (cmd : CmdArray) (i : ℕ) : List UInt8 :=
  (List.range 15).map fun j => cmd.bytes (15 * i + j)

/-- The inner loop from column `j` on, the NUL behind the word, and `neff++`. -/
def storeWord : List UInt8 → ℕ → CmdArray → List UInt8 × CmdArray
  | [], j, cmd => ([], { cmd.put cmd.neff j 0 with neff := cmd.neff + 1 })
  | c :: input, j, cmd =>
      if inWord c then storeWord input (j + 1) (cmd.put cmd.neff j c)
      else (c :: input, { cmd.put cmd.neff j 0 with neff := cmd.neff + 1 })

/-- One round of the loop. -/
def storeRound (input : List UInt8) (cmd : CmdArray) : List UInt8 × CmdArray :=
  let (input, cmd) := storeWord input 0 cmd
  if input.head? = some space then
    (skipSlash (input.dropWhile (· = space)),
      { cmd.put cmd.neff 0 space with
        neff := cmd.neff + 1
        cmdLength := cmd.cmdLength + 1 })
  else (skipSlash input, cmd)

/-- The loop, for as many rounds as there are characters. -/
def storeLoop : ℕ → List UInt8 → CmdArray → Option CmdArray
  | _, [], cmd => some cmd
  | 0, _ :: _, _ => none
  | n + 1, c :: input, cmd =>
      let (input, cmd) := storeRound (c :: input) cmd
      storeLoop n input cmd

/-- The array that the tokenizer leaves of a line. -/
def storeTokens (line : List UInt8) : Option CmdArray :=
  storeLoop line.length line CmdArray.zeroed

/-- `cmd` as the branches read it: from the first byte of a row on, up to the end of the array. A
    component of 15 characters or more runs into the next row. -/
def CmdArray.table (cmd : CmdArray) : TokenTable where
  rows := (List.range 40).map fun i =>
    (List.range (15 * (40 - i))).map fun j => cmd.bytes (15 * i + j)
  cmdLength := cmd.cmdLength
  neff := cmd.neff

/-- `cmd`, `cmd_length` and `neff` behind the loop of `execute_cmd`. A store behind the last row
    changes other locals. -/
def commandTable (line : List UInt8) : Option TokenTable :=
  match tokenize line with
  | some cmd => some cmd
  | none => (storeTokens line).bind fun cmd =>
      if ∀ s ∈ cmd.stores, 15 * s.1 + s.2 < 600 then some cmd.table else none

/-! ## File names -/

/-- What `parse_file_cmd` stores through its two pointers, and whether it printed that the
    name or the extension is too long. -/
structure ParsedFile where
  targetName : ℕ → UInt8
  targetExt : ℕ → UInt8
  nameTooLong : Bool
  extTooLong : Bool

/-- The loop of `parse_file_cmd`, with `n` bytes of the token left from `idx` on. -/
def parseLoop (file : ℕ → UInt8) : ℕ → ℕ → Bool → ℕ → ℕ → ParsedFile → ParsedFile
  | 0, _, _, _, _, p => p
  | n + 1, idx, extFound, idxName, idxExt, p =>
      -- every dot is skipped, and the first one ends the name
      if file idx = dot then parseLoop file n (idx + 1) true idxName idxExt p
      else if extFound = false then
        if idxName = 8 ∧ file idx ≠ 0 then { p with nameTooLong := true }
        else
          parseLoop file n (idx + 1) extFound (idxName + 1) idxExt
            { p with targetName := Function.update p.targetName idxName (file idx) }
      else
        if idxExt = 4 ∧ file idx ≠ 0 then { p with extTooLong := true }
        else
          parseLoop file n (idx + 1) extFound idxName (idxExt + 1)
            { p with targetExt := Function.update p.targetExt idxExt (file idx) }

/-- `parse_file_cmd`. -/
def parseFileCmd (file : ℕ → UInt8) : ParsedFile :=
  parseLoop file 12 0 false 0 0
    { targetName := fun _ => 0
      targetExt := fun _ => 0
      nameTooLong := false
      extTooLong := false }

/-- The indices at which the loop stores through its two pointers. -/
def parseStores (file : ℕ → UInt8) : ℕ → ℕ → Bool → ℕ → ℕ → List ℕ × List ℕ
  | 0, _, _, _, _ => ([], [])
  | n + 1, idx, extFound, idxName, idxExt =>
      if file idx = dot then parseStores file n (idx + 1) true idxName idxExt
      else if extFound = false then
        if idxName = 8 ∧ file idx ≠ 0 then ([], [])
        else
          let (names, exts) := parseStores file n (idx + 1) extFound (idxName + 1) idxExt
          (idxName :: names, exts)
      else
        if idxExt = 4 ∧ file idx ≠ 0 then ([], [])
        else
          let (names, exts) := parseStores file n (idx + 1) extFound idxName (idxExt + 1)
          (names, idxExt :: exts)

/-- `char target_name[9]` after the call. -/
def ParsedFile.name (p : ParsedFile) : List UInt8 := (List.range 9).map p.targetName

/-- `char target_ext[4]` after the call. -/
def ParsedFile.ext (p : ParsedFile) : List UInt8 := (List.range 4).map p.targetExt

/-! ## The arrays of a caller -/

/-- The bytes from the address of `target_ext` on, in the frame of a caller: `target_ext[4]` and
    right behind it `target_name[9]`. In every function that calls `parse_file_cmd` the compiler
    of `bin/shell` has put the two arrays next to each other in this order, and `file` behind
    them. -/
structure TargetArrays where
  bytes : ℕ → UInt8
  nameTooLong : Bool
  extTooLong : Bool

/-- The loop of `parse_file_cmd` on these bytes: `target_name[j]` is byte `4 + j`, and
    `target_ext[4 + j]` is the same one. A byte of `file` is stored to after it was read. -/
def parseLoopInPlace (file : ℕ → UInt8) :
    ℕ → ℕ → Bool → ℕ → ℕ → TargetArrays → TargetArrays
  | 0, _, _, _, _, a => a
  | n + 1, idx, extFound, idxName, idxExt, a =>
      if file idx = dot then parseLoopInPlace file n (idx + 1) true idxName idxExt a
      else if extFound = false then
        if idxName = 8 ∧ file idx ≠ 0 then { a with nameTooLong := true }
        else
          parseLoopInPlace file n (idx + 1) extFound (idxName + 1) idxExt
            { a with bytes := Function.update a.bytes (4 + idxName) (file idx) }
      else
        if idxExt = 4 ∧ file idx ≠ 0 then { a with extTooLong := true }
        else
          parseLoopInPlace file n (idx + 1) extFound idxName (idxExt + 1)
            { a with bytes := Function.update a.bytes idxExt (file idx) }

/-- The two arrays as a caller of `parse_file_cmd` finds them. -/
def parseTarget (file : ℕ → UInt8) : ParsedFile :=
  let a := parseLoopInPlace file 12 0 false 0 0
    { bytes := fun _ => 0
      nameTooLong := false
      extTooLong := false }
  { targetName := fun j => a.bytes (4 + j)
    targetExt := fun j => if j < 4 then a.bytes j else 0
    nameTooLong := a.nameTooLong
    extTooLong := a.extTooLong }

/-- `target_ext` as the argument of `strcmp`, which reads on into `target_name` when there is no
    NUL in it. -/
def ParsedFile.extString (p : ParsedFile) : List UInt8 := p.ext ++ p.name

end OsyShell
