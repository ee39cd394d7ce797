import Osyikkk.CommandOutcomes
import Osyikkk.ReadingCommands

/-!
# `execute_cmd` and the loop of `main`

The whole chain of comparisons of `execute_cmd`: the branches of `ShellCommands` and
`ReadingCommands`, `clear`, `help`, `ls`, `echo` and the message for any other word. `main`
prints the prompt and executes one line after another.

The screen begins anew with every `clear`, so the shell is kept with the pages that were
cleared.
-/

namespace OsyShell

open OsyDisk OsyFat32 OsyVolume PartialRun

abbrev darkRed : UInt8 := 0x4

/-! ## State -/

/-- The shell, and what was on the screen before each time it was cleared. -/
structure UserShell where
  shell : Shell
  pages : List (List Display)

/-- A line that was read into `buf`, with what is behind the buffer and what the locals of
    the command hold before they are set: those of `Locals`, `current_table` of
    `list_current_directory` and `req_table` of every call of `where_is`. -/
structure Line where
  input : Buffer
  behind : UInt8
  locals : Locals
  listed : FAT32DirectoryTable
  reqTable : List SearchLevel → FAT32DirectoryTable

/-! ## The commands -/

/-- What `execute_cmd` does with a first word. -/
inductive Command where
  | clear
  | help
  | ls
  | whereis
  | echo
  | branch (b : Branch)
  | notFound
  deriving DecidableEq

/-- The comparisons, in their order: `"clear"`, `"help"`, `"cd"`, `"ls"`, `"mkdir"`, `"cat"`,
    `"cp"`, `"mv"`, `"whereis"`, `"echo"`, `"rm"`. -/
def commandWords : List (List UInt8 × Command) :=
  [([99, 108, 101, 97, 114], .clear),
    ([104, 101, 108, 112], .help),
    (Branch.cd.word, .branch .cd),
    ([108, 115], .ls),
    (Branch.mkdir.word, .branch .mkdir),
    (Branch.cat.word, .branch .cat),
    (Branch.cp.word, .branch .cp),
    (Branch.mv.word, .branch .mv),
    ([119, 104, 101, 114, 101, 105, 115], .whereis),
    ([101, 99, 104, 111], .echo),
    (Branch.rm.word, .branch .rm)]

/-- The first comparison that succeeds. -/
def commandFor (row : List UInt8) : Command :=
  ((commandWords.find? fun w => strcmp row w.1 = 0).map Prod.snd).getD .notFound

/-- The lines of `help`. -/
def helpTexts : List Display :=
  [.writeString (text "Available commands:\n") white,
    .writeString (text "clear - Clear the screen\n") white,
    .writeString (text "help - List of available commands\n") white,
    .writeString (text "ls - List all files and directories\n") white,
    .writeString (text "cat <filename> - Print file content\n") white,
    .writeString (text "rm <filename> - Remove file\n") white,
    .writeString (text "mkdir <dirname> - Create directory\n") white,
    .writeString (text "cd <dirname> - Change directory\n") white,
    .writeString (text "cp <filename> <dirname> - Copy file\n") white,
    .writeString (text "mv <filename/dirname> <dirname> - Move file\n") white,
    .writeString (text "echo <string> - Print string\n") white]

/-- The branch for `help`. -/
def executeHelp (cmd : TokenTable) (s : Shell) : BranchEnd :=
  if cmd.cmdLength > 0 then .returned (s.print (text "help: too many arguments") white)
  else .finished { s with screen := s.screen ++ helpTexts }

/-- The branch for `ls`. -/
def executeLs (listed : FAT32DirectoryTable) (cmd : TokenTable) (s : Shell) : Option BranchEnd :=
  if cmd.cmdLength > 0 then
    some (.finished (s.print (text "ls: too many arguments\n") white))
  else (listCurrentDirectory listed s).map .finished

/-- The branch for `echo`, which prints the row behind the first space. -/
def executeEcho (cmd : TokenTable) (s : Shell) : Option BranchEnd :=
  (cmd.row 2).map fun row => .finished (s.print (cString row) white)

/-- The last branch. -/
def commandNotFound (input : List UInt8) (s : Shell) : BranchEnd :=
  .finished ((s.print (text "\nCommand not found: ") darkRed).print input darkRed)

/-- The statements of a branch. `clear` is taken before the line break that all others
    print. -/
def Command.execute (l : Line) (input : List UInt8) (cmd : TokenTable) (s : Shell) :
    Command → Option BranchEnd
  | .clear => none
  | .help => some (executeHelp cmd s)
  | .ls => executeLs l.listed cmd s
  | .whereis => executeWhereis l.reqTable l.locals cmd s
  | .echo => executeEcho cmd s
  | .branch b => b.execute l.locals cmd s
  | .notFound => some (commandNotFound input s)

/-- `clear_screen` of the shell. -/
def clearScreen (s : UserShell) : Option UserShell :=
  (printHome { s.shell with screen := [.setCursor 0 0] }).map fun shell =>
    { shell := shell, pages := s.pages ++ [s.shell.screen] }

/-- The command of a line, its trimmed text and its tokens. -/
def Line.tokens (l : Line) : Option (Command × List UInt8 × TokenTable) := do
  let input ← trim l.behind l.input
  let input ← lineOf input
  let cmd ← commandTable input
  let row ← cmd.row 0
  some (commandFor row, input, cmd)

/-- `execute_cmd`. -/
def executeLine (s : UserShell) (l : Line) : Option UserShell := do
  let (command, input, cmd) ← l.tokens
  if command = .clear then
    if cmd.cmdLength > 0 then
      some { s with shell := s.shell.print (text "clear: too many arguments") white }
    else clearScreen s
  else
    let done ← command.execute l input cmd (s.shell.print (text "\n") white)
    let shell ← done.finish
    some { s with shell := shell }

/-- `main`, for the lines that are read. -/
def userMain (fs : FileSystem) (lines : List Line) : Option UserShell := do
  let shell ← printHome (startShell fs)
  run executeLine { shell := shell, pages := [] } lines

/-! ## The branches of `ShellCommands` -/

/-- The chain sees of a row the string it holds. -/
theorem commandFor_congr {row row' : List UInt8} (h : cString row = cString row') :
    commandFor row = commandFor row' := by
  have hsame : (fun w : List UInt8 × Command => decide (strcmp row w.1 = 0))
      = fun w => decide (strcmp row' w.1 = 0) := by
    funext w
    rw [decide_eq_decide, strcmp_eq_zero_iff, strcmp_eq_zero_iff, h]
  rw [commandFor, commandFor, hsame]

theorem commandFor_branch {row : List UInt8} {b : Branch} (h : branchOf row = some b) :
    commandFor row = .branch b := by
  have hstr := List.find?_some h
  rw [decide_eq_true_eq] at hstr
  rw [commandFor_congr (strcmp_eq_zero_iff.mp hstr)]
  cases b <;> decide

/-- The tokens of a line of one of the six branches. -/
theorem tokens_of_branch {l : Line} {b : Branch} {cmd : TokenTable}
    (h : commandOf l.behind l.input = some (b, cmd)) :
    ∃ line, l.tokens = some (.branch b, line, cmd) := by
  simp only [commandOf, Option.bind_eq_bind, Option.bind_eq_some_iff] at h
  obtain ⟨input, htrim, line, hline, cmd', htokens, row, hrow, b', hb, hpair⟩ := h
  obtain ⟨rfl, rfl⟩ := Prod.mk.inj (Option.some.inj hpair)
  refine ⟨line, ?_⟩
  simp only [Line.tokens, htrim, hline, htokens, hrow, Option.bind_eq_bind, Option.bind_some,
    commandFor_branch hb]

/-- A line of one of the six branches is executed as there. -/
theorem executeLine_branch {l : Line} {b : Branch} {cmd : TokenTable}
    (h : commandOf l.behind l.input = some (b, cmd)) (s : UserShell) :
    executeLine s l = (executeCmd l.locals l.behind l.input s.shell).map fun shell =>
      { s with shell := shell } := by
  obtain ⟨line, htokens⟩ := tokens_of_branch h
  rw [executeCmd_eq, h, Option.bind_some, executeLine, htokens]
  show ((Branch.execute _ _ _ b).bind fun done => done.finish.bind fun shell => some _) = _
  cases b.execute l.locals cmd (s.shell.print (text "\n") white) with
  | none => rfl
  | some done =>
      show (done.finish.bind fun shell => some _) = done.finish.map _
      cases done.finish <;> rfl

end OsyShell
