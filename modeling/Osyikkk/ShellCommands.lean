import Osyikkk.DriverRuns
import Osyikkk.ShellTokens

/-!
# The commands of `user-shell.c`

The directory stack, `change_directory`, `remove`, `copy_file`, `copy_folder` and the branches
of `execute_cmd` for `cd`, `mkdir`, `cat`, `cp`, `mv` and `rm`, over the stack, the mounted
file system and what was sent to the screen. `none` is an access outside an array, a loop
that never ends, a call without room on the stack of the process, or a system call without
an outcome.

The stack's arrays have 256 entries and a length of type `uint8_t`, so they are functions of
a byte; the one index the source can leave them with is `DIR_STACK_LENGTH - 1` at length 0
and the index of the loop that clears entries after a command.
-/

namespace OsyShell

open OsyDisk OsyFat32 OsyVolume PartialRun

/-! ## State -/

/-- The calls that change the screen: `syscall` with `eax` 5 and 6. -/
inductive Display where
  | writeString (str : List UInt8) (textColor : UInt8)
  | setCursor (rows col : UInt32)
  deriving DecidableEq

abbrev darkGreen : UInt8 := 0x2
abbrev blue : UInt8 := 0x09
abbrev white : UInt8 := 0x0F

/-- `DIR_NUMBER_STACK`, `DIR_NAME_STACK` and `DIR_STACK_LENGTH`. -/
structure DirStack where
  number : UInt8 → UInt32
  name : UInt8 → Fin 9 → UInt8
  length : UInt8

/-- The stack the shell starts with. -/
def DirStack.initial : DirStack where
  number := fun i => if i = 0 then 2 else 0
  name := fun i j => if i = 0 then [82, 79, 79, 84].getD j 0 else 0
  length := 1

/-- The index `DIR_STACK_LENGTH - 1`. -/
def DirStack.top (st : DirStack) : Option UInt8 :=
  if st.length = 0 then none else some (st.length - 1)

/-- The stores of `change_directory` for a directory that was found. -/
def DirStack.push (st : DirStack) (name : EntryName) (number : UInt32) : DirStack where
  number := Function.update st.number st.length number
  name := Function.update st.name st.length fun j => if h : j.val < 8 then name ⟨j, h⟩ else 0
  length := st.length + 1

/-- The shell: its stack, the file system behind the system calls, and the screen calls so
    far, first one first. -/
structure Shell where
  stack : DirStack
  fs : FileSystem
  screen : List Display

/-- `syscall_user(5, str, …, textColor)`. -/
def Shell.print (s : Shell) (str : List UInt8) (textColor : UInt8) : Shell :=
  { s with screen := s.screen ++ [.writeString str textColor] }

/-- The locals that are read before they are set: `new_table` of `write`, `current_table` of
    `cat`, `cl` of `cat` and `copy_file`, what follows `full_name_2` of `mv`, `parent_table`
    and `filesize` of `cp`, and the two tables of `copy_folder`. `callDepth` is the number of
    nested calls of `copy_folder` the process has room for. -/
structure Locals where
  newTable : FAT32DirectoryTable
  currentTable : FAT32DirectoryTable
  cl : Memory
  behindFullName : ℕ → UInt8
  parentTable : FAT32DirectoryTable
  filesize : UInt32
  reqTable : FAT32DirectoryTable
  copiedTable : FAT32DirectoryTable
  callDepth : ℕ

/-- `read_directory` into a local table. -/
def readDirectoryTable (name : EntryName) (parent : UInt32) (table : FAT32DirectoryTable)
    (fs : FileSystem) : Int8 × FAT32DirectoryTable :=
  let (retcode, buf) := readDirectory
    { buf := tableToMemory table
      name := name
      ext := fun _ => 0
      parentClusterNumber := parent
      bufferSize := 0 } fs
  (retcode, tableOfMemory buf)

/-- The eight bytes of a name on the stack that go into a request. -/
def requestName (name : Fin 9 → UInt8) : EntryName := fun j => name (j.castLE (by decide))

/-- The table of the current directory, which is looked up by its name in the directory
    below it on the stack. -/
def readCurrentTable (table : FAT32DirectoryTable) (s : Shell) :
    Option (Int8 × FAT32DirectoryTable) := do
  let top ← s.stack.top
  let parent := if s.stack.length ≤ 1 then rootClusterNumber else s.stack.number (top - 1)
  some (readDirectoryTable (requestName (s.stack.name top)) parent table s.fs)

/-- A local table whose prior contents is not read. -/
def unreadTable : FAT32DirectoryTable := fun _ => FAT32DirectoryEntry.zero

/-! ## `change_directory` -/

/-- `"INVALID DIRECTORY\n"`. -/
def invalidDirectory : Display := .writeString (text "INVALID DIRECTORY\n") darkGreen

/-- The first eight bytes of a row. -/
def rowName (row : List UInt8) : EntryName := fun j => charAt row j

/-- `change_directory`. -/
def changeDirectory (newDir : List UInt8) (s : Shell) : Option Shell := do
  let top ← s.stack.top
  if strcmp newDir [dot, dot] = 0 then
    -- the lowest level is never left
    if s.stack.length ≤ 1 then some s
    else some { s with stack := { s.stack with length := s.stack.length - 1 } }
  else if strcmp newDir [dot] = 0 then some s
  else
    let (retcode, reqTable) :=
      readDirectoryTable (rowName newDir) (s.stack.number top) unreadTable s.fs
    -- nothing tells the caller that the lookup failed
    if retcode ≠ 0 then some { s with screen := s.screen ++ [invalidDirectory] }
    else some { s with stack := s.stack.push (rowName newDir) (reqTable 0).cluster }

/-- The body of the path loops: a row that starts with a dot is taken for `".."` when its
    second character is a dot, and for `"."` otherwise. -/
def changeToRow (row : List UInt8) (s : Shell) : Option Shell :=
  if charAt row 0 = dot then
    if charAt row 1 = dot then changeDirectory [dot, dot] s else changeDirectory [dot] s
  else changeDirectory row s

/-- `cmd[i][0]`. -/
def TokenTable.first (cmd : TokenTable) (i : ℕ) : Option UInt8 :=
  (cmd.row i).map fun row => charAt row 0

/-- The path loops of `execute_cmd`, which differ in their test: the directory changes to
    row after row while it holds. A test reads a row at or behind the counter, so the rounds
    are bounded by the rows. -/
def pathLoop (cmd : TokenTable) (test : ℕ → Option Bool) :
    ℕ → ℕ → Shell → Option (ℕ × Shell)
  | 0, _, _ => none
  | n + 1, counterCD, s => do
      if ← test counterCD then
        let row ← cmd.row counterCD
        let s ← changeToRow row s
        pathLoop cmd test n (counterCD + 1) s
      else some (counterCD, s)

/-- `cmd[i][0] != '\0'`. -/
def rowUsed (cmd : TokenTable) (i : ℕ) : Option Bool := (cmd.first i).map (· ≠ 0)

/-- `cmd[i][0] != ' '`. -/
def rowNotSpace (cmd : TokenTable) (i : ℕ) : Option Bool := (cmd.first i).map (· ≠ space)

/-- `cmd[i][0] != '\0' && cmd[i][0] != ' '`. -/
def rowWord (cmd : TokenTable) (i : ℕ) : Option Bool :=
  (cmd.first i).map fun c => c ≠ 0 ∧ c ≠ space

/-- `if (cmd[3][0] != '\0')` and a path loop from row `from` on. -/
def pathLoopIf (cmd : TokenTable) (test : ℕ → Option Bool) (counterCD start : ℕ) (s : Shell) :
    Option (ℕ × Shell) := do
  if ← rowUsed cmd 3 then pathLoop cmd test 41 start s else some (counterCD, s)

/-- The copies a command makes of the stack before it walks: the entries up to and with
    index `DIR_STACK_LENGTH`. -/
def saveStack (st : DirStack) : DirStack where
  number := fun i =>
    if i.toNat < st.length.toNat + 1 then st.number i else DirStack.initial.number i
  name := fun i =>
    if i.toNat < st.length.toNat + 1 then st.name i else DirStack.initial.name i
  length := st.length

/-- "change to previous stack": the saved entries come back and `counterCD` entries behind
    them are cleared. -/
def restoreStack (saved : DirStack) (counterCD : ℕ) (st : DirStack) : Option DirStack :=
  if saved.length.toNat + counterCD ≤ 256 then
    some
      { number := fun i =>
          if i < saved.length then saved.number i
          else if i.toNat < saved.length.toNat + counterCD then 0 else st.number i
        name := fun i =>
          if i < saved.length then saved.name i
          else if i.toNat < saved.length.toNat + counterCD then fun _ => 0 else st.name i
        length := saved.length }
  else none

/-- `restoreStack` on the shell. -/
def Shell.restore (s : Shell) (saved : DirStack) (counterCD : ℕ) : Option Shell :=
  (restoreStack saved counterCD s.stack).map fun stack => { s with stack := stack }

/-- How a branch of `execute_cmd` ends: by `return`, or at the end of the branch. -/
inductive BranchEnd where
  | returned (s : Shell)
  | finished (s : Shell)

/-! ## `cd` -/

/-- The branch for `cd`. -/
def executeCd (cmd : TokenTable) (s : Shell) : Option BranchEnd :=
  if cmd.cmdLength > 1 then some (.returned (s.print (text "cd: too many arguments") white))
  else do
    -- `cd` alone goes back to the root
    let s :=
      if ← rowUsed cmd 1 then s else { s with stack := { s.stack with length := 1 } }
    let (_, s) ← pathLoop cmd (rowUsed cmd) 41 2 s
    some (.finished s)

/-! ## `mkdir` -/

/-- The branch for `mkdir`. -/
def executeMkdir (locals : Locals) (cmd : TokenTable) (s : Shell) : Option BranchEnd :=
  if cmd.cmdLength = 0 then some (.finished (s.print (text "mkdir: missing operand\n") white))
  else if cmd.cmdLength > 1 then
    some (.finished (s.print (text "mkdir: too many arguments\n") white))
  else do
    let saved := saveStack s.stack
    let (counterCD, s) ← pathLoopIf cmd (fun i => rowUsed cmd (i + 1)) 2 2 s
    let top ← s.stack.top
    let row ← cmd.row counterCD
    let (retcode, fs) ← write locals.newTable
      { buf := fun _ => 0
        name := rowName row
        ext := fun _ => 0
        parentClusterNumber := s.stack.number top
        bufferSize := 0 } s.fs
    let s := { s with fs := fs }
    -- the message is the same for every failure of the call
    let s := if retcode ≠ 0 then s.print (text "INVALID DIRECTORY") darkGreen else s
    let s ← s.restore saved counterCD
    some (.finished s)

/-! ## Matching entries -/

/-- `ext[0] == '\0'`. -/
def noExt (e : FAT32DirectoryEntry) : Prop := e.ext 0 = 0

instance (e : FAT32DirectoryEntry) : Decidable (noExt e) := inferInstanceAs (Decidable (_ = _))

/-- `ext_name` of `remove` and `mv`. -/
def extName (e : FAT32DirectoryEntry) : EntryExt := if ¬ noExt e then e.ext else fun _ => 0

/-- The test of `remove` and `mv`: the slot is used, its name is the target's, and so is the
    extension of a file. -/
def isTarget (name ext : List UInt8) (e : FAT32DirectoryEntry) : Prop :=
  e.userAttribute = uattrNotEmpty ∧ strcmp (List.ofFn e.name) name = 0 ∧
    (e.attr = attrArchive → strcmp (List.ofFn (extName e)) ext = 0)

instance (name ext : List UInt8) (e : FAT32DirectoryEntry) : Decidable (isTarget name ext e) :=
  inferInstanceAs (Decidable (_ ∧ _ ∧ (_ → _)))

/-- The two messages of `parse_file_cmd`. -/
def Shell.printParsed (s : Shell) (p : ParsedFile) : Shell :=
  let s :=
    if p.nameTooLong then s.print (text "File/dir name too long (max 8)") darkGreen else s
  if p.extTooLong then s.print (text "File extension too long (max 3)") darkGreen else s

/-! ## `rm` -/

/-- `remove`. -/
def remove (targetFilename targetExtension : List UInt8) (s : Shell) : Option Shell := do
  let (retcode, currentTable) ← readCurrentTable unreadTable s
  if retcode ≠ 0 then some (s.print (text "SHELL ERROR\n") darkGreen)
  else
    match (slotsFrom 1).find? fun i =>
      isTarget targetFilename targetExtension (currentTable i) with
    | none => some s
    | some i =>
        let top ← s.stack.top
        let entry := currentTable i
        -- the entry is looked up again, by its name and extension
        let (retcodeDelete, fs) ← delete
          { buf := fun _ => 0
            name := entry.name
            ext := if entry.attr = attrArchive then extName entry else fun _ => 0
            parentClusterNumber := s.stack.number top
            bufferSize := 0 } s.fs
        let s := { s with fs := fs }
        if entry.attr ≠ attrArchive ∧ retcodeDelete = 2 then
          some (s.print (text "rm: Cannot delete filled directory.\n") white)
        else some s

/-- The branch for `rm`. -/
def executeRm (cmd : TokenTable) (s : Shell) : Option BranchEnd :=
  if cmd.cmdLength = 0 then
    some (.finished (s.print (text "rm: missing file operand\n") white))
  else if cmd.cmdLength > 1 then
    some (.finished (s.print (text "rm: too many arguments\n") white))
  else do
    let saved := saveStack s.stack
    let (counterCD, s) ← pathLoopIf cmd (fun i => rowUsed cmd (i + 1)) 2 2 s
    let row ← cmd.row counterCD
    let parsed := parseTarget (charAt row)
    let s ← remove parsed.name parsed.extString (s.printParsed parsed)
    let s ← s.restore saved counterCD
    some (.finished s)

/-! ## `cat` -/

/-- The clusters of a file as `cat` prints them. -/
def clusterTexts (buf : Memory) (count : ℕ) : List Display :=
  (List.range count).map fun j =>
    .writeString (cString ((List.range clusterSize).map (buf.offset (clusterSize * j)))) white

/-- The loop of `cat` over the table: the first slot with the name is read with the
    extension of the token. -/
def catLoop (locals : Locals) (row : List UInt8) (parsed : ParsedFile)
    (currentTable : FAT32DirectoryTable) (s : Shell) : Option Shell :=
  match (slotsFrom 1).find? fun i =>
    strcmp (List.ofFn (currentTable i).name) parsed.name = 0 with
  | none => some s
  | some i => do
      let top ← s.stack.top
      let size := (currentTable i).filesize
      let (retcode, buf) ← read
        { buf := locals.cl
          name := rowName row
          ext := fun j => parsed.targetExt j
          parentClusterNumber := s.stack.number top
          bufferSize := size } s.fs
      if retcode ≠ 0 then
        some (s.print (text "cat:  : No such file or directory\n") white)
      else some { s with screen := s.screen ++ clusterTexts buf (size / 2048).toNat }

/-- The branch for `cat`. The return code of `read_directory` is not looked at. -/
def executeCat (locals : Locals) (cmd : TokenTable) (s : Shell) : Option BranchEnd :=
  if cmd.cmdLength = 0 then some (.finished (s.print (text "cat: missing operand\n") white))
  else if cmd.cmdLength > 1 then
    some (.finished (s.print (text "cat: too many arguments\n") white))
  else do
    if ← rowUsed cmd 2 then
      let saved := saveStack s.stack
      let (counterCD, s) ← pathLoopIf cmd (fun i => rowUsed cmd (i + 1)) 2 2 s
      let row ← cmd.row counterCD
      let parsed := parseTarget (charAt row)
      let s := s.printParsed parsed
      -- without a table the loop reads what the local held before
      let (_, currentTable) ← readCurrentTable locals.currentTable s
      let s ← catLoop locals row parsed currentTable s
      let s ← s.restore saved counterCD
      some (.finished s)
    else some (.finished (s.print (text "cat: missing operand\n") white))

/-! ## `cp` -/

/-- `copy_file`. A buffer of too few clusters is written behind, as in `cat`. -/
def copyFile (locals : Locals) (name : EntryName) (ext : EntryExt)
    (size parentCluster destCluster : UInt32) (s : Shell) : Option Shell := do
  let request : FAT32DriverRequest :=
    { buf := locals.cl
      name := name
      ext := ext
      parentClusterNumber := parentCluster
      bufferSize := size }
  let (retcode, buf) ← read request s.fs
  if retcode ≠ 0 then some (s.print (text "cp : No such file or directory\n") darkGreen)
  else
    let (retcode, fs) ← write locals.newTable
      { request with buf := buf, parentClusterNumber := destCluster } s.fs
    let s := { s with fs := fs }
    if retcode ≠ 0 then some (s.print (text "cp : Fail to copy file\n") darkGreen) else some s

/-- A round of the loop of `copy_folder`, which calls `copyDirectory` for a directory. -/
def copySlot (locals : Locals) (copyDirectory : EntryName → UInt32 → UInt32 → Shell → Option Shell)
    (reqTable newTable : FAT32DirectoryTable) (s : Shell) (i : Fin directoryEntryCount) :
    Option Shell :=
  let entry := reqTable i
  let currCluster := (reqTable 0).cluster
  let newDest := (newTable 0).cluster
  if entry.userAttribute = uattrNotEmpty then
    if entry.attr ≠ attrArchive then copyDirectory entry.name currCluster newDest s
    else copyFile locals entry.name entry.ext entry.filesize currCluster newDest s
  else some s

/-- `copy_folder`, with room for `depth` nested calls. -/
def copyFolder (locals : Locals) : ℕ → EntryName → UInt32 → UInt32 → Shell → Option Shell
  | 0, _, _, _, _ => none
  | depth + 1, name, parentCluster, destCluster, s => do
      let (retcode, reqTable) := readDirectoryTable name parentCluster locals.reqTable s.fs
      -- the directory is made also when there is none to copy
      let s := if retcode ≠ 0 then s.print (text "SHELL ERROR\n") darkGreen else s
      let (retcode, fs) ← write locals.newTable
        { buf := tableToMemory reqTable
          name := name
          ext := fun _ => 0
          parentClusterNumber := destCluster
          bufferSize := 0 } s.fs
      let s := { s with fs := fs }
      if retcode ≠ 0 then some (s.print (text "cp : Fail to copy folder\n") darkGreen)
      else
        let (_, newTable) := readDirectoryTable name destCluster locals.copiedTable s.fs
        run (copySlot locals (copyFolder locals depth) reqTable newTable) s (slotsFrom 1)

/-- `filesize` of `cp`, which is set for a folder only and read for a file only. -/
def cpFilesize (locals : Locals) (parsed : ParsedFile) (parentTable : FAT32DirectoryTable) :
    UInt32 :=
  if parsed.targetExt 0 = 0 then
    (((slotsFrom 1).find? fun i =>
      strcmp (List.ofFn (parentTable i).name) parsed.name = 0).map fun i =>
        (parentTable i).filesize).getD locals.filesize
  else locals.filesize

/-- The second half of `cp`, from the restored stack on: the walk to the destination and the
    copy. -/
def copyToDestination (locals : Locals) (cmd : TokenTable) (parsed : ParsedFile)
    (filesize parentCluster : UInt32) (counterCD : ℕ) (s : Shell) : Option BranchEnd := do
  let saved := saveStack s.stack
  let (counterCD, s) ← pathLoopIf cmd (rowWord cmd) counterCD (counterCD + 2) s
  let row ← cmd.row (counterCD - 1)
  let s := (s.print (text "\n") white).print (cString ((List.range 12).map (charAt row))) white
  let top ← s.stack.top
  let destCluster := s.stack.number top
  let fileName : EntryName := fun j => parsed.targetName j
  let s ←
    if parsed.targetExt 0 ≠ 0 then
      copyFile locals fileName (fun j => parsed.targetExt j) filesize parentCluster destCluster s
    else copyFolder locals locals.callDepth fileName parentCluster destCluster s
  let s ← s.restore saved counterCD
  some (.finished s)

/-- The branch for `cp`. Nothing counts its arguments. -/
def executeCp (locals : Locals) (cmd : TokenTable) (s : Shell) : Option BranchEnd := do
  let saved := saveStack s.stack
  let (counterCD, s) ← pathLoopIf cmd (fun i => rowNotSpace cmd (i + 1)) 2 2 s
  let row ← cmd.row counterCD
  let s := s.print (cString ((List.range 12).map (charAt row))) white
  let parsed := parseTarget (charAt row)
  let s := s.printParsed parsed
  let (retcode, parentTable) ← readCurrentTable locals.parentTable s
  let s := if retcode ≠ 0 then { s with screen := s.screen ++ [invalidDirectory] } else s
  let top ← s.stack.top
  let parentCluster := s.stack.number top
  let s ← s.restore saved counterCD
  copyToDestination locals cmd parsed (cpFilesize locals parsed parentTable) parentCluster
    counterCD s

/-! ## `mv` -/

/-- `src_idx` after the loop of `mv`: the last slot that is the target. -/
def sourceIndex (parsed : ParsedFile) (srcTable : FAT32DirectoryTable) :
    Option (Fin directoryEntryCount) :=
  (slotsFrom 1).reverse.find? fun i => isTarget parsed.name parsed.extString (srcTable i)

/-- The second half of `mv`, from the restored stack on: the destination is looked up and
    the entry is moved. -/
def moveToDestination (locals : Locals) (cmd : TokenTable) (srcTable : FAT32DirectoryTable)
    (srcIdx : UInt32) (counterCD : ℕ) (s : Shell) : Option BranchEnd := do
  let saved := saveStack s.stack
  let (counterCD, s) ← pathLoopIf cmd (rowWord cmd) counterCD (counterCD + 2) s
  let top ← s.stack.top
  let fullName2 := List.ofFn (requestName (s.stack.name top))
  let s := (s.print (text "\n") white).print (cString fullName2) white
  let s := s.printParsed (parseTarget fun idx =>
    if idx < 8 then charAt fullName2 idx else locals.behindFullName idx)
  let (destRetcode, destTable) ← readCurrentTable unreadTable s
  if destRetcode ≠ 0 then some (.returned (s.print (text "SHELL ERROR\n") darkGreen))
  else
    -- both tables are snapshots, also when they are of one directory
    let fs ← syscallMove srcTable destTable srcIdx s.fs
    let s := { s with fs := fs }
    let s ← s.restore saved counterCD
    some (.finished s)

/-- The branch for `mv`. -/
def executeMv (locals : Locals) (cmd : TokenTable) (s : Shell) : Option BranchEnd :=
  if cmd.cmdLength ≤ 1 then
    some (.finished (s.print (text "mv: missing file operand\n") white))
  else if cmd.cmdLength > 2 then
    some (.finished (s.print (text "mv: too many arguments\n") white))
  else do
    let saved := saveStack s.stack
    let (counterCD, s) ← pathLoopIf cmd (fun i => rowNotSpace cmd (i + 1)) 2 2 s
    let row ← cmd.row counterCD
    let s := s.print (cString ((List.range 12).map (charAt row))) white
    let parsed := parseTarget (charAt row)
    let s := s.printParsed parsed
    let (srcRetcode, srcTable) ← readCurrentTable unreadTable s
    if srcRetcode ≠ 0 then some (.returned (s.print (text "SHELL ERROR\n") darkGreen))
    else
      match sourceIndex parsed srcTable with
      -- the returns leave the stack in the source directory
      | none => some (.returned (s.print (text "mv: source not found\n") white))
      | some i =>
          let s ← s.restore saved counterCD
          moveToDestination locals cmd srcTable (UInt32.ofNat i) counterCD s

/-! ## `execute_cmd` -/

/-- `string_combine`. -/
def stringCombine (s1 s2 : List UInt8) : List UInt8 := cString s1 ++ cString s2

/-- A round of the loop of `print_home`. -/
def homeRound (st : DirStack) (home : List UInt8) (i : ℕ) : List UInt8 :=
  if i = 0 then stringCombine (text "OSyikkk:") (text "/")
  else if i < st.length.toNat - 1 then
    stringCombine (stringCombine home (List.ofFn (st.name (UInt8.ofNat i)))) (text "/")
  else stringCombine home (List.ofFn (st.name (UInt8.ofNat i)))

/-- What the loop of `print_home` leaves in `home`. -/
def homeText (st : DirStack) : List UInt8 :=
  (List.range st.length.toNat).foldl (homeRound st) []

/-- `print_home`; its `home` has 256 bytes, which nothing sets when the stack is empty. -/
def printHome (s : Shell) : Option Shell :=
  if s.stack.length ≠ 0 ∧ (homeText s.stack).length < 256 then
    some ((s.print (homeText s.stack) blue).print (text "> ") white)
  else none

/-- The statements behind the branches: the cursor goes to the next row and the prompt is
    printed. -/
def BranchEnd.finish : BranchEnd → Option Shell
  | .returned s => some s
  | .finished s => printHome { s with screen := s.screen ++ [.setCursor 1 0] }

/-- The branches of `execute_cmd` that are modelled. -/
inductive Branch where
  | cd
  | mkdir
  | cat
  | cp
  | mv
  | rm
  deriving DecidableEq

/-- The word a branch is taken for: `"cd"`, `"mkdir"`, `"cat"`, `"cp"`, `"mv"`, `"rm"`. -/
def Branch.word : Branch → List UInt8
  | .cd => [99, 100]
  | .mkdir => [109, 107, 100, 105, 114]
  | .cat => [99, 97, 116]
  | .cp => [99, 112]
  | .mv => [109, 118]
  | .rm => [114, 109]

/-- The first comparison of the chain that succeeds. -/
def branchOf (row : List UInt8) : Option Branch :=
  [Branch.cd, .mkdir, .cat, .cp, .mv, .rm].find? fun b => strcmp row b.word = 0

/-- The statements of a branch. -/
def Branch.execute (locals : Locals) (cmd : TokenTable) (s : Shell) :
    Branch → Option BranchEnd
  | .cd => executeCd cmd s
  | .mkdir => executeMkdir locals cmd s
  | .cat => executeCat locals cmd s
  | .cp => executeCp locals cmd s
  | .mv => executeMv locals cmd s
  | .rm => executeRm cmd s

/-- `execute_cmd`, for a line whose first word is one of the modelled commands. -/
def executeCmd (locals : Locals) (behind : UInt8) (input : Buffer) (s : Shell) :
    Option Shell := do
  let input ← trim behind input
  let line ← lineOf input
  let cmd ← commandTable line
  let row ← cmd.row 0
  let branch ← branchOf row
  let done ← branch.execute locals cmd (s.print (text "\n") white)
  done.finish

end OsyShell
