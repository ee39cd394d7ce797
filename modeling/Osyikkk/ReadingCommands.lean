import Osyikkk.ShellCommands

/-!
# `ls` and `whereis`

`list_current_directory` looks its directory up by name and then prints the used slots
`1..63` of the table it has, whether or not the lookup filled it.

`where_is` goes down the tree from the root. A call looks its directory up by name in the
directory that the level below stands for, and then takes the slots of the table it has; for
every directory among them it calls itself with one level more.
-/

namespace OsyShell

open OsyDisk OsyFat32 OsyVolume PartialRun

abbrev aqua : UInt8 := 0x0B

/-- What `list_current_directory` prints for a used slot: the name, behind the name of a file
    its extension, and a space. -/
def listEntry (e : FAT32DirectoryEntry) : List Display :=
  (if e.attr = attrArchive then
    .writeString (cString (List.ofFn e.name)) white ::
      if ¬ noExt e then
        [.writeString [dot] white, .writeString (cString (List.ofFn e.ext)) white]
      else []
  else [.writeString (cString (List.ofFn e.name)) aqua]) ++ [.writeString [space] white]

/-- The loop of `list_current_directory`. -/
def listTable (table : FAT32DirectoryTable) : List Display :=
  (slotsFrom 1).flatMap fun i =>
    if (table i).userAttribute = uattrNotEmpty then listEntry (table i) else []

/-- `list_current_directory`, with the prior contents of `current_table`. -/
def listCurrentDirectory (currentTable : FAT32DirectoryTable) (s : Shell) : Option Shell := do
  let (retcode, table) ← readCurrentTable currentTable s
  let s := if retcode ≠ 0 then s.print (text "SHELL ERROR\n") darkGreen else s
  some { s with screen := s.screen ++ listTable table }

/-- A table without used slots behind slot 0 lists as nothing. -/
theorem listTable_empty {t : FAT32DirectoryTable} (h : TableEmpty t) : listTable t = [] := by
  refine List.flatMap_eq_nil_iff.mpr ?_
  intro i hi
  exact if_neg (h i (mem_slotsFrom_one.mp hi))

/-- `ls` in a directory that was found prints what its table lists. -/
theorem listCurrentDirectory_found {currentTable t : FAT32DirectoryTable} {s : Shell}
    (h : readCurrentTable currentTable s = some (0, t)) :
    listCurrentDirectory currentTable s = some { s with screen := s.screen ++ listTable t } := by
  rw [listCurrentDirectory, h]
  rfl

/-! ## `whereis` -/

/-- A level of `path_number_stack` and `path_name_stack`. The two stacks are one list, with
    the top first. -/
structure SearchLevel where
  number : UInt32
  name : EntryName
  deriving DecidableEq

/-- What a search does, for an observer: a call for the levels `path`, a lookup that failed,
    and a location printed for slot `i` of the table that the call for `path` has. -/
inductive SearchEvent where
  | call (path : List SearchLevel)
  | failed
  | located (path : List SearchLevel) (i : Fin directoryEntryCount) (str : List UInt8)
  deriving DecidableEq

/-- `path_name_stack[j]`. -/
def pathName (path : List SearchLevel) (j : ℕ) : List UInt8 :=
  (path.reverse[j]?.map fun level => List.ofFn level.name).getD []

/-- A round of the loop that writes the location of a directory. -/
def folderRound (path : List SearchLevel) (str : List UInt8) (j : ℕ) : List UInt8 :=
  if j = 0 then stringCombine str (text "/")
  else if j < path.length - 1 then stringCombine (stringCombine str (pathName path j)) (text "/")
  else stringCombine str (pathName path j)

/-- The location of a directory: the levels, without the directory's own name. -/
def folderText (path : List SearchLevel) : List UInt8 :=
  stringCombine ((List.range path.length).foldl (folderRound path) []) (text " ")

/-- A round of the loop that writes the location of a file. -/
def fileRound (path : List SearchLevel) (str : List UInt8) (j : ℕ) : List UInt8 :=
  if j = 0 then stringCombine str (text "/")
  else stringCombine (stringCombine str (pathName path j)) (text "/")

/-- The location of a file. -/
def fileText (path : List SearchLevel) (name : EntryName) (ext : EntryExt) : List UInt8 :=
  let str := (List.range path.length).foldl (fileRound path) []
  let str := stringCombine str (List.ofFn name)
  let str := stringCombine (stringCombine str (text ".")) (List.ofFn ext)
  stringCombine str (text " ")

/-- A location is printed out of `char path[256]`. -/
def printLocation (path : List SearchLevel) (i : Fin directoryEntryCount) (str : List UInt8) :
    Option (List SearchEvent) :=
  if str.length < 256 then some [.located path i str] else none

/-- A round of the loop of `where_is`, which calls `search` for a directory. -/
def searchSlot (search : List SearchLevel → Option (List SearchEvent)) (name ext : List UInt8)
    (path : List SearchLevel) (table : FAT32DirectoryTable) (i : Fin directoryEntryCount) :
    Option (List SearchEvent) :=
  let e := table i
  if e.userAttribute = uattrNotEmpty then
    if e.attr ≠ attrArchive then
      (if strcmp (List.ofFn e.name) name = 0 then printLocation path i (folderText path)
        else some []).bind fun shown =>
      (search ({ number := e.cluster, name := e.name } :: path)).map fun below => shown ++ below
    else if strcmp (List.ofFn e.name) name = 0 ∧ strcmp (List.ofFn e.ext) ext = 0 then
      printLocation path i (fileText path e.name e.ext)
    else some []
  else some []

/-- The lookup of `where_is`: the name of the top level, in the level below it. -/
def searchTable (reqTable : List SearchLevel → FAT32DirectoryTable) (fs : FileSystem)
    (path : List SearchLevel) (top : SearchLevel) : Int8 × FAT32DirectoryTable :=
  let parent :=
    if path.length ≤ 1 then rootClusterNumber
    else (path[1]?.map SearchLevel.number).getD rootClusterNumber
  readDirectoryTable top.name parent (reqTable path) fs

/-- `where_is`, with room for `n` nested calls; `reqTable` is what the local of each call
    holds before the lookup. -/
def whereIs (reqTable : List SearchLevel → FAT32DirectoryTable) (fs : FileSystem)
    (name ext : List UInt8) : ℕ → List SearchLevel → Option (List SearchEvent)
  | 0, _ => none
  | n + 1, path => do
      -- the `uint8_t` with 256 levels is 0, and the top is then looked for at index -1
      let top ← if path.length < 256 then path.head? else none
      let (retcode, table) := searchTable reqTable fs path top
      let failed := if retcode ≠ 0 then [SearchEvent.failed] else []
      let shown ← gather (searchSlot (whereIs reqTable fs name ext n) name ext path table)
        (slotsFrom 1)
      some (.call path :: failed ++ shown)

/-- The level that `whereis` starts from. -/
def searchRoot : SearchLevel where
  number := rootClusterNumber
  name := rootName

/-- What a search sends to the screen. -/
def SearchEvent.display : SearchEvent → Option Display
  | .call _ => none
  | .failed => some (.writeString (text "SHELL ERROR\n") darkGreen)
  | .located _ _ str => some (.writeString str white)

/-- The strings that `whereis` passes to `where_is`. A target of at most eight characters is
    not split, whether or not there is a dot in it. The 15 bytes that are copied of a longer row
    have no NUL, and the loop that counts them ends in `path_name_stack`, which is behind them. -/
def whereisTarget (target : List UInt8) : List UInt8 × List UInt8 :=
  if (cString target).length ≤ 8 then ((List.range 8).map (charAt target), [])
  else ((parseTarget (charAt target)).name, (parseTarget (charAt target)).extString)

/-- The search of `whereis`. -/
def whereisSearch (reqTable : List SearchLevel → FAT32DirectoryTable) (fs : FileSystem)
    (depth : ℕ) (target : List UInt8) : Option (List SearchEvent) :=
  whereIs reqTable fs (whereisTarget target).1 (whereisTarget target).2 depth [searchRoot]

/-- The branch for `whereis`. -/
def executeWhereis (reqTable : List SearchLevel → FAT32DirectoryTable) (locals : Locals)
    (cmd : TokenTable) (s : Shell) : Option BranchEnd :=
  if cmd.cmdLength = 0 then
    some (.finished (s.print (text "whereis: missing file operand\n") white))
  else if cmd.cmdLength > 1 then
    some (.finished (s.print (text "whereis: too many arguments\n") white))
  else do
    let first ← cmd.first cmd.neff
    let target ← cmd.row (if first = space ∨ first = 0 then cmd.neff - 1 else cmd.neff)
    let s :=
      if (cString target).length ≤ 8 then s else s.printParsed (parseTarget (charAt target))
    let events ← whereisSearch reqTable s.fs locals.callDepth target
    some (.finished { s with screen := s.screen ++ events.filterMap SearchEvent.display })

end OsyShell
