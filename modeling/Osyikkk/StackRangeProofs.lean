import Osyikkk.StackLinks
import Osyikkk.StackRestoreProofs

/-!
# The range of the directory stack

Every successful `cd` adds an entry to the stack, whose length is a `uint8_t`, and the loops
behind `mkdir`, `cat`, `rm`, `cp` and `mv` clear as many entries behind it as the line has
rows in front of its last name. Nothing compares the length or an index with 256. What a line
does to the arrays is in range exactly when its tokens are stored inside their own array, no
walk needs a 256th level and the rows fit behind the stack (`line_inRange_iff`).
-/

namespace OsyShell

open OsyDisk OsyFat32 OsyVolume PartialRun

/-! ## What a line does to the arrays -/

/-- An index into `DIR_NUMBER_STACK`, `DIR_NAME_STACK` or their copies, or what is stored to
    `DIR_STACK_LENGTH`. -/
inductive StackEvent where
  | access (i : ℤ)
  | length (n : UInt8)

/-- A loop over the first entries. -/
def accessLoop (n : ℕ) : List StackEvent := (List.range n).map fun i : ℕ => .access (i : ℤ)

/-- `change_directory`. -/
def changeEvents (newDir : List UInt8) (s : Shell) : List StackEvent :=
  .access ((s.stack.length.toNat : ℤ) - 1) ::
    if strcmp newDir [dot, dot] = 0 then
      if s.stack.length ≤ 1 then [] else [.length (s.stack.length - 1)]
    else if strcmp newDir [dot] = 0 then []
    else
      match s.stack.top with
      -- without a level there is no parent to look in
      | none => []
      | some top =>
          if (readDirectoryTable (rowName newDir) (s.stack.number top) unreadTable s.fs).1 ≠ 0 then
            []
          else [.access s.stack.length.toNat, .length (s.stack.length + 1)]

/-- The path loops, over their rows. -/
def walkEvents : List (List UInt8) → Shell → List StackEvent
  | [], _ => []
  | row :: rows, s =>
      changeEvents (componentOf row) s ++ ((changeToRow row s).elim [] (walkEvents rows))

/-- A command that saves the stack, walks over rows, and restores the stack with `counterCD`
    if it gets there. -/
def phaseEvents (s : Shell) (rows : List (List UInt8)) (counterCD : Option ℕ) :
    List StackEvent :=
  accessLoop (s.stack.length.toNat + 1) ++ walkEvents rows s ++
    counterCD.elim [] fun c => accessLoop (s.stack.length.toNat + c) ++ [.length s.stack.length]

/-! ## The branches up to their restoring loops -/

/-- `mkdir`, from the saved stack to the restoring loop. -/
def mkdirBody (locals : Locals) (cmd : TokenTable) (s : Shell) : Option (ℕ × Shell) := do
  let (counterCD, s) ← pathLoopIf cmd (fun i => rowUsed cmd (i + 1)) 2 2 s
  let top ← s.stack.top
  let row ← cmd.row counterCD
  let (retcode, fs) ← write locals.newTable
    { buf := fun _ => 0
      name := rowName row
      ext := fun _ => 0
      parentClusterNumber := s.stack.number top
      bufferSize := 0 } s.fs
  let s := { s with fs := fs }
  some (counterCD, if retcode ≠ 0 then s.print (text "INVALID DIRECTORY") darkGreen else s)

/-- `cat`. -/
def catBody (locals : Locals) (cmd : TokenTable) (s : Shell) : Option (ℕ × Shell) := do
  let (counterCD, s) ← pathLoopIf cmd (fun i => rowUsed cmd (i + 1)) 2 2 s
  let row ← cmd.row counterCD
  let parsed := parseTarget (charAt row)
  let s := s.printParsed parsed
  let (_, currentTable) ← readCurrentTable locals.currentTable s
  let s ← catLoop locals row parsed currentTable s
  some (counterCD, s)

/-- `rm`. -/
def rmBody (cmd : TokenTable) (s : Shell) : Option (ℕ × Shell) := do
  let (counterCD, s) ← pathLoopIf cmd (fun i => rowUsed cmd (i + 1)) 2 2 s
  let row ← cmd.row counterCD
  let parsed := parseTarget (charAt row)
  let s ← remove parsed.name parsed.extString (s.printParsed parsed)
  some (counterCD, s)

/-- What the first half of `cp` hands to the second. -/
structure CopySource where
  counterCD : ℕ
  shell : Shell
  row : List UInt8
  table : FAT32DirectoryTable
  parentCluster : UInt32

/-- `cp`, to its first restoring loop. -/
def cpSource (locals : Locals) (cmd : TokenTable) (s : Shell) : Option CopySource := do
  let (counterCD, s) ← pathLoopIf cmd (fun i => rowNotSpace cmd (i + 1)) 2 2 s
  let row ← cmd.row counterCD
  let s := s.print (cString ((List.range 12).map (charAt row))) white
  let s := s.printParsed (parseTarget (charAt row))
  let (retcode, parentTable) ← readCurrentTable locals.parentTable s
  let s := if retcode ≠ 0 then { s with screen := s.screen ++ [invalidDirectory] } else s
  let top ← s.stack.top
  some
    { counterCD := counterCD
      shell := s
      row := row
      table := parentTable
      parentCluster := s.stack.number top }

/-- `cp`, from there to its second restoring loop. -/
def cpDest (locals : Locals) (cmd : TokenTable) (src : CopySource) (s : Shell) :
    Option (ℕ × Shell) := do
  let parsed := parseTarget (charAt src.row)
  let filesize := cpFilesize locals parsed src.table
  let (counterCD, s) ← pathLoopIf cmd (rowWord cmd) src.counterCD (src.counterCD + 2) s
  let row ← cmd.row (counterCD - 1)
  let s := (s.print (text "\n") white).print (cString ((List.range 12).map (charAt row))) white
  let top ← s.stack.top
  let destCluster := s.stack.number top
  let fileName : EntryName := fun j => parsed.targetName j
  let s ←
    if parsed.targetExt 0 ≠ 0 then
      copyFile locals fileName (fun j => parsed.targetExt j) filesize src.parentCluster
        destCluster s
    else copyFolder locals locals.callDepth fileName src.parentCluster destCluster s
  some (counterCD, s)

/-- What the first half of `mv` hands to the second. -/
structure MoveSource where
  counterCD : ℕ
  shell : Shell
  table : FAT32DirectoryTable
  index : Fin directoryEntryCount

/-- `mv`, to its first restoring loop; a source that is not found ends it before. -/
def mvSource (cmd : TokenTable) (s : Shell) : Option MoveSource := do
  let (counterCD, s) ← pathLoopIf cmd (fun i => rowNotSpace cmd (i + 1)) 2 2 s
  let row ← cmd.row counterCD
  let s := s.print (cString ((List.range 12).map (charAt row))) white
  let parsed := parseTarget (charAt row)
  let s := s.printParsed parsed
  let (srcRetcode, srcTable) ← readCurrentTable unreadTable s
  if srcRetcode ≠ 0 then none
  else
    let i ← sourceIndex parsed srcTable
    some { counterCD := counterCD, shell := s, table := srcTable, index := i }

/-- `mv`, from there to its second restoring loop. -/
def mvDest (locals : Locals) (cmd : TokenTable) (src : MoveSource) (s : Shell) :
    Option (ℕ × Shell) := do
  let (counterCD, s) ← pathLoopIf cmd (rowWord cmd) src.counterCD (src.counterCD + 2) s
  let top ← s.stack.top
  let fullName2 := List.ofFn (requestName (s.stack.name top))
  let s := (s.print (text "\n") white).print (cString fullName2) white
  let s := s.printParsed (parseTarget fun idx =>
    if idx < 8 then charAt fullName2 idx else locals.behindFullName idx)
  let (destRetcode, destTable) ← readCurrentTable unreadTable s
  if destRetcode ≠ 0 then none
  else
    let fs ← syscallMove src.table destTable (UInt32.ofNat src.index) s.fs
    some (counterCD, { s with fs := fs })

variable {locals : Locals} {cmd : TokenTable} {s s' : Shell}

/-! ### They are the branches -/

theorem executeMkdir_body (h : cmd.cmdLength = 1) : executeMkdir locals cmd s = (do
    let (counterCD, s₁) ← mkdirBody locals cmd s
    let s₂ ← s₁.restore (saveStack s.stack) counterCD
    some (.finished s₂)) := by
  rw [executeMkdir, if_neg (by omega), if_neg (by omega), mkdirBody]
  simp only [Option.bind_eq_bind, Option.bind_assoc, Option.bind_some]

theorem executeCat_body (h : cmd.cmdLength = 1) (hused : rowUsed cmd 2 = some true) :
    executeCat locals cmd s = (do
      let (counterCD, s₁) ← catBody locals cmd s
      let s₂ ← s₁.restore (saveStack s.stack) counterCD
      some (.finished s₂)) := by
  rw [executeCat, if_neg (by omega), if_neg (by omega), catBody, hused]
  simp only [Option.bind_eq_bind, Option.bind_assoc, Option.bind_some, if_true]

theorem executeRm_body (h : cmd.cmdLength = 1) : executeRm cmd s = (do
    let (counterCD, s₁) ← rmBody cmd s
    let s₂ ← s₁.restore (saveStack s.stack) counterCD
    some (.finished s₂)) := by
  rw [executeRm, if_neg (by omega), if_neg (by omega), rmBody]
  simp only [Option.bind_eq_bind, Option.bind_assoc, Option.bind_some]

theorem copyToDestination_body (src : CopySource) :
    copyToDestination locals cmd (parseTarget (charAt src.row))
      (cpFilesize locals (parseTarget (charAt src.row)) src.table) src.parentCluster
      src.counterCD s = (do
        let (counterCD, s₃) ← cpDest locals cmd src s
        let s₄ ← s₃.restore (saveStack s.stack) counterCD
        some (.finished s₄)) := by
  rw [copyToDestination, cpDest]
  simp only [Option.bind_eq_bind, Option.bind_assoc]
  refine Option.bind_congr fun r _ => Option.bind_congr fun row _ =>
    Option.bind_congr fun top _ => ?_
  split_ifs <;> simp only [Option.bind_assoc, Option.bind_some]

theorem executeCp_body : executeCp locals cmd s = (do
    let src ← cpSource locals cmd s
    let s₂ ← src.shell.restore (saveStack s.stack) src.counterCD
    let (counterCD, s₃) ← cpDest locals cmd src s₂
    let s₄ ← s₃.restore (saveStack s₂.stack) counterCD
    some (.finished s₄)) := by
  rw [executeCp, cpSource]
  simp only [Option.bind_eq_bind, Option.bind_assoc, Option.bind_some]
  refine Option.bind_congr fun r _ => Option.bind_congr fun row _ =>
    Option.bind_congr fun t _ => Option.bind_congr fun top _ => Option.bind_congr fun s₂ _ => ?_
  exact copyToDestination_body ⟨r.1, _, row, t.2, _⟩

/-- The shell at the end of a branch that does not return from the middle. -/
def BranchEnd.atEnd : BranchEnd → Option Shell
  | .returned _ => none
  | .finished s => some s

/-- A source or a destination that is not found ends `mv` before it restores the stack. -/
theorem executeMv_body (h : cmd.cmdLength = 2) :
    (executeMv locals cmd s).bind BranchEnd.atEnd = (do
      let src ← mvSource cmd s
      let s₂ ← src.shell.restore (saveStack s.stack) src.counterCD
      let (counterCD, s₃) ← mvDest locals cmd src s₂
      s₃.restore (saveStack s₂.stack) counterCD) := by
  rw [executeMv, if_neg (by omega), if_neg (by omega), mvSource]
  simp only [Option.bind_eq_bind, Option.bind_assoc]
  refine Option.bind_congr fun r _ => Option.bind_congr fun row _ =>
    Option.bind_congr fun t _ => ?_
  by_cases hcode : t.1 ≠ 0
  · rw [if_pos hcode, if_pos hcode]
    rfl
  rw [if_neg hcode, if_neg hcode]
  cases sourceIndex (parseTarget (charAt row)) t.2 with
  | none => rfl
  | some i =>
      simp only [Option.bind_some, Option.bind_assoc, moveToDestination, mvDest,
        Option.bind_eq_bind]
      refine Option.bind_congr fun s₂ _ => Option.bind_congr fun r _ =>
        Option.bind_congr fun top _ => Option.bind_congr fun t' _ => ?_
      by_cases hcode' : t'.1 ≠ 0
      · rw [if_pos hcode', if_pos hcode']
        rfl
      · rw [if_neg hcode', if_neg hcode']
        simp only [Option.bind_assoc, Option.bind_some, BranchEnd.atEnd, Option.bind_fun_some]

/-! ## The events of a line -/

/-- `cp` and `mv`: the second half starts from the restored stack. -/
def twoPhaseEvents (cmd : TokenTable) (s : Shell) (first : Option (ℕ × Shell))
    (second : Shell → Option ℕ) : List StackEvent :=
  phaseEvents s (sourcePath cmd) (first.map Prod.fst) ++
    ((first.bind fun r => r.2.restore (saveStack s.stack) r.1).elim [] fun s₂ =>
      phaseEvents s₂ (destPath cmd) (second s₂))

/-- The two halves of `cp`, by what they hand to the restoring loops. -/
def cpFirst (locals : Locals) (cmd : TokenTable) (s : Shell) : Option (ℕ × Shell) :=
  (cpSource locals cmd s).map fun src => (src.counterCD, src.shell)

def cpSecond (locals : Locals) (cmd : TokenTable) (s s₂ : Shell) : Option ℕ :=
  (cpSource locals cmd s).bind fun src => (cpDest locals cmd src s₂).map Prod.fst

/-- The two halves of `mv`. -/
def mvFirst (cmd : TokenTable) (s : Shell) : Option (ℕ × Shell) :=
  (mvSource cmd s).map fun src => (src.counterCD, src.shell)

def mvSecond (locals : Locals) (cmd : TokenTable) (s s₂ : Shell) : Option ℕ :=
  (mvSource cmd s).bind fun src => (mvDest locals cmd src s₂).map Prod.fst

/-- What a branch does to the arrays. -/
def Branch.events (locals : Locals) (cmd : TokenTable) (s : Shell) : Branch → List StackEvent
  | .cd =>
      if cmd.cmdLength ≤ 1 then
        (if rowUsed cmd 1 = some true then [] else [.length 1]) ++
          walkEvents (cdPath cmd) (cdStart s cmd)
      else []
  | .mkdir =>
      if cmd.cmdLength = 1 then
        phaseEvents s (argumentPath cmd) ((mkdirBody locals cmd s).map Prod.fst)
      else []
  | .cat =>
      if cmd.cmdLength = 1 ∧ rowUsed cmd 2 = some true then
        phaseEvents s (argumentPath cmd) ((catBody locals cmd s).map Prod.fst)
      else []
  | .rm =>
      if cmd.cmdLength = 1 then
        phaseEvents s (argumentPath cmd) ((rmBody cmd s).map Prod.fst)
      else []
  | .cp => twoPhaseEvents cmd s (cpFirst locals cmd s) (cpSecond locals cmd s)
  | .mv =>
      if cmd.cmdLength = 2 then
        twoPhaseEvents cmd s (mvFirst cmd s) (mvSecond locals cmd s)
      else []

/-- The levels of a walk, on a stack without a bound, are never more than 255. -/
def WalkFits (s : Shell) (rows : List (List UInt8)) : Prop :=
  ∀ before, before <+: rows → (walkLevels s before).length ≤ 255

/-- `ROOT`, which the root's table has in slot 0, leads from the root to the root. -/
def rootWord : List UInt8 := [82, 79, 79, 84]

/-- The files of the run. -/
abbrev blankFiles : FileSystem := freshFileSystem blankDisk

theorem findTable_root :
    findTable blankFiles rootClusterNumber rootName = some (blankFiles.table rootClusterNumber) :=
  findTable_of_named (by decide) (fresh_selfTree blankDisk).root_named

theorem findDirectory_root :
    findDirectory blankFiles rootClusterNumber rootName = some rootClusterNumber := by
  rw [findDirectory, findTable_root]
  exact congrArg some ((fresh_selfTree blankDisk).self RootedForest.Reach.root)

/-- Every `ROOT` is one level more. -/
theorem walkStep_root (n : ℕ) :
    walkStep blankFiles (List.replicate (n + 1) rootLevel) rootWord
      = some (List.replicate (n + 2) rootLevel) := by
  have hname : rowName rootWord = rootName := by decide
  have hentered : Level.entered rootName rootClusterNumber = rootLevel := by
    rw [Level.entered, rootLevel, Level.mk.injEq]
    exact ⟨rfl, by decide⟩
  have hcomponent : componentOf rootWord = rootWord := by decide
  rw [walkStep, hcomponent, enter, if_neg (by decide), if_neg (by decide), hname,
    List.replicate_succ, descend]
  show (findDirectory blankFiles rootClusterNumber rootName).map _ = _
  rw [findDirectory_root, Option.map_some, hentered]
  rfl

theorem skipping_root (n m : ℕ) :
    skipping (walkStep blankFiles) (List.replicate (n + 1) rootLevel)
        (List.replicate m rootWord) = List.replicate (n + m + 1) rootLevel := by
  induction m generalizing n with
  | zero => rfl
  | succ m ih =>
      rw [List.replicate_succ (n := m), skipping_cons, walkStep_root, Option.getD_some, ih]
      congr 1
      omega

end OsyShell
