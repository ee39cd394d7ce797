import Osyikkk.MoveCommandProofs
import Osyikkk.PathCommandProofs

/-!
# What a command line has done when it ends

The inversion lemmas of the branches of `execute_cmd`, for every line: which rows a path
loop has walked over, where the walk has ended, what the restoring loop has put back, and
which call of the file system was made. A line makes one call at most. Every branch but
those for `cd` and `mv` ends with the stack it began with; `mv` returns from the middle when
a lookup fails, and leaves the levels its walk has reached (`mvLevels`).
-/

namespace OsyShell

open OsyDisk OsyFat32 OsyVolume PartialRun

/-! ## The command of a line -/

/-- The branch a line is executed by, and its table of tokens. -/
def commandOf (behind : UInt8) (input : Buffer) : Option (Branch × TokenTable) := do
  let input ← trim behind input
  let line ← lineOf input
  let cmd ← commandTable line
  let row ← cmd.row 0
  let branch ← branchOf row
  some (branch, cmd)

variable {locals : Locals} {behind : UInt8} {input : Buffer} {cmd : TokenTable} {b : Branch}
  {s s' s₁ s₂ : Shell} {done : BranchEnd}

theorem executeCmd_eq (locals : Locals) (behind : UInt8) (input : Buffer) (s : Shell) :
    executeCmd locals behind input s = (commandOf behind input).bind fun c =>
      (c.1.execute locals c.2 (s.print (text "\n") white)).bind BranchEnd.finish := by
  simp only [executeCmd, commandOf, Option.bind_eq_bind, Option.bind_assoc, Option.bind_some]

theorem commandOf_line {line : List UInt8} (hline : PlainLine line)
    (htokens : tokenize line = some cmd) (hrow : cmd.row 0 = some b.word) :
    commandOf behind (bufferOf line) = some (b, cmd) := by
  simp only [commandOf, trim_bufferOf hline, lineOf_bufferOf hline,
    commandTable_of_tokenize htokens, hrow,
    branchOf_word, Option.bind_eq_bind, Option.bind_some]

/-! ## The rows of a walk -/

/-- The rows a path loop walks over from row `i` on. -/
def walkedRows (cmd : TokenTable) (test : ℕ → Option Bool) : ℕ → ℕ → List (List UInt8)
  | 0, _ => []
  | n + 1, i =>
      if test i = some true then cmd.rows.getD i [] :: walkedRows cmd test n (i + 1) else []

/-- The rows `pathLoopIf` walks over. -/
def walkedIf (cmd : TokenTable) (test : ℕ → Option Bool) (start : ℕ) : List (List UInt8) :=
  if rowUsed cmd 3 = some true then walkedRows cmd test 41 start else []

theorem row_some {i : ℕ} {row : List UInt8} (h : cmd.row i = some row) :
    cmd.rows.getD i [] = row := by
  rw [TokenTable.row] at h
  split_ifs at h
  exact Option.some.inj h

/-- A path loop with an outcome has walked over its rows, one after another. -/
theorem pathLoop_some {test : ℕ → Option Bool} {n i j : ℕ}
    (h : pathLoop cmd test n i s = some (j, s')) :
    j = i + (walkedRows cmd test n i).length ∧
      run (fun s row => changeToRow row s) s (walkedRows cmd test n i) = some s' := by
  induction n generalizing i s with
  | zero => exact nomatch h
  | succ n ih =>
      simp only [pathLoop, Option.bind_eq_bind, Option.bind_eq_some_iff] at h
      obtain ⟨go, htest, h⟩ := h
      cases go with
      | false =>
          obtain ⟨rfl, rfl⟩ := Prod.mk.inj (Option.some.inj h)
          rw [walkedRows, htest, if_neg (by decide)]
          exact ⟨rfl, rfl⟩
      | true =>
          simp only [if_true, Option.bind_eq_some_iff] at h
          obtain ⟨row, hrow, s₁, hstep, h⟩ := h
          obtain ⟨hj, hrun⟩ := ih h
          rw [walkedRows, htest, if_pos rfl, List.length_cons, row_some hrow, run_cons, hstep]
          exact ⟨by omega, hrun⟩

theorem pathLoopIf_some {test : ℕ → Option Bool} {c start j : ℕ}
    (h : pathLoopIf cmd test c start s = some (j, s')) :
    run (fun s row => changeToRow row s) s (walkedIf cmd test start) = some s' ∧
      (c = start → j = start + (walkedIf cmd test start).length) := by
  simp only [pathLoopIf, Option.bind_eq_bind, Option.bind_eq_some_iff] at h
  obtain ⟨used, hused, h⟩ := h
  rw [walkedIf, hused]
  cases used with
  | false =>
      obtain ⟨rfl, rfl⟩ := Prod.mk.inj (Option.some.inj h)
      exact ⟨rfl, fun hc => hc⟩
  | true =>
      obtain ⟨hj, hrun⟩ := pathLoop_some h
      exact ⟨hrun, fun _ => hj⟩

/-! ## Where a walk ends -/

theorem top_some {st : DirStack} {top : UInt8} (h : st.top = some top) :
    st.length ≠ 0 ∧ top = st.length - 1 := by
  rw [DirStack.top] at h
  split_ifs at h with h0
  exact ⟨h0, (Option.some.inj h).symm⟩

theorem changeToRow_inUse {row : List UInt8} (h : changeToRow row s = some s') :
    s.stack.length ≠ 0 := by
  have htop : ∀ c, changeDirectory c s = some s' → s.stack.length ≠ 0 := by
    intro c hc
    simp only [changeDirectory, Option.bind_eq_bind] at hc
    obtain ⟨top, htop, -⟩ := Option.bind_eq_some_iff.mp hc
    exact (top_some htop).1
  rw [changeToRow] at h
  split_ifs at h <;> exact htop _ h

/-- With 255 levels a name that is found makes `DIR_STACK_LENGTH` wrap to 0. -/
theorem changeDirectory_wraps {c : List UInt8} {n : UInt32}
    (hdots : charAt c 0 = dot → c = [dot] ∨ c = [dot, dot])
    (hc2 : c ≠ [dot, dot]) (hc1 : c ≠ [dot]) (h255 : s.stack.length = 255)
    (hfind : findDirectory s.fs (s.stack.number (s.stack.length - 1)) (rowName c) = some n)
    (h : changeDirectory c s = some s') : s'.stack.length = 0 := by
  have hlen : s.stack.length ≠ 0 := by
    rw [h255]
    decide
  have hdd : ¬ strcmp c [dot, dot] = 0 := mt (strcmp_dots hdots).1.mp hc2
  have hd : ¬ strcmp c [dot] = 0 := mt (strcmp_dots hdots).2.mp hc1
  obtain ⟨t, ht, -⟩ := Option.map_eq_some_iff.mp hfind
  simp only [changeDirectory, top_eq hlen, Option.bind_eq_bind, Option.bind_some, if_neg hdd,
    if_neg hd, readDirectoryTable_found unreadTable ht] at h
  rw [if_neg (by decide)] at h
  obtain rfl := Option.some.inj h
  show s.stack.length + 1 = 0
  rw [h255]
  decide

/-- A row that leaves the stack in use had room on it. -/
theorem hasRoom_of_inUse {row : List UInt8} (h : changeToRow row s = some s')
    (hinUse : s'.stack.length ≠ 0) : HasRoom s.fs s.stack.levels row := by
  have hlen := changeToRow_inUse h
  intro levels' hstep
  by_contra hfull
  rw [Nat.not_lt] at hfull
  have hlt := UInt8.toNat_lt s.stack.length
  have hlevels := levels_length s.stack
  rw [walkStep, enter] at hstep
  split_ifs at hstep with hdd hd
  · obtain rfl := Option.some.inj hstep
    have hle := leave_length s.stack.levels
    omega
  · obtain rfl := Option.some.inj hstep
    omega
  · rw [levels_cons hlen, descend] at hstep
    obtain ⟨n, hfind, rfl⟩ := Option.map_eq_some_iff.mp hstep
    rw [← levels_cons hlen, List.length_cons] at hfull
    have hname : charAt row 0 ≠ dot := by
      intro hdot
      rw [componentOf, if_pos hdot] at hdd hd
      split_ifs at hdd hd
      · exact hdd rfl
      · exact hd rfl
    have h255 : s.stack.length = 255 := by
      refine UInt8.toNat_inj.mp ?_
      show s.stack.length.toNat = 255
      omega
    rw [componentOf, if_neg hname] at hdd hd hfind
    rw [changeToRow, if_neg hname] at h
    exact hinUse (changeDirectory_wraps (fun hdot => absurd hdot hname) hdd hd h255 hfind h)

/-- A walk that leaves the stack in use has not changed the files and has left out the
    components that have no step. -/
theorem walk_some {rows : List (List UInt8)}
    (h : run (fun s row => changeToRow row s) s rows = some s') (hinUse : s'.stack.length ≠ 0) :
    s'.stack.levels = walkLevels s rows ∧ s'.fs = s.fs ∧ s.stack.length ≠ 0 := by
  induction rows generalizing s with
  | nil =>
      obtain rfl := Option.some.inj h
      exact ⟨rfl, rfl, hinUse⟩
  | cons row rows ih =>
      rw [run_cons] at h
      obtain ⟨s₁, hstep, h⟩ := Option.bind_eq_some_iff.mp h
      obtain ⟨hlevels, hfs, hinUse₁⟩ := ih h
      have hlen := changeToRow_inUse hstep
      have hroom := hasRoom_of_inUse hstep hinUse₁
      obtain ⟨s₁', hstep', hlevels₁, -, hfs₁, -⟩ := changeToRow_levels hlen hroom
      obtain rfl := Option.some.inj (hstep.symm.trans hstep')
      refine ⟨?_, hfs.trans hfs₁, hlen⟩
      rw [hlevels, walkLevels, walkLevels, skipping_cons, hlevels₁, hfs₁]

/-- The lookup of the current table, at the end of a walk. -/
theorem readCurrentTable_some {old t : FAT32DirectoryTable} {code : Int8}
    (h : readCurrentTable old s = some (code, t)) :
    s.stack.length ≠ 0 ∧
      ((code ≠ 0 ∧ currentTable s.fs s.stack.levels = none) ∨
        (code = 0 ∧ currentTable s.fs s.stack.levels = some t)) := by
  have hinUse : s.stack.length ≠ 0 := by
    simp only [readCurrentTable, Option.bind_eq_bind, Option.bind_eq_some_iff] at h
    obtain ⟨top, htop, -⟩ := h
    exact (top_some htop).1
  refine ⟨hinUse, ?_⟩
  cases htable : currentTable s.fs s.stack.levels with
  | none =>
      obtain ⟨code', hcode, h'⟩ := readCurrentTable_none hinUse old htable
      obtain ⟨rfl, -⟩ := Prod.mk.inj (Option.some.inj (h.symm.trans h'))
      exact Or.inl ⟨hcode, rfl⟩
  | some t' =>
      have h' := readCurrentTable_found hinUse old htable
      obtain ⟨rfl, rfl⟩ := Prod.mk.inj (Option.some.inj (h.symm.trans h'))
      exact Or.inr ⟨rfl, rfl⟩

/-! ## The stack a command leaves -/

/-- `DIR_STACK_LENGTH` and the entries below it are what they were. -/
structure KeepsStack (st st' : DirStack) : Prop where
  length : st'.length = st.length
  number : ∀ i < st.length, st'.number i = st.number i
  name : ∀ i < st.length, st'.name i = st.name i

variable {st st' : DirStack}

theorem KeepsStack.refl (st : DirStack) : KeepsStack st st where
  length := rfl
  number _ _ := rfl
  name _ _ := rfl

theorem levelsBelow_inj {n : ℕ} (h : st'.levelsBelow n = st.levelsBelow n) :
    ∀ i < n, st'.number (UInt8.ofNat i) = st.number (UInt8.ofNat i) ∧
      st'.name (UInt8.ofNat i) = st.name (UInt8.ofNat i) := by
  induction n with
  | zero => exact fun _ hi => absurd hi (Nat.not_lt_zero _)
  | succ n ih =>
      intro i hi
      rw [DirStack.levelsBelow, DirStack.levelsBelow, List.cons.injEq, Level.mk.injEq] at h
      rcases Nat.lt_succ_iff_lt_or_eq.mp hi with hlt | rfl
      · exact ih h.2 i hlt
      · exact h.1

/-- The entries in use are the levels. -/
theorem keepsStack_iff : KeepsStack st st' ↔ st'.levels = st.levels := by
  constructor
  · rintro ⟨hlength, hnumber, hname⟩
    rw [DirStack.levels, DirStack.levels, hlength]
    refine levelsBelow_congr ?_
    intro i hi
    have h256 := UInt8.toNat_lt st.length
    have hlt : UInt8.ofNat i < st.length := by
      rw [UInt8.lt_iff_toNat_lt, UInt8.toNat_ofNat', Nat.mod_eq_of_lt (hi.trans h256)]
      exact hi
    exact ⟨hnumber _ hlt, hname _ hlt⟩
  · intro h
    have hlength : st'.length.toNat = st.length.toNat := by
      rw [← levels_length, h, levels_length]
    rw [DirStack.levels, DirStack.levels, hlength] at h
    have hentry : ∀ i < st.length, st'.number i = st.number i ∧ st'.name i = st.name i := by
      intro i hi
      rw [UInt8.lt_iff_toNat_lt] at hi
      simpa only [UInt8.ofNat_toNat] using levelsBelow_inj h i.toNat hi
    constructor
    case length => exact UInt8.toNat_inj.mp hlength
    case number => exact fun i hi => (hentry i hi).1
    case name => exact fun i hi => (hentry i hi).2

theorem KeepsStack.trans {st'' : DirStack} (h : KeepsStack st st') (h' : KeepsStack st' st'') :
    KeepsStack st st'' :=
  keepsStack_iff.mpr ((keepsStack_iff.mp h').trans (keepsStack_iff.mp h))

/-- A restoring loop that ends has stayed on the stack. -/
theorem restore_fits {c : ℕ} (h : s₁.restore (saveStack st) c = some s₂) :
    st.length.toNat + c ≤ 256 := by
  rw [Shell.restore] at h
  obtain ⟨st', hst', -⟩ := Option.map_eq_some_iff.mp h
  rw [restoreStack] at hst'
  split_ifs at hst' with hfits
  exact hfits

/-- "change to previous stack". -/
theorem restore_some {c : ℕ} (h : s₁.restore (saveStack st) c = some s₂) :
    KeepsStack st s₂.stack ∧ s₂.fs = s₁.fs := by
  obtain ⟨st', hrestore, hlevels, -⟩ := restore_levels s₁ (restore_fits h)
  obtain rfl := Option.some.inj (hrestore.symm.trans h)
  exact ⟨keepsStack_iff.mpr hlevels, rfl⟩

/-- The shell at the end of a branch. -/
def BranchEnd.shell : BranchEnd → Shell
  | .returned s | .finished s => s

/-- The prompt changes the screen only, and there is none for an empty stack. -/
theorem finish_some (h : done.finish = some s') :
    s'.stack = done.shell.stack ∧ s'.fs = done.shell.fs ∧
      (done = .finished done.shell → s'.stack.length ≠ 0) := by
  cases done with
  | returned s =>
      obtain rfl := Option.some.inj h
      exact ⟨rfl, rfl, fun h => nomatch h⟩
  | finished s =>
      rw [BranchEnd.finish, printHome] at h
      split_ifs at h with hhome
      obtain rfl := Option.some.inj h
      exact ⟨rfl, rfl, fun _ => hhome.1⟩

/-! ## The call a line makes -/

/-- The file system behind a call, or behind none. -/
def perform (fs : FileSystem) : Option Call → Option FileSystem
  | none => some fs
  | some k => exec fs k

/-- The rows of the one argument that are walked over. -/
def argumentPath (cmd : TokenTable) : List (List UInt8) :=
  walkedIf cmd (fun i => rowUsed cmd (i + 1)) 2

/-- The row behind them. -/
def argumentRow (cmd : TokenTable) : List UInt8 :=
  cmd.rows.getD (2 + (argumentPath cmd).length) []

/-- The call of `mkdir`. -/
def mkdirCall (locals : Locals) (s : Shell) (cmd : TokenTable) : Option Call :=
  if cmd.cmdLength = 1 then
    some (.write locals.newTable
      { buf := fun _ => 0
        name := rowName (argumentRow cmd)
        ext := fun _ => 0
        parentClusterNumber := directoryNumber (walkLevels s (argumentPath cmd))
        bufferSize := 0 })
  else none

/-- The call of `remove`: the entry is found in the table of the current directory. -/
def removeCall (fs : FileSystem) (levels : List Level) (name ext : List UInt8) : Option Call :=
  (currentTable fs levels).bind fun t =>
    ((slotsFrom 1).find? fun i => isTarget name ext (t i)).map fun i =>
      .delete
        { buf := fun _ => 0
          name := (t i).name
          ext := if (t i).attr = attrArchive then extName (t i) else fun _ => 0
          parentClusterNumber := directoryNumber levels
          bufferSize := 0 }

/-- The call of `rm`. -/
def rmCall (s : Shell) (cmd : TokenTable) : Option Call :=
  if cmd.cmdLength = 1 then
    removeCall s.fs (walkLevels s (argumentPath cmd))
      (parseTarget (charAt (argumentRow cmd))).name
      (parseTarget (charAt (argumentRow cmd))).extString
  else none

theorem argumentWalk {j : ℕ} {row : List UInt8}
    (hwalk : pathLoopIf cmd (fun i => rowUsed cmd (i + 1)) 2 2 s = some (j, s₁))
    (hrow : cmd.row j = some row) :
    run (fun s row => changeToRow row s) s (argumentPath cmd) = some s₁ ∧
      row = argumentRow cmd := by
  obtain ⟨hrun, hj⟩ := pathLoopIf_some hwalk
  refine ⟨hrun, ?_⟩
  rw [← row_some hrow, hj rfl]
  rfl

/-- The branch for `mkdir`. -/
theorem executeMkdir_some (h : executeMkdir locals cmd s = some done) :
    KeepsStack s.stack done.shell.stack ∧
      perform s.fs (mkdirCall locals s cmd) = some done.shell.fs := by
  rw [executeMkdir] at h
  split_ifs at h with h0 h1
  · obtain rfl := Option.some.inj h
    rw [mkdirCall, if_neg (by omega)]
    exact ⟨.refl _, rfl⟩
  · obtain rfl := Option.some.inj h
    rw [mkdirCall, if_neg (by omega)]
    exact ⟨.refl _, rfl⟩
  · simp only [Option.bind_eq_bind, Option.bind_eq_some_iff] at h
    obtain ⟨⟨j, s₁⟩, hwalk, top, htop, row, hrow, ⟨code, fs⟩, hwrite, s₂, hrestore, h⟩ := h
    obtain rfl := Option.some.inj h
    obtain ⟨hkeep, hfs₂⟩ := restore_some hrestore
    refine ⟨hkeep, ?_⟩
    obtain ⟨hrun, rfl⟩ := argumentWalk hwalk hrow
    obtain ⟨hinUse, rfl⟩ := top_some htop
    obtain ⟨hlevels, hfs₁, -⟩ := walk_some hrun hinUse
    have hfs : s₂.fs = fs := by
      rw [hfs₂]
      split_ifs <;> rfl
    rw [mkdirCall, if_pos (by omega), perform, exec, ← hlevels, directoryNumber_levels hinUse,
      ← hfs₁, hwrite]
    exact congrArg some hfs.symm

/-- `remove` makes its call and leaves the stack. -/
theorem remove_some {name ext : List UInt8} (h : remove name ext s = some s') :
    s'.stack = s.stack ∧ s.stack.length ≠ 0 ∧
      perform s.fs (removeCall s.fs s.stack.levels name ext) = some s'.fs := by
  simp only [remove, Option.bind_eq_bind, Option.bind_eq_some_iff] at h
  obtain ⟨⟨code, t⟩, hread, h⟩ := h
  obtain ⟨hinUse, hcurrent⟩ := readCurrentTable_some hread
  rw [removeCall]
  rcases hcurrent with ⟨hcode, htable⟩ | ⟨rfl, htable⟩
  · rw [if_pos hcode] at h
    obtain rfl := Option.some.inj h
    rw [htable]
    exact ⟨rfl, hinUse, rfl⟩
  · rw [if_neg (show ¬ (0 : Int8) ≠ 0 by decide)] at h
    rw [htable, Option.bind_some]
    cases hfind : (slotsFrom 1).find? fun i => isTarget name ext (t i) with
    | none =>
        rw [hfind] at h
        obtain rfl := Option.some.inj h
        exact ⟨rfl, hinUse, rfl⟩
    | some i =>
        rw [hfind] at h
        simp only [Option.bind_eq_some_iff] at h
        obtain ⟨top, htop, ⟨code', fs⟩, hdelete, h⟩ := h
        obtain rfl := (top_some htop).2
        have hs' : s'.stack = s.stack ∧ s'.fs = fs := by
          split_ifs at h
          all_goals
            obtain rfl := Option.some.inj h
            exact ⟨rfl, rfl⟩
        refine ⟨hs'.1, hinUse, ?_⟩
        rw [Option.map_some, perform, exec, directoryNumber_levels hinUse, hdelete, hs'.2]
        rfl

/-- The branch for `rm`. -/
theorem executeRm_some (h : executeRm cmd s = some done) :
    KeepsStack s.stack done.shell.stack ∧ perform s.fs (rmCall s cmd) = some done.shell.fs := by
  rw [executeRm] at h
  split_ifs at h with h0 h1
  · obtain rfl := Option.some.inj h
    rw [rmCall, if_neg (by omega)]
    exact ⟨.refl _, rfl⟩
  · obtain rfl := Option.some.inj h
    rw [rmCall, if_neg (by omega)]
    exact ⟨.refl _, rfl⟩
  · simp only [Option.bind_eq_bind, Option.bind_eq_some_iff] at h
    obtain ⟨⟨j, s₁⟩, hwalk, row, hrow, s₂, hremove, s₃, hrestore, h⟩ := h
    obtain rfl := Option.some.inj h
    obtain ⟨hkeep, hfs₃⟩ := restore_some hrestore
    refine ⟨hkeep, ?_⟩
    obtain ⟨hrun, rfl⟩ := argumentWalk hwalk hrow
    obtain ⟨-, hinUse, hcall⟩ := remove_some hremove
    rw [printParsed_stack] at hinUse
    obtain ⟨hlevels, hfs₁, -⟩ := walk_some hrun hinUse
    rw [printParsed_stack, printParsed_fs, hlevels, hfs₁] at hcall
    rw [rmCall, if_pos (by omega)]
    exact hcall.trans (congrArg some hfs₃.symm)

/-! ## `cat` and `cp` -/

/-- The branch for `cat`. -/
theorem executeCat_some (h : executeCat locals cmd s = some done) :
    KeepsStack s.stack done.shell.stack := by
  rw [executeCat] at h
  split_ifs at h with h0 h1
  · obtain rfl := Option.some.inj h
    exact .refl _
  · obtain rfl := Option.some.inj h
    exact .refl _
  · obtain ⟨used, -, h⟩ := Option.bind_eq_some_iff.mp h
    split_ifs at h
    · simp only [Option.bind_eq_bind, Option.bind_eq_some_iff] at h
      obtain ⟨⟨j, s₁⟩, -, row, -, table, -, s₂, -, s₃, hrestore, h⟩ := h
      obtain rfl := Option.some.inj h
      exact (restore_some hrestore).1
    · obtain rfl := Option.some.inj h
      exact .refl _

theorem copyToDestination_some {parsed : ParsedFile} {filesize parent : UInt32} {j : ℕ}
    (h : copyToDestination locals cmd parsed filesize parent j s = some done) :
    KeepsStack s.stack done.shell.stack := by
  simp only [copyToDestination, Option.bind_eq_bind, Option.bind_eq_some_iff] at h
  obtain ⟨⟨j', s₁⟩, -, row, -, top, -, h⟩ := h
  split_ifs at h
  all_goals
    simp only [Option.bind_eq_some_iff] at h
    obtain ⟨s₂, -, s₃, hrestore, h⟩ := h
    obtain rfl := Option.some.inj h
    exact (restore_some hrestore).1

/-- The branch for `cp`, which goes back twice. -/
theorem executeCp_some (h : executeCp locals cmd s = some done) :
    KeepsStack s.stack done.shell.stack := by
  simp only [executeCp, Option.bind_eq_bind, Option.bind_eq_some_iff] at h
  obtain ⟨⟨j, s₁⟩, -, row, -, table, -, top, -, s₂, hrestore, h⟩ := h
  exact (restore_some hrestore).1.trans (copyToDestination_some h)

/-! ## `cd` -/

/-- The stack the walk of `cd` begins with: the lowest level without an argument. -/
def cdStart (s : Shell) (cmd : TokenTable) : Shell :=
  if rowUsed cmd 1 = some true then s else { s with stack := { s.stack with length := 1 } }

theorem cdStart_fs (s : Shell) (cmd : TokenTable) : (cdStart s cmd).fs = s.fs := by
  rw [cdStart]
  split_ifs <;> rfl

/-- The rows `cd` walks over. -/
def cdPath (cmd : TokenTable) : List (List UInt8) := walkedRows cmd (rowUsed cmd) 41 2

/-- The branch for `cd`, up to the prompt. -/
theorem executeCd_some (hinUse : s.stack.length ≠ 0)
    (h : executeCd cmd s = some done) (hfinish : done.finish = some s') :
    s'.stack.length ≠ 0 ∧ s'.fs = s.fs ∧
      (s'.stack = s.stack ∨ s'.stack.levels = walkLevels (cdStart s cmd) (cdPath cmd)) := by
  obtain ⟨hstack, hfs, hprompt⟩ := finish_some hfinish
  rw [executeCd] at h
  split_ifs at h with h1
  · obtain rfl := Option.some.inj h
    exact ⟨hstack ▸ hinUse, hfs, Or.inl hstack⟩
  · simp only [Option.bind_eq_bind, Option.bind_eq_some_iff] at h
    obtain ⟨used, hused, ⟨j, s₁⟩, hwalk, h⟩ := h
    obtain rfl := Option.some.inj h
    have hstart : (if used = true then s
        else { s with stack := { s.stack with length := 1 } }) = cdStart s cmd := by
      rw [cdStart, hused]
      cases used <;> rfl
    rw [hstart] at hwalk
    obtain ⟨-, hrun⟩ := pathLoop_some hwalk
    have hlen := hprompt rfl
    obtain ⟨hlevels, hfs₁, -⟩ :=
      walk_some hrun (by rwa [hstack] at hlen)
    refine ⟨hlen, ?_, Or.inr ?_⟩
    · exact hfs.trans (hfs₁.trans (cdStart_fs s cmd))
    · rw [hstack]
      exact hlevels

/-! ## `mv` -/

/-- The rows of the source that are walked over. -/
def sourcePath (cmd : TokenTable) : List (List UInt8) :=
  walkedIf cmd (fun i => rowNotSpace cmd (i + 1)) 2

/-- The row of the name to be moved. -/
def sourceRow (cmd : TokenTable) : List UInt8 :=
  cmd.rows.getD (2 + (sourcePath cmd).length) []

/-- The rows of the destination that are walked over. -/
def destPath (cmd : TokenTable) : List (List UInt8) :=
  walkedIf cmd (rowWord cmd) (2 + (sourcePath cmd).length + 2)

/-- The table and the slot of the entry to be moved. -/
def movedEntry (s : Shell) (cmd : TokenTable) :
    Option (FAT32DirectoryTable × Fin directoryEntryCount) :=
  (currentTable s.fs (walkLevels s (sourcePath cmd))).bind fun t =>
    (sourceIndex (parseTarget (charAt (sourceRow cmd))) t).map fun i => (t, i)

/-- The table it is moved to. -/
def destTable (s : Shell) (cmd : TokenTable) : Option FAT32DirectoryTable :=
  currentTable s.fs (walkLevels s (destPath cmd))

/-- The call of `mv`. -/
def mvCall (s : Shell) (cmd : TokenTable) : Option Call :=
  if cmd.cmdLength = 2 then
    (movedEntry s cmd).bind fun e =>
      (destTable s cmd).map fun t => .move e.1 t (UInt32.ofNat e.2)
  else none

/-- The levels `mv` leaves. -/
def mvLevels (s : Shell) (cmd : TokenTable) : List Level :=
  if cmd.cmdLength = 2 then
    if movedEntry s cmd = none then walkLevels s (sourcePath cmd)
    else if destTable s cmd = none then walkLevels s (destPath cmd)
    else s.stack.levels
  else s.stack.levels

/-- The second half of `mv`, for any rows in front of the destination's. -/
theorem moveToDestination_some {srcTable : FAT32DirectoryTable} {srcIdx : UInt32} {j : ℕ}
    {rows : List (List UInt8)} (hrows : rows = walkedIf cmd (rowWord cmd) (j + 2))
    (h : moveToDestination locals cmd srcTable srcIdx j s = some done) :
    done.shell.stack.levels = (if currentTable s.fs (walkLevels s rows) = none
      then walkLevels s rows else s.stack.levels) ∧
    perform s.fs ((currentTable s.fs (walkLevels s rows)).map fun t => .move srcTable t srcIdx)
      = some done.shell.fs := by
  subst hrows
  simp only [moveToDestination, Option.bind_eq_bind, Option.bind_eq_some_iff] at h
  obtain ⟨⟨j', s₁⟩, hwalk, top, htop, ⟨code, t⟩, hread, h⟩ := h
  obtain ⟨hrun, -⟩ := pathLoopIf_some hwalk
  obtain ⟨hlevels, hfs, -⟩ :=
    walk_some hrun (top_some htop).1
  obtain ⟨-, hcurrent⟩ := readCurrentTable_some hread
  rw [printParsed_stack, printParsed_fs] at hcurrent
  change (_ ∧ currentTable s₁.fs s₁.stack.levels = none) ∨
    (_ ∧ currentTable s₁.fs s₁.stack.levels = some t) at hcurrent
  rw [hlevels, hfs] at hcurrent
  rcases hcurrent with ⟨hcode, htable⟩ | ⟨rfl, htable⟩
  · rw [if_pos hcode] at h
    obtain rfl := Option.some.inj h
    rw [if_pos htable, htable]
    refine ⟨?_, congrArg some ?_⟩
    · show (Shell.printParsed _ _).stack.levels = _
      rw [printParsed_stack]
      exact hlevels
    · show _ = (Shell.printParsed _ _).fs
      rw [printParsed_fs]
      exact hfs.symm
  · rw [if_neg (show ¬ (0 : Int8) ≠ 0 by decide)] at h
    simp only [Option.bind_eq_some_iff] at h
    obtain ⟨fs, hmove, s₂, hrestore, h⟩ := h
    obtain rfl := Option.some.inj h
    obtain ⟨hkeep, hfs₂⟩ := restore_some hrestore
    rw [printParsed_fs] at hmove
    change syscallMove srcTable t srcIdx s₁.fs = some fs at hmove
    rw [hfs] at hmove
    rw [htable, if_neg (Option.some_ne_none t)]
    exact ⟨keepsStack_iff.mp hkeep, hmove.trans (congrArg some hfs₂.symm)⟩

/-- A line without two arguments moves nothing. -/
theorem mv_refused (hlen : cmd.cmdLength ≠ 2) (hstack : s'.stack = s.stack)
    (hfs : s'.fs = s.fs) :
    s'.stack.levels = mvLevels s cmd ∧ perform s.fs (mvCall s cmd) = some s'.fs := by
  rw [mvLevels, mvCall, if_neg hlen, if_neg hlen, hstack, hfs]
  exact ⟨rfl, rfl⟩

/-- A source that is not found ends `mv` where the first walk has ended. -/
theorem mv_sourceMissing (hlen : cmd.cmdLength = 2) (hentry : movedEntry s cmd = none) :
    mvLevels s cmd = walkLevels s (sourcePath cmd) ∧ mvCall s cmd = none := by
  rw [mvLevels, mvCall, if_pos hlen, if_pos hlen, if_pos hentry, hentry]
  exact ⟨rfl, rfl⟩

/-- `mv` keeps the levels, or makes no call and leaves those of a walk. -/
theorem mvLevels_cases (s : Shell) (cmd : TokenTable) : mvLevels s cmd = s.stack.levels ∨
    (mvCall s cmd = none ∧ ∃ rows, mvLevels s cmd = walkLevels s rows) := by
  by_cases hlen : cmd.cmdLength = 2
  · by_cases hentry : movedEntry s cmd = none
    · obtain ⟨hlevels, hcall⟩ := mv_sourceMissing hlen hentry
      exact Or.inr ⟨hcall, _, hlevels⟩
    · rw [mvLevels, mvCall, if_pos hlen, if_pos hlen, if_neg hentry]
      by_cases hdest : destTable s cmd = none
      · rw [if_pos hdest, hdest]
        refine Or.inr ⟨?_, _, rfl⟩
        exact Option.bind_eq_none_iff.mpr fun _ _ => rfl
      · rw [if_neg hdest]
        exact Or.inl rfl
  · exact Or.inl (mv_refused hlen rfl rfl).1.symm

/-- The first half of `mv`: the walk to the source and its lookup. -/
theorem sourceLookup_some {j : ℕ} {row : List UInt8} {t : FAT32DirectoryTable} {code : Int8}
    (hwalk : pathLoopIf cmd (fun i => rowNotSpace cmd (i + 1)) 2 2 s = some (j, s₁))
    (hrow : cmd.row j = some row) (hstack : s₂.stack = s₁.stack) (hfs : s₂.fs = s₁.fs)
    (hread : readCurrentTable unreadTable s₂ = some (code, t)) :
    j = 2 + (sourcePath cmd).length ∧ s₂.stack.levels = walkLevels s (sourcePath cmd) ∧
      s₂.fs = s.fs ∧
      ((code ≠ 0 ∧ movedEntry s cmd = none) ∨
        (code = 0 ∧ movedEntry s cmd
          = (sourceIndex (parseTarget (charAt row)) t).map fun i => (t, i))) := by
  obtain ⟨hrun, hj⟩ := pathLoopIf_some hwalk
  have hj : j = 2 + (sourcePath cmd).length := hj rfl
  have hrow : row = sourceRow cmd := by
    rw [← row_some hrow, hj]
    rfl
  obtain ⟨hinUse, hcurrent⟩ := readCurrentTable_some hread
  rw [hstack] at hinUse
  obtain ⟨hlevels, hfs₁, -⟩ := walk_some hrun hinUse
  have hlevels : s₁.stack.levels = walkLevels s (sourcePath cmd) := hlevels
  rw [hstack, hfs, hlevels, hfs₁] at hcurrent
  refine ⟨hj, (congrArg DirStack.levels hstack).trans hlevels, hfs.trans hfs₁, ?_⟩
  rw [movedEntry]
  rcases hcurrent with ⟨hcode, htable⟩ | ⟨hcode, htable⟩
  · refine Or.inl ⟨hcode, ?_⟩
    rw [htable]
    rfl
  · refine Or.inr ⟨hcode, ?_⟩
    rw [htable, hrow]
    rfl

/-- The branch for `mv`. -/
theorem executeMv_some (h : executeMv locals cmd s = some done) :
    done.shell.stack.levels = mvLevels s cmd ∧
      perform s.fs (mvCall s cmd) = some done.shell.fs := by
  rw [executeMv] at h
  split_ifs at h with h1 h2
  · obtain rfl := Option.some.inj h
    exact mv_refused (by omega) rfl rfl
  · obtain rfl := Option.some.inj h
    exact mv_refused (by omega) rfl rfl
  have hlen : cmd.cmdLength = 2 := by omega
  simp only [Option.bind_eq_bind, Option.bind_eq_some_iff] at h
  obtain ⟨⟨j, s₁⟩, hwalk, row, hrow, ⟨code, t⟩, hread, h⟩ := h
  obtain ⟨s₂, hs₂, hstack₂, hfs₂⟩ := nameMessages s₁ row
  change readCurrentTable unreadTable (Shell.printParsed _ _) = _ at hread
  rw [← hs₂] at hread h
  obtain ⟨hj, hlevels, hfs, hsource⟩ :=
    sourceLookup_some hwalk hrow hstack₂ hfs₂ hread
  have hreturned : ∀ c, done = .returned (s₂.print (text c) darkGreen) ∨
      done = .returned (s₂.print (text c) white) → movedEntry s cmd = none →
      done.shell.stack.levels = mvLevels s cmd ∧
        perform s.fs (mvCall s cmd) = some done.shell.fs := by
    intro c hdone hentry
    rw [(mv_sourceMissing hlen hentry).1, (mv_sourceMissing hlen hentry).2]
    rcases hdone with rfl | rfl
    all_goals exact ⟨hlevels, congrArg some hfs.symm⟩
  rcases hsource with ⟨hcode, hentry⟩ | ⟨rfl, hentry⟩
  · rw [if_pos hcode] at h
    exact hreturned _ (Or.inl (Option.some.inj h).symm) hentry
  rw [if_neg (show ¬ (0 : Int8) ≠ 0 by decide)] at h
  cases hindex : sourceIndex (parseTarget (charAt row)) t with
  | none =>
      rw [hindex] at h hentry
      exact hreturned _ (Or.inr (Option.some.inj h).symm) hentry
  | some i =>
      rw [hindex] at h hentry
      simp only [Option.bind_eq_some_iff] at h
      obtain ⟨s₃, hrestore, h⟩ := h
      obtain ⟨hkeep, hfs₃⟩ := restore_some hrestore
      -- the second walk begins where the first one did
      have hwalk₃ : ∀ rows, walkLevels s₃ rows = walkLevels s rows := by
        intro rows
        rw [walkLevels, walkLevels, keepsStack_iff.mp hkeep, hfs₃, hfs]
      obtain ⟨hlevels₃, hcall⟩ := moveToDestination_some rfl h
      rw [hwalk₃, hfs₃, hfs, keepsStack_iff.mp hkeep, hj] at hlevels₃
      rw [hwalk₃, hfs₃, hfs, hj] at hcall
      rw [mvLevels, mvCall, if_pos hlen, if_pos hlen, hentry]
      exact ⟨hlevels₃, hcall⟩

end OsyShell
