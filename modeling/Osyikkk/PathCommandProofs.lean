import Osyikkk.CommandLineProofs
import Osyikkk.OwnershipProofs

/-!
# Commands act on the resolved path or not at all

A path is resolved one component after another, a name by the used slots `1..63` of the
directory it is looked up in; a component that has no step ends the resolution. The shell's
walk goes on instead, so a command with an unresolvable component acts wherever the other
components lead (`mkdir_skips`). For plain paths it acts as specified exactly when the path
resolves, or when what it does there has no effect.
-/

namespace OsyShell

open OsyDisk OsyFat32 OsyVolume PartialRun

/-! ## Resolving a path -/

/-- The cluster of the first subdirectory with a name. -/
def childDirectory (fs : FileSystem) (d : UInt32) (name : EntryName) : Option UInt32 :=
  ((slotsFrom 1).find? fun i =>
      (fs.table d i).used ∧ (fs.table d i).attr = attrSubdirectory ∧
        (fs.table d i).name = name).map fun i => (fs.table d i).cluster

/-- The levels a path leads to, when every component has a step. -/
def resolve (fs : FileSystem) (levels : List Level) (path : List (List UInt8)) :
    Option (List Level) :=
  run (enter (childDirectory fs)) levels path

/-- The levels the components that have a step lead to. -/
def resolvable (fs : FileSystem) (levels : List Level) (path : List (List UInt8)) :
    List Level :=
  skipping (enter (childDirectory fs)) levels path

/-- Only a subdirectory carries the name, neither the directory itself nor an unused slot,
    and the subdirectory's own entry names its cluster. -/
structure LookupOk (fs : FileSystem) (d : UInt32) (name : EntryName) : Prop where
  own : (fs.table d 0).attr = attrSubdirectory → (fs.table d 0).name ≠ name
  unused : ∀ i, i ≠ 0 → (fs.table d i).attr = attrSubdirectory → (fs.table d i).name = name →
    (fs.table d i).used
  self : ∀ c, childDirectory fs d name = some c → (fs.table c 0).cluster = c

variable {fs : FileSystem} {d : UInt32} {name : EntryName}

/-- Then `read_directory` finds the subdirectory. -/
theorem findDirectory_eq_child (hn : name ≠ fun _ => 0) (h : LookupOk fs d name) :
    findDirectory fs d name = childDirectory fs d name := by
  have hself := h.self
  have hslots : slotsFrom 0 = 0 :: slotsFrom 1 := rfl
  have h0 : ¬ (name = (fs.table d 0).name ∧ (fs.table d 0).attr = attrSubdirectory) :=
    fun h0 => h.own h0.2 h0.1.symm
  have hrest : (slotsFrom 1).find? (fun i =>
        name = (fs.table d i).name ∧ (fs.table d i).attr = attrSubdirectory)
      = (slotsFrom 1).find? fun i => (fs.table d i).used ∧
          (fs.table d i).attr = attrSubdirectory ∧ (fs.table d i).name = name := by
    refine List.find?_congr fun i hi => decide_eq_decide.mpr ?_
    constructor
    · rintro ⟨hname, hattr⟩
      exact ⟨h.unused i (mem_slotsFrom_one.mp hi) hattr hname.symm, hattr, hname.symm⟩
    · rintro ⟨-, hattr, hname⟩
      exact ⟨hname.symm, hattr⟩
  rw [findDirectory, findTable, if_neg hn, hslots,
    List.find?_cons_of_neg (by simpa using h0), hrest]
  simp only [childDirectory] at hself ⊢
  cases hfind : (slotsFrom 1).find? fun i => (fs.table d i).used ∧
      (fs.table d i).attr = attrSubdirectory ∧ (fs.table d i).name = name with
  | none => rfl
  | some i =>
      rw [hfind] at hself
      exact congrArg some (hself _ rfl)

/-- On a consistent volume whose directories name themselves, every name but the directory's
    own is looked up so. -/
theorem lookupOk_of_consistent (hcons : FsConsistent fs) (hd : Live fs.table d)
    (hself : ∀ c, Live fs.table c → (fs.table c 0).cluster = c) (hn : name ≠ fun _ => 0)
    (hown : (fs.table d 0).name ≠ name) : LookupOk fs d name where
  own _ := hown
  unused _ _ _ hname := hcons.used_of_name hd (hname.symm ▸ hn)
  self c hc := by
    obtain ⟨i, hi, rfl⟩ := Option.map_eq_some_iff.mp hc
    obtain ⟨hused, hattr, -⟩ := by simpa using List.find?_some hi
    have hi0 := mem_slotsFrom_one.mp (List.mem_of_find?_eq_some hi)
    exact hself _ (RootedForest.Reach.child hd ⟨hi0, hused, hattr, rfl⟩)

/-! ## What the commands do in a directory -/

/-- The commands with one path. -/
inductive PathCommand where
  | cd
  | mkdir
  | rm
  | cat
  deriving DecidableEq

/-- The branch of a command. -/
def PathCommand.branch : PathCommand → Branch
  | .cd => .cd
  | .mkdir => .mkdir
  | .rm => .rm
  | .cat => .cat

/-- The components that lead to the directory a command acts in. -/
def PathCommand.walked (v : PathCommand) (path : List (List UInt8)) : List (List UInt8) :=
  if v = .cd then path else path.dropLast

/-- The cluster of the current directory. -/
def directoryNumber : List Level → UInt32
  | [] => rootClusterNumber
  | top :: _ => top.number

/-- `mkdir cn` in the directory `d`. -/
def makeIn (locals : Locals) (fs : FileSystem) (d : UInt32) (cn : List UInt8) :
    Option FileSystem :=
  (write locals.newTable
    { buf := fun _ => 0, name := rowName cn, ext := fun _ => 0, parentClusterNumber := d,
      bufferSize := 0 } fs).map Prod.snd

/-- A used entry with the name `cn`: a directory, or a file without extension. -/
def IsNamed (cn : List UInt8) (e : FAT32DirectoryEntry) : Prop :=
  e.used ∧ cString (List.ofFn e.name) = cn ∧ (e.attr = attrArchive → noExt e)

instance (cn : List UInt8) (e : FAT32DirectoryEntry) : Decidable (IsNamed cn e) :=
  inferInstanceAs (Decidable (_ ∧ _ ∧ (_ → _)))

/-- `rm cn` in the directory `d`. -/
def removeIn (fs : FileSystem) (d : UInt32) (cn : List UInt8) : Option FileSystem :=
  match (slotsFrom 1).find? fun i => IsNamed cn (fs.table d i) with
  | none => some fs
  | some i =>
      (delete
        { buf := fun _ => 0, name := (fs.table d i).name, ext := fun _ => 0,
          parentClusterNumber := d, bufferSize := 0 } fs).map Prod.snd

/-- What `cat cn` prints in the directory `d`. -/
def printIn (locals : Locals) (fs : FileSystem) (d : UInt32) (cn : List UInt8) :
    Option (List Display) :=
  match (slotsFrom 1).find? fun i => cString (List.ofFn (fs.table d i).name) = cn with
  | none => some []
  | some i =>
      (read
        { buf := locals.cl, name := rowName cn, ext := fun _ => 0, parentClusterNumber := d,
          bufferSize := (fs.table d i).filesize } fs).map fun (retcode, buf) =>
        if retcode ≠ 0 then
          [.writeString (text "cat:  : No such file or directory\n") white]
        else clusterTexts buf ((fs.table d i).filesize / 2048).toNat

/-- What is to be seen of a command: the directory stack, the file system and, for `cat`,
    what it sent to the screen beside the messages of `change_directory`. -/
structure Effect where
  levels : List Level
  fs : FileSystem
  shown : List Display

/-- The effect a run of `execute_cmd` had. -/
def observed (v : PathCommand) (s' : Shell) : Effect where
  levels := s'.stack.levels
  fs := s'.fs
  shown := if v = .cat then s'.shown else []

/-- What `cat` has sent when it printed some clusters. -/
def catShown (s : Shell) (printed : List Display) : List Display :=
  s.shown ++ newline :: (printed ++ promptDisplays s.stack.levels)

/-- The effect of a command that acts in the directory on top of `acting`. -/
def effectIn (locals : Locals) (s : Shell) (path : List (List UInt8)) (acting : List Level) :
    PathCommand → Option Effect
  | .cd => some { levels := acting, fs := s.fs, shown := [] }
  | .mkdir =>
      (makeIn locals s.fs (directoryNumber acting) (lastComponent path)).map fun fs =>
        { levels := s.stack.levels, fs := fs, shown := [] }
  | .rm =>
      (removeIn s.fs (directoryNumber acting) (lastComponent path)).map fun fs =>
        { levels := s.stack.levels, fs := fs, shown := [] }
  | .cat =>
      (printIn locals s.fs (directoryNumber acting) (lastComponent path)).map fun printed =>
        { levels := s.stack.levels, fs := s.fs, shown := catShown s printed }

/-- The effect of a command that does nothing. -/
def noEffect (v : PathCommand) (s : Shell) : Effect where
  levels := s.stack.levels
  fs := s.fs
  shown := if v = .cat then catShown s [] else []

/-- The effect a command with a path is to have. -/
def specified (locals : Locals) (v : PathCommand) (s : Shell) (path : List (List UInt8)) :
    Option Effect :=
  match resolve s.fs s.stack.levels (v.walked path) with
  | some acting => effectIn locals s path acting v
  | none => some (noEffect v s)

theorem specified_some {locals : Locals} {v : PathCommand} {s : Shell} {path : List (List UInt8)}
    {acting : List Level} (h : resolve s.fs s.stack.levels (v.walked path) = some acting) :
    specified locals v s path = effectIn locals s path acting v := by
  rw [specified, h]

theorem specified_none {locals : Locals} {v : PathCommand} {s : Shell} {path : List (List UInt8)}
    (h : resolve s.fs s.stack.levels (v.walked path) = none) :
    specified locals v s path = some (noEffect v s) := by
  rw [specified, h]

/-- `execute_cmd` on `word c1/…/cn` returns and has the specified effect. -/
def ActsOnResolved (locals : Locals) (behind : UInt8) (v : PathCommand) (s : Shell)
    (path : List (List UInt8)) : Prop :=
  ∃ s', executeCmd locals behind (bufferOf (pathLine v.branch.word path)) s = some s' ∧
    specified locals v s path = some (observed v s')

/-! ## Plain paths and stacks with room -/

/-- A component: one to eight characters other than NUL, space and slash. -/
def IsComponent (c : List UInt8) : Prop :=
  c ≠ [] ∧ c.length ≤ 8 ∧ ∀ b ∈ c, b ≠ 0 ∧ b ≠ space ∧ b ≠ slash

instance (c : List UInt8) : Decidable (IsComponent c) :=
  @instDecidableAnd _ _ _ (@instDecidableAnd _ _ _ (List.decidableBAll _ c))

/-- A path of components that fits the table and the buffer. A name that is walked over does
    not begin with a dot, and one that `rm` or `cat` parses has none. -/
structure PlainPath (v : PathCommand) (path : List (List UInt8)) : Prop where
  component : ∀ c ∈ path, IsComponent c
  nonempty : path ≠ []
  rows : path.length ≤ 37
  line : (pathLine v.branch.word path).length < 256
  dots : ∀ c ∈ v.walked path, charAt c 0 = dot → c = [dot] ∨ c = [dot, dot]
  target : v = .rm ∨ v = .cat → dot ∉ lastComponent path

/-- A component is looked up in a directory that does not carry its name, and leaves room on
    the stack. -/
structure StepOk (fs : FileSystem) (levels : List Level) (c : List UInt8) : Prop where
  lookup : charAt c 0 ≠ dot → ∀ top ∈ levels.head?, LookupOk fs top.number (rowName c)
  room : ∀ levels', enter (childDirectory fs) levels c = some levels' → levels'.length < 256

/-- The stack has room for the path and the restoring loop, the prompt fits its buffer, and
    the table `rm` and `cat` look up by name is the one of the directory they act in. -/
structure PlainStack (v : PathCommand) (s : Shell) (path : List (List UInt8)) : Prop where
  inUse : s.stack.length ≠ 0
  steps : AlongSkips (enter (childDirectory s.fs)) (StepOk s.fs) s.stack.levels (v.walked path)
  restored : v ≠ .cd → s.stack.length.toNat + path.length < 256
  prompt : (promptText (if v = .cd then resolvable s.fs s.stack.levels path
    else s.stack.levels)).length < 256
  named : v = .rm ∨ v = .cat →
    currentTable s.fs (resolvable s.fs s.stack.levels (v.walked path))
      = some (s.fs.table (directoryNumber (resolvable s.fs s.stack.levels (v.walked path))))

variable {locals : Locals} {behind : UInt8} {v : PathCommand} {s : Shell}
  {path : List (List UInt8)}

theorem IsComponent.isWord {c : List UInt8} (h : IsComponent c) : IsWord c where
  chars := h.2.2
  length := Nat.lt_of_le_of_lt h.2.1 (by decide)

theorem PlainPath.isPath (h : PlainPath v path) : IsPath path where
  words c hc := (h.component c hc).isWord
  first hnil := (h.component [] (List.mem_of_head? hnil)).1 rfl
  last hnil := (h.component [] (List.mem_of_getLast? hnil)).1 rfl
  nonempty := h.nonempty

theorem PlainPath.words (h : PlainPath v path) : ∀ c ∈ path, IsWord c ∧ c ≠ [] :=
  fun c hc => ⟨(h.component c hc).isWord, (h.component c hc).1⟩

theorem PlainPath.walked_mem (h : PlainPath v path) : ∀ c ∈ v.walked path, IsComponent c := by
  intro c hc
  refine h.component c ?_
  rw [PathCommand.walked] at hc
  split_ifs at hc
  · exact hc
  · exact List.mem_of_mem_dropLast hc

/-- On plain input a row of the walk is the component it stands for. -/
theorem walkStep_eq {levels : List Level} {c : List UInt8} (hc : IsComponent c)
    (hdots : charAt c 0 = dot → c = [dot] ∨ c = [dot, dot]) (h : StepOk fs levels c) :
    walkStep fs levels c = enter (childDirectory fs) levels c := by
  by_cases hd : charAt c 0 = dot
  · have hrow : componentOf c = c := by
      rcases hdots hd with rfl | rfl <;> rfl
    rw [walkStep, hrow]
    rcases hdots hd with rfl | rfl <;> rfl
  · have hname : rowName c ≠ fun _ => 0 := by
      intro hzero
      exact hc.isWord.first_ne_zero hc.1 (congrFun hzero 0)
    rw [walkStep, componentOf, if_neg hd, enter, enter]
    cases levels with
    | nil => rfl
    | cons top below =>
        have hlookup := findDirectory_eq_child hname (h.lookup hd top rfl)
        rw [descend, descend, hlookup]

/-- The walk of a plain command ends in the resolvable directory. -/
theorem plain_walk (hp : PlainPath v path) (hs : PlainStack v s path) :
    ∃ s', run (fun s row => changeToRow row s) (s.print (text "\n") white) (v.walked path)
        = some s' ∧
      s'.stack.levels = resolvable s.fs s.stack.levels (v.walked path) ∧
      s'.stack.length ≠ 0 ∧ s'.fs = s.fs ∧ s'.shown = s.shown ++ [newline] := by
  have hsteps : AlongSkips (enter (childDirectory s.fs))
      (fun levels c => walkStep s.fs levels c = enter (childDirectory s.fs) levels c ∧
        HasRoom s.fs levels c) s.stack.levels (v.walked path) := by
    refine alongSkips_mono _ ?_ hs.steps
    intro levels c hc hok
    have hcomp := hp.walked_mem c hc
    have hstep := walkStep_eq hcomp (hp.dots c hc) hok
    refine ⟨hstep, fun levels' => ?_⟩
    rw [hstep]
    exact hok.room levels'
  obtain ⟨hskip, hroom⟩ := skipping_congr _ hsteps
  have hinUse : (s.print (text "\n") white).stack.length ≠ 0 := hs.inUse
  obtain ⟨s', hrun, hlevels, hlen, hfs, hshown⟩ := walk_levels hinUse hroom
  refine ⟨s', hrun, hlevels.trans hskip, hlen, hfs, hshown.trans ?_⟩
  simp only [Shell.shown, Shell.print, List.filter_append]
  rfl

/-! ## The branches -/

theorem promptDisplays_shown (levels : List Level) :
    (promptDisplays levels).filter (· ≠ invalidDirectory) = promptDisplays levels := by
  refine List.filter_eq_self.mpr ?_
  intro e he
  simp only [promptDisplays, List.mem_cons, List.not_mem_nil, or_false] at he
  have hblue : blue ≠ darkGreen := by decide
  have hwhite : white ≠ darkGreen := by decide
  rcases he with rfl | rfl | rfl <;> simp [invalidDirectory, hblue, hwhite]

/-- The end of a branch that puts the stack back. -/
theorem restore_observed (v : PathCommand) {st : DirStack} (s₂ : Shell) {c : ℕ}
    (hlen : st.length ≠ 0) (hc : st.length.toNat + c ≤ 256)
    (hfits : (promptText st.levels).length < 256) :
    ((s₂.restore (saveStack st) c).bind fun s => BranchEnd.finish (.finished s)).map (observed v)
      = some
          { levels := st.levels
            fs := s₂.fs
            shown := if v = .cat then s₂.shown ++ promptDisplays st.levels else [] } := by
  obtain ⟨st', hback, hlevels, hlength⟩ := restore_levels s₂ hc
  have hfinish : BranchEnd.finish (.finished { s₂ with stack := st' })
      = some { s₂ with stack := st', screen := s₂.screen ++ promptDisplays st'.levels } :=
    finish_eq (by rwa [hlength]) (by rwa [hlevels])
  rw [hback, Option.bind_some, hfinish, Option.map_some]
  simp only [observed, Shell.shown, List.filter_append, promptDisplays_shown, hlevels]

theorem cd_effect (hp : PlainPath .cd path) (hs : PlainStack .cd s path) :
    (executeCmd locals behind (bufferOf (pathLine PathCommand.cd.branch.word path)) s).map
        (observed .cd)
      = effectIn locals s path (resolvable s.fs s.stack.levels path) .cd := by
  obtain ⟨s', hwalk, hlevels, hlen, hfs, -⟩ := plain_walk hp hs
  have hrun : run (fun s row => changeToRow row s) (s.print (text "\n") white) path = some s' :=
    hwalk
  have hfits : (promptText s'.stack.levels).length < 256 := hlevels ▸ hs.prompt
  have hused : rowUsed (pathTable PathCommand.cd.branch.word path) 1 = some true := rfl
  rw [executeCmd_path _ hp.isPath hp.rows hp.line]
  show ((executeCd _ _).bind _).map _ = _
  rw [executeCd, if_neg (Nat.lt_irrefl 1), hused]
  simp only [Option.bind_eq_bind, Option.bind_some, if_true]
  rw [pathLoop_all hp.words hp.rows, hrun, Option.map_some, Option.bind_some, Option.bind_some,
    finish_eq hlen hfits, Option.map_some]
  simp only [observed, hlevels, hfs, effectIn]
  rfl

theorem directoryNumber_levels {st : DirStack} (h : st.length ≠ 0) :
    directoryNumber st.levels = st.number (st.length - 1) := by
  rw [levels_cons h]
  rfl

/-- Where the other commands are after their path loop. -/
theorem plain_target (hv : v ≠ .cd) (hp : PlainPath v path) (hs : PlainStack v s path) :
    ∃ s₁ top, pathLoopIf (pathTable v.branch.word path)
        (fun i => rowUsed (pathTable v.branch.word path) (i + 1)) 2 2 (s.print (text "\n") white)
          = some (2 + path.dropLast.length, s₁) ∧
      s₁.stack.levels = resolvable s.fs s.stack.levels path.dropLast ∧
      s₁.stack.length ≠ 0 ∧ s₁.fs = s.fs ∧ s₁.shown = s.shown ++ [newline] ∧
      s₁.stack.top = some top ∧
      s₁.stack.number top = directoryNumber (resolvable s.fs s.stack.levels path.dropLast) ∧
      (pathTable v.branch.word path).row (2 + path.dropLast.length)
        = some (lastComponent path) := by
  obtain ⟨s₁, hrun, hlevels, hlen, hfs, hshown⟩ := plain_walk hp hs
  rw [PathCommand.walked, if_neg hv] at hrun hlevels
  refine ⟨s₁, s₁.stack.length - 1, ?_, hlevels, hlen, hfs, hshown, top_eq hlen, ?_, ?_⟩
  · rw [pathLoopIf_dropLast hp.words hp.rows hp.nonempty, hrun, Option.map_some]
  · rw [← hlevels, directoryNumber_levels hlen]
  · have hpos := List.length_pos_iff.mpr hp.nonempty
    rw [List.length_dropLast, pathTable_row (by omega) hp.rows, lastComponent,
      List.getLast?_eq_getElem?, List.getElem?_eq_getElem (by omega), Option.getD_some]

/-- The end of these commands: the stack they started with comes back. -/
theorem plain_restore (hv : v ≠ .cd) (hp : PlainPath v path) (hs : PlainStack v s path)
    (s₂ : Shell) :
    ((s₂.restore (saveStack (s.print (text "\n") white).stack) (2 + path.dropLast.length)).bind
        fun s => BranchEnd.finish (.finished s)).map (observed v)
      = some
          { levels := s.stack.levels
            fs := s₂.fs
            shown := if v = .cat then s₂.shown ++ promptDisplays s.stack.levels else [] } := by
  have hfits := hs.restored hv
  have hpos := List.length_pos_iff.mpr hp.nonempty
  have hc : s.stack.length.toNat + (2 + path.dropLast.length) ≤ 256 := by
    rw [List.length_dropLast]
    omega
  have hprompt := hs.prompt
  rw [if_neg hv] at hprompt
  exact restore_observed v s₂ hs.inUse hc hprompt

theorem mkdir_effect (hp : PlainPath .mkdir path) (hs : PlainStack .mkdir s path) :
    (executeCmd locals behind (bufferOf (pathLine PathCommand.mkdir.branch.word path)) s).map
        (observed .mkdir)
      = effectIn locals s path (resolvable s.fs s.stack.levels path.dropLast) .mkdir := by
  obtain ⟨s₁, top, hloop, -, -, hfs, -, htop, hnumber, hrow⟩ := plain_target (by decide) hp hs
  rw [executeCmd_path _ hp.isPath hp.rows hp.line, effectIn, makeIn]
  show ((executeMkdir _ _ _).bind _).map _ = _
  rw [executeMkdir, if_neg Nat.one_ne_zero, if_neg (Nat.lt_irrefl 1), hloop]
  simp only [Option.bind_eq_bind, Option.bind_some, htop, hrow, hnumber, hfs]
  cases hwrite : write locals.newTable
      { buf := fun _ => 0, name := rowName (lastComponent path), ext := fun _ => 0,
        parentClusterNumber := directoryNumber (resolvable s.fs s.stack.levels path.dropLast),
        bufferSize := 0 } s.fs with
  | none => rfl
  | some result =>
      obtain ⟨code, fs'⟩ := result
      simp only [Option.bind_some, Option.bind_assoc, Option.map_some]
      rw [plain_restore (by decide) hp hs]
      by_cases hcode : code ≠ 0
      · rw [if_pos hcode]
        rfl
      · rw [if_neg hcode]
        rfl

/-! ## `rm` -/

theorem extName_empty {e : FAT32DirectoryEntry} :
    cString (List.ofFn (extName e)) = [] ↔ noExt e := by
  rw [List.ofFn_succ, cString_cons, extName]
  by_cases h0 : noExt e
  · simp [h0]
  · have hne : ¬ e.ext 0 = 0 := h0
    simp [h0, hne]

/-- The test of `remove` for a parsed name without extension. -/
theorem isTarget_iff {name ext cn : List UInt8} (hname : cString name = cn)
    (hext : cString ext = []) (e : FAT32DirectoryEntry) :
    isTarget name ext e ↔ IsNamed cn e := by
  rw [isTarget, IsNamed, strcmp_eq_zero_iff, strcmp_eq_zero_iff, hname, hext, extName_empty]
  exact Iff.rfl

/-- `remove` in the directory the stack is at. -/
theorem remove_eq {name ext cn : List UInt8} (hname : cString name = cn)
    (hext : cString ext = []) {s : Shell} (hlen : s.stack.length ≠ 0)
    (hcur : currentTable s.fs s.stack.levels
      = some (s.fs.table (directoryNumber s.stack.levels))) :
    (remove name ext s).map Shell.fs = removeIn s.fs (directoryNumber s.stack.levels) cn := by
  have hslot : (slotsFrom 1).find? (fun i =>
        isTarget name ext (s.fs.table (directoryNumber s.stack.levels) i))
      = (slotsFrom 1).find? fun i =>
          IsNamed cn (s.fs.table (directoryNumber s.stack.levels) i) :=
    List.find?_congr fun i _ => decide_eq_decide.mpr (isTarget_iff hname hext _)
  rw [remove, readCurrentTable_found hlen _ hcur]
  simp only [Option.bind_eq_bind, Option.bind_some, hslot, removeIn]
  cases hfind : (slotsFrom 1).find? fun i =>
      IsNamed cn (s.fs.table (directoryNumber s.stack.levels) i) with
  | none => rfl
  | some i =>
      have hnamed := List.find?_some hfind
      rw [decide_eq_true_eq] at hnamed
      obtain ⟨-, -, hfile⟩ := hnamed
      have hext : (if (s.fs.table (directoryNumber s.stack.levels) i).attr = attrArchive then
          extName (s.fs.table (directoryNumber s.stack.levels) i) else fun _ => 0)
            = fun _ => 0 := by
        split_ifs with ha
        · exact if_neg (not_not.mpr (hfile ha))
        · rfl
      simp only [if_neg (show ¬ (0 : Int8) ≠ 0 by decide), top_eq hlen, Option.bind_some, hext,
        ← directoryNumber_levels hlen]
      cases hdelete : delete
          { buf := fun _ => 0, name := (s.fs.table (directoryNumber s.stack.levels) i).name,
            ext := fun _ => 0, parentClusterNumber := directoryNumber s.stack.levels,
            bufferSize := 0 } s.fs with
      | none => rfl
      | some result =>
          simp only [Option.bind_some, Option.map_some]
          split_ifs <;> rfl

theorem rm_effect (hp : PlainPath .rm path) (hs : PlainStack .rm s path) :
    (executeCmd locals behind (bufferOf (pathLine PathCommand.rm.branch.word path)) s).map
        (observed .rm)
      = effectIn locals s path (resolvable s.fs s.stack.levels path.dropLast) .rm := by
  obtain ⟨s₁, top, hloop, hlevels, hlen, hfs, -, -, -, hrow⟩ := plain_target (by decide) hp hs
  have hcn := hp.component _ (lastComponent_mem hp.nonempty)
  have hname := ofName_name hcn.isWord.zero_notMem hcn.2.1
  have hcur : currentTable s₁.fs s₁.stack.levels
      = some (s₁.fs.table (directoryNumber s₁.stack.levels)) := by
    rw [hlevels, hfs]
    exact hs.named (Or.inl rfl)
  have hremove := remove_eq hname (ofName_ext (lastComponent path)) hlen hcur
  rw [hlevels, hfs] at hremove
  rw [executeCmd_path _ hp.isPath hp.rows hp.line, effectIn, ← hremove]
  show ((executeRm _ _).bind _).map _ = _
  rw [executeRm, if_neg Nat.one_ne_zero, if_neg (Nat.lt_irrefl 1), hloop]
  simp only [Option.bind_eq_bind, Option.bind_some, hrow,
    parseTarget_name (hp.target (Or.inl rfl)) hcn.2.1, printParsed_ofName]
  cases remove (ParsedFile.ofName (lastComponent path)).name
      (ParsedFile.ofName (lastComponent path)).extString s₁ with
  | none => rfl
  | some s₂ =>
      simp only [Option.bind_some, Option.bind_assoc, Option.map_some]
      rw [plain_restore (by decide) hp hs]
      rfl

/-! ## `cat` -/

/-- The loop of `cat` in the directory the stack is at. -/
theorem catLoop_eq {cn : List UInt8} {parsed : ParsedFile} (hname : cString parsed.name = cn)
    (hext : parsed.targetExt = fun _ => 0) {s : Shell} {d : UInt32} (hlen : s.stack.length ≠ 0)
    (hd : s.stack.number (s.stack.length - 1) = d) :
    catLoop locals cn parsed (s.fs.table d) s
      = (printIn locals s.fs d cn).map fun printed =>
          { s with screen := s.screen ++ printed } := by
  have hslot : (slotsFrom 1).find? (fun i =>
        strcmp (List.ofFn (s.fs.table d i).name) parsed.name = 0)
      = (slotsFrom 1).find? fun i => cString (List.ofFn (s.fs.table d i).name) = cn := by
    refine List.find?_congr fun i _ => decide_eq_decide.mpr ?_
    rw [strcmp_eq_zero_iff, hname]
  rw [catLoop, printIn, hslot]
  cases hfind : (slotsFrom 1).find? fun i => cString (List.ofFn (s.fs.table d i).name) = cn with
  | none => simp only [Option.map_some, List.append_nil]
  | some i =>
      simp only [top_eq hlen, Option.bind_eq_bind, Option.bind_some, hd, hext]
      cases hread : OsyFat32.read
          { buf := locals.cl, name := rowName cn, ext := fun _ => 0, parentClusterNumber := d,
            bufferSize := (s.fs.table d i).filesize } s.fs with
      | none => rfl
      | some result =>
          obtain ⟨code, buf⟩ := result
          simp only [Option.bind_some, Option.map_some]
          by_cases hcode : code ≠ 0
          · rw [if_pos hcode, if_pos hcode]
            rfl
          · rw [if_neg hcode, if_neg hcode]

/-- `cat` prints in white. -/
theorem printIn_shown {d : UInt32} {cn : List UInt8} {printed : List Display}
    (h : printIn locals fs d cn = some printed) :
    printed.filter (· ≠ invalidDirectory) = printed := by
  have hwhite : ∀ str, Display.writeString str white ≠ invalidDirectory := by
    intro str heq
    exact absurd (Display.writeString.inj heq).2 (by decide)
  have hall : ∀ e ∈ printed, ∃ str, e = .writeString str white := by
    rw [printIn] at h
    cases hfind : (slotsFrom 1).find? fun i =>
        cString (List.ofFn (fs.table d i).name) = cn with
    | none =>
        rw [hfind] at h
        obtain rfl := Option.some.inj h
        exact fun e he => absurd he List.not_mem_nil
    | some i =>
        rw [hfind] at h
        obtain ⟨⟨code, buf⟩, -, hprinted⟩ := Option.map_eq_some_iff.mp h
        subst hprinted
        intro e he
        by_cases hcode : code ≠ 0
        · simp only [if_pos hcode, List.mem_singleton] at he
          exact ⟨_, he⟩
        · simp only [if_neg hcode] at he
          obtain ⟨j, -, rfl⟩ := List.mem_map.mp he
          exact ⟨_, rfl⟩
  refine List.filter_eq_self.mpr ?_
  intro e he
  obtain ⟨str, rfl⟩ := hall e he
  exact decide_eq_true (hwhite str)

theorem cat_effect (hp : PlainPath .cat path) (hs : PlainStack .cat s path) :
    (executeCmd locals behind (bufferOf (pathLine PathCommand.cat.branch.word path)) s).map
        (observed .cat)
      = effectIn locals s path (resolvable s.fs s.stack.levels path.dropLast) .cat := by
  obtain ⟨s₁, top, hloop, hlevels, hlen, hfs, hshown, -, -, hrow⟩ :=
    plain_target (by decide) hp hs
  have hcn := hp.component _ (lastComponent_mem hp.nonempty)
  have hname := ofName_name hcn.isWord.zero_notMem hcn.2.1
  have hcur : currentTable s₁.fs s₁.stack.levels
      = some (s₁.fs.table (directoryNumber (resolvable s.fs s.stack.levels path.dropLast))) := by
    rw [hlevels, hfs]
    exact hs.named (Or.inr rfl)
  have hnumber : s₁.stack.number (s₁.stack.length - 1)
      = directoryNumber (resolvable s.fs s.stack.levels path.dropLast) := by
    rw [← hlevels, directoryNumber_levels hlen]
  have hused : rowUsed (pathTable PathCommand.cat.branch.word path) 2 = some true := by
    have hpos := List.length_pos_iff.mpr hp.nonempty
    rw [show 2 = 2 + 0 from rfl, pathTable_used_eq hp.words hp.rows (Nat.zero_le _),
      decide_eq_true hpos]
  rw [executeCmd_path _ hp.isPath hp.rows hp.line, effectIn]
  show ((executeCat _ _ _).bind _).map _ = _
  rw [executeCat, if_neg Nat.one_ne_zero, if_neg (Nat.lt_irrefl 1), hused]
  simp only [Option.bind_eq_bind, Option.bind_some, if_true, hloop, hrow,
    parseTarget_name (hp.target (Or.inr rfl)) hcn.2.1, printParsed_ofName,
    readCurrentTable_found hlen _ hcur, catLoop_eq hname rfl hlen hnumber]
  rw [hfs]
  cases hprint : printIn locals s.fs
      (directoryNumber (resolvable s.fs s.stack.levels path.dropLast)) (lastComponent path) with
  | none => rfl
  | some printed =>
      have hfilter : ({ s₁ with fs := s.fs, screen := s₁.screen ++ printed } : Shell).shown
          = s.shown ++ newline :: printed := by
        rw [Shell.shown, List.filter_append, printIn_shown hprint]
        show s₁.shown ++ printed = _
        rw [hshown, List.append_assoc]
        rfl
      simp only [Option.bind_some, Option.bind_assoc, Option.map_some]
      rw [plain_restore (by decide) hp hs, if_pos rfl, hfilter, catShown, List.append_assoc]
      rfl

/-! ## The commands -/

/-- A plain command acts in the directory its resolvable components lead to. -/
theorem execute_effect (hp : PlainPath v path) (hs : PlainStack v s path) :
    (executeCmd locals behind (bufferOf (pathLine v.branch.word path)) s).map (observed v)
      = effectIn locals s path (resolvable s.fs s.stack.levels (v.walked path)) v := by
  cases v with
  | cd => exact cd_effect hp hs
  | mkdir => exact mkdir_effect hp hs
  | rm => exact rm_effect hp hs
  | cat => exact cat_effect hp hs

/-- **Path commands.** On plain input a command acts on the resolved path or not at all
    exactly when its path resolves and the call it makes returns, or when it has no effect
    where the resolvable components lead. -/
theorem pathCommand_acts_iff (locals : Locals) (behind : UInt8) (v : PathCommand) (s : Shell)
    (path : List (List UInt8)) (hp : PlainPath v path) (hs : PlainStack v s path) :
    ActsOnResolved locals behind v s path ↔
      (∃ acting, resolve s.fs s.stack.levels (v.walked path) = some acting ∧
        (effectIn locals s path acting v).isSome) ∨
      (resolve s.fs s.stack.levels (v.walked path) = none ∧
        effectIn locals s path (resolvable s.fs s.stack.levels (v.walked path)) v
          = some (noEffect v s)) := by
  have heffect : (executeCmd locals behind (bufferOf (pathLine v.branch.word path)) s).map
      (observed v) = effectIn locals s path
        (resolvable s.fs s.stack.levels (v.walked path)) v := execute_effect hp hs
  constructor
  · rintro ⟨s', hexec, hs'⟩
    rw [hexec, Option.map_some] at heffect
    cases hres : resolve s.fs s.stack.levels (v.walked path) with
    | some acting =>
        rw [specified_some hres] at hs'
        exact Or.inl ⟨acting, rfl, Option.isSome_of_eq_some hs'⟩
    | none =>
        rw [specified_none hres] at hs'
        exact Or.inr ⟨rfl, heffect.symm.trans hs'.symm⟩
  · rintro (⟨acting, hres, hsome⟩ | ⟨hres, hnone⟩)
    · -- every component has a step, so none is skipped
      have hacting : resolvable s.fs s.stack.levels (v.walked path) = acting :=
        skipping_of_run _ hres
      rw [hacting] at heffect
      obtain ⟨e, he⟩ := Option.isSome_iff_exists.mp hsome
      obtain ⟨s', hexec, hobs⟩ := Option.map_eq_some_iff.mp (heffect.trans he)
      exact ⟨s', hexec, (specified_some hres).trans (he.trans (congrArg some hobs.symm))⟩
    · obtain ⟨s', hexec, hobs⟩ := Option.map_eq_some_iff.mp (heffect.trans hnone)
      exact ⟨s', hexec, (specified_none hres).trans (congrArg some hobs.symm)⟩

/-! ## Runs from the initial stack -/

/-- In the root of an owned volume every name but the root's is looked up right. -/
theorem root_stepOk {fs : FileSystem} (hown : Owned fs.table fs.fat) {c : List UInt8}
    (hc : IsComponent c) (hname : (fs.table rootClusterNumber 0).name ≠ rowName c) :
    StepOk fs [rootLevel] c where
  lookup _ top htop := by
    obtain rfl := Option.some.inj htop
    refine lookupOk_of_consistent hown.consistent RootedForest.Reach.root (fun c => hown.self)
      ?_ hname
    intro hzero
    exact hc.isWord.first_ne_zero hc.1 (congrFun hzero 0)
  room levels' h := by
    have hlen := enter_length h
    rw [List.length_singleton] at hlen
    omega

/-- `cd a` moves to the directory `a`. -/
theorem cd_acts : ActsOnResolved zeroLocals 0 .cd (startShell afterMkdir) [[97]] := by
  have hp : PlainPath .cd [[97]] :=
    { component := by decide
      nonempty := by simp
      rows := by simp
      line := by decide
      dots := by simp [PathCommand.walked, charAt]
      target := by simp }
  have hresolve : resolve afterMkdir [rootLevel] [[97]]
      = some [Level.entered (rowName [97]) 3, rootLevel] := by
    have hchild : childDirectory afterMkdir 2 (rowName [97]) = some 3 := by decide
    rw [resolve, run_cons, enter, if_neg (by decide), if_neg (by decide), descend]
    show Option.bind ((childDirectory afterMkdir 2 (rowName [97])).map _) _ = _
    rw [hchild]
    rfl
  have hs : PlainStack .cd (startShell afterMkdir) [[97]] := by
    refine ⟨by decide, ⟨root_stepOk afterMkdir_owned ?_ (by decide), trivial⟩, ?_, ?_, ?_⟩
    · exact hp.component _ List.mem_cons_self
    · exact fun h => absurd rfl h
    · show (promptText (resolvable afterMkdir [rootLevel] [[97]])).length < 256
      rw [resolvable, skipping_of_run _ hresolve]
      decide
    · rintro (h | h) <;> exact absurd h (by decide)
  exact (pathCommand_acts_iff zeroLocals 0 .cd _ _ hp hs).mpr (Or.inl ⟨_, hresolve, rfl⟩)

/-- An unresolvable `mkdir` that makes something where the resolvable components lead does
    not act as specified. -/
theorem mkdir_not_acts {s : Shell} {path : List (List UInt8)} {fs' : FileSystem}
    (hp : PlainPath .mkdir path) (hs : PlainStack .mkdir s path)
    (hnone : resolve s.fs s.stack.levels path.dropLast = none)
    (hmade : makeIn locals s.fs
      (directoryNumber (resolvable s.fs s.stack.levels path.dropLast)) (lastComponent path)
        = some fs')
    (hne : fs' ≠ s.fs) : ¬ ActsOnResolved locals behind .mkdir s path := by
  rintro ⟨s', hexec, hspec⟩
  have heffect : (executeCmd locals behind (bufferOf (pathLine PathCommand.mkdir.branch.word
      path)) s).map (observed .mkdir) = _ := mkdir_effect hp hs
  rw [hexec, Option.map_some, effectIn, hmade, Option.map_some] at heffect
  have hspec' : some (noEffect .mkdir s) = some (observed .mkdir s') :=
    (specified_none hnone).symm.trans hspec
  have hsame := Option.some.inj (hspec'.trans heffect)
  exact hne (congrArg Effect.fs hsame).symm

/-- In the fresh root `mkdir x/a` makes `a` in the root, though there is no `x`. -/
theorem mkdir_skips : PlainPath .mkdir [[120], [97]] ∧
    ¬ ActsOnResolved zeroLocals 0 .mkdir (startShell (freshFileSystem blankDisk))
      [[120], [97]] := by
  have hp : PlainPath .mkdir [[120], [97]] :=
    { component := by decide
      nonempty := by simp
      rows := by simp
      line := by decide
      dots := by simp [PathCommand.walked, charAt]
      target := by simp }
  have henter : enter (childDirectory (freshFileSystem blankDisk)) [rootLevel] [120] = none := by
    have hchild : childDirectory (freshFileSystem blankDisk) rootClusterNumber (rowName [120])
        = none := by
      refine Option.map_eq_none_iff.mpr (List.find?_eq_none.mpr fun i hi => ?_)
      rw [decide_eq_true_eq, fresh_slot blankDisk (mem_slotsFrom_one.mp hi)]
      exact fun h => zero_not_used h.1
    rw [enter, if_neg (by decide), if_neg (by decide), descend]
    exact Option.map_eq_none_iff.mpr hchild
  have hs : PlainStack .mkdir (startShell (freshFileSystem blankDisk)) [[120], [97]] := by
    refine ⟨by decide, ⟨root_stepOk (fresh_owned blankDisk) (by decide) ?_, trivial⟩, ?_, ?_, ?_⟩
    · rw [fresh_root]
      decide
    · exact fun _ => by decide
    · show (promptText [rootLevel]).length < 256
      decide
    · rintro (h | h) <;> exact absurd h (by decide)
  have hacting : resolvable (freshFileSystem blankDisk) [rootLevel] [[120]] = [rootLevel] := by
    rw [resolvable, skipping_cons, henter]
    rfl
  have hnone : resolve (freshFileSystem blankDisk) [rootLevel] [[120]] = none := by
    rw [resolve, run_cons, henter, Option.bind_none]
  have hmade : makeIn zeroLocals (freshFileSystem blankDisk)
      (directoryNumber (resolvable (freshFileSystem blankDisk) [rootLevel] [[120]]))
      (lastComponent [[120], [97]]) = some afterMkdir := by
    rw [hacting]
    exact exec_mkdir
  have hne : afterMkdir ≠ freshFileSystem blankDisk := by
    intro heq
    have hused : (afterMkdir.table 2 1).used := by decide
    rw [heq] at hused
    exact fresh_unused blankDisk (by decide) hused
  exact ⟨hp, mkdir_not_acts hp hs hnone hmade hne⟩

end OsyShell
