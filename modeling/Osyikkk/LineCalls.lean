import Osyikkk.CopyProofs
import Osyikkk.ShellLines

/-!
# The calls a command line makes

Of the calls of `user-shell.c` those that can change the volume are the writes of `mkdir` and
`cp`, the deletion of `rm` and the move of `mv`. Every line leaves the volume where the list
of its calls leads (`executeLine_calls`), and the stack as it was, but for `cd` and an `mv`
that returns from the middle.
-/

namespace OsyShell

open OsyDisk OsyFat32 OsyVolume PartialRun

/-! ## The calls of `cp` -/

/-- The request that `copy_file` reads with. -/
def copyRequest (locals : Locals) (name : EntryName) (ext : EntryExt)
    (size parentCluster : UInt32) : FAT32DriverRequest where
  buf := locals.cl
  name := name
  ext := ext
  parentClusterNumber := parentCluster
  bufferSize := size

/-- The call of `copy_file`, which writes what it has read. -/
def copyFileCalls (locals : Locals) (name : EntryName) (ext : EntryExt)
    (size parentCluster destCluster : UInt32) (fs : FileSystem) : List Call :=
  let request := copyRequest locals name ext size parentCluster
  (read request fs).elim [] fun answer =>
    if answer.1 ≠ 0 then []
    else
      [.write locals.newTable
        { request with buf := answer.2, parentClusterNumber := destCluster }]

/-- The calls of a round of the loop of `copy_folder`. -/
def copySlotCalls (locals : Locals)
    (copyDirectoryCalls : EntryName → UInt32 → UInt32 → FileSystem → List Call)
    (reqTable newTable : FAT32DirectoryTable) (fs : FileSystem) (i : Fin directoryEntryCount) :
    List Call :=
  let entry := reqTable i
  if entry.userAttribute = uattrNotEmpty then
    if entry.attr ≠ attrArchive then
      copyDirectoryCalls entry.name (reqTable 0).cluster (newTable 0).cluster fs
    else
      copyFileCalls locals entry.name entry.ext entry.filesize (reqTable 0).cluster
        (newTable 0).cluster fs
  else []

/-- The calls of `copy_folder`. -/
def copyFolderCalls (locals : Locals) :
    ℕ → EntryName → UInt32 → UInt32 → FileSystem → List Call
  | 0, _, _, _, _ => []
  | depth + 1, name, parentCluster, destCluster, fs =>
      let reqTable := (readDirectoryTable name parentCluster locals.reqTable fs).2
      let request := folderRequest reqTable name destCluster
      .write locals.newTable request ::
        (write locals.newTable request fs).elim [] fun answer =>
          if answer.1 ≠ 0 then []
          else
            emitted exec
              (copySlotCalls locals (copyFolderCalls locals depth) reqTable
                (readDirectoryTable name destCluster locals.copiedTable answer.2).2)
              answer.2 (slotsFrom 1)

/-- The calls of the branch for `cp`: the two walks, the name and the directories. -/
def cpCalls (locals : Locals) (s : Shell) (cmd : TokenTable) : List Call :=
  let source := walkLevels s (sourcePath cmd)
  let parsed := parseTarget (charAt (sourceRow cmd))
  let parentTable := (currentTable s.fs source).getD locals.parentTable
  let destCluster := directoryNumber (walkLevels s (destPath cmd))
  let fileName : EntryName := fun j => parsed.targetName j
  if parsed.targetExt 0 ≠ 0 then
    copyFileCalls locals fileName (fun j => parsed.targetExt j)
      (cpFilesize locals parsed parentTable) (directoryNumber source) destCluster s.fs
  else
    copyFolderCalls locals locals.callDepth fileName (directoryNumber source) destCluster s.fs

variable {locals : Locals} {cmd : TokenTable} {s s' s₁ s₂ : Shell} {done : BranchEnd}
  {name : EntryName} {ext : EntryExt} {size parent dest : UInt32} {fs : FileSystem} {k : Call}

/-- The call is a write. -/
def Call.IsWrite : Call → Prop
  | .write _ _ => True
  | _ => False

theorem copyFileCalls_isWrite (hk : k ∈ copyFileCalls locals name ext size parent dest fs) :
    Call.IsWrite k := by
  rw [copyFileCalls] at hk
  cases hread : read (copyRequest locals name ext size parent) fs with
  | none =>
      rw [hread] at hk
      exact absurd hk List.not_mem_nil
  | some answer =>
      rw [hread, Option.elim_some] at hk
      split_ifs at hk
      · exact absurd hk List.not_mem_nil
      · obtain rfl := List.mem_singleton.mp hk
        trivial

theorem copyFolderCalls_isWrite (depth : ℕ) :
    ∀ {name parent dest fs}, ∀ k ∈ copyFolderCalls locals depth name parent dest fs,
      Call.IsWrite k := by
  induction depth with
  | zero => exact fun k hk => absurd hk List.not_mem_nil
  | succ depth ih =>
      intro name parent dest fs k hk
      rw [copyFolderCalls] at hk
      rcases List.mem_cons.mp hk with rfl | hk
      · trivial
      generalize write locals.newTable _ fs = answer at hk
      cases answer with
      | none => exact absurd hk List.not_mem_nil
      | some answer =>
          rw [Option.elim_some] at hk
          split_ifs at hk
          · exact absurd hk List.not_mem_nil
          · refine emitted_forall exec (fun fs i k hk => ?_) k hk
            rw [copySlotCalls] at hk
            split_ifs at hk
            · exact ih k hk
            · exact copyFileCalls_isWrite hk
            · exact absurd hk List.not_mem_nil

/-- `cp` writes. -/
theorem cpCalls_isWrite (hk : k ∈ cpCalls locals s cmd) : Call.IsWrite k := by
  rw [cpCalls] at hk
  split_ifs at hk
  · exact copyFileCalls_isWrite hk
  · exact copyFolderCalls_isWrite _ k hk

/-- `copy_file` changes the volume by its call. -/
theorem copyFile_some (h : copyFile locals name ext size parent dest s = some s') :
    run exec s.fs (copyFileCalls locals name ext size parent dest s.fs) = some s'.fs := by
  simp only [copyFile, Option.bind_eq_bind, Option.bind_eq_some_iff] at h
  obtain ⟨⟨code, buf⟩, hread, h⟩ := h
  have hread : read (copyRequest locals name ext size parent) s.fs = some (code, buf) := hread
  rw [copyFileCalls, hread, Option.elim_some]
  by_cases hcode : code ≠ 0
  · rw [if_pos hcode] at h ⊢
    obtain rfl := Option.some.inj h
    rfl
  · rw [if_neg hcode] at h ⊢
    obtain ⟨⟨code', fs'⟩, hwrite, h⟩ := Option.bind_eq_some_iff.mp h
    have hcall : exec s.fs (.write locals.newTable
        { copyRequest locals name ext size parent with
          buf := buf
          parentClusterNumber := dest }) = some fs' := congrArg (Option.map Prod.snd) hwrite
    rw [run_cons, hcall]
    split_ifs at h
    all_goals
      obtain rfl := Option.some.inj h
      rfl

/-- So does a round of the loop of `copy_folder`, when its nested call does. -/
theorem copySlot_some {copyDirectory : EntryName → UInt32 → UInt32 → Shell → Option Shell}
    {calls : EntryName → UInt32 → UInt32 → FileSystem → List Call}
    {reqTable newTable : FAT32DirectoryTable} {i : Fin directoryEntryCount}
    (hdir : ∀ name parent dest s s', copyDirectory name parent dest s = some s' →
      run exec s.fs (calls name parent dest s.fs) = some s'.fs)
    (h : copySlot locals copyDirectory reqTable newTable s i = some s') :
    run exec s.fs (copySlotCalls locals calls reqTable newTable s.fs i) = some s'.fs := by
  rw [copySlot] at h
  rw [copySlotCalls]
  split_ifs at h ⊢
  · exact hdir _ _ _ _ _ h
  · exact copyFile_some h
  · obtain rfl := Option.some.inj h
    rfl

/-- `copy_folder`, by induction on the room for nested calls. -/
theorem copyFolder_some (depth : ℕ) : ∀ (name : EntryName) (parent dest : UInt32) (s s' : Shell),
    copyFolder locals depth name parent dest s = some s' →
      run exec s.fs (copyFolderCalls locals depth name parent dest s.fs) = some s'.fs := by
  induction depth with
  | zero => exact fun _ _ _ _ _ h => nomatch h
  | succ depth ih =>
      intro name parent dest s s' h
      obtain ⟨found, t, opened, code, fs, hread, -, hwrite, h⟩ := copyFolder_step.mp h
      have hcall : exec s.fs (.write locals.newTable (folderRequest t name dest)) = some fs :=
        congrArg (Option.map Prod.snd) hwrite
      rw [copyFolderCalls, hread, run_cons, hcall, Option.bind_some, hwrite, Option.elim_some]
      by_cases hcode : code ≠ 0
      · rw [if_pos hcode] at h ⊢
        obtain rfl := Option.some.inj h
        rfl
      · rw [if_neg hcode] at h ⊢
        exact run_emitted exec Shell.fs (fun t i t' hi => copySlot_some ih hi) h

/-! ## The branch for `cp` -/

/-- The second half of `cp`. -/
theorem copyToDestination_calls {parsed : ParsedFile} {filesize : UInt32} {j : ℕ}
    {rows : List (List UInt8)} (hrows : rows = walkedIf cmd (rowWord cmd) (j + 2))
    (h : copyToDestination locals cmd parsed filesize parent j s = some done) :
    run exec s.fs
      (if parsed.targetExt 0 ≠ 0 then
        copyFileCalls locals (fun i => parsed.targetName i) (fun i => parsed.targetExt i)
          filesize parent (directoryNumber (walkLevels s rows)) s.fs
      else
        copyFolderCalls locals locals.callDepth (fun i => parsed.targetName i) parent
          (directoryNumber (walkLevels s rows)) s.fs) = some done.shell.fs := by
  subst hrows
  simp only [copyToDestination, Option.bind_eq_bind, Option.bind_eq_some_iff] at h
  obtain ⟨⟨j', s₁⟩, hwalk, row, hrow, top, htop, h⟩ := h
  obtain ⟨hrun, -⟩ := pathLoopIf_some hwalk
  obtain ⟨s₂, hs₂, hstack₂, hfs₂⟩ : ∃ s₂, s₂ = (s₁.print (text "\n") white).print
      (cString ((List.range 12).map (charAt row))) white ∧
      s₂.stack = s₁.stack ∧ s₂.fs = s₁.fs := ⟨_, rfl, rfl, rfl⟩
  dsimp only at htop h
  rw [← hs₂] at htop h
  obtain ⟨hinUse, rfl⟩ := top_some htop
  rw [hstack₂] at hinUse h
  obtain ⟨hlevels, hfs₁, -⟩ := walk_some hrun hinUse
  have hdest : s₁.stack.number (s₁.stack.length - 1)
      = directoryNumber (walkLevels s (walkedIf cmd (rowWord cmd) (j + 2))) := by
    rw [← hlevels, levels_cons hinUse]
    rfl
  rw [hdest] at h
  have hfs : s₂.fs = s.fs := hfs₂.trans hfs₁
  -- the restoring loop leaves the volume
  have hback : ∀ s₃ : Shell, (s₃.restore (saveStack s.stack) j').bind
      (fun s => some (BranchEnd.finished s)) = some done → done.shell.fs = s₃.fs := by
    intro s₃ hend
    obtain ⟨s₄, hrestore, hend⟩ := Option.bind_eq_some_iff.mp hend
    obtain rfl := Option.some.inj hend
    exact (restore_some hrestore).2
  split_ifs at h ⊢
  · obtain ⟨s₃, hcopy, h⟩ := Option.bind_eq_some_iff.mp h
    rw [hback s₃ h, ← hfs]
    exact copyFile_some hcopy
  · obtain ⟨s₃, hcopy, h⟩ := Option.bind_eq_some_iff.mp h
    rw [hback s₃ h, ← hfs]
    exact copyFolder_some _ _ _ _ _ _ hcopy

/-- The table that a lookup of the current directory leaves in a local. -/
theorem readCurrentTable_getD {old t : FAT32DirectoryTable} {code : Int8}
    (h : readCurrentTable old s = some (code, t)) :
    t = (currentTable s.fs s.stack.levels).getD old := by
  obtain ⟨hinUse, -⟩ := readCurrentTable_some h
  cases hcur : currentTable s.fs s.stack.levels with
  | some t' =>
      have hfound := (readCurrentTable_found hinUse old hcur).symm.trans h
      exact (Prod.mk.inj (Option.some.inj hfound)).2.symm
  | none =>
      obtain ⟨code', -, hnone⟩ := readCurrentTable_none hinUse old hcur
      exact (Prod.mk.inj (Option.some.inj (hnone.symm.trans h))).2.symm

/-- The branch for `cp`. -/
theorem executeCp_calls (h : executeCp locals cmd s = some done) :
    run exec s.fs (cpCalls locals s cmd) = some done.shell.fs := by
  simp only [executeCp, Option.bind_eq_bind, Option.bind_eq_some_iff] at h
  obtain ⟨⟨j, s₁⟩, hwalk, row, hrow, ⟨code, t⟩, hread, top, htop, s₄, hrestore, h⟩ := h
  obtain ⟨hrun, hj⟩ := pathLoopIf_some hwalk
  have hj : j = 2 + (sourcePath cmd).length := hj rfl
  obtain ⟨s₂, hs₂, hstack₂, hfs₂⟩ := nameMessages s₁ row
  change readCurrentTable locals.parentTable (Shell.printParsed _ _) = _ at hread
  rw [← hs₂] at hread
  obtain ⟨s₃, hs₃, hstack₃, hfs₃⟩ : ∃ s₃, s₃ = (if code ≠ 0 then
      { s₂ with screen := s₂.screen ++ [invalidDirectory] } else s₂) ∧
      s₃.stack = s₁.stack ∧ s₃.fs = s₁.fs := by
    refine ⟨_, rfl, ?_, ?_⟩ <;> split_ifs
    exacts [hstack₂, hstack₂, hfs₂, hfs₂]
  dsimp only at htop hrestore h hrow
  rw [← hs₂, ← hs₃] at htop hrestore h
  obtain ⟨hinUse, rfl⟩ := top_some htop
  rw [hstack₃] at hinUse h
  obtain ⟨hlevels, hfs₁, -⟩ := walk_some hrun hinUse
  have hlevels : s₁.stack.levels = walkLevels s (sourcePath cmd) := hlevels
  obtain ⟨hkeep, hfs₄⟩ := restore_some hrestore
  have hfs : s₄.fs = s.fs := hfs₄.trans (hfs₃.trans hfs₁)
  have hrow : row = sourceRow cmd := by
    rw [← row_some hrow, hj]
    rfl
  have hsource : s₁.stack.number (s₁.stack.length - 1)
      = directoryNumber (walkLevels s (sourcePath cmd)) := by
    rw [← hlevels, levels_cons hinUse]
    rfl
  have htable : t = (currentTable s.fs (walkLevels s (sourcePath cmd))).getD
      locals.parentTable := by
    rw [readCurrentTable_getD hread, hstack₂, hfs₂, hfs₁, hlevels]
  -- the second walk begins where the first one did
  have hwalk₄ : walkLevels s₄ (destPath cmd) = walkLevels s (destPath cmd) := by
    rw [walkLevels, walkLevels, keepsStack_iff.mp hkeep, hfs]
  have hdest : destPath cmd = walkedIf cmd (rowWord cmd) (j + 2) := by
    rw [hj]
    rfl
  have hcalls := copyToDestination_calls hdest h
  rw [hwalk₄, hfs, hsource, htable, hrow] at hcalls
  exact hcalls

/-! ## The other branches -/

/-- `cd` with at most one argument. -/
theorem executeCd_walk (hlen : ¬ cmd.cmdLength > 1)
    (h : executeCd cmd s = some done) (hfinish : done.finish = some s') :
    s'.stack.levels = walkLevels (cdStart s cmd) (cdPath cmd) ∧ s'.fs = s.fs := by
  obtain ⟨hstack, hfs, hprompt⟩ := finish_some hfinish
  simp only [executeCd, if_neg hlen, Option.bind_eq_bind, Option.bind_eq_some_iff] at h
  obtain ⟨used, hused, ⟨j, s₁⟩, hwalk, h⟩ := h
  obtain rfl := Option.some.inj h
  have hstart : (if used = true then s
      else { s with stack := { s.stack with length := 1 } }) = cdStart s cmd := by
    rw [cdStart, hused]
    cases used <;> rfl
  rw [hstart] at hwalk
  have hinUse : s₁.stack.length ≠ 0 := by
    have hlen := hprompt rfl
    rwa [hstack] at hlen
  obtain ⟨hlevels, hfs₁, -⟩ :=
    walk_some (pathLoop_some hwalk).2 hinUse
  exact ⟨(congrArg DirStack.levels hstack).trans hlevels,
    hfs.trans (hfs₁.trans (cdStart_fs s cmd))⟩

theorem catLoop_fs {row : List UInt8} {parsed : ParsedFile} {t : FAT32DirectoryTable}
    (h : catLoop locals row parsed t s = some s') : s'.fs = s.fs := by
  rw [catLoop] at h
  cases hslot : (slotsFrom 1).find? fun i => strcmp (List.ofFn (t i).name) parsed.name = 0 with
  | none =>
      rw [hslot] at h
      obtain rfl := Option.some.inj h
      rfl
  | some i =>
      rw [hslot] at h
      simp only [Option.bind_eq_bind, Option.bind_eq_some_iff] at h
      obtain ⟨top, -, ⟨code, buf⟩, -, h⟩ := h
      split_ifs at h
      all_goals
        obtain rfl := Option.some.inj h
        rfl

/-- `cat` reads. -/
theorem executeCat_fs (h : executeCat locals cmd s = some done) :
    done.shell.fs = s.fs := by
  rw [executeCat] at h
  split_ifs at h with h0 h1
  · obtain rfl := Option.some.inj h
    rfl
  · obtain rfl := Option.some.inj h
    rfl
  obtain ⟨used, -, h⟩ := Option.bind_eq_some_iff.mp h
  split_ifs at h
  · simp only [Option.bind_eq_bind, Option.bind_eq_some_iff] at h
    obtain ⟨⟨j, s₁⟩, hwalk, row, -, ⟨code, t⟩, hread, s₂, hloop, s₃, hrestore, h⟩ := h
    obtain rfl := Option.some.inj h
    obtain ⟨hinUse, -⟩ := readCurrentTable_some hread
    rw [printParsed_stack] at hinUse
    obtain ⟨-, hfs, -⟩ := walk_some (pathLoopIf_some hwalk).1 hinUse
    calc s₃.fs = s₂.fs := (restore_some hrestore).2
      _ = (s₁.printParsed (parseTarget (charAt row))).fs := catLoop_fs hloop
      _ = s₁.fs := printParsed_fs _ _
      _ = s.fs := hfs
  · obtain rfl := Option.some.inj h
    rfl

/-- `ls` prints. -/
theorem executeLs_some {listed : FAT32DirectoryTable} (h : executeLs listed cmd s = some done) :
    done.shell.stack = s.stack ∧ done.shell.fs = s.fs := by
  rw [executeLs] at h
  split_ifs at h
  · obtain rfl := Option.some.inj h
    exact ⟨rfl, rfl⟩
  · obtain ⟨s', hlist, rfl⟩ := Option.map_eq_some_iff.mp h
    obtain ⟨⟨code, t⟩, -, hlist⟩ := Option.bind_eq_some_iff.mp hlist
    obtain rfl := Option.some.inj hlist
    show (if code ≠ 0 then _ else s).stack = s.stack ∧ (if code ≠ 0 then _ else s).fs = s.fs
    split_ifs <;> exact ⟨rfl, rfl⟩

/-- `whereis` prints. -/
theorem executeWhereis_some {reqTable : List SearchLevel → FAT32DirectoryTable}
    (h : executeWhereis reqTable locals cmd s = some done) :
    done.shell.stack = s.stack ∧ done.shell.fs = s.fs := by
  rw [executeWhereis] at h
  split_ifs at h
  · obtain rfl := Option.some.inj h
    exact ⟨rfl, rfl⟩
  · obtain rfl := Option.some.inj h
    exact ⟨rfl, rfl⟩
  · simp only [Option.bind_eq_bind, Option.bind_eq_some_iff] at h
    obtain ⟨first, -, target, -, events, -, h⟩ := h
    obtain rfl := Option.some.inj h
    show (if _ then s else _).stack = s.stack ∧ (if _ then s else _).fs = s.fs
    split_ifs
    · exact ⟨rfl, rfl⟩
    · exact ⟨printParsed_stack _ _, printParsed_fs _ _⟩

/-! ## Every line -/

/-- The calls of a command that can change the volume. -/
def Command.calls (locals : Locals) (cmd : TokenTable) (s : Shell) : Command → List Call
  | .branch .mkdir => (mkdirCall locals s cmd).toList
  | .branch .rm => (rmCall s cmd).toList
  | .branch .mv => (mvCall s cmd).toList
  | .branch .cp => cpCalls locals s cmd
  | .branch .cd | .branch .cat | .clear | .help | .ls | .whereis | .echo | .notFound => []

/-- The levels a command leaves. -/
def Command.levels (cmd : TokenTable) (s : Shell) : Command → List Level
  | .branch .cd =>
      if cmd.cmdLength > 1 then s.stack.levels else walkLevels (cdStart s cmd) (cdPath cmd)
  | .branch .mv => mvLevels s cmd
  | .branch .mkdir | .branch .cat | .branch .cp | .branch .rm => s.stack.levels
  | .clear | .help | .ls | .whereis | .echo | .notFound => s.stack.levels

theorem run_toList (fs : FileSystem) (call : Option Call) :
    run exec fs call.toList = perform fs call := by
  cases call with
  | none => rfl
  | some k =>
      show (exec fs k).bind some = exec fs k
      cases exec fs k <;> rfl

/-- What a branch has done by the time the prompt is printed. -/
theorem branch_some {b : Branch} (h : b.execute locals cmd s = some done)
    (hfinish : done.finish = some s') :
    run exec s.fs ((Command.branch b).calls locals cmd s) = some s'.fs ∧
      s'.stack.levels = (Command.branch b).levels cmd s := by
  obtain ⟨hstack, hfs, -⟩ := finish_some hfinish
  cases b with
  | cd =>
      by_cases hlen : cmd.cmdLength > 1
      · change executeCd cmd s = some done at h
        rw [executeCd, if_pos hlen] at h
        obtain rfl := Option.some.inj h
        rw [Command.levels, if_pos hlen, hstack]
        exact ⟨congrArg some hfs.symm, rfl⟩
      · obtain ⟨hlevels, hsame⟩ := executeCd_walk hlen h hfinish
        rw [Command.levels, if_neg hlen]
        exact ⟨congrArg some hsame.symm, hlevels⟩
  | mkdir =>
      obtain ⟨hkeep, hcall⟩ := executeMkdir_some h
      rw [Command.calls, run_toList, hfs, hstack]
      exact ⟨hcall, keepsStack_iff.mp hkeep⟩
  | cat =>
      rw [hstack, hfs, executeCat_fs h]
      exact ⟨rfl, keepsStack_iff.mp (executeCat_some h)⟩
  | cp =>
      rw [hstack, hfs]
      exact ⟨executeCp_calls h, keepsStack_iff.mp (executeCp_some h)⟩
  | mv =>
      obtain ⟨hlevels, hcall⟩ := executeMv_some h
      rw [Command.calls, run_toList, hfs, hstack]
      exact ⟨hcall, hlevels⟩
  | rm =>
      obtain ⟨hkeep, hcall⟩ := executeRm_some h
      rw [Command.calls, run_toList, hfs, hstack]
      exact ⟨hcall, keepsStack_iff.mp hkeep⟩

/-- What was printed does not matter to them. -/
theorem calls_print (command : Command) (str : List UInt8) (textColor : UInt8) :
    command.calls locals cmd (s.print str textColor) = command.calls locals cmd s := by
  rcases command with _ | _ | _ | _ | _ | b | _
  case branch => cases b <;> rfl
  all_goals rfl

theorem levels_print (command : Command) (str : List UInt8) (textColor : UInt8) :
    command.levels cmd (s.print str textColor) = command.levels cmd s := by
  rcases command with _ | _ | _ | _ | _ | b | _
  case branch =>
    cases b
    case cd =>
      rw [Command.levels, Command.levels, cdStart, cdStart]
      split_ifs <;> rfl
    all_goals rfl
  all_goals rfl

/-- The calls of a line. -/
def Line.calls (l : Line) (s : Shell) : List Call :=
  l.tokens.elim [] fun t => t.1.calls l.locals t.2.2 s

/-- The levels a line leaves. -/
def Line.levels (l : Line) (s : Shell) : List Level :=
  l.tokens.elim s.stack.levels fun t => t.1.levels t.2.2 s

/-- A command but `clear`, from the line break to the prompt. -/
theorem command_some {l : Line} {command : Command} {input : List UInt8}
    (h : command.execute l input cmd s = some done) (hfinish : done.finish = some s') :
    run exec s.fs (command.calls l.locals cmd s) = some s'.fs ∧
      s'.stack.levels = command.levels cmd s := by
  have hstill : done.shell.stack = s.stack ∧ done.shell.fs = s.fs →
      some s.fs = some s'.fs ∧ s'.stack.levels = s.stack.levels := by
    intro hdone
    obtain ⟨hstack, hfs, -⟩ := finish_some hfinish
    exact ⟨congrArg some (hfs.trans hdone.2).symm,
      congrArg DirStack.levels (hstack.trans hdone.1)⟩
  cases command with
  | clear => exact nomatch h
  | help =>
      obtain rfl := Option.some.inj h
      refine hstill ?_
      rw [executeHelp]
      split_ifs <;> exact ⟨rfl, rfl⟩
  | ls => exact hstill (executeLs_some h)
  | whereis => exact hstill (executeWhereis_some h)
  | echo =>
      change executeEcho cmd s = some done at h
      obtain ⟨row, -, rfl⟩ := Option.map_eq_some_iff.mp h
      exact hstill ⟨rfl, rfl⟩
  | branch b => exact branch_some h hfinish
  | notFound =>
      obtain rfl := Option.some.inj h
      exact hstill ⟨rfl, rfl⟩

/-- **The calls of a line.** They lead to the volume the line leaves. -/
theorem executeLine_calls {l : Line} {u u' : UserShell} (h : executeLine u l = some u') :
    run exec u.shell.fs (l.calls u.shell) = some u'.shell.fs ∧
      u'.shell.stack.levels = l.levels u.shell := by
  rw [executeLine] at h
  obtain ⟨⟨command, input, cmd⟩, htokens, h⟩ := Option.bind_eq_some_iff.mp h
  rw [Line.calls, Line.levels, htokens]
  show run exec u.shell.fs (command.calls l.locals cmd u.shell) = some u'.shell.fs ∧
    u'.shell.stack.levels = command.levels cmd u.shell
  by_cases hclear : command = .clear
  · subst hclear
    dsimp only at h
    rw [if_pos rfl] at h
    split_ifs at h
    · obtain rfl := Option.some.inj h
      exact ⟨rfl, rfl⟩
    · obtain ⟨shell, hprompt, rfl⟩ := Option.map_eq_some_iff.mp h
      rw [printHome] at hprompt
      split_ifs at hprompt
      obtain rfl := Option.some.inj hprompt
      exact ⟨rfl, rfl⟩
  · dsimp only at h
    rw [if_neg hclear] at h
    simp only [Option.bind_eq_bind, Option.bind_eq_some_iff] at h
    obtain ⟨done, hexec, shell, hfinish, h⟩ := h
    obtain rfl := Option.some.inj h
    -- the line break that is printed first changes neither the stack nor the files
    obtain ⟨hcalls, hlevels⟩ := command_some hexec hfinish
    rw [calls_print] at hcalls
    rw [levels_print] at hlevels
    exact ⟨hcalls, hlevels⟩

end OsyShell
