import Osyikkk.CatProofs
import Osyikkk.CopyConditionProofs
import Osyikkk.RebootProofs

/-!
# Copying a file

`cp` takes a token without an extension for a directory: `copy_folder` makes one in the
destination before it finds out what there is to copy. With an extension it calls
`copy_file`, but the size it hands over is looked up for directories only, and a name of less
than seven characters has lost its first one. So a file is copied exactly when it has an
extension and a longer name, the local holds its size already, and both walks and the first
restoring loop stay on the stack (`copiesFile_iff`).
-/

namespace OsyShell

open OsyDisk OsyFat32 OsyVolume PartialRun

variable {locals : Locals} {behind : UInt8} {s s' s₂ : Shell} {fs fs' fs₁ : FileSystem}
  {name ext : List UInt8} {rows src dest : List (List UInt8)} {source : CopySource}
  {p d : UInt32} {i j : Fin directoryEntryCount} {l : List UInt32} {k : ℕ}

/-! ## Walks that fit -/

theorem hasRoom_of_fits {levels : List Level}
    (h : ∀ before, before <+: rows → (skipping (walkStep fs) levels before).length ≤ 255) :
    AlongSkips (walkStep fs) (HasRoom fs) levels rows := by
  induction rows generalizing levels with
  | nil => trivial
  | cons row rows ih =>
      refine ⟨?_, ih ?_⟩
      · intro levels' hstep
        have hfits := h [row] (List.cons_prefix_cons.mpr ⟨rfl, List.nil_prefix⟩)
        rw [skipping_cons, hstep] at hfits
        exact Nat.lt_succ_of_le hfits
      · intro before hbefore
        exact h (row :: before) (List.cons_prefix_cons.mpr ⟨rfl, hbefore⟩)

/-- A walk that fits is one that ends with the stack in use. -/
theorem walkFits_iff (hlen : s.stack.length ≠ 0) :
    WalkFits s rows ↔
      ∃ s', run (fun s row => changeToRow row s) s rows = some s' ∧ s'.stack.length ≠ 0 := by
  constructor
  · intro h
    obtain ⟨s', hrun, -, hinUse, -⟩ := walk_levels hlen (hasRoom_of_fits h)
    exact ⟨s', hrun, hinUse⟩
  · rintro ⟨s', hrun, hinUse⟩ before ⟨after, rfl⟩
    rw [run_append] at hrun
    obtain ⟨s₁, hbefore, hafter⟩ := Option.bind_eq_some_iff.mp hrun
    obtain ⟨-, -, hinUse₁⟩ :=
      walk_some hafter hinUse
    obtain ⟨hlevels, -⟩ :=
      walk_some hbefore hinUse₁
    have h256 := UInt8.toNat_lt s₁.stack.length
    rw [← hlevels, levels_length]
    exact Nat.le_of_lt_succ h256

/-- A stack with a level to spare for every row. -/
theorem walkFits_of_length (hlen : s.stack.length ≠ 0)
    (h : s.stack.length.toNat + rows.length < 256) : WalkFits s rows := by
  rw [← levels_length] at h
  obtain ⟨s', hrun, -, hinUse, -⟩ := walk_levels hlen (hasRoom_of_length h)
  exact (walkFits_iff hlen).mpr ⟨s', hrun, hinUse⟩

/-! ## The two halves -/

/-- The directory the walk over the source ends in. -/
def sourceDirectory (s : Shell) (src : List (List UInt8)) : UInt32 :=
  directoryNumber (walkLevels s (sourceWalked src))

/-- The directory the walk over the destination ends in. -/
def destDirectory (s : Shell) (src dest : List (List UInt8)) : UInt32 :=
  directoryNumber (walkLevels s (destWalked src dest))

/-- What the first half hands to the second when it has walked over the source. -/
structure CpTakes (s : Shell) (src : List (List UInt8)) (source : CopySource) : Prop where
  counter : source.counterCD = 2 + (sourceWalked src).length
  row : source.row = sourceName src
  parent : source.parentCluster = sourceDirectory s src
  files : source.shell.fs = s.fs

/-- The copy that `cp` makes of a name and an extension. -/
def copyNamed (locals : Locals) (name ext : List UInt8) (p d : UInt32) (s : Shell) :
    Option Shell :=
  if ext ≠ [] then copyFile locals (rowName name) (rowExt ext) locals.filesize p d s
  else copyFolder locals locals.callDepth (rowName name) p d s

section Halves

variable (hsrc : IsPath src) (hdest : IsPath dest) (h36 : src.length + dest.length ≤ 36)

include hsrc h36

theorem cpSource_takes (hlen : s.stack.length ≠ 0)
    (h : cpSource locals (twoPathTable Branch.cp.word src dest) s = some source) :
    WalkFits s (sourceWalked src) ∧ CpTakes s src source := by
  simp only [cpSource, sourceLoop hsrc h36, Option.bind_eq_bind, Option.bind_eq_some_iff] at h
  obtain ⟨⟨c, s₁⟩, hwalk, row, hrow, ⟨code, t⟩, -, top, htop, h⟩ := h
  obtain ⟨s₁', hrun, hpair⟩ := Option.map_eq_some_iff.mp hwalk
  obtain ⟨rfl, rfl⟩ := Prod.mk.inj hpair
  obtain rfl := Option.some.inj h
  obtain rfl := Option.some.inj ((twoPath_name hsrc h36).symm.trans hrow)
  obtain ⟨hinUse, rfl⟩ := top_some htop
  have hmessages : ∀ s₂ : Shell, s₂.stack = s₁'.stack → s₂.fs = s₁'.fs →
      s₂.stack.length ≠ 0 → WalkFits s (sourceWalked src) ∧
        s₂.stack.number (s₂.stack.length - 1) = sourceDirectory s src ∧ s₂.fs = s.fs := by
    intro s₂ hstack hfs hinUse₂
    have hinUse₁ : s₁'.stack.length ≠ 0 := hstack ▸ hinUse₂
    obtain ⟨hlevels, hfs₁, -⟩ := walk_some hrun hinUse₁
    refine ⟨(walkFits_iff hlen).mpr ⟨s₁', hrun, hinUse₁⟩, ?_,
      hfs.trans hfs₁⟩
    rw [hstack, ← directoryNumber_levels hinUse₁, hlevels, sourceDirectory]
  dsimp only at hinUse ⊢
  obtain ⟨hfits, hparent, hfiles⟩ := hmessages _ (by split_ifs <;> exact printParsed_stack _ _)
    (by split_ifs <;> exact printParsed_fs _ _) hinUse
  exact ⟨hfits, rfl, rfl, hparent, hfiles⟩

theorem cpSource_exists (locals : Locals) (hlen : s.stack.length ≠ 0)
    (hfits : WalkFits s (sourceWalked src)) :
    ∃ source, cpSource locals (twoPathTable Branch.cp.word src dest) s = some source := by
  obtain ⟨s₁, hrun, hinUse⟩ := (walkFits_iff hlen).mp hfits
  rw [cpSource, sourceLoop hsrc h36, hrun]
  simp only [Option.map_some, Option.bind_eq_bind, Option.bind_some, twoPath_name hsrc h36]
  obtain ⟨s₂, hs₂, hstack₂, -⟩ := nameMessages s₁ (sourceName src)
  have hinUse₂ : s₂.stack.length ≠ 0 := hstack₂ ▸ hinUse
  rw [← hs₂]
  obtain ⟨⟨code, t⟩, hread⟩ : ∃ r, readCurrentTable locals.parentTable s₂ = some r := by
    cases htable : currentTable s₂.fs s₂.stack.levels with
    | none =>
        obtain ⟨code, -, hread⟩ := readCurrentTable_none hinUse₂ locals.parentTable htable
        exact ⟨_, hread⟩
    | some t => exact ⟨_, readCurrentTable_found hinUse₂ locals.parentTable htable⟩
  rw [hread, Option.bind_some]
  by_cases hcode : code ≠ 0
  · simp only [if_pos hcode, top_eq hinUse₂, Option.bind_some]
    exact ⟨_, rfl⟩
  · simp only [if_neg hcode, top_eq hinUse₂, Option.bind_some]
    exact ⟨_, rfl⟩

include hdest

/-- The second half walks over the destination and copies. -/
theorem cpDest_eq (locals : Locals) (hname : IsFileName name ext)
    (hcounter : source.counterCD = 2 + (sourceWalked src).length)
    (hrow : source.row = fileName name ext)
    (hrun : run (fun s row => changeToRow row s) s (destWalked src dest) = some s')
    (hinUse : s'.stack.length ≠ 0) :
    ∃ s₂, s₂.fs = s.fs ∧ cpDest locals (twoPathTable Branch.cp.word src dest) source s
      = (copyNamed locals (keptName name ext) ext source.parentCluster
          (destDirectory s src dest) s₂).map fun s₃ => (mvCounter src dest, s₃) := by
  obtain ⟨hlevels, hfs, -⟩ := walk_some hrun hinUse
  have hle := destWalked_length src dest
  have h40 : mvCounter src dest - 1 < 40 := by
    rw [mvCounter]
    split_ifs <;> omega
  have hparent : s'.stack.number (s'.stack.length - 1) = destDirectory s src dest := by
    rw [← directoryNumber_levels hinUse, hlevels, destDirectory]
  -- the source tests the first character of the extension
  have hfirst : charAt ext 0 ≠ 0 ↔ ext ≠ [] := by
    cases ext with
    | nil => exact iff_of_false (fun h => h rfl) fun h => h rfl
    | cons b ext =>
        refine iff_of_true ?_ (List.cons_ne_nil _ _)
        rintro rfl
        exact hname.extPart.noNul List.mem_cons_self
  rw [cpDest, hcounter, destLoop hsrc hdest h36, hrun, hrow, parseTarget_fileName hname]
  simp only [Option.map_some, Option.bind_eq_bind, Option.bind_some, row_eq h40]
  let s₂ := (s'.print (text "\n") white).print (cString ((List.range 12).map (charAt
    ((twoPathTable Branch.cp.word src dest).rows.getD (mvCounter src dest - 1) [])))) white
  have htop : s₂.stack.top = some (s₂.stack.length - 1) := top_eq hinUse
  refine ⟨s₂, hfs, ?_⟩
  show s₂.stack.top.bind _ = _
  rw [htop, Option.bind_some, copyNamed, Option.map_eq_bind]
  by_cases hext : ext ≠ []
  · -- the size is looked up in the other case only
    have hsize : ∀ t, cpFilesize locals
        ⟨charAt (keptName name ext), charAt ext, false, false⟩ t = locals.filesize :=
      fun _ => if_neg (hfirst.mpr hext)
    rw [if_pos (hfirst.mpr hext), if_pos hext, hsize, ← hparent]
    rfl
  · rw [if_neg (mt hfirst.mp hext), if_neg hext, ← hparent]
    rfl

theorem cpDest_copies (hname : IsFileName name ext) (hlen : s.stack.length ≠ 0)
    (hcounter : source.counterCD = 2 + (sourceWalked src).length)
    (hrow : source.row = fileName name ext)
    (h : cpDest locals (twoPathTable Branch.cp.word src dest) source s = some (k, s')) :
    WalkFits s (destWalked src dest) ∧ ∃ s₂, s₂.fs = s.fs ∧
      copyNamed locals (keptName name ext) ext source.parentCluster (destDirectory s src dest) s₂
        = some s' := by
  have hdone := h
  simp only [cpDest, hcounter, destLoop hsrc hdest h36, Option.bind_eq_bind,
    Option.bind_eq_some_iff] at h
  obtain ⟨⟨c, s₁⟩, hwalk, row, -, top, htop, -⟩ := h
  obtain ⟨s₁', hrun, hpair⟩ := Option.map_eq_some_iff.mp hwalk
  obtain ⟨rfl, rfl⟩ := Prod.mk.inj hpair
  have hinUse : s₁'.stack.length ≠ 0 := (top_some htop).1
  refine ⟨(walkFits_iff hlen).mpr ⟨s₁', hrun, hinUse⟩, ?_⟩
  obtain ⟨s₂, hfs, heq⟩ := cpDest_eq hsrc hdest h36 locals hname hcounter hrow hrun hinUse
  obtain ⟨s₃, hcopy, hpair⟩ := Option.map_eq_some_iff.mp (heq.symm.trans hdone)
  obtain ⟨-, rfl⟩ := Prod.mk.inj hpair
  exact ⟨s₂, hfs, hcopy⟩

end Halves

/-! ## What the copy leaves -/

/-- The table of the destination is another one afterwards. -/
theorem Copied.changed {e : FAT32DirectoryEntry} (hroom : ¬ (fs.table d j).used)
    (h : Copied fs fs' d e k) : fs'.table d ≠ fs.table d := by
  obtain ⟨e', hused, htable, -⟩ := h.entry
  intro hsame
  have hslot := congrFun (htable.symm.trans hsame) (idxEmpty (fs.table d))
  rw [Function.update_self] at hslot
  exact idxEmpty_unused hroom (hslot ▸ hused)

/-- A file that is copied has the size and the name that the first write to the destination asked
    for. -/
theorem Copied.write_fields {e : FAT32DirectoryEntry} {newTable : FAT32DirectoryTable}
    {request : FAT32DriverRequest} {code : Int8} (hcons : FsConsistent fs)
    (hlive : Live fs.table request.parentClusterNumber)
    (hroom : ¬ (fs.table request.parentClusterNumber j).used) (hfile : e.attr = attrArchive)
    (hwrite : OsyFat32.write newTable request fs = some (code, fs₁)) (hfilled : Filled fs₁ fs')
    (hstop : code ≠ 0 → fs' = fs₁) (h : Copied fs fs' request.parentClusterNumber e k) :
    request.bufferSize = e.filesize ∧ request.name = e.name := by
  obtain ⟨e', -, htable, hnode⟩ := h.entry
  have hnode := hnode 0
  have hattr : e.attr ≠ attrSubdirectory :=
    fun hdir => archive_ne_subdirectory (hfile.symm.trans hdir)
  rw [nodeOf.eq_def fs, if_neg hattr] at hnode
  have hchanged := h.changed hroom
  -- what the first write has put into the slot stays there
  have hstays : ∀ e₁ : FAT32DirectoryEntry, e₁.used → fs₁.table request.parentClusterNumber
      = Function.update (fs.table request.parentClusterNumber) (writeSlot request fs) e₁ →
      e' = e₁ := by
    intro e₁ hused₁ htable₁
    have hslot : fs₁.table request.parentClusterNumber (writeSlot request fs) = e₁ := by
      rw [htable₁, Function.update_self]
    have hkept := hfilled.slots ((write_filled hwrite).claimed (claimed_of_live hcons hlive))
      (writeSlot_ne_zero hcons hlive hroom) (hslot.symm ▸ hused₁)
    rw [hslot, htable, Function.update_self] at hkept
    exact hkept
  cases write_outcome hwrite with
  | refused hcode => exact absurd (by rw [hstop hcode]) hchanged
  | leaked _ _ _ =>
      refine absurd ?_ hchanged
      rw [hstop (by decide)]
      rfl
  | @directory c _ _ hs _ _ =>
      obtain rfl := hstays (directoryEntry request fs c) rfl (flush_table_parent _ _ _ _)
      rw [nodeOf, if_pos (directoryEntry_attr c hs)] at hnode
      cases hnode
  | @file c _ _ hs _ _ _ =>
      obtain rfl := hstays (fileEntry request fs c) rfl (flush_table_parent _ _ _ _)
      rw [nodeOf, if_neg (fileEntry_notDirectory c hs)] at hnode
      have hfields := Node.file.inj hnode
      exact ⟨hfields.2.2.1, hfields.1⟩

/-- The first write of a copy has the name and the size of the local, or makes a directory. -/
theorem copyNamed_writes (h : copyNamed locals name ext p d s = some s') :
    s'.fs = s.fs ∨ ∃ newTable request code fs₁, request.parentClusterNumber = d ∧
      request.name = rowName name ∧ request.bufferSize = (if ext ≠ [] then locals.filesize else 0) ∧
      OsyFat32.write newTable request s.fs = some (code, fs₁) ∧ Filled fs₁ s'.fs ∧
      (code ≠ 0 → s'.fs = fs₁) := by
  rw [copyNamed] at h
  by_cases hext : ext ≠ []
  · rw [if_pos hext] at h ⊢
    obtain ⟨⟨code, buf⟩, -, h⟩ := Option.bind_eq_some_iff.mp h
    by_cases hcode : code ≠ 0
    · -- the read failed
      dsimp only at h
      rw [if_pos hcode] at h
      obtain rfl := Option.some.inj h
      exact Or.inl rfl
    · dsimp only at h
      rw [if_neg hcode] at h
      obtain ⟨⟨code', fs₁⟩, hwrite, h⟩ := Option.bind_eq_some_iff.mp h
      have hfs : s'.fs = fs₁ := by
        dsimp only at h
        split_ifs at h <;> exact congrArg Shell.fs (Option.some.inj h).symm
      exact Or.inr ⟨_, _, code', fs₁, rfl, rfl, rfl, hwrite, hfs ▸ Filled.refl _, fun _ => hfs⟩
  · rw [if_neg hext] at h ⊢
    cases hdepth : locals.callDepth with
    | zero =>
        rw [hdepth] at h
        exact nomatch h
    | succ depth =>
        rw [hdepth] at h
        obtain ⟨t, code, fs₁, -, hwrite, hdone⟩ := copyFolder_cases h
        refine Or.inr ⟨_, _, code, fs₁, rfl, rfl, rfl, hwrite, ?_, ?_⟩
        · rcases hdone with ⟨-, rfl⟩ | ⟨-, s₁, rfl, hrun⟩
          · exact Filled.refl _
          · exact copySlots_filled copyFolder_filled hrun
        · rcases hdone with ⟨-, hfs⟩ | ⟨hcode, -⟩
          · exact fun _ => hfs
          · exact fun hne => absurd hcode hne

/-! ## What `cp` copies -/

/-- A line `cp src dest` inside the token limits, whose source leads to a file of at least one
    cluster and whose destination to a directory with a free slot, and as many free cells as the
    file has clusters. -/
structure FileToCopy (s : Shell) (src dest : List (List UInt8)) (name ext : List UInt8)
    (i : Fin directoryEntryCount) (l : List UInt32) : Prop where
  sourcePath : IsPath src
  destPath : IsPath dest
  rows : src.length + dest.length ≤ 36
  line : (twoPathLine Branch.cp.word src dest).length < 256
  inUse : s.stack.length ≠ 0
  wellFormed : WellFormed s.fs
  named : IsFileName name ext ∧ sourceName src = fileName name ext
  sourceLive : Live s.fs.table (sourceDirectory s src)
  file : FileAt s.fs (sourceDirectory s src) name ext i l
  destLive : Live s.fs.table (destDirectory s src dest)
  room : ∃ j, j ≠ 0 ∧ ¬ (s.fs.table (destDirectory s src dest) j).used
  cells : l.length ≤ (freeCells s.fs.fat).length

/-- `cp src dest` goes through both walks, and when it gets to its second restoring loop the
    destination has one more entry, with the name, the extension, the size and the bytes of the
    file, and nothing else has changed. -/
def CopiesFile (locals : Locals) (behind : UInt8) (s : Shell) (src dest : List (List UInt8))
    (i : Fin directoryEntryCount) (l : List UInt32) : Prop :=
  ∃ cmd source s₂ c s₃,
    commandOf behind (bufferOf (twoPathLine Branch.cp.word src dest)) = some (.cp, cmd) ∧
    cpSource locals cmd (s.print (text "\n") white) = some source ∧
    source.shell.restore (saveStack s.stack) source.counterCD = some s₂ ∧
    cpDest locals cmd source s₂ = some (c, s₃) ∧
    Copied s.fs s₃.fs (destDirectory s src dest) (s.fs.table (sourceDirectory s src) i) l.length

/-- The token has an extension and a name that outlives it, the local happens to hold the size,
    and the walks and the first restoring loop stay on the stack. -/
structure CpAgrees (locals : Locals) (s : Shell) (src dest : List (List UInt8))
    (name ext : List UInt8) (e : FAT32DirectoryEntry) : Prop where
  ext : ext ≠ []
  kept : 7 ≤ name.length
  size : locals.filesize = e.filesize
  source : WalkFits s (sourceWalked src)
  restored : s.stack.length.toNat + (2 + (sourceWalked src).length) ≤ 256
  dest : WalkFits s (destWalked src dest)

theorem FileAt.readable (h : FileAt fs d name ext i l) (hname : IsFileName name ext) :
    Readable fs d i l where
  named := by
    rw [h.nameField]
    exact hname.rowName_ne
  found _ := h.firstMatch rfl rfl
  chain := h.chain
  nonempty := h.nonempty
  sized := h.sized

theorem FileToCopy.command (h : FileToCopy s src dest name ext i l) :
    commandOf behind (bufferOf (twoPathLine Branch.cp.word src dest))
      = some (.cp, twoPathTable Branch.cp.word src dest) :=
  commandOf_line
    (plainLine_twoPathLine Branch.cp.word_isWord Branch.cp.word_ne_nil h.sourcePath h.destPath
      h.line)
    (tokenize_twoPathLine Branch.cp.word_isWord Branch.cp.word_ne_nil h.sourcePath h.destPath
      (h.rows.trans (Nat.le_succ 36))) rfl

/-- The walks see the same levels and files before and after the restoring loop. -/
theorem walkLevels_restored (hsame : s₂.stack.levels = s.stack.levels) (hfs : s₂.fs = s.fs) :
    walkLevels s₂ rows = walkLevels s rows := by
  rw [walkLevels, walkLevels, hsame, hfs]

/-- What is copied has its size in the local, and its name in front of the extension. -/
theorem FileToCopy.agrees (h : FileToCopy s src dest name ext i l)
    (hcopies : CopiesFile locals behind s src dest i l) :
    CpAgrees locals s src dest name ext (s.fs.table (sourceDirectory s src) i) := by
  obtain ⟨cmd, source, s₂, c, s₃, hcmd, hsource, hrestore, hdest, hcopied⟩ := hcopies
  obtain ⟨-, rfl⟩ := Prod.mk.inj (Option.some.inj (h.command.symm.trans hcmd))
  obtain ⟨hname, htoken⟩ := h.named
  obtain ⟨hfits, htakes⟩ := cpSource_takes (s := s.print (text "\n") white) h.sourcePath h.rows
    h.inUse hsource
  have hrestored := restore_fits hrestore
  rw [htakes.counter] at hrestored
  obtain ⟨hkeep, hfs⟩ := restore_some hrestore
  have hinUse₂ : s₂.stack.length ≠ 0 := hkeep.length ▸ h.inUse
  have hfs₂ : s₂.fs = s.fs := hfs.trans htakes.files
  have hwalk : ∀ rows, walkLevels s₂ rows = walkLevels s rows := fun _ =>
    walkLevels_restored (keepsStack_iff.mp hkeep) hfs₂
  obtain ⟨hfits₂, s₂', hfs', hcopy⟩ := cpDest_copies h.sourcePath h.destPath h.rows hname hinUse₂
    htakes.counter (htakes.row.trans htoken) hdest
  rw [destDirectory, hwalk, ← destDirectory] at hcopy
  simp only [WalkFits, hwalk] at hfits₂
  obtain ⟨j, -, hroom⟩ := h.room
  have hfields : (if ext ≠ [] then locals.filesize else 0)
        = (s.fs.table (sourceDirectory s src) i).filesize ∧
      rowName (keptName name ext) = rowName name := by
    rcases copyNamed_writes hcopy with hsame | ⟨newTable, request, code, fs₁, hparent, hname,
      hsize, hwrite, hfilled, hstop⟩
    · refine absurd ?_ (hcopied.changed hroom)
      rw [hsame, hfs', hfs₂]
    · rw [← hsize, ← hname, ← h.file.nameField]
      rw [hfs', hfs₂] at hwrite
      rw [← hparent] at hroom hcopied
      exact hcopied.write_fields h.wellFormed.consistent (hparent ▸ h.destLive) hroom
        h.file.file hwrite hfilled hstop
  obtain ⟨hsize, hrow⟩ := hfields
  have hext : ext ≠ [] := by
    intro hnil
    rw [if_neg (not_not.mpr hnil)] at hsize
    exact (h.file.readable hname).size_ne_zero hsize.symm
  -- the first character of a name is no NUL
  have hkept : 7 ≤ name.length := by
    by_contra hshort
    obtain ⟨rest, hrest⟩ := keptName_lost hext (Nat.lt_of_not_le hshort)
    obtain ⟨b, name', rfl⟩ := List.exists_cons_of_ne_nil hname.nonempty
    rw [hrest] at hrow
    have hb : 0 = b := congrFun hrow 0
    exact hname.namePart.noNul (hb ▸ List.mem_cons_self)
  exact ⟨hext, hkept, (if_pos hext).symm.trans hsize, hfits, hrestored, hfits₂⟩

/-- **`cp` copies a file** exactly when the token has an extension behind at least seven
    characters and the local it never sets then holds the size of the file, as long as the walks
    stay on the stack. -/
theorem copiesFile_iff (locals : Locals) (behind : UInt8)
    (h : FileToCopy s src dest name ext i l) :
    CopiesFile locals behind s src dest i l ↔
      CpAgrees locals s src dest name ext (s.fs.table (sourceDirectory s src) i) := by
  refine ⟨h.agrees, fun hknown => ?_⟩
  obtain ⟨hname, htoken⟩ := h.named
  obtain ⟨source, hsource⟩ := cpSource_exists (s := s.print (text "\n") white) h.sourcePath
    h.rows locals h.inUse hknown.source
  obtain ⟨-, htakes⟩ := cpSource_takes (s := s.print (text "\n") white) h.sourcePath h.rows
    h.inUse hsource
  obtain ⟨st, hrestore, hlevels, hlength⟩ := restore_levels source.shell
    (htakes.counter.symm ▸ hknown.restored)
  let s₂ : Shell := { source.shell with stack := st }
  have hinUse₂ : s₂.stack.length ≠ 0 := hlength ▸ h.inUse
  have hfs₂ : s₂.fs = s.fs := htakes.files
  have hwalk : ∀ rows, walkLevels s₂ rows = walkLevels s rows := fun _ =>
    walkLevels_restored hlevels hfs₂
  have hfits₂ : WalkFits s₂ (destWalked src dest) := by
    simp only [WalkFits, hwalk]
    exact hknown.dest
  obtain ⟨s₁, hrun, hinUse₁⟩ := (walkFits_iff hinUse₂).mp hfits₂
  obtain ⟨s₃, hfs₃, hdest⟩ := cpDest_eq h.sourcePath h.destPath h.rows locals hname
    htakes.counter (htakes.row.trans htoken) hrun hinUse₁
  have hfs₃ : s₃.fs = s.fs := hfs₃.trans hfs₂
  rw [destDirectory, hwalk, copyNamed, if_pos hknown.ext, htakes.parent,
    keptName_eq (Or.inr hknown.kept)] at hdest
  -- the request has the fields of the entry
  obtain ⟨j, -, hroom⟩ := h.room
  have hread := h.file.readable hname
  rw [← hfs₃] at hread
  obtain ⟨fs', hcopy, hcopied⟩ := hread.copied locals (c := destDirectory s src dest)
    (j := j) (hfs₃ ▸ h.wellFormed) (hfs₃ ▸ h.file.file) (hfs₃ ▸ h.destLive) (hfs₃ ▸ hroom)
    (hfs₃ ▸ h.cells)
  rw [hfs₃, h.file.nameField, h.file.extField, ← hknown.size] at hcopy
  rw [hfs₃] at hcopied
  rw [← destDirectory, show sourceDirectory (s.print (text "\n") white) src
    = sourceDirectory s src from rfl, hcopy, Option.map_some] at hdest
  exact ⟨_, source, s₂, _, _, h.command, hsource, hrestore, hdest, hcopied⟩

/-! ## A file beside a directory -/

theorem afterMkdir_wellFormed : WellFormed afterMkdir := by
  obtain ⟨fs, hfs, hmount⟩ := exec_mountable _ (.write zeroTable (rootRequest [97] 0))
    (fresh_mountable blankDisk) ⟨⟨⟨RootedForest.Reach.root, fun _ _ => rfl⟩, by decide⟩,
      fun _ _ => headCell_ne_last fresh_headCell (by decide)⟩
  obtain rfl := Option.some.inj (exec_mkdir.symm.trans hfs)
  exact ⟨hmount.image, hmount.consistent⟩

/-- The name `abcdefg`. -/
abbrev sevenName : List UInt8 := [97, 98, 99, 100, 101, 102, 103]

/-- The state after the file `abcdefg.t` was stored beside the directory `a`. -/
def afterFile : FileSystem := fileWritten (rootFile sevenName [116]) afterMkdir 4 []

theorem isFileName_seven : IsFileName sevenName [116] := by decide

theorem afterFile_request : FileRequest (rootFile sevenName [116]) afterMkdir ∧
    (freeCells afterMkdir.fat).take (clusterCount (rootFile sevenName [116])) = [4] := by
  have hcount : clusterCount (rootFile sevenName [116]) = 1 := by
    show ((2048 : UInt32) / 2048).toNat = 1
    decide
  have htake : (freeCells afterMkdir.fat).take 1 = [4] := by
    rw [List.take_one, afterMkdir_headCell]
    rfl
  refine ⟨?_, by rw [hcount, htake]⟩
  constructor
  case named => exact isFileName_seven.rowName_ne
  case sized => exact (by decide : (2048 : UInt32) ≠ 0)
  case whole => exact (by decide : clusterSize ∣ (2048 : UInt32).toNat)
  case live => exact RootedForest.Reach.root
  case slot => exact ⟨2, by decide, by decide⟩
  case fresh =>
    have hnone : ∀ i : Fin directoryEntryCount, (afterMkdir.table 2 i).name 1 ≠ 98 := by decide
    exact fun i hi => hnone i (congrFun hi.2.1 1).symm
  case cells =>
    have hlen := congrArg List.length htake
    rw [List.length_take, List.length_singleton] at hlen
    rw [hcount]
    omega

/-- `cp abcdefg.t a`. -/
theorem fileToCopy_seven : FileToCopy (startShell afterFile) [fileName sevenName [116]] [[97]]
    sevenName [116] 2 [4] := by
  obtain ⟨hreq, htake⟩ := afterFile_request
  have hwf := afterMkdir_wellFormed
  have hslot : writeSlot (rootFile sevenName [116]) afterMkdir = 2 := by decide
  have hfile := fileAt_stored hwf hreq htake (by rw [hslot]; decide) rfl rfl
  rw [hslot] at hfile
  have hdest : destDirectory (startShell afterFile) [fileName sevenName [116]] [[97]] = 3 := by
    decide
  constructor
  case sourcePath => exact isFileName_seven.isPath
  case destPath => exact isPath_word (isWord_singleton (by decide)) (List.cons_ne_nil _ _)
  case rows => decide
  case line => decide
  case inUse => exact (by decide : (1 : UInt8) ≠ 0)
  case wellFormed => exact stored_wellFormed hwf hreq htake
  case named => exact ⟨isFileName_seven, rfl⟩
  case sourceLive => exact RootedForest.Reach.root
  case file => exact hfile
  case destLive =>
    rw [hdest]
    have hedge : dirEdge afterMkdir.table 2 1 3 :=
      ⟨by decide, by decide, by decide, by decide⟩
    exact (stored_live hwf hreq htake 3).mpr
      (RootedForest.Reach.child RootedForest.Reach.root hedge)
  case room =>
    rw [hdest]
    exact ⟨1, by decide, by decide⟩
  case cells =>
    have hhead : (freeCells afterFile.fat).head? = some 5 := by decide
    cases hfree : freeCells afterFile.fat with
    | nil =>
        rw [hfree] at hhead
        exact nomatch hhead
    | cons c rest =>
        show 1 ≤ (freeCells afterFile.fat).length
        rw [hfree]
        exact Nat.succ_le_succ (Nat.zero_le _)

/-- With the size in the local `cp abcdefg.t a` copies the file. -/
theorem copiesFile_seven : CopiesFile { zeroLocals with filesize := 2048 } 0 (startShell afterFile)
    [fileName sevenName [116]] [[97]] 2 [4] := by
  refine (copiesFile_iff _ 0 fileToCopy_seven).mpr ?_
  have hlen : (startShell afterFile).stack.length ≠ 0 := (by decide : (1 : UInt8) ≠ 0)
  constructor
  case ext => exact List.cons_ne_nil _ _
  case kept => decide
  case size => decide
  case source =>
    exact walkFits_of_length hlen (by decide)
  case restored => decide
  case dest =>
    exact walkFits_of_length hlen (by decide)

/-- With zero in it nothing is copied into the empty directory. -/
theorem unsetSize_notCopied :
    FileToCopy (startShell afterFile) [fileName sevenName [116]] [[97]] sevenName [116] 2 [4] ∧
      TableEmpty (afterFile.table (destDirectory (startShell afterFile) [fileName sevenName [116]]
        [[97]])) ∧
      ¬ CopiesFile zeroLocals 0 (startShell afterFile) [fileName sevenName [116]] [[97]] 2 [4] := by
  refine ⟨fileToCopy_seven, ?_, fun h => ?_⟩
  · have hdest : destDirectory (startShell afterFile) [fileName sevenName [116]] [[97]] = 3 := by
      decide
    rw [hdest]
    intro k
    revert k
    decide
  · have hsize := (fileToCopy_seven.agrees h).size
    exact absurd hsize (by decide)

end OsyShell
