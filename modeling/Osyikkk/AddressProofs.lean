import Osyikkk.StackLinks
import Osyikkk.AtomicityProofs

/-!
# The two addresses of the current directory

The shell reaches the current directory in two ways: `ls`, `rm`, `cat`, `cp` and `mv` look
its name up in the directory below it on the stack, `mkdir`, deletions and copies take its
cluster from the stack. Both lead to one directory as long as the levels are linked. A
command breaks the link of a level when it frees or moves a directory that is on the stack,
or puts the name of one in a slot before it. `rm ../a` and `mv ../a …` do so from inside
`a`, and nothing in the shell or the driver compares them with the stack.

Runs of `cd`, `mkdir`, `rm` and `mv` in which no call does this keep the two addresses
together (`run_addressesAgree`).
-/

namespace OsyShell

open OsyDisk OsyFat32 OsyVolume PartialRun

/-! ## Calls that spare the stack -/

/-- An entry named `name` in slot `w` of `d` comes before that of a directory on the stack
    with this name. -/
def Hides (tbl : Tables) (levels : List Level) (d : UInt32) (name : EntryName)
    (w : Fin directoryEntryCount) : Prop :=
  ∃ top ∈ levels, ∃ below ∈ levels, ∃ k, below.number = d ∧ top.dirName = name ∧
    NamedAt tbl d name k top.number ∧ w < k

/-- The call leaves the directories on the stack where their names lead.
    * A new directory has an unused slot, which hides none of them, or it is refused;
      `new_table` holds zeros behind slot 0.
    * An empty directory that is deleted is not on the stack.
    * An entry that is moved goes to another directory, which is not below it; it is no
      directory on the stack and hides none. -/
def SparesStack (fs : FileSystem) (levels : List Level) : Call → Prop
  | .write newTable request =>
      (∀ i, i ≠ 0 → newTable i = FAT32DirectoryEntry.zero) ∧
      (request.name = (fun _ => 0) ∨ FewCells request fs ∨ ClaimsLastCell request fs ∨
        (∃ i, ¬ (fs.table request.parentClusterNumber i).used) ∧
          ¬ Hides fs.table levels request.parentClusterNumber request.name
            (writeSlot request fs))
  | .delete request =>
      ∀ i c, firstMatch request (fs.table request.parentClusterNumber) = some i →
        dirEdge fs.table request.parentClusterNumber i c → TableEmpty (fs.table c) →
        ∀ l ∈ levels, l.number ≠ c
  | .move srcTable destTable srcIdx =>
      ∀ w, firstUnused destTable = some w →
        (srcTable 0).cluster ≠ (destTable 0).cluster ∧
        ∀ i : Fin directoryEntryCount, srcIdx.toNat = i →
          ¬ Below fs.table (srcTable 0).cluster i (destTable 0).cluster ∧
          ((srcTable i).attr = attrSubdirectory →
            (∀ l ∈ levels, l.number ≠ (srcTable i).cluster) ∧
            ¬ Hides fs.table levels (destTable 0).cluster (srcTable i).name w)
  | .read _ | .readDirectory _ => True

variable {fs fs' : FileSystem} {levels : List Level} {request : FAT32DriverRequest}
  {newTable : FAT32DirectoryTable} {code : Int8}

section Calls

variable (htree : SelfTree fs.table fs.fat) (hlinked : Linked fs.table levels)
include htree hlinked

/-- `mkdir`'s call. -/
theorem write_linked (hlive : Live fs.table request.parentClusterNumber)
    (hdir : request.bufferSize = 0) (hspare : SparesStack fs levels (.write newTable request))
    (h : write newTable request fs = some (code, fs')) :
    SelfTree fs'.table fs'.fat ∧ Linked fs'.table levels := by
  have hcons := htree.consistent
  obtain ⟨hzero, hspare⟩ := hspare
  cases write_outcome h with
  | refused _ => exact ⟨htree, hlinked⟩
  | @leaked c rest _ hfree _ =>
      have hclaimed := claimed_consistent hcons (hfree ▸ List.mem_cons_self)
      exact ⟨⟨hclaimed, htree.self, htree.root⟩, hlinked⟩
  | @directory c rest hname _ hfree hc =>
      have hlast : ¬ ClaimsLastCell request fs := by
        intro hlast
        have hhead := hlast.2.2.2
        rw [hfree, List.head?_cons, Option.some.injEq] at hhead
        exact hc (hhead ▸ rfl)
      obtain ⟨⟨i, hi⟩, hhides⟩ := ((hspare.resolve_left hname).resolve_left
        (not_fewCells_directory hdir hfree)).resolve_left hlast
      have hmem : c ∈ freeCells fs.fat := hfree ▸ List.mem_cons_self
      have hslot := writeSlot_ne_zero hcons hlive hi
      have hins := directoryWritten_inserted hcons hlive hmem hzero
      constructor
      · refine htree.inserted hins hslot ?_
        intro _
        rw [directoryEntry_cluster, directoryWritten_table hcons hlive hmem]
        exact (initDirectoryTable_self _ _ _).2.2.2
      · refine hlinked.mono ?_
        intro top htop below hbelow k hk
        have hd := hlinked.live htree below hbelow
        refine hk.inserted hcons hd hins hslot ?_
        intro hparent hnamed
        -- the slot that is found is used, the new one is not
        have hne : k ≠ writeSlot request fs := by
          rintro rfl
          have hused := hcons.used_of_isDirectory hd hk.named
          rw [hparent] at hused
          exact ((writeSlot_spec request fs).resolve_left hslot) hused
        have hnamed : top.dirName = request.name := hnamed.1.symm
        refine lt_of_le_of_ne (not_lt.mp ?_) hne
        intro hlt
        rw [hparent, hnamed] at hk
        exact hhides ⟨top, htop, below, hbelow, k, hparent, hnamed, hk, hlt⟩
  | file _ hs _ _ _ => exact absurd hdir hs

/-- `rm`'s call. -/
theorem delete_linked (hlive : Live fs.table request.parentClusterNumber)
    (hspare : SparesStack fs levels (.delete request))
    (h : OsyFat32.delete request fs = some (code, fs')) :
    SelfTree fs'.table fs'.fat ∧ Linked fs'.table levels := by
  have hcons := htree.consistent
  by_cases hname : request.name = fun _ => 0
  · rw [delete_emptyName hname] at h
    obtain ⟨-, rfl⟩ := Prod.mk.inj (Option.some.inj h)
    exact ⟨htree, hlinked⟩
  have hout := delete_outcome hcons hlive h
  rcases hout.removed hcons hlive hname with rfl | ⟨i, l, freed, hmatch, -, -, hrem⟩
  · exact ⟨htree, hlinked⟩
  have hspared : ∀ l ∈ levels, ¬ dirEdge fs.table request.parentClusterNumber i l.number := by
    intro l hl hedge
    exact hspare i _ hmatch hedge (hrem.empty _ hedge) l hl rfl
  refine ⟨htree.removed hrem, hlinked.mono ?_⟩
  intro top htop below hbelow k hk
  exact hk.removed hcons (hlinked.live htree below hbelow) hrem (hspared below hbelow)
    (hspared top htop)

/-- `mv`'s call. -/
theorem move_linked {p q srcIdx : UInt32} {i : Fin directoryEntryCount}
    (hs : UsedSlot fs.table p i) (hq : Live fs.table q) (hidx : srcIdx.toNat = i)
    (hspare : SparesStack fs levels (.move (fs.table p) (fs.table q) srcIdx))
    (h : syscallMove (fs.table p) (fs.table q) srcIdx fs = some fs') :
    SelfTree fs'.table fs'.fat ∧ Linked fs'.table levels := by
  have hcons := htree.consistent
  cases hfind : firstUnused (fs.table q) with
  | none =>
      rw [syscallMove_full (htree.self hs.live) (htree.self hq) hfind] at h
      obtain rfl := Option.some.inj h
      exact ⟨htree, hlinked⟩
  | some w =>
      rw [syscallMove_eq (htree.self hs.live) (htree.self hq) hs.slot hidx hfind] at h
      obtain rfl := Option.some.inj h
      obtain ⟨hw, hfree⟩ := firstUnused_some hfind
      obtain ⟨hpq, hentry⟩ := hspare w hfind
      obtain ⟨hbelow, hdir⟩ := hentry i hidx
      rw [htree.self hs.live, htree.self hq] at hpq hbelow
      rw [htree.self hq] at hdir
      have hmoved := entryMoved_moved hcons hs hq hpq hw hfree
      refine ⟨htree.moved hmoved hbelow, hlinked.mono ?_⟩
      intro top htop below hmem k hk
      have hd := hlinked.live htree below hmem
      refine hk.moved hcons hd hmoved ?_ ?_
      · intro hedge
        exact (hdir hedge.2.2.1).1 top htop hedge.2.2.2.symm
      · intro hdq hnamed
        have hne : k ≠ w := by
          rintro rfl
          exact hfree (hdq ▸ hcons.used_of_isDirectory hd hk.named)
        refine lt_of_le_of_ne (not_lt.mp ?_) hne
        intro hlt
        refine (hdir hnamed.2).2 ⟨top, htop, below, hmem, k, hdq, hnamed.1.symm, ?_, hlt⟩
        rw [hnamed.1, ← hdq]
        exact hk

end Calls

/-! ## Command lines -/

/-- A line whose command is `cd`, `mkdir`, `rm` or `mv`, with its table of tokens. -/
structure TreeCommand where
  locals : Locals
  behind : UInt8
  input : Buffer
  branch : Branch
  cmd : TokenTable
  tokens : commandOf behind input = some (branch, cmd)
  isTree : branch = .cd ∨ branch = .mkdir ∨ branch = .rm ∨ branch = .mv

/-- The line is executed. -/
def enterLine (s : Shell) (k : TreeCommand) : Option Shell :=
  executeCmd k.locals k.behind k.input s

/-- The call of the file system the line makes. -/
def TreeCommand.call (k : TreeCommand) (s : Shell) : Option Call :=
  match k.branch with
  | .mkdir => mkdirCall k.locals s k.cmd
  | .rm => rmCall s k.cmd
  | .mv => mvCall s k.cmd
  | .cd | .cat | .cp => none

/-- The line makes no call, or one that spares the stack. -/
def Spares (s : Shell) (k : TreeCommand) : Prop :=
  ∀ call, k.call s = some call → SparesStack s.fs s.stack.levels call

/-- The invariant of the shell: its levels are linked directories of a tree. -/
structure WellAddressed (s : Shell) : Prop where
  tree : SelfTree s.fs.table s.fs.fat
  linked : Linked s.fs.table s.stack.levels

variable {s s' : Shell} {cmd : TokenTable} {locals : Locals} {call : Call}

section Lines

variable (hs : WellAddressed s)
include hs

theorem WellAddressed.inUse : s.stack.length ≠ 0 := by
  intro h0
  have hbottom := hs.linked.bottom
  rw [DirStack.levels, h0] at hbottom
  cases hbottom

/-- Every walk from the stack ends in a live directory, which its name leads to. -/
theorem WellAddressed.walk (rows : List (List UInt8)) :
    Live s.fs.table (directoryNumber (walkLevels s rows)) ∧
      currentTable s.fs (walkLevels s rows)
        = some (s.fs.table (directoryNumber (walkLevels s rows))) := by
  have hwalk := hs.linked.walk hs.tree rows
  exact ⟨hwalk.directory_live hs.tree, hwalk.table_found hs.tree⟩

theorem mkdirCall_linked (hcall : mkdirCall locals s cmd = some call)
    (hspare : SparesStack s.fs s.stack.levels call) (h : exec s.fs call = some fs') :
    SelfTree fs'.table fs'.fat ∧ Linked fs'.table s.stack.levels := by
  rw [mkdirCall] at hcall
  split_ifs at hcall
  obtain rfl := Option.some.inj hcall
  obtain ⟨⟨code, fs₁⟩, hwrite, rfl⟩ := Option.map_eq_some_iff.mp h
  exact write_linked hs.tree hs.linked (hs.walk _).1 rfl hspare hwrite

theorem rmCall_linked (hcall : rmCall s cmd = some call)
    (hspare : SparesStack s.fs s.stack.levels call) (h : exec s.fs call = some fs') :
    SelfTree fs'.table fs'.fat ∧ Linked fs'.table s.stack.levels := by
  rw [rmCall] at hcall
  split_ifs at hcall
  obtain ⟨t, -, hfind⟩ := Option.bind_eq_some_iff.mp hcall
  obtain ⟨i, -, rfl⟩ := Option.map_eq_some_iff.mp hfind
  obtain ⟨⟨code, fs₁⟩, hdelete, rfl⟩ := Option.map_eq_some_iff.mp h
  exact delete_linked hs.tree hs.linked (hs.walk _).1 hspare hdelete

theorem mvCall_linked (hcall : mvCall s cmd = some call)
    (hspare : SparesStack s.fs s.stack.levels call) (h : exec s.fs call = some fs') :
    SelfTree fs'.table fs'.fat ∧ Linked fs'.table s.stack.levels := by
  rw [mvCall] at hcall
  split_ifs at hcall
  obtain ⟨⟨srcTable, i⟩, hentry, hcall⟩ := Option.bind_eq_some_iff.mp hcall
  obtain ⟨destTable, hdest, rfl⟩ := Option.map_eq_some_iff.mp hcall
  obtain ⟨t, hsrc, hentry⟩ := Option.bind_eq_some_iff.mp hentry
  obtain ⟨i', hindex, he⟩ := Option.map_eq_some_iff.mp hentry
  obtain ⟨rfl, rfl⟩ := Prod.mk.inj he
  obtain ⟨hp, hpt⟩ := hs.walk (sourcePath cmd)
  obtain ⟨hq, hqt⟩ := hs.walk (destPath cmd)
  obtain rfl := Option.some.inj (hsrc.symm.trans hpt)
  obtain rfl := Option.some.inj (hdest.symm.trans hqt)
  obtain ⟨hi0, hused⟩ := sourceIndex_some hindex
  refine move_linked hs.tree hs.linked ⟨hp, hi0, hused⟩ hq ?_ hspare h
  have hi := i'.isLt
  have h64 : directoryEntryCount = 64 := rfl
  show (UInt32.ofNat i').toNat = i'
  rw [UInt32.toNat_ofNat', Nat.mod_eq_of_lt (by omega)]

/-- A line whose call is made, if there is one, and whose levels are kept or reached by a
    walk, leaves the shell well addressed. -/
theorem WellAddressed.after (made : Option Call) (hfs : perform s.fs made = some s'.fs)
    (hcall : ∀ call, made = some call → exec s.fs call = some s'.fs →
      SelfTree s'.fs.table s'.fs.fat ∧ Linked s'.fs.table s.stack.levels)
    (hlevels : s'.stack.levels = s.stack.levels ∨
      (made = none ∧ ∃ rows, s'.stack.levels = walkLevels s rows)) : WellAddressed s' := by
  cases made with
  | none =>
      have hsame : s.fs = s'.fs := Option.some.inj hfs
      refine ⟨hsame ▸ hs.tree, ?_⟩
      rcases hlevels with hkept | ⟨-, rows, hwalk⟩
      · rw [hkept, ← hsame]
        exact hs.linked
      · rw [hwalk, ← hsame]
        exact hs.linked.walk hs.tree rows
  | some call =>
      obtain ⟨htree, hlinked⟩ := hcall call rfl hfs
      have hkept := hlevels.resolve_right fun h => nomatch h.1
      exact ⟨htree, hkept ▸ hlinked⟩

end Lines

theorem levelsBelow_suffix (st : DirStack) {m n : ℕ} (h : m ≤ n) :
    st.levelsBelow m <:+ st.levelsBelow n := by
  induction n, h using Nat.le_induction with
  | base => exact List.suffix_refl _
  | succ n _ ih => exact ih.trans (List.suffix_cons _ _)

/-- `cd` without an argument begins at the root. -/
theorem WellAddressed.cdStart (hs : WellAddressed s) (cmd : TokenTable) :
    WellAddressed (cdStart s cmd) := by
  rw [OsyShell.cdStart]
  split_ifs
  · exact hs
  · refine ⟨hs.tree, hs.linked.suffix (List.cons_ne_nil _ _) ?_⟩
    exact levelsBelow_suffix s.stack (length_pos hs.inUse)

/-- **The step.** A line that spares the stack keeps the shell well addressed. -/
theorem enterLine_wellAddressed (s : Shell) (k : TreeCommand) (s' : Shell)
    (hs : WellAddressed s) (hspare : Spares s k) (h : enterLine s k = some s') :
    WellAddressed s' := by
  obtain ⟨locals, behind, input, b, cmd, htokens, htree⟩ := k
  rw [enterLine, executeCmd_eq, htokens, Option.bind_some] at h
  obtain ⟨done, hexec, hfinish⟩ := Option.bind_eq_some_iff.mp h
  obtain ⟨hstack, hfs, -⟩ := finish_some hfinish
  -- the line break that is printed first changes neither the stack nor the files
  have hprinted : WellAddressed (s.print (text "\n") white) := ⟨hs.tree, hs.linked⟩
  rcases htree with rfl | rfl | rfl | rfl
  · obtain ⟨-, hsame, hlevels⟩ := executeCd_some hprinted.inUse hexec hfinish
    rcases hlevels with hkept | hwalk
    · exact hs.after none (congrArg some hsame.symm) nofun
        (Or.inl (congrArg DirStack.levels hkept))
    · have hstart := (cdStart_fs (s.print (text "\n") white) cmd).trans hsame.symm
      exact (hprinted.cdStart cmd).after none (congrArg some hstart) nofun
        (Or.inr ⟨rfl, _, hwalk⟩)
  · obtain ⟨hkeep, hcall⟩ := executeMkdir_some hexec
    rw [← hstack] at hkeep
    rw [← hfs] at hcall
    refine hs.after _ hcall ?_ (Or.inl (keepsStack_iff.mp hkeep))
    intro call hmade
    exact mkdirCall_linked hs hmade (hspare call hmade)
  · obtain ⟨hkeep, hcall⟩ := executeRm_some hexec
    rw [← hstack] at hkeep
    rw [← hfs] at hcall
    refine hs.after _ hcall ?_ (Or.inl (keepsStack_iff.mp hkeep))
    intro call hmade
    exact rmCall_linked hs hmade (hspare call hmade)
  · obtain ⟨hlevels, hcall⟩ := executeMv_some hexec
    rw [← hstack] at hlevels
    rw [← hfs] at hcall
    refine hs.after _ hcall ?_ ?_
    · intro call hmade
      exact mvCall_linked hs hmade (hspare call hmade)
    · rw [hlevels]
      exact mvLevels_cases s cmd

/-! ## Runs -/

/-- The two addresses agree: the name of every level but the lowest leads from the level
    below it to the table at its number, which is a live directory, and the table that is
    read for the current directory is the one at its number. -/
structure AddressesAgree (s : Shell) : Prop where
  level : ∀ (i : UInt8) (old : FAT32DirectoryTable), 1 ≤ i → i < s.stack.length →
    readDirectoryTable (requestName (s.stack.name i)) (s.stack.number (i - 1)) old s.fs
      = (0, s.fs.table (s.stack.number i)) ∧ Live s.fs.table (s.stack.number i)
  current : ∀ old : FAT32DirectoryTable,
    readCurrentTable old s = some (0, s.fs.table (s.stack.number (s.stack.length - 1)))

theorem levelsBelow_link {st : DirStack} {R : Level → Level → Prop} {n : ℕ}
    (h : (st.levelsBelow n).IsChain R) : ∀ i, i + 1 < n →
      R { number := st.number (UInt8.ofNat (i + 1)), name := st.name (UInt8.ofNat (i + 1)) }
        { number := st.number (UInt8.ofNat i), name := st.name (UInt8.ofNat i) } := by
  induction n with
  | zero => exact fun _ hi => absurd hi (Nat.not_lt_zero _)
  | succ n ih =>
      intro i hi
      cases n with
      | zero => omega
      | succ n =>
          obtain ⟨hlink, hrest⟩ := List.isChain_cons_cons.mp h
          rcases Nat.lt_succ_iff_lt_or_eq.mp hi with hlt | heq
          · exact ih hrest i hlt
          · obtain rfl := Nat.succ.inj heq
            exact hlink

theorem WellAddressed.addressesAgree (hs : WellAddressed s) : AddressesAgree s where
  level i old h1 hi := by
    rw [UInt8.le_iff_toNat_le, UInt8.toNat_one] at h1
    rw [UInt8.lt_iff_toNat_lt] at hi
    have hlt := UInt8.toNat_lt i
    have hsucc : UInt8.ofNat (i.toNat - 1 + 1) = i := by
      rw [Nat.sub_add_cancel h1, UInt8.ofNat_toNat]
    have hpred : UInt8.ofNat (i.toNat - 1) = i - 1 := by
      refine UInt8.toNat_inj.mp ?_
      rw [UInt8.toNat_ofNat', Nat.mod_eq_of_lt (by omega), UInt8.toNat_sub_of_le _ _ ?_,
        UInt8.toNat_one]
      rw [UInt8.le_iff_toNat_le]
      exact h1
    obtain ⟨hname, k, hk⟩ := levelsBelow_link hs.linked.chain (i.toNat - 1) (by omega)
    rw [hsucc, hpred] at hk
    rw [hsucc] at hname
    have hmem : (⟨s.stack.number (UInt8.ofNat i.toNat), s.stack.name (UInt8.ofNat i.toNat)⟩ :
        Level) ∈ s.stack.levels :=
      (levelsBelow_suffix s.stack (Nat.succ_le_of_lt hi)).subset List.mem_cons_self
    have hlive := hs.linked.live hs.tree _ hmem
    rw [UInt8.ofNat_toNat] at hlive
    exact ⟨readDirectoryTable_found old (findTable_of_named hname hk), hlive⟩
  current old := by
    rw [readCurrentTable_found hs.inUse old (hs.linked.table_found hs.tree),
      directoryNumber_levels hs.inUse]

/-- **Runs of `cd`, `mkdir`, `rm` and `mv`.** -/
theorem run_addressesAgree (disk : Disk) (lines : List TreeCommand) (s : Shell)
    (hspare : Guarded enterLine Spares (startShell (freshFileSystem disk)) lines)
    (hrun : run enterLine (startShell (freshFileSystem disk)) lines = some s) :
    AddressesAgree s := by
  have hstart : WellAddressed (startShell (freshFileSystem disk)) :=
    ⟨fresh_selfTree disk, linked_start _⟩
  exact (run_invariant enterLine enterLine_wellAddressed hstart hspare hrun).addressesAgree

/-! ## Two runs -/

theorem isPath_of_words {path : List (List UInt8)} (hw : ∀ c ∈ path, IsWord c ∧ c ≠ [])
    (hne : path ≠ []) : IsPath path where
  words c hc := (hw c hc).1
  first h := (hw [] (List.mem_of_head? h)).2 rfl
  last h := (hw [] (List.mem_of_getLast? h)).2 rfl
  nonempty := hne

/-- The line `word path`. -/
def pathCommand (b : Branch) (path : List (List UInt8))
    (hb : b = .cd ∨ b = .mkdir ∨ b = .rm ∨ b = .mv)
    (hw : ∀ c ∈ path, IsWord c ∧ c ≠ []) (hne : path ≠ []) (h38 : path.length ≤ 38)
    (hlen : (pathLine b.word path).length < 256) : TreeCommand where
  locals := zeroLocals
  behind := 0
  input := bufferOf (pathLine b.word path)
  branch := b
  cmd := pathTable b.word path
  tokens := commandOf_line
    (plainLine_pathLine b.word_isWord b.word_ne_nil (isPath_of_words hw hne) hlen)
    (tokenize_pathLine b.word_isWord b.word_ne_nil (isPath_of_words hw hne) h38) rfl
  isTree := hb

theorem words_a : ∀ c ∈ [[97]], IsWord c ∧ c ≠ [] := by
  intro c hc
  obtain rfl := List.mem_singleton.mp hc
  exact ⟨isWord_singleton (by decide), List.cons_ne_nil _ _⟩

theorem words_dotdot_a : ∀ c ∈ [[dot, dot], [97]], IsWord c ∧ c ≠ [] := by
  intro c hc
  rcases List.mem_pair.mp hc with rfl | rfl
  · refine ⟨⟨?_, by decide⟩, List.cons_ne_nil _ _⟩
    intro b hb
    obtain rfl : b = dot := by simpa using hb
    decide
  · exact ⟨isWord_singleton (by decide), List.cons_ne_nil _ _⟩

/-- `mkdir a`, `cd a`. -/
def enteringA : List TreeCommand :=
  [pathCommand .mkdir [[97]] (by decide) words_a (by decide) (by decide) (by decide),
    pathCommand .cd [[97]] (by decide) words_a (by decide) (by decide) (by decide)]

/-- `rm ../a`. -/
def removingA : TreeCommand :=
  pathCommand .rm [[dot, dot], [97]] (by decide) words_dotdot_a (by decide) (by decide)
    (by decide)

/-- Making a directory and entering it. -/
theorem run_addressesAgree_a : ∃ s, run enterLine (startShell (freshFileSystem blankDisk))
    enteringA = some s ∧ s.stack.length = 2 ∧ AddressesAgree s := by
  have hlen : (run enterLine (startShell (freshFileSystem blankDisk)) enteringA).map
      (fun s => s.stack.length) = some 2 := by decide +kernel
  obtain ⟨s, hs, h2⟩ := Option.map_eq_some_iff.mp hlen
  refine ⟨s, hs, h2, run_addressesAgree blankDisk enteringA s ?_ hs⟩
  refine ⟨?_, fun s' _ => ⟨?_, fun _ _ => trivial⟩⟩
  case refine_2 => exact fun _ hcall => nomatch hcall
  intro call hcall
  obtain rfl := Option.some.inj hcall
  refine ⟨fun _ _ => rfl, Or.inr (Or.inr (Or.inr ⟨⟨1, by decide⟩, ?_⟩))⟩
  -- the only name on the stack is the root's
  rintro ⟨top, htop, -, -, -, -, hname, -⟩
  obtain rfl := List.mem_singleton.mp htop
  exact absurd hname (by decide)

/-- `rm ../a` frees the current directory. -/
theorem run_addresses_differ : ∃ s, run enterLine (startShell (freshFileSystem blankDisk))
    (enteringA ++ [removingA]) = some s ∧ ¬ AddressesAgree s := by
  have hcode : (run enterLine (startShell (freshFileSystem blankDisk))
      (enteringA ++ [removingA])).map (fun s => (s.stack.length,
        (readDirectoryTable (requestName (s.stack.name 1)) (s.stack.number 0) unreadTable
          s.fs).1)) = some (2, 2) := by decide +kernel
  obtain ⟨s, hs, hread⟩ := Option.map_eq_some_iff.mp hcode
  obtain ⟨hlen, hread⟩ := Prod.mk.inj hread
  refine ⟨s, hs, ?_⟩
  intro hagree
  have hfound := (hagree.level 1 unreadTable (by decide) (by rw [hlen]; decide)).1
  have hzero : (2 : Int8) = 0 := hread.symm.trans (congrArg Prod.fst hfound)
  exact absurd hzero (by decide)

end OsyShell
