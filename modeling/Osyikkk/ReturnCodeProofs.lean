import Osyikkk.DriverRuns

/-!
# What the return codes say

The headers describe a call by its code: which kind of entry the name has, or that there is
none. On a live parent of a consistent volume each function keeps to it for some requests
only. `read` answers 1 for every empty buffer, whatever the entry is. `read_directory`
answers 1 for every other size, and also finds the directory's own entry in slot 0.
`delete` leaves its initial -1 when nothing matches and meets a file of one cluster outside
the table.
-/

namespace OsyVolume

open OsyDisk OsyFat32 LinkedChain RootedForest

variable {request : FAT32DriverRequest} {fs : FileSystem}

/-! ## What the headers say -/

/-- The entry `read` and `delete` find is a directory. -/
def MatchesDirectory (request : FAT32DriverRequest) (fs : FileSystem) : Prop :=
  ∃ i, firstMatch request (fs.table request.parentClusterNumber) = some i ∧
    (fs.table request.parentClusterNumber i).attr = attrSubdirectory

/-- The parent has a child of the name. -/
def ChildNamed (request : FAT32DriverRequest) (fs : FileSystem) : Prop :=
  ∃ i, i ≠ 0 ∧ (fs.table request.parentClusterNumber i).used ∧
    request.name = (fs.table request.parentClusterNumber i).name

/-- The parent has a child of the name that is a directory. -/
def ChildDirectory (request : FAT32DriverRequest) (fs : FileSystem) : Prop :=
  ∃ i, i ≠ 0 ∧ (fs.table request.parentClusterNumber i).used ∧
    request.name = (fs.table request.parentClusterNumber i).name ∧
    (fs.table request.parentClusterNumber i).attr = attrSubdirectory

/-- `read` returns 1 for a directory and 3 for no entry, and only then. -/
def ReadClassifies (request : FAT32DriverRequest) (fs : FileSystem) : Prop :=
  ∃ code buf, OsyFat32.read request fs = some (code, buf) ∧
    (code = 1 ↔ MatchesDirectory request fs) ∧
    (code = 3 ↔ firstMatch request (fs.table request.parentClusterNumber) = none)

/-- `read_directory` returns 0 for a child directory, 1 for a name that only a file has and
    2 for a name no child has, and only then. -/
def ReadDirectoryClassifies (request : FAT32DriverRequest) (fs : FileSystem) : Prop :=
  ((readDirectory request fs).1 = 0 ↔ ChildDirectory request fs) ∧
  ((readDirectory request fs).1 = 1 ↔ ChildNamed request fs ∧ ¬ ChildDirectory request fs) ∧
  ((readDirectory request fs).1 = 2 ↔ ¬ ChildNamed request fs)

/-- `delete` returns 1 for no entry, 2 for a directory that is not empty and 0 when the
    entry is gone, and only then. -/
def DeleteClassifies (request : FAT32DriverRequest) (fs : FileSystem) : Prop :=
  ∃ code fs', OsyFat32.delete request fs = some (code, fs') ∧
    (code = 1 ↔ firstMatch request (fs.table request.parentClusterNumber) = none) ∧
    (code = 2 ↔ ∃ i, firstMatch request (fs.table request.parentClusterNumber) = some i ∧
      (fs.table request.parentClusterNumber i).attr = attrSubdirectory ∧
      ¬ TableEmpty (fs.table (fs.table request.parentClusterNumber i).cluster)) ∧
    (code = 0 ↔ ∃ i, firstMatch request (fs.table request.parentClusterNumber) = some i ∧
      ¬ (fs'.table request.parentClusterNumber i).used)

/-! ## When the code does -/

/-- The buffer is empty exactly when the match is a directory. -/
def ReadTold (request : FAT32DriverRequest) (fs : FileSystem) : Prop :=
  request.bufferSize = 0 ↔ MatchesDirectory request fs

/-- The size is not 0 and only a file has the name, or it is 0 and a directory has it or no
    child does; in the last case slot 0 does not have it either. -/
def ReadDirectoryTold (request : FAT32DriverRequest) (fs : FileSystem) : Prop :=
  (request.bufferSize ≠ 0 ∧ ChildNamed request fs ∧ ¬ ChildDirectory request fs) ∨
  (request.bufferSize = 0 ∧ (ChildDirectory request fs ∨
    (¬ ChildNamed request fs ∧
      ¬ (request.name = (fs.table request.parentClusterNumber 0).name ∧
        (fs.table request.parentClusterNumber 0).attr = attrSubdirectory))))

/-- The match is a directory, or a file of two clusters or more. -/
def DeleteTold (request : FAT32DriverRequest) (fs : FileSystem) : Prop :=
  ∃ i, firstMatch request (fs.table request.parentClusterNumber) = some i ∧
    ((fs.table request.parentClusterNumber i).attr = attrSubdirectory ∨
      ((fs.table request.parentClusterNumber i).attr = attrArchive ∧
        clusterMapGet fs.fat (fs.table request.parentClusterNumber i).cluster
          ≠ some fat32FatEndOfFile))

/-- A cleared slot is not in use. -/
theorem slotCleared_unused (request : FAT32DriverRequest) (fs : FileSystem)
    (fat : FAT32FileAllocationTable) (disk : Disk) (i : Fin directoryEntryCount) :
    ¬ ((slotCleared request fs fat disk i).table request.parentClusterNumber i).used := by
  rw [slotCleared, flush_table_parent, Function.update_self]
  exact zero_not_used

/-- What matches has a chain, so a call with a buffer returns 0 or 2. -/
theorem read_some {i : Fin directoryEntryCount} (hcons : FsConsistent fs)
    (hlive : Live fs.table request.parentClusterNumber) (hn : request.name ≠ fun _ => 0)
    (hs : request.bufferSize ≠ 0)
    (hm : firstMatch request (fs.table request.parentClusterNumber) = some i) :
    ∃ code buf, OsyFat32.read request fs = some (code, buf) ∧ code ≠ 1 ∧ code ≠ 3 := by
  obtain ⟨l, hl, -⟩ := hcons.chain (usedSlot_of_firstMatch hcons hlive hn hm)
  by_cases hsmall : clusterCount request < l.length
  · exact ⟨2, _, read_tooSmall hn hs hm hl hsmall, by decide, by decide⟩
  · exact ⟨0, _, read_eq hn hs hm hl (Nat.not_lt.mp hsmall), by decide, by decide⟩

section Codes

variable (hcons : FsConsistent fs) (hlive : Live fs.table request.parentClusterNumber)
  (hn : request.name ≠ fun _ => 0)
include hcons hlive hn

theorem readClassifies_iff : ReadClassifies request fs ↔ ReadTold request fs := by
  unfold ReadTold
  by_cases hs : request.bufferSize = 0
  · -- the code is 1 whatever matches
    simp only [ReadClassifies, read_zeroSize hn hs, Option.some.injEq, Prod.mk.injEq, hs,
      true_iff]
    constructor
    · rintro ⟨code, buf, ⟨rfl, -⟩, hdir, -⟩
      exact hdir.mp rfl
    · intro hdir
      refine ⟨1, request.buf, ⟨rfl, rfl⟩, iff_of_true rfl hdir, ?_⟩
      obtain ⟨i, hm, -⟩ := hdir
      rw [hm]
      exact iff_of_false (by decide) (by simp)
  · cases hm : firstMatch request (fs.table request.parentClusterNumber) with
    | none =>
        have hdir : ¬ MatchesDirectory request fs := by
          rintro ⟨i, hi, -⟩
          exact nomatch hm.symm.trans hi
        refine iff_of_true ⟨3, request.buf, read_notFound hn hs hm, ?_, ?_⟩
          (iff_of_false hs hdir)
        · exact iff_of_false (by decide) hdir
        · exact iff_of_true rfl hm
    | some i =>
        obtain ⟨code, buf, h, h1, h3⟩ := read_some hcons hlive hn hs hm
        have hsome : firstMatch request (fs.table request.parentClusterNumber) ≠ none := by
          simp [hm]
        constructor
        · rintro ⟨code', buf', h', hdir, -⟩
          obtain ⟨rfl, -⟩ := Prod.mk.inj (Option.some.inj (h.symm.trans h'))
          exact iff_of_false hs (mt hdir.mpr h1)
        · intro hdir
          exact ⟨code, buf, h, iff_of_false h1 (mt hdir.mpr hs), iff_of_false h3 hsome⟩

theorem firstDirectory_iff :
    (∃ i, firstDirectory request (fs.table request.parentClusterNumber) = some i) ↔
      ChildDirectory request fs ∨
      (request.name = (fs.table request.parentClusterNumber 0).name ∧
        (fs.table request.parentClusterNumber 0).attr = attrSubdirectory) := by
  constructor
  · rintro ⟨i, hi⟩
    obtain ⟨hname, hattr⟩ := firstDirectory_some hi
    by_cases h0 : i = 0
    · exact Or.inr (h0 ▸ ⟨hname, hattr⟩)
    · exact Or.inl ⟨i, h0, hcons.used_of_name hlive (hname ▸ hn), hname, hattr⟩
  · intro h
    have hslot : ∃ i, request.name = (fs.table request.parentClusterNumber i).name ∧
        (fs.table request.parentClusterNumber i).attr = attrSubdirectory := by
      rcases h with ⟨i, -, -, hi⟩ | h0
      · exact ⟨i, hi⟩
      · exact ⟨0, h0⟩
    obtain ⟨i, hname, hattr⟩ := hslot
    cases hfound : firstDirectory request (fs.table request.parentClusterNumber) with
    | some j => exact ⟨j, rfl⟩
    | none => exact absurd hattr (firstDirectory_eq_none.mp hfound i hname)

theorem readDirectoryClassifies_iff :
    ReadDirectoryClassifies request fs ↔ ReadDirectoryTold request fs := by
  unfold ReadDirectoryTold
  have hsub : ChildDirectory request fs → ChildNamed request fs := by
    rintro ⟨i, h0, hused, hname, -⟩
    exact ⟨i, h0, hused, hname⟩
  by_cases hs : request.bufferSize = 0
  · have hiff := firstDirectory_iff hcons hlive hn
    cases hm : firstDirectory request (fs.table request.parentClusterNumber) with
    | some i =>
        have hcode : (readDirectory request fs).1 = 0 := by rw [readDirectory_eq hn hs hm]
        have hfound := hiff.mp ⟨i, hm⟩
        simp only [ReadDirectoryClassifies, hcode, hs, true_iff, ne_eq, not_true_eq_false,
          false_and, false_or, true_and, show ((0 : Int8) = 1) = False by decide,
          show ((0 : Int8) = 2) = False by decide, false_iff, not_not]
        constructor
        · intro h
          exact Or.inl h.1
        · intro h
          have hdir : ChildDirectory request fs := h.elim id fun h => hfound.resolve_right h.2
          exact ⟨hdir, fun h => h.2 hdir, hsub hdir⟩
    | none =>
        have hcode : (readDirectory request fs).1 = 2 := by
          rw [readDirectory_notFound hn hs hm]
        have hnone : ¬ (ChildDirectory request fs ∨
            (request.name = (fs.table request.parentClusterNumber 0).name ∧
              (fs.table request.parentClusterNumber 0).attr = attrSubdirectory)) := by
          rw [← hiff, hm]
          simp
        simp only [ReadDirectoryClassifies, hcode, hs, true_iff, ne_eq, not_true_eq_false,
          false_and, false_or, true_and, show ((2 : Int8) = 1) = False by decide,
          show ((2 : Int8) = 0) = False by decide, false_iff]
        constructor
        · intro h
          exact Or.inr ⟨h.2.2, fun h0 => hnone (Or.inr h0)⟩
        · intro h
          have hdir : ¬ ChildDirectory request fs := fun h => hnone (Or.inl h)
          have hno := (h.resolve_left hdir).1
          exact ⟨hdir, fun h => hno h.1, hno⟩
  · have hcode : (readDirectory request fs).1 = 1 := by rw [readDirectory_sized hn hs]
    simp only [ReadDirectoryClassifies, hcode, hs, true_iff, ne_eq, not_false_eq_true,
      false_and, or_false, true_and, show ((1 : Int8) = 0) = False by decide,
      show ((1 : Int8) = 2) = False by decide, false_iff, not_not]
    constructor
    · intro h
      exact h.2.1
    · intro h
      exact ⟨h.2, h, h.1⟩

end Codes

/-- A code 0 that goes with a cleared slot is told, unless a filled directory was cleared. -/
theorem deleteClassifies_of_cleared {i : Fin directoryEntryCount}
    {fat : FAT32FileAllocationTable} {disk : Disk}
    (hm : firstMatch request (fs.table request.parentClusterNumber) = some i)
    (h : OsyFat32.delete request fs = some (0, slotCleared request fs fat disk i))
    (hempty : (fs.table request.parentClusterNumber i).attr = attrSubdirectory →
      TableEmpty (fs.table (fs.table request.parentClusterNumber i).cluster)) :
    DeleteClassifies request fs := by
  have hsome : firstMatch request (fs.table request.parentClusterNumber) ≠ none := by
    simp [hm]
  refine ⟨0, _, h, iff_of_false (by decide) hsome, iff_of_false (by decide) ?_,
    iff_of_true rfl ⟨i, hm, slotCleared_unused _ _ _ _ _⟩⟩
  rintro ⟨j, hj, hd, hfilled⟩
  obtain rfl := Option.some.inj (hm.symm.trans hj)
  exact hfilled (hempty hd)

/-- A directory is told: it is removed or refused by the slots of its own table. -/
theorem deleteClassifies_directory {i : Fin directoryEntryCount} (hcons : FsConsistent fs)
    (hlive : Live fs.table request.parentClusterNumber) (hn : request.name ≠ fun _ => 0)
    (hm : firstMatch request (fs.table request.parentClusterNumber) = some i)
    (hd : (fs.table request.parentClusterNumber i).attr = attrSubdirectory) :
    DeleteClassifies request fs := by
  have hs := usedSlot_of_firstMatch hcons hlive hn hm
  by_cases hempty : TableEmpty (fs.table (fs.table request.parentClusterNumber i).cluster)
  · exact deleteClassifies_of_cleared hm ((delete_directory hn hm hd).trans
      (deleteDirectory_eq rfl hempty (hcons.start hs).2)) fun _ => hempty
  · have hsome : firstMatch request (fs.table request.parentClusterNumber) ≠ none := by
      simp [hm]
    refine ⟨2, fs, (delete_directory hn hm hd).trans (deleteDirectory_filled hempty),
      iff_of_false (by decide) hsome, iff_of_true rfl ⟨i, hm, hd, hempty⟩,
      iff_of_false (by decide) ?_⟩
    rintro ⟨j, hj, hun⟩
    obtain rfl := Option.some.inj (hm.symm.trans hj)
    exact hun hs.used

/-- A file is told when its chain has two cells or more: with one the call has no outcome. -/
theorem deleteClassifies_file_iff {i : Fin directoryEntryCount} (hcons : FsConsistent fs)
    (hlive : Live fs.table request.parentClusterNumber) (hn : request.name ≠ fun _ => 0)
    (hm : firstMatch request (fs.table request.parentClusterNumber) = some i)
    (hf : (fs.table request.parentClusterNumber i).attr = attrArchive) :
    DeleteClassifies request fs ↔
      clusterMapGet fs.fat (fs.table request.parentClusterNumber i).cluster
        ≠ some fat32FatEndOfFile := by
  constructor
  · rintro ⟨code, fs', h, -⟩ hend
    rw [delete_single hcons hlive hn ⟨i, hm, hf, hend⟩] at h
    exact nomatch h
  · intro hend
    obtain ⟨l, hl, hne, -⟩ := hcons.chain (usedSlot_of_firstMatch hcons hlive hn hm)
    refine deleteClassifies_of_cleared hm ((delete_file hn hm hf).trans
      (deleteFile_eq hl (two_le_length hl hne hend))) ?_
    exact fun hd => absurd (hf.symm.trans hd) archive_ne_subdirectory

theorem deleteClassifies_iff (hcons : FsConsistent fs)
    (hlive : Live fs.table request.parentClusterNumber) (hn : request.name ≠ fun _ => 0) :
    DeleteClassifies request fs ↔ DeleteTold request fs := by
  unfold DeleteTold
  cases hm : firstMatch request (fs.table request.parentClusterNumber) with
  | none =>
      refine iff_of_false ?_ (by simp)
      rintro ⟨code, fs', h, h1, -⟩
      -- the code keeps its initial value -1, where the header says 1
      obtain ⟨rfl, -⟩ := Prod.mk.inj (Option.some.inj ((delete_notFound hn hm).symm.trans h))
      exact absurd (h1.mpr hm) (by decide)
  | some i =>
      simp only [Option.some.injEq, exists_eq_left']
      by_cases hd : (fs.table request.parentClusterNumber i).attr = attrSubdirectory
      · exact iff_of_true (deleteClassifies_directory hcons hlive hn hm hd) (Or.inl hd)
      by_cases hf : (fs.table request.parentClusterNumber i).attr = attrArchive
      · rw [deleteClassifies_file_iff hcons hlive hn hm hf, or_iff_right hd,
          and_iff_right hf]
      · -- any other entry loses its slot although the code is -1
        refine iff_of_false ?_ (by simp [hd, hf])
        rintro ⟨code, fs', h, -, -, h0⟩
        obtain ⟨rfl, rfl⟩ := Prod.mk.inj
          (Option.some.inj ((delete_other hn hm hd hf).symm.trans h))
        exact absurd (h0.mpr ⟨i, hm, slotCleared_unused _ _ _ _ _⟩) (by decide)

/-- **The requests whose codes say what the headers say.** -/
theorem codes_classify_iff (hcons : FsConsistent fs)
    (hlive : Live fs.table request.parentClusterNumber) (hn : request.name ≠ fun _ => 0) :
    (ReadClassifies request fs ↔ ReadTold request fs) ∧
    (ReadDirectoryClassifies request fs ↔ ReadDirectoryTold request fs) ∧
    (DeleteClassifies request fs ↔ DeleteTold request fs) :=
  ⟨readClassifies_iff hcons hlive hn, readDirectoryClassifies_iff hcons hlive hn,
    deleteClassifies_iff hcons hlive hn⟩

/-! ## A directory and a file -/

theorem afterMkdir_consistent : FsConsistent afterMkdir := by
  have hcall := exec_mkdir
  rw [exec] at hcall
  obtain ⟨⟨code, fs⟩, hwrite, hfs⟩ := Option.map_eq_some_iff.mp hcall
  exact hfs ▸ (write_outcome hwrite).consistent (fresh_consistent blankDisk) Reach.root
    fun _ _ => rfl

/-- The state after the file `b` of two clusters was stored beside the directory `a`. -/
def dirAndFile : FileSystem := fileWritten (rootRequest [98] 4096) afterMkdir 4 [5]

theorem take_dirAndFile : (freeCells afterMkdir.fat).take (clusterCount (rootRequest [98] 4096))
    = [4, 5] := by
  decide +kernel

theorem write_dirAndFile : OsyFat32.write zeroTable (rootRequest [98] 4096) afterMkdir
    = some (0, dirAndFile) := by
  rw [write_file (by decide) (by decide) (by decide)]
  refine writeFile_eq (by decide) ?_ take_dirAndFile
  have hlen := congrArg List.length take_dirAndFile
  rw [List.length_take] at hlen
  exact min_eq_left_iff.mp hlen

theorem dirAndFile_consistent : FsConsistent dirAndFile :=
  (write_outcome write_dirAndFile).consistent afterMkdir_consistent Reach.root fun _ _ => rfl

/-- Both are told apart. -/
theorem codes_classify_dirAndFile :
    runCalls (freshFileSystem blankDisk) [.write zeroTable (rootRequest [97] 0),
      .write zeroTable (rootRequest [98] 4096)] = some dirAndFile ∧
    (ReadClassifies (rootRequest [97] 0) dirAndFile ∧
      ReadDirectoryClassifies (rootRequest [97] 0) dirAndFile ∧
      DeleteClassifies (rootRequest [97] 0) dirAndFile) ∧
    ReadClassifies (rootRequest [98] 4096) dirAndFile ∧
      ReadDirectoryClassifies (rootRequest [98] 4096) dirAndFile ∧
      DeleteClassifies (rootRequest [98] 4096) dirAndFile := by
  have hdir : firstMatch (rootRequest [97] 0) (dirAndFile.table 2) = some 1 := by decide
  have hfile : firstMatch (rootRequest [98] 4096) (dirAndFile.table 2) = some 2 := by decide
  have hattr : (dirAndFile.table 2 1).attr = attrSubdirectory := by decide
  have hnone : ¬ ChildDirectory (rootRequest [98] 4096) dirAndFile := by
    have hslots : ∀ i : Fin directoryEntryCount, i ≠ 2 → (dirAndFile.table 2 i).name 0 ≠ 98 := by
      decide
    rintro ⟨i, -, -, hname, hsub⟩
    by_cases hi : i = 2
    · subst hi
      exact absurd hsub (by decide)
    · exact hslots i hi (congrFun hname 0).symm
  have hcons := dirAndFile_consistent
  refine ⟨?_, ?_, ?_⟩
  · rw [runCalls, PartialRun.run_cons, exec_mkdir, Option.bind_some, PartialRun.run_cons, exec,
      write_dirAndFile]
    rfl
  · obtain ⟨hread, hreadDir, hdelete⟩ :=
      @codes_classify_iff (rootRequest [97] 0) dirAndFile hcons Reach.root (by decide)
    refine ⟨hread.mpr (iff_of_true rfl ⟨1, hdir, hattr⟩), hreadDir.mpr (Or.inr ⟨rfl, Or.inl ?_⟩),
      hdelete.mpr ⟨1, hdir, Or.inl hattr⟩⟩
    exact ⟨1, by decide, by decide, by decide, hattr⟩
  · obtain ⟨hread, hreadDir, hdelete⟩ :=
      @codes_classify_iff (rootRequest [98] 4096) dirAndFile hcons Reach.root (by decide)
    refine ⟨hread.mpr (iff_of_false (by decide) ?_), hreadDir.mpr (Or.inl ⟨by decide, ?_, hnone⟩),
      hdelete.mpr ⟨2, hfile, Or.inr ⟨by decide, by decide⟩⟩⟩
    · rintro ⟨i, hi, hsub⟩
      obtain rfl := Option.some.inj (hfile.symm.trans hi)
      exact absurd hsub (by decide)
    · exact ⟨2, by decide, by decide, by decide⟩

/-- In the fresh root an empty buffer makes `read` report the missing name `a` as a
    directory, `read_directory` finds a child `ROOT`, and `delete` does not return 1 for
    `a`. -/
theorem codes_misclassify :
    ¬ ReadClassifies (rootRequest [97] 0) (freshFileSystem blankDisk) ∧
    ¬ ReadDirectoryClassifies (rootRequest [82, 79, 79, 84] 0) (freshFileSystem blankDisk) ∧
    ¬ DeleteClassifies (rootRequest [97] 0) (freshFileSystem blankDisk) := by
  have hcons := fresh_consistent blankDisk
  have hmatch : firstMatch (rootRequest [97] 0)
      ((freshFileSystem blankDisk).table rootClusterNumber) = none := by decide
  have hno : ¬ ChildDirectory (rootRequest [82, 79, 79, 84] 0) (freshFileSystem blankDisk) := by
    rintro ⟨i, hi, hused, -⟩
    exact fresh_no_slot blankDisk ⟨Reach.root, hi, hused⟩
  refine ⟨?_, ?_, ?_⟩
  · intro h
    obtain ⟨i, hi, -⟩ := ((readClassifies_iff hcons Reach.root (by decide)).mp h).mp rfl
    exact nomatch hmatch.symm.trans hi
  · intro h
    rcases (readDirectoryClassifies_iff hcons Reach.root (by decide)).mp h with
      ⟨hsize, -⟩ | ⟨-, hchild | ⟨-, hself⟩⟩
    · exact hsize rfl
    · exact hno hchild
    · exact hself (by decide)
  · intro h
    obtain ⟨i, hi, -⟩ := (deleteClassifies_iff hcons Reach.root (by decide)).mp h
    exact nomatch hmatch.symm.trans hi

end OsyVolume
