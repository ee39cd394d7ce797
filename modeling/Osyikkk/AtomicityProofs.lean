import Osyikkk.DriverRuns

/-!
# Calls that fail

A call that returns an error leaves the file allocation table, the disk and the caller's
buffer as they were, in every state of the driver, with two exceptions. A directory that
meets cell 511 as the first free cell is refused after the cell was claimed. An entry of an
attribute that is neither a directory's nor a file's loses its slot although `delete`
returns the initial -1.
-/

namespace OsyVolume

open OsyDisk OsyFat32 LinkedChain RootedForest

variable {newTable : FAT32DirectoryTable} {request : FAT32DriverRequest} {fs fs' : FileSystem}
  {code : Int8} {buf : Memory}

/-- An error of `write` leaves everything as it was. -/
def WriteAtomic (newTable : FAT32DirectoryTable) (request : FAT32DriverRequest)
    (fs : FileSystem) : Prop :=
  ∀ code fs', OsyFat32.write newTable request fs = some (code, fs') → code ≠ 0 →
    fs'.fat = fs.fat ∧ fs'.disk = fs.disk

/-- An error of `delete` leaves everything as it was. -/
def DeleteAtomic (request : FAT32DriverRequest) (fs : FileSystem) : Prop :=
  ∀ code fs', OsyFat32.delete request fs = some (code, fs') → code ≠ 0 →
    fs'.fat = fs.fat ∧ fs'.disk = fs.disk

/-- An error of `read` leaves the buffer as it was. -/
def ReadAtomic (request : FAT32DriverRequest) (fs : FileSystem) : Prop :=
  ∀ code buf, OsyFat32.read request fs = some (code, buf) → code ≠ 0 → buf = request.buf

/-- An error of `read_directory` leaves the buffer as it was. -/
def ReadDirectoryAtomic (request : FAT32DriverRequest) (fs : FileSystem) : Prop :=
  (readDirectory request fs).1 ≠ 0 → (readDirectory request fs).2 = request.buf

/-! ## The exceptions -/

/-- The request is for a directory and the first free cell is the last of the table. -/
def ClaimsLastCell (request : FAT32DriverRequest) (fs : FileSystem) : Prop :=
  request.name ≠ (fun _ => 0) ∧ ¬ request.parentClusterNumber < 2 ∧ request.bufferSize = 0 ∧
    (freeCells fs.fat).head? = some 511

/-- The entry the request names is neither a directory nor a file. -/
def MatchesOtherKind (request : FAT32DriverRequest) (fs : FileSystem) : Prop :=
  request.name ≠ (fun _ => 0) ∧
    ∃ i, firstMatch request (fs.table request.parentClusterNumber) = some i ∧
      (fs.table request.parentClusterNumber i).attr ≠ attrSubdirectory ∧
      (fs.table request.parentClusterNumber i).attr ≠ attrArchive

/-! ## `write` -/

theorem writeAtomic_iff : WriteAtomic newTable request fs ↔ ¬ ClaimsLastCell request fs := by
  constructor
  · rintro hatomic ⟨hn, hp, hs, hhead⟩
    obtain ⟨rest, hfree⟩ := List.head?_eq_some_iff.mp hhead
    have hcell : clusterMapGet fs.fat 511 = some 0 :=
      (mem_freeCells.mp (hfree ▸ List.mem_cons_self)).2
    have hcall : OsyFat32.write newTable request fs
        = some (1, fs.store (setCell fs.fat 511 fat32FatEndOfFile) fs.disk) := by
      rw [write_directory hn hp hs, writeDirectory_lastCell hfree rfl]
    have hfat := (hatomic _ _ hcall (by decide)).1
    rw [store_fat] at hfat
    rw [← hfat, clusterMapGet_setCell_self _ _ (by decide)] at hcell
    exact absurd (Option.some.inj hcell) (by decide)
  · intro hno code fs' h hcode
    by_cases hn : request.name = fun _ => 0
    · rw [write_emptyName hn] at h
      obtain ⟨-, rfl⟩ := Prod.mk.inj (Option.some.inj h)
      exact ⟨rfl, rfl⟩
    by_cases hp : request.parentClusterNumber < 2
    · rw [write_reserved hn hp] at h
      obtain ⟨-, rfl⟩ := Prod.mk.inj (Option.some.inj h)
      exact ⟨rfl, rfl⟩
    cases write_outcome h with
    | refused _ => exact ⟨rfl, rfl⟩
    | @leaked c rest hs hfree hc =>
        obtain rfl : c = 511 := UInt32.toNat_inj.mp hc
        exact absurd ⟨hn, hp, hs, by rw [hfree, List.head?_cons]⟩ hno
    | directory _ _ _ _ => exact absurd rfl hcode
    | file _ _ _ _ _ => exact absurd rfl hcode

/-! ## `delete` -/

/-- An empty directory is deleted. -/
theorem deleteDirectory_code_zero {i : Fin directoryEntryCount}
    (h : deleteDirectory request fs i = some (code, fs'))
    (hempty : TableEmpty (fs.table (fs.table request.parentClusterNumber i).cluster)) :
    code = 0 := by
  have hnot := mt (exists_used_iff _).mp (not_not.mpr hempty)
  simp only [deleteDirectory, if_neg hnot, Option.bind_eq_bind, Option.bind_eq_some_iff] at h
  obtain ⟨fat, -, h⟩ := h
  exact (Prod.mk.inj (Option.some.inj h)).1.symm

/-- A directory that is not empty is left alone. -/
theorem deleteDirectory_code {i : Fin directoryEntryCount}
    (h : deleteDirectory request fs i = some (code, fs')) (hcode : code ≠ 0) : fs' = fs := by
  by_cases hempty : TableEmpty (fs.table (fs.table request.parentClusterNumber i).cluster)
  · exact absurd (deleteDirectory_code_zero h hempty) hcode
  · rw [deleteDirectory_filled hempty] at h
    exact (Prod.mk.inj (Option.some.inj h)).2.symm

/-- Every defined deletion of a file returns 0. -/
theorem deleteFile_code {i : Fin directoryEntryCount}
    (h : deleteFile request fs i = some (code, fs')) : code = 0 := by
  simp only [deleteFile, Option.bind_eq_bind, Option.bind_eq_some_iff] at h
  obtain ⟨⟨fat, disk, last⟩, -, fat', -, h⟩ := h
  exact (Prod.mk.inj (Option.some.inj h)).1.symm

/-- Clearing a slot with a name changes the disk. -/
theorem slotCleared_disk_ne {i : Fin directoryEntryCount} (fat : FAT32FileAllocationTable)
    (disk : Disk) (hname : (fs.table request.parentClusterNumber i).name ≠ fun _ => 0) :
    (slotCleared request fs fat disk i).disk ≠ fs.disk := by
  intro heq
  have hentry : (slotCleared request fs fat disk i).table request.parentClusterNumber i
      = FAT32DirectoryEntry.zero := by
    rw [slotCleared, flush_table_parent, Function.update_self]
  rw [FileSystem.table, heq] at hentry
  exact hname (congrArg FAT32DirectoryEntry.name hentry)

theorem deleteAtomic_iff : DeleteAtomic request fs ↔ ¬ MatchesOtherKind request fs := by
  constructor
  · rintro hatomic ⟨hn, i, hm, hd, hf⟩
    have hdisk := (hatomic _ _ (delete_other hn hm hd hf) (by decide)).2
    exact slotCleared_disk_ne _ _ ((firstMatch_some hm).2.1 ▸ hn) hdisk
  · intro hno code fs' h hcode
    by_cases hn : request.name = fun _ => 0
    · rw [delete_emptyName hn] at h
      obtain ⟨-, rfl⟩ := Prod.mk.inj (Option.some.inj h)
      exact ⟨rfl, rfl⟩
    cases hm : firstMatch request (fs.table request.parentClusterNumber) with
    | none =>
        rw [delete_notFound hn hm] at h
        obtain ⟨-, rfl⟩ := Prod.mk.inj (Option.some.inj h)
        exact ⟨rfl, rfl⟩
    | some i =>
        by_cases hd : (fs.table request.parentClusterNumber i).attr = attrSubdirectory
        · rw [delete_directory hn hm hd] at h
          obtain rfl := deleteDirectory_code h hcode
          exact ⟨rfl, rfl⟩
        by_cases hf : (fs.table request.parentClusterNumber i).attr = attrArchive
        · rw [delete_file hn hm hf] at h
          exact absurd (deleteFile_code h) hcode
        · exact absurd ⟨hn, i, hm, hd, hf⟩ hno

/-! ## `read` and `read_directory` -/

theorem read_atomic (request : FAT32DriverRequest) (fs : FileSystem) :
    ReadAtomic request fs := by
  intro code buf h hcode
  by_cases hn : request.name = fun _ => 0
  · rw [read_emptyName hn] at h
    exact (Prod.mk.inj (Option.some.inj h)).2.symm
  by_cases hs : request.bufferSize = 0
  · rw [read_zeroSize hn hs] at h
    exact (Prod.mk.inj (Option.some.inj h)).2.symm
  cases hm : firstMatch request (fs.table request.parentClusterNumber) with
  | none =>
      rw [read_notFound hn hs hm] at h
      exact (Prod.mk.inj (Option.some.inj h)).2.symm
  | some i =>
      by_cases hchain : ∃ l, FatChain fs.fat (fs.table request.parentClusterNumber i).cluster l
      · obtain ⟨l, hl⟩ := hchain
        by_cases hsmall : clusterCount request < l.length
        · rw [read_tooSmall hn hs hm hl hsmall] at h
          exact (Prod.mk.inj (Option.some.inj h)).2.symm
        · rw [read_eq hn hs hm hl (Nat.not_lt.mp hsmall)] at h
          exact absurd (Prod.mk.inj (Option.some.inj h)).1.symm hcode
      · rw [read_noChain hn hs hm hchain] at h
        exact nomatch h

theorem readDirectory_atomic (request : FAT32DriverRequest) (fs : FileSystem) :
    ReadDirectoryAtomic request fs := by
  intro hcode
  by_cases hn : request.name = fun _ => 0
  · rw [readDirectory_emptyName hn]
  by_cases hs : request.bufferSize = 0
  · cases hm : firstDirectory request (fs.table request.parentClusterNumber) with
    | none => rw [readDirectory_notFound hn hs hm]
    | some i =>
        rw [readDirectory_eq hn hs hm] at hcode
        exact absurd rfl hcode
  · rw [readDirectory_sized hn hs]

/-- **Failing calls are atomic, with two exceptions.** -/
theorem calls_atomic_iff (newTable : FAT32DirectoryTable) (request : FAT32DriverRequest)
    (fs : FileSystem) :
    (WriteAtomic newTable request fs ∧ DeleteAtomic request fs ∧ ReadAtomic request fs ∧
      ReadDirectoryAtomic request fs) ↔
    ¬ ClaimsLastCell request fs ∧ ¬ MatchesOtherKind request fs := by
  rw [writeAtomic_iff, deleteAtomic_iff]
  exact and_congr_right fun _ =>
    and_iff_left ⟨read_atomic request fs, readDirectory_atomic request fs⟩

/-- A directory that is refused for cell 511 changes the file allocation table of a state
    the driver reaches. -/
theorem lastCell_claimed :
    exec (freshFileSystem blankDisk) (.write zeroTable bigFile) = some afterBigFile ∧
      ¬ WriteAtomic zeroTable (rootRequest [98] 0) afterBigFile := by
  refine ⟨by rw [exec, write_bigFile, Option.map_some], ?_⟩
  rw [writeAtomic_iff, not_not]
  exact ⟨by decide, by decide, rfl, by rw [afterBigFile_freeCells]; rfl⟩

end OsyVolume
