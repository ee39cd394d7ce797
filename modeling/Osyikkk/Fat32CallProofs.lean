import Osyikkk.FatWalkProofs
import Mathlib.Data.List.Find

/-!
# What each driver call does

One equation for every way a call of `write`, `delete`, `read` or `read_directory` can go,
for every state of the driver and every disk. The proofs about the file system use these
equations and never unfold a driver function again.

`write` has two outcomes a reader of the headers would not expect: a directory whose cell
would be 511 is reported as a full table although the cell was claimed in memory
(`writeDirectory_lastCell`), and a file request of fewer bytes than a cluster has no defined
outcome (`writeFile_short`). `delete` has one: a file of one cluster makes it read
`cluster_map[0x0FFFFFFF]` (`deleteFile_single`).
-/

namespace OsyFat32

open OsyDisk LinkedChain

variable {request : FAT32DriverRequest} {fs : FileSystem} {newTable : FAT32DirectoryTable}

/-! ## Lookups -/

/-- A slot with the name and extension of the request. -/
def Matches (request : FAT32DriverRequest) (t : FAT32DirectoryTable)
    (i : Fin directoryEntryCount) : Prop :=
  i ≠ 0 ∧ request.name = (t i).name ∧ request.ext = (t i).ext

theorem firstMatch_some {t : FAT32DirectoryTable} {i : Fin directoryEntryCount}
    (h : firstMatch request t = some i) : Matches request t i := by
  have hmem := mem_slotsFrom_one.mp (List.mem_of_find?_eq_some h)
  have hp := List.find?_some h
  simp only [sameName_iff, sameExt_iff, decide_eq_true_eq] at hp
  exact ⟨hmem, hp⟩

theorem firstMatch_eq_none {t : FAT32DirectoryTable} :
    firstMatch request t = none ↔ ∀ i, ¬ Matches request t i := by
  simp only [firstMatch, List.find?_eq_none, mem_slotsFrom_one, sameName_iff, sameExt_iff,
    decide_eq_true_eq, Matches, not_and]

/-- The lookup sees the names and extensions of the slots only. -/
theorem firstMatch_congr {request' : FAT32DriverRequest} {t t' : FAT32DirectoryTable}
    (h : ∀ i, Matches request t i ↔ Matches request' t' i) :
    firstMatch request t = firstMatch request' t' := by
  refine List.find?_congr ?_
  intro i hi
  have hi0 := mem_slotsFrom_one.mp hi
  have := h i
  simp only [Matches, hi0, ne_eq, not_false_eq_true, true_and] at this
  simp only [sameName_iff, sameExt_iff, decide_eq_decide]
  exact this

/-- In an ordered list the search finds the least element that passes. -/
theorem find?_ordered {α : Type} [LinearOrder α] {p : α → Bool} {l : List α}
    (hl : l.Pairwise (· < ·)) {a : α} :
    l.find? p = some a ↔ a ∈ l ∧ p a = true ∧ ∀ b ∈ l, b < a → ¬ p b = true := by
  rw [List.find?_eq_some_iff_append]
  constructor
  · rintro ⟨ha, before, after, rfl, hbefore⟩
    refine ⟨List.mem_append_right _ List.mem_cons_self, ha, ?_⟩
    intro b hb hlt
    rcases List.mem_append.mp hb with hb | hb
    · simpa using hbefore b hb
    · -- what stands behind `a` is not below it
      have htail := (List.pairwise_append.mp hl).2.1
      rcases List.mem_cons.mp hb with rfl | hb
      · exact absurd hlt (lt_irrefl _)
      · exact absurd (List.rel_of_pairwise_cons htail hb) hlt.not_gt
  · rintro ⟨hmem, ha, hleast⟩
    obtain ⟨before, after, rfl⟩ := List.append_of_mem hmem
    refine ⟨ha, before, after, rfl, ?_⟩
    intro b hb
    have hlt := (List.pairwise_append.mp hl).2.2 b hb a List.mem_cons_self
    simpa using hleast b (List.mem_append_left _ hb) hlt

theorem slotsFrom_ordered (start : ℕ) : (slotsFrom start).Pairwise (· < ·) :=
  (List.pairwise_lt_finRange _).drop

/-- The lookup finds the first slot that matches. -/
theorem firstMatch_eq_some_iff {t : FAT32DirectoryTable} {i : Fin directoryEntryCount} :
    firstMatch request t = some i ↔ Matches request t i ∧ ∀ j, j < i → ¬ Matches request t j := by
  rw [firstMatch, find?_ordered (slotsFrom_ordered 1)]
  simp only [mem_slotsFrom_one, sameName_iff, sameExt_iff, decide_eq_true_eq, Matches]
  grind

/-- The only slot that matches is the one that is found. -/
theorem firstMatch_unique {t : FAT32DirectoryTable} {i : Fin directoryEntryCount}
    (hi : Matches request t i) (huniq : ∀ j, Matches request t j → j = i) :
    firstMatch request t = some i := by
  refine firstMatch_eq_some_iff.mpr ⟨hi, ?_⟩
  intro j hj hmatch
  exact hj.ne (huniq j hmatch)

/-- A match that is found is found again in a table that has it and no new match. -/
theorem firstMatch_of_imp {t t' : FAT32DirectoryTable} {i : Fin directoryEntryCount}
    (h : firstMatch request t = some i) (hi : Matches request t' i)
    (himp : ∀ j, Matches request t' j → Matches request t j) :
    firstMatch request t' = some i :=
  firstMatch_eq_some_iff.mpr ⟨hi, fun j hj hmatch =>
    (firstMatch_eq_some_iff.mp h).2 j hj (himp j hmatch)⟩

theorem firstDirectory_some {t : FAT32DirectoryTable} {i : Fin directoryEntryCount}
    (h : firstDirectory request t = some i) :
    request.name = (t i).name ∧ (t i).attr = attrSubdirectory := by
  have hp := List.find?_some h
  simpa only [sameName_iff, decide_eq_true_eq] using hp

theorem firstDirectory_eq_none {t : FAT32DirectoryTable} :
    firstDirectory request t = none ↔
      ∀ i, request.name = (t i).name → (t i).attr ≠ attrSubdirectory := by
  simp only [firstDirectory, List.find?_eq_none, mem_slotsFrom_zero, sameName_iff,
    decide_eq_true_eq, not_and, forall_const, ne_eq]

/-- An entry is in use. -/
def FAT32DirectoryEntry.used (e : FAT32DirectoryEntry) : Prop :=
  e.userAttribute = uattrNotEmpty

instance (e : FAT32DirectoryEntry) : Decidable e.used := inferInstanceAs (Decidable (_ = _))

/-- The slot search finds an unused slot if there is one, and gives slot 0 otherwise. -/
theorem idxEmpty_spec (t : FAT32DirectoryTable) :
    ¬ (t (idxEmpty t)).used ∨ (idxEmpty t = 0 ∧ ∀ i, (t i).used) := by
  unfold idxEmpty
  cases hfound : (slotsFrom 0).find? fun i => (t i).userAttribute ≠ uattrNotEmpty with
  | some i =>
      have hp := List.find?_some hfound
      exact Or.inl (by simpa [FAT32DirectoryEntry.used] using hp)
  | none =>
      refine Or.inr ⟨rfl, ?_⟩
      intro i
      have hi := List.find?_eq_none.mp hfound i (mem_slotsFrom_zero i)
      simpa [FAT32DirectoryEntry.used] using hi

theorem idxEmpty_unused {t : FAT32DirectoryTable} {i : Fin directoryEntryCount}
    (h : ¬ (t i).used) : ¬ (t (idxEmpty t)).used :=
  (idxEmpty_spec t).resolve_right fun hfull => h (hfull.2 i)

/-- The slots before the one that `write` takes are used. -/
theorem used_of_lt_idxEmpty {t : FAT32DirectoryTable} {i : Fin directoryEntryCount}
    (h : i < idxEmpty t) : (t i).used := by
  unfold idxEmpty at h
  cases hfound : (slotsFrom 0).find? fun i => (t i).userAttribute ≠ uattrNotEmpty with
  | none =>
      rw [hfound] at h
      exact absurd h (Fin.not_lt_zero i)
  | some j =>
      rw [hfound] at h
      have hleast := ((find?_ordered (slotsFrom_ordered 0)).mp hfound).2.2
      simpa [FAT32DirectoryEntry.used] using hleast i (mem_slotsFrom_zero i) h

/-- The slot that `write` takes is the first unused one. -/
theorem idxEmpty_eq {t : FAT32DirectoryTable} {i : Fin directoryEntryCount}
    (hi : ¬ (t i).used) (hfront : ∀ j, j < i → (t j).used) : idxEmpty t = i := by
  refine le_antisymm (not_lt.mp ?_) (not_lt.mp ?_)
  · exact fun hlt => hi (used_of_lt_idxEmpty hlt)
  · exact fun hlt => idxEmpty_unused hi (hfront _ hlt)

/-! ## Flushing -/

@[simp] theorem store_self : fs.store fs.fat fs.disk = fs := rfl

@[simp] theorem flush_fat (fat : FAT32FileAllocationTable) (disk : Disk) (parent : UInt32)
    (t : FAT32DirectoryTable) : (flush fs fat disk parent t).fat = fat := rfl

@[simp] theorem flush_table_parent (fat : FAT32FileAllocationTable) (disk : Disk)
    (parent : UInt32) (t : FAT32DirectoryTable) :
    (flush fs fat disk parent t).table parent = t :=
  readTable_written _ _ _

theorem flush_clusterAt (fat : FAT32FileAllocationTable) (disk : Disk) {parent c : UInt32}
    (t : FAT32DirectoryTable) (hp : drivePlace c ≠ drivePlace parent)
    (h1 : drivePlace c ≠ drivePlace fatClusterNumber) :
    clusterAt (flush fs fat disk parent t).disk c = clusterAt disk c :=
  (clusterAt_writeClusters_ne _ _ hp).trans (clusterAt_writeClusters_ne _ _ h1)

theorem flush_readFat (fat : FAT32FileAllocationTable) (disk : Disk) {parent : UInt32}
    (t : FAT32DirectoryTable) (hp : drivePlace fatClusterNumber ≠ drivePlace parent) :
    readFat (flush fs fat disk parent t).disk fatClusterNumber = fat :=
  (readFat_writeClusters_ne _ _ hp).trans (readFat_written _ _ _)

/-! ## `write` -/

theorem write_emptyName (h : request.name = fun _ => 0) :
    write newTable request fs = some (-1, fs) :=
  if_pos (emptyName_iff.mpr h)

theorem write_reserved (hn : request.name ≠ fun _ => 0)
    (hp : request.parentClusterNumber < 2) : write newTable request fs = some (2, fs) := by
  rw [write, if_neg (mt emptyName_iff.mp hn), if_pos hp]

theorem write_directory (hn : request.name ≠ fun _ => 0)
    (hp : ¬ request.parentClusterNumber < 2) (hs : request.bufferSize = 0) :
    write newTable request fs = some (writeDirectory newTable request fs) := by
  rw [write, if_neg (mt emptyName_iff.mp hn), if_neg hp, if_pos hs]

theorem write_file (hn : request.name ≠ fun _ => 0)
    (hp : ¬ request.parentClusterNumber < 2) (hs : request.bufferSize ≠ 0) :
    write newTable request fs = writeFile request fs := by
  rw [write, if_neg (mt emptyName_iff.mp hn), if_neg hp, if_neg hs]

/-- The slot the request is stored in. -/
abbrev writeSlot (request : FAT32DriverRequest) (fs : FileSystem) : Fin directoryEntryCount :=
  idxEmpty (fs.table request.parentClusterNumber)

/-- The entry of a new directory in its parent. -/
def directoryEntry (request : FAT32DriverRequest) (fs : FileSystem) (c : UInt32) :
    FAT32DirectoryEntry :=
  setCluster (fillEntry (fs.table request.parentClusterNumber (writeSlot request fs)) request) c

/-- The entry of a new file in its parent. -/
def fileEntry (request : FAT32DriverRequest) (fs : FileSystem) (c : UInt32) :
    FAT32DirectoryEntry :=
  setCluster
    { fillEntry (fs.table request.parentClusterNumber (writeSlot request fs)) request with
      ext := request.ext } c

/-- The state after a directory was stored at cluster `c`. -/
def directoryWritten (newTable : FAT32DirectoryTable) (request : FAT32DriverRequest)
    (fs : FileSystem) (c : UInt32) : FileSystem :=
  flush fs (setCell fs.fat c fat32FatEndOfFile)
    (writeClusters fs.disk (tableToMemory (initDirectoryTable newTable request.name c)) c 1)
    request.parentClusterNumber
    (Function.update (fs.table request.parentClusterNumber) (writeSlot request fs)
      (directoryEntry request fs c))

/-- The state after a file was stored in the cells of `c :: rest`. -/
def fileWritten (request : FAT32DriverRequest) (fs : FileSystem) (c : UInt32)
    (rest : List UInt32) : FileSystem :=
  flush fs (linkCells fs.fat (c :: rest)) (dataLoop request.buf 0 (c :: rest) fs.disk)
    request.parentClusterNumber
    (Function.update (fs.table request.parentClusterNumber) (writeSlot request fs)
      (fileEntry request fs c))

@[simp] theorem directoryWritten_fat (c : UInt32) :
    (directoryWritten newTable request fs c).fat = setCell fs.fat c fat32FatEndOfFile := rfl

@[simp] theorem fileWritten_fat (c : UInt32) (rest : List UInt32) :
    (fileWritten request fs c rest).fat = linkCells fs.fat (c :: rest) := rfl

theorem writeDirectory_full (h : freeCells fs.fat = []) :
    writeDirectory newTable request fs = (1, fs) := by
  have hclaim := claimLoop_eq fs.fat (clusterMapSize - 2) 2 rfl
  rw [show freeCellsFrom fs.fat 2 (clusterMapSize - 2) = [] from h] at hclaim
  simp only [writeDirectory, hclaim, if_true]
  rfl

/-- Cell 511 is claimed, but `i` is then 512 and the call reports a full table. -/
theorem writeDirectory_lastCell {c : UInt32} {rest : List UInt32}
    (h : freeCells fs.fat = c :: rest) (hc : c.toNat = 511) :
    writeDirectory newTable request fs
      = (1, fs.store (setCell fs.fat c fat32FatEndOfFile) fs.disk) := by
  have hclaim := claimLoop_eq fs.fat (clusterMapSize - 2) 2 rfl
  rw [show freeCellsFrom fs.fat 2 (clusterMapSize - 2) = c :: rest from h] at hclaim
  simp only [writeDirectory, hclaim, hc]
  rfl

theorem writeDirectory_eq {c : UInt32} {rest : List UInt32}
    (h : freeCells fs.fat = c :: rest) (hc : c.toNat ≠ 511) :
    writeDirectory newTable request fs = (0, directoryWritten newTable request fs c) := by
  have hclaim := claimLoop_eq fs.fat (clusterMapSize - 2) 2 rfl
  rw [show freeCellsFrom fs.fat 2 (clusterMapSize - 2) = c :: rest from h] at hclaim
  have hi : c.toNat + 1 ≠ clusterMapSize := by
    simp only [clusterMapSize]
    omega
  simp only [writeDirectory, hclaim, if_neg hi, Nat.add_sub_cancel, UInt32.ofNat_toNat]
  rfl

/-- The clusters a file request asks for. -/
abbrev clusterCount (request : FAT32DriverRequest) : ℕ := (request.bufferSize / 2048).toNat

theorem clusterCount_eq (request : FAT32DriverRequest) :
    clusterCount request = request.bufferSize.toNat / 2048 := by
  rw [clusterCount, UInt32.toNat_div]
  rfl

/-- Where there is room for the array the stack makes no difference. -/
theorem writeOnStack_fits {room : ℕ} (h : 4 * clusterCount request ≤ room) :
    writeOnStack room newTable request fs = write newTable request fs := by
  rw [writeOnStack, write, if_neg (Nat.not_lt.mpr h)]

theorem writeOnStack_overflow {room : ℕ} (hn : request.name ≠ fun _ => 0)
    (hp : ¬ request.parentClusterNumber < 2) (h : room < 4 * clusterCount request) :
    writeOnStack room newTable request fs = none := by
  have hs : request.bufferSize ≠ 0 := by
    intro hs
    rw [clusterCount, hs] at h
    exact absurd h (Nat.not_lt_zero room)
  rw [writeOnStack, if_neg (mt emptyName_iff.mp hn), if_neg hp, if_neg hs, if_pos h]

/-- A call that ends has had room for its array. -/
theorem writeOnStack_some {room : ℕ} {r : Int8 × FileSystem} (hn : request.name ≠ fun _ => 0)
    (hp : ¬ request.parentClusterNumber < 2)
    (h : writeOnStack room newTable request fs = some r) :
    4 * clusterCount request ≤ room ∧ write newTable request fs = some r := by
  have hfits : 4 * clusterCount request ≤ room := by
    by_contra hover
    rw [writeOnStack_overflow hn hp (Nat.not_le.mp hover)] at h
    exact nomatch h
  exact ⟨hfits, (writeOnStack_fits hfits).symm.trans h⟩

theorem scanLoop_freeCells (fat : FAT32FileAllocationTable) (need : ℕ) :
    scanLoop fat (clusterMapSize - 2) 2 need = (freeCells fat).take need :=
  scanLoop_eq fat _ 2 need rfl

/-- With fewer bytes than a cluster the linking loop runs to `0 - 1` over an array of
    length 0. -/
theorem writeFile_short (h : clusterCount request = 0) : writeFile request fs = none := by
  have hcount : request.bufferSize / 2048 = 0 := UInt32.toNat_inj.mp h
  have hbound : ((0 : UInt32) - 1).toNat = 4294967294 + 1 := by decide
  simp only [writeFile, hcount, scanLoop_freeCells, hbound]
  rfl

theorem writeFile_full (h : (freeCells fs.fat).length < clusterCount request) :
    writeFile request fs = some (1, fs) := by
  have hlen : ((freeCells fs.fat).take (clusterCount request)).length
      < clusterCount request := by
    rw [List.length_take]
    omega
  simp only [writeFile, scanLoop_freeCells, if_pos hlen]

/-- With enough free cells the file goes to the first of them. -/
theorem writeFile_eq {c : UInt32} {rest : List UInt32} (h0 : clusterCount request ≠ 0)
    (hlen : clusterCount request ≤ (freeCells fs.fat).length)
    (h : (freeCells fs.fat).take (clusterCount request) = c :: rest) :
    writeFile request fs = some (0, fileWritten request fs c rest) := by
  have htake : (c :: rest).length = clusterCount request := by
    rw [← h, List.length_take]
    omega
  have hsub : (request.bufferSize / 2048 - 1).toNat = (c :: rest).length - 1 := by
    have hone : (1 : UInt32) ≤ request.bufferSize / 2048 := by
      rw [UInt32.le_iff_toNat_le]
      exact Nat.one_le_iff_ne_zero.mpr h0
    rw [UInt32.toNat_sub_of_le _ _ hone, htake]
    rfl
  have hlt : ∀ d ∈ c :: rest, d.toNat < clusterMapSize := fun d hd =>
    clusterMapGet_lt (taken_free h hd).2
  have hlink := linkLoop_eq (List.cons_ne_nil c rest) hlt fs.fat
  obtain ⟨fat₁, hfat₁, hlast⟩ := Option.bind_eq_some_iff.mp hlink
  obtain ⟨last, hlast, hset⟩ := Option.bind_eq_some_iff.mp hlast
  have hnot : ¬ (c :: rest).length < clusterCount request := by omega
  simp only [writeFile, scanLoop_freeCells, h, if_neg hnot, hsub, hfat₁, hlast, hset,
    Option.bind_eq_bind, Option.bind_some]
  rfl

/-- A file of at least one cluster finds cells when there are as many as it needs. -/
theorem writeFile_stored (h0 : clusterCount request ≠ 0)
    (hlen : clusterCount request ≤ (freeCells fs.fat).length) :
    ∃ c rest, (freeCells fs.fat).take (clusterCount request) = c :: rest ∧
      writeFile request fs = some (0, fileWritten request fs c rest) := by
  cases htake : (freeCells fs.fat).take (clusterCount request) with
  | nil =>
      have := congrArg List.length htake
      rw [List.length_take, List.length_nil] at this
      omega
  | cons c rest => exact ⟨c, rest, rfl, writeFile_eq h0 hlen htake⟩

/-! ## `delete` -/

theorem delete_emptyName (h : request.name = fun _ => 0) :
    delete request fs = some (-1, fs) :=
  if_pos (emptyName_iff.mpr h)

theorem delete_notFound (hn : request.name ≠ fun _ => 0)
    (h : firstMatch request (fs.table request.parentClusterNumber) = none) :
    delete request fs = some (-1, fs) := by
  simp only [delete, if_neg (mt emptyName_iff.mp hn), h]

theorem delete_directory {i : Fin directoryEntryCount} (hn : request.name ≠ fun _ => 0)
    (h : firstMatch request (fs.table request.parentClusterNumber) = some i)
    (ha : (fs.table request.parentClusterNumber i).attr = attrSubdirectory) :
    delete request fs = deleteDirectory request fs i := by
  simp only [delete, if_neg (mt emptyName_iff.mp hn), h, if_pos ha]

theorem delete_file {i : Fin directoryEntryCount} (hn : request.name ≠ fun _ => 0)
    (h : firstMatch request (fs.table request.parentClusterNumber) = some i)
    (ha : (fs.table request.parentClusterNumber i).attr = attrArchive) :
    delete request fs = deleteFile request fs i := by
  simp only [delete, if_neg (mt emptyName_iff.mp hn), h, ha, if_neg archive_ne_subdirectory,
    if_true]

/-- The state after slot `i` of the parent was cleared. -/
def slotCleared (request : FAT32DriverRequest) (fs : FileSystem)
    (fat : FAT32FileAllocationTable) (disk : Disk) (i : Fin directoryEntryCount) :
    FileSystem :=
  flush fs fat disk request.parentClusterNumber
    (Function.update (fs.table request.parentClusterNumber) i FAT32DirectoryEntry.zero)

/-- A match of any other attribute loses its slot and the call returns -1. -/
theorem delete_other {i : Fin directoryEntryCount} (hn : request.name ≠ fun _ => 0)
    (h : firstMatch request (fs.table request.parentClusterNumber) = some i)
    (hd : (fs.table request.parentClusterNumber i).attr ≠ attrSubdirectory)
    (hf : (fs.table request.parentClusterNumber i).attr ≠ attrArchive) :
    delete request fs = some (-1, slotCleared request fs fs.fat fs.disk i) := by
  simp only [delete, if_neg (mt emptyName_iff.mp hn), h, if_neg hd, if_neg hf]
  rfl

/-- No slot `1..63` of the table is in use. -/
def TableEmpty (t : FAT32DirectoryTable) : Prop := ∀ j, j ≠ 0 → ¬ (t j).used

theorem exists_used_iff (t : FAT32DirectoryTable) :
    (∃ j ∈ slotsFrom 1, (t j).userAttribute = uattrNotEmpty) ↔ ¬ TableEmpty t := by
  simp only [TableEmpty, mem_slotsFrom_one, FAT32DirectoryEntry.used]
  push Not
  rfl

theorem deleteDirectory_filled {i : Fin directoryEntryCount}
    (h : ¬ TableEmpty (fs.table (fs.table request.parentClusterNumber i).cluster)) :
    deleteDirectory request fs i = some (2, fs) := by
  simp only [deleteDirectory, if_pos ((exists_used_iff _).mpr h)]

theorem deleteDirectory_eq {i : Fin directoryEntryCount} {c : UInt32}
    (hc : (fs.table request.parentClusterNumber i).cluster = c)
    (h : TableEmpty (fs.table c)) (hlt : c.toNat < clusterMapSize) :
    deleteDirectory request fs i
      = some (0, slotCleared request fs (freeChain fs.fat [c]) (zeroChain fs.disk [c]) i) := by
  have hnot := mt (exists_used_iff _).mp (not_not.mpr h)
  simp only [deleteDirectory, hc, if_neg hnot, clusterMapSet_eq fs.fat _ hlt,
    Option.bind_eq_bind, Option.bind_some]
  rfl

/-- A file of at least two clusters is freed as a whole. -/
theorem deleteFile_eq {i : Fin directoryEntryCount} {l : List UInt32}
    (hchain : FatChain fs.fat (fs.table request.parentClusterNumber i).cluster l)
    (hl : 2 ≤ l.length) :
    deleteFile request fs i
      = some (0, slotCleared request fs (freeChain fs.fat l) (zeroChain fs.disk l) i) := by
  obtain ⟨init, last, rfl⟩ : ∃ init last, l = init ++ [last] :=
    (List.eq_nil_or_concat' l).resolve_left fun h => by
      rw [h] at hl
      exact absurd hl (by decide)
  have hinit : init ≠ [] := by
    rintro rfl
    simp at hl
  have hbound : init.length ≤ 2 * clusterMapSize := by
    have := fatChain_length_le hchain
    simp only [List.length_append, clusterMapSize] at this ⊢
    omega
  have hlast : last.toNat < clusterMapSize := fatChain_lt hchain (by simp)
  simp only [deleteFile, deleteLoop_eq hchain hinit hbound, clusterMapSet_eq _ _ hlast,
    Option.bind_eq_bind, Option.bind_some]
  simp only [slotCleared, freeChain, zeroChain, List.foldl_append, List.foldl_cons,
    List.foldl_nil]

/-- A file of one cluster makes `delete` look behind the end of the table. -/
theorem deleteFile_single {i : Fin directoryEntryCount} {c : UInt32}
    (hchain : FatChain fs.fat (fs.table request.parentClusterNumber i).cluster [c]) :
    deleteFile request fs i = none := by
  obtain ⟨hc, -⟩ := chain_cons_iff.mp hchain
  rw [hc] at hchain
  simp only [deleteFile, hc, deleteLoop_single fs.disk hchain, Option.bind_eq_bind,
    Option.bind_none]

/-! ## `read` and `read_directory` -/

theorem read_emptyName (h : request.name = fun _ => 0) :
    read request fs = some (-1, request.buf) :=
  if_pos (emptyName_iff.mpr h)

theorem read_zeroSize (hn : request.name ≠ fun _ => 0) (hs : request.bufferSize = 0) :
    read request fs = some (1, request.buf) := by
  rw [read, if_neg (mt emptyName_iff.mp hn), if_pos hs]

theorem read_notFound (hn : request.name ≠ fun _ => 0) (hs : request.bufferSize ≠ 0)
    (h : firstMatch request (fs.table request.parentClusterNumber) = none) :
    read request fs = some (3, request.buf) := by
  simp only [read, if_neg (mt emptyName_iff.mp hn), if_neg hs, h]

/-- A match whose start cell has no chain: the walk leaves the table or never ends. -/
theorem read_noChain {i : Fin directoryEntryCount} (hn : request.name ≠ fun _ => 0)
    (hs : request.bufferSize ≠ 0)
    (h : firstMatch request (fs.table request.parentClusterNumber) = some i)
    (hno : ¬ ∃ l, FatChain fs.fat (fs.table request.parentClusterNumber i).cluster l) :
    read request fs = none := by
  simp only [read, if_neg (mt emptyName_iff.mp hn), if_neg hs, h,
    countLoop_eq_none_iff.mpr hno, Option.bind_none]

theorem count_gt_iff {fat : FAT32FileAllocationTable} {c : UInt32} {l : List UInt32}
    (hchain : FatChain fat c l) :
    0 + UInt32.ofNat l.length > request.bufferSize / 2048 ↔ clusterCount request < l.length := by
  have hlen := fatChain_length_le hchain
  have hnat : (UInt32.ofNat l.length).toNat = l.length := by
    simp only [UInt32.toNat_ofNat', clusterMapSize] at hlen ⊢
    omega
  rw [UInt32.zero_add, gt_iff_lt, UInt32.lt_iff_toNat_lt, hnat]

/-- The buffer holds fewer clusters than the match has. -/
theorem read_tooSmall {i : Fin directoryEntryCount} {l : List UInt32}
    (hn : request.name ≠ fun _ => 0) (hs : request.bufferSize ≠ 0)
    (h : firstMatch request (fs.table request.parentClusterNumber) = some i)
    (hchain : FatChain fs.fat (fs.table request.parentClusterNumber i).cluster l)
    (hl : clusterCount request < l.length) : read request fs = some (2, request.buf) := by
  simp only [read, if_neg (mt emptyName_iff.mp hn), if_neg hs, h,
    countLoop_eq hchain (Nat.lt_succ_of_le (fatChain_length_le hchain)), Option.bind_some,
    if_pos ((count_gt_iff hchain).mpr hl)]

theorem read_eq {i : Fin directoryEntryCount} {l : List UInt32}
    (hn : request.name ≠ fun _ => 0) (hs : request.bufferSize ≠ 0)
    (h : firstMatch request (fs.table request.parentClusterNumber) = some i)
    (hchain : FatChain fs.fat (fs.table request.parentClusterNumber i).cluster l)
    (hl : l.length ≤ clusterCount request) :
    read request fs = some (0, copyClusters fs.disk request.buf 0 l) := by
  have hn513 := Nat.lt_succ_of_le (fatChain_length_le hchain)
  have hnot : ¬ 0 + UInt32.ofNat l.length > request.bufferSize / 2048 :=
    mt (count_gt_iff hchain).mp (Nat.not_lt.mpr hl)
  simp only [read, if_neg (mt emptyName_iff.mp hn), if_neg hs, h, countLoop_eq hchain hn513,
    Option.bind_some, if_neg hnot, copyLoop_eq fs.disk hchain hn513, Option.map_some]

theorem readDirectory_emptyName (h : request.name = fun _ => 0) :
    readDirectory request fs = (-1, request.buf) :=
  if_pos (emptyName_iff.mpr h)

theorem readDirectory_sized (hn : request.name ≠ fun _ => 0) (hs : request.bufferSize ≠ 0) :
    readDirectory request fs = (1, request.buf) := by
  rw [readDirectory, if_neg (mt emptyName_iff.mp hn), if_pos hs]

theorem readDirectory_notFound (hn : request.name ≠ fun _ => 0) (hs : request.bufferSize = 0)
    (h : firstDirectory request (fs.table request.parentClusterNumber) = none) :
    readDirectory request fs = (2, request.buf) := by
  simp only [readDirectory, if_neg (mt emptyName_iff.mp hn), hs, h]
  rfl

theorem readDirectory_eq {i : Fin directoryEntryCount} (hn : request.name ≠ fun _ => 0)
    (hs : request.bufferSize = 0)
    (h : firstDirectory request (fs.table request.parentClusterNumber) = some i) :
    readDirectory request fs
      = (0, fun k =>
          if k < clusterSize then
            tableToMemory (fs.table (fs.table request.parentClusterNumber i).cluster) k
          else request.buf k) := by
  simp only [readDirectory, if_neg (mt emptyName_iff.mp hn), hs, h]
  rfl

end OsyFat32
