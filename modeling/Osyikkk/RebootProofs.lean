import Osyikkk.DriverRuns

/-!
# Mounting the disk again

The file allocation table lives in memory and as an image in cluster 1. Every call that
stores anything ends by writing the image and then the parent table (`flush`), so the two
agree whenever the parent is not the image's own cluster. The boot sector is written by
`create_fat32` only. A later `initialize_filesystem_fat32` therefore finds the same file
allocation table, except after a directory was refused that had claimed cell 511
(`lastCell_notStored`).
-/

namespace OsyVolume

open OsyDisk OsyFat32 LinkedChain RootedForest

variable {request : FAT32DriverRequest} {fs fs' : FileSystem} {newTable : FAT32DirectoryTable}
  {code : Int8} {disk disk' : Disk}

/-! ## The boot sector -/

/-- The signature is read from the first cluster of the drive. -/
theorem isEmptyStorage_congr (h : clusterAt disk bootSector = clusterAt disk' bootSector) :
    isEmptyStorage disk ↔ isEmptyStorage disk' := by
  have hread : ∀ k ∈ List.range blockSize,
      readBlocks disk (fun _ => 0) bootSector 1 k
        = readBlocks disk' (fun _ => 0) bootSector 1 k := by
    intro k hk
    have hlt : k < clusterSize := by
      have := List.mem_range.mp hk
      simp only [blockSize, clusterSize] at this ⊢
      omega
    have hbyte : disk k = disk' k := by
      have := congrFun h ⟨k, hlt⟩
      simpa only [clusterAt, show drivePlace bootSector = 0 from rfl, Nat.mul_zero,
        Nat.zero_add] using this
    simp only [readBlocks, show driveLba bootSector = 0 from rfl, Nat.mul_zero, Nat.zero_add,
      hbyte]
  rw [isEmptyStorage, isEmptyStorage, List.map_congr_left hread]

theorem fresh_not_empty (disk : Disk) : ¬ isEmptyStorage (freshFileSystem disk).disk := by
  have hread : ∀ k ∈ List.range blockSize,
      readBlocks (freshFileSystem disk).disk (fun _ => 0) bootSector 1 k = fsSignature k := by
    intro k hk
    have hlt : k < blockSize := List.mem_range.mp hk
    have hplace : k / clusterSize = 0 := by
      simp only [blockSize, clusterSize] at hlt ⊢
      omega
    have h1 : (0 : ℕ) ≠ drivePlace rootClusterNumber := by decide
    have h2 : (0 : ℕ) ≠ drivePlace fatClusterNumber := by decide
    show readBlocks (writeClusters (writeClusters (writeBlocks disk fsSignature bootSector 1)
      _ fatClusterNumber 1) _ rootClusterNumber 1) _ _ _ _ = _
    simp only [readBlocks, show driveLba bootSector = 0 from rfl, Nat.mul_zero, Nat.zero_add,
      writeClusters_one, hplace, if_neg h1, if_neg h2, writeBlocks, Nat.zero_le, true_and,
      Nat.sub_zero, show (1 : UInt8).toNat = 1 from rfl, Nat.mul_one, if_pos hlt]
  rw [isEmptyStorage, not_not, List.map_congr_left hread, memcmp_eq_zero rfl]

/-! ## What a reboot finds -/

/-- The image is the file allocation table in memory, the signature is there, and whatever
    the driver's memory held before, mounting leaves the disk alone and finds the table. -/
structure Reboots (fs : FileSystem) : Prop where
  image : ImageInSync fs
  signed : ¬ isEmptyStorage fs.disk
  mounted : ∀ memory : FAT32DriverState,
    (initializeFilesystemFat32 { driverState := memory, disk := fs.disk }).disk = fs.disk ∧
    (initializeFilesystemFat32 { driverState := memory, disk := fs.disk }).fat = fs.fat

theorem reboots_of_image (himage : ImageInSync fs) (hsigned : ¬ isEmptyStorage fs.disk) :
    Reboots fs where
  image := himage
  signed := hsigned
  mounted memory := by
    rw [initializeFilesystemFat32, if_neg hsigned]
    exact ⟨rfl, himage⟩

/-- What the calls keep. -/
structure Mountable (fs : FileSystem) : Prop where
  consistent : FsConsistent fs
  image : ImageInSync fs
  signed : ¬ isEmptyStorage fs.disk

theorem fresh_mountable (disk : Disk) : Mountable (freshFileSystem disk) :=
  ⟨fresh_consistent disk, fresh_imageInSync disk, fresh_not_empty disk⟩

/-- No cell of the table but 0 is at the place of the boot sector. -/
theorem place_ne_boot {c : UInt32} (h2 : 2 ≤ c.toNat) (hlt : c.toNat < clusterMapSize) :
    drivePlace bootSector ≠ drivePlace c := by
  refine drivePlace_ne (by decide) hlt ?_
  rintro rfl
  exact absurd h2 (by decide)

/-! ## The calls -/

/-- A directory does not meet cell 511 as the first free cell and a file to delete has two
    clusters or more. -/
def KeepsImage (fs : FileSystem) : Call → Prop
  | .write _ request => request.name ≠ (fun _ => 0) → request.bufferSize = 0 →
      ∀ c ∈ (freeCells fs.fat).head?, c.toNat ≠ 511
  | .delete request => request.name ≠ (fun _ => 0) → ¬ SingleClusterMatch request fs
  | _ => True

theorem WriteOutcome.mountable (hmount : Mountable fs)
    (hlive : OnLiveDirectory fs (.write newTable request))
    (hkeep : KeepsImage fs (.write newTable request))
    (h : WriteOutcome newTable request fs code fs') (hn : request.name ≠ fun _ => 0) :
    Mountable fs' := by
  obtain ⟨hlive, hzero⟩ := hlive
  have hcons := hmount.consistent
  have hrange := hcons.live_range hlive
  have hparent := place_ne_fatCluster hrange.1 hrange.2
  have hboot := place_ne_boot hrange.1 hrange.2
  have hboot1 : drivePlace bootSector ≠ drivePlace fatClusterNumber := by decide
  refine ⟨h.consistent hcons hlive hzero, ?_, ?_⟩
  · cases h with
    | refused _ => exact hmount.image
    | @leaked c rest hs hfree hc => exact absurd hc (hkeep hn hs c (hfree ▸ rfl))
    | directory _ _ _ _ => exact flush_imageInSync _ _ _ hparent
    | file _ _ _ _ _ => exact flush_imageInSync _ _ _ hparent
  · cases h with
    | refused _ => exact hmount.signed
    | leaked _ _ _ => exact hmount.signed
    | @directory c rest _ _ hfree _ =>
        obtain ⟨h2, hcell⟩ := mem_freeCells.mp (hfree ▸ List.mem_cons_self : c ∈ freeCells fs.fat)
        exact mt (isEmptyStorage_congr (directoryWritten_clusterAt hboot hboot1
          (place_ne_boot h2 (clusterMapGet_lt hcell)))).mp hmount.signed
    | @file c rest _ _ _ _ htake =>
        refine mt (isEmptyStorage_congr (fileWritten_clusterAt hboot hboot1 ?_)).mp hmount.signed
        intro d hd
        obtain ⟨h2, hcell⟩ := taken_free htake hd
        exact place_ne_boot h2 (clusterMapGet_lt hcell)

theorem DeleteOutcome.mountable (hmount : Mountable fs)
    (hlive : Live fs.table request.parentClusterNumber)
    (h : DeleteOutcome request fs code fs') (hn : request.name ≠ fun _ => 0) :
    Mountable fs' := by
  have hcons := hmount.consistent
  have hrange := hcons.live_range hlive
  rcases h.removed hcons hlive hn with rfl | ⟨i, l, freed, -, rfl, hsub, hrem⟩
  · exact hmount
  · refine ⟨hrem.consistent hcons,
      flush_imageInSync _ _ _ (place_ne_fatCluster hrange.1 hrange.2), ?_⟩
    refine mt (isEmptyStorage_congr (slotCleared_clusterAt
      (place_ne_boot hrange.1 hrange.2) (by decide) fun c hc => ?_)).mp hmount.signed
    obtain ⟨l', hl', -, h3⟩ := hcons.chain hrem.slot
    obtain rfl := chain_unique hl' hrem.chain
    exact place_ne_boot (Nat.le_of_succ_le (h3 c (hsub c hc))) (fatChain_lt hl' (hsub c hc))

/-- A driver call that keeps the image has an outcome and keeps the disk mountable. -/
theorem exec_mountable (fs : FileSystem) (k : Call) (hmount : Mountable fs)
    (hk : (OnLiveDirectory fs k ∧ WholeClusters k) ∧ KeepsImage fs k) :
    ∃ fs', exec fs k = some fs' ∧ Mountable fs' := by
  obtain ⟨⟨hlive, hwhole⟩, hkeep⟩ := hk
  have hsingle : ∀ request, k = .delete request → request.name ≠ (fun _ => 0) →
      ¬ SingleClusterMatch request fs := by
    rintro request rfl
    exact hkeep
  obtain ⟨fs', h, hout⟩ :=
    driverCall_total hmount.consistent hlive (callEnds_of_whole hwhole hsingle)
  refine ⟨fs', h, ?_⟩
  cases hout with
  | unchanged => exact hmount
  | write hn hout => exact hout.mountable hmount hlive hkeep hn
  | delete hn hout => exact hout.mountable hmount hlive hn

/-- **A reboot loses and invents nothing.** -/
theorem runCalls_reboots (disk : Disk) (calls : List Call)
    (h : PartialRun.Guarded exec
      (fun fs k => (OnLiveDirectory fs k ∧ WholeClusters k) ∧ KeepsImage fs k)
      (freshFileSystem disk) calls) :
    ∃ fs, runCalls (freshFileSystem disk) calls = some fs ∧ Reboots fs := by
  obtain ⟨fs, hrun, hmount⟩ := PartialRun.run_total exec exec_mountable (fresh_mountable disk) h
  exact ⟨fs, hrun, reboots_of_image hmount.image hmount.signed⟩

/-- Making and removing a directory is such a run. -/
theorem runCalls_reboots_mkdir_rm : ∃ fs, runCalls (freshFileSystem blankDisk)
    [.write zeroTable (rootRequest [97] 0), .delete (rootRequest [97] 0)] = some fs ∧
      Reboots fs := by
  refine runCalls_reboots _ _ ⟨⟨⟨⟨Reach.root, fun _ _ => rfl⟩, by decide⟩,
    fun _ _ => headCell_ne_last fresh_headCell (by decide)⟩, ?_⟩
  intro fs hfs
  obtain rfl := Option.some.inj (exec_mkdir.symm.trans hfs)
  exact ⟨⟨⟨Reach.root, trivial⟩, fun _ => afterMkdir_not_single⟩, fun _ _ => trivial⟩

/-- With cell 511 as the only free cell a directory is refused, but its cell is taken in
    memory and not on the disk. -/
theorem lastCell_notStored :
    PartialRun.Guarded exec (fun fs k => OnLiveDirectory fs k ∧ WholeClusters k)
      (freshFileSystem blankDisk)
      [.write zeroTable bigFile, .write zeroTable (rootRequest [98] 0)] ∧
    ∃ fs, runCalls (freshFileSystem blankDisk)
      [.write zeroTable bigFile, .write zeroTable (rootRequest [98] 0)] = some fs ∧
      ¬ Reboots fs := by
  have hbig : exec (freshFileSystem blankDisk) (.write zeroTable bigFile)
      = some afterBigFile := by rw [exec, write_bigFile, Option.map_some]
  have hdir : exec afterBigFile (.write zeroTable (rootRequest [98] 0))
      = some (afterBigFile.store (setCell afterBigFile.fat 511 fat32FatEndOfFile)
          afterBigFile.disk) := by
    rw [exec, write_directory (by decide) (by decide) rfl,
      writeDirectory_lastCell afterBigFile_freeCells rfl, Option.map_some]
  refine ⟨⟨⟨⟨Reach.root, fun _ _ => rfl⟩, by decide⟩, ?_⟩,
    afterBigFile.store (setCell afterBigFile.fat 511 fat32FatEndOfFile) afterBigFile.disk,
    ?_, ?_⟩
  · intro s hs
    obtain rfl := Option.some.inj (hbig.symm.trans hs)
    exact ⟨⟨⟨Reach.root, fun _ _ => rfl⟩, by decide⟩, fun _ _ => trivial⟩
  · rw [runCalls, PartialRun.run_cons, hbig, Option.bind_some, PartialRun.run_cons, hdir]
    rfl
  · intro h
    -- the image is the one the first write left, where cell 511 is free
    have hsync : ImageInSync afterBigFile := flush_imageInSync _ _ _ (by decide)
    have hfree : 511 ∈ freeCells afterBigFile.fat := by
      rw [afterBigFile_freeCells]
      exact List.mem_singleton_self 511
    have hcell : clusterMapGet afterBigFile.fat 511 = some 0 := (mem_freeCells.mp hfree).2
    have himage := h.image
    rw [ImageInSync, store_fat, store_disk, hsync] at himage
    have hset := congrArg (fun fat => clusterMapGet fat 511) himage
    simp only [hcell, clusterMapGet_setCell_self _ _ (show (511 : UInt32).toNat
      < clusterMapSize by decide)] at hset
    exact absurd (Option.some.inj hset) (by decide)

end OsyVolume
