import Osyikkk.FileMapProofs

/-!
# Deleting a file

What `delete` does to a file is stated as a whole: which cells, clusters and slots change,
and that every other file is read as before (`FreedExactly`). It is what a file of two
clusters or more gets. The loop of the file branch looks one cell ahead, so a file of one
cluster makes it leave the table and the call has no outcome.
-/

namespace OsyVolume

open OsyDisk OsyFat32 LinkedChain RootedForest

variable {request r : FAT32DriverRequest} {fs fs' : FileSystem}
  {i j : Fin directoryEntryCount} {d : UInt32} {l l' : List UInt32}

/-- The cells and clusters of `l` were emptied and slot `i` of the parent was cleared, both
    tables are on the disk, and nothing else has changed. -/
structure FreedExactly (request : FAT32DriverRequest) (fs fs' : FileSystem)
    (i : Fin directoryEntryCount) (l : List UInt32) : Prop where
  cells : ∀ c ∈ l, clusterMapGet fs'.fat c = some fat32FatEmptyEntry
  otherCells : ∀ c, c ∉ l → clusterMapGet fs'.fat c = clusterMapGet fs.fat c
  clusters : ∀ c ∈ l, clusterAt fs'.disk c = fun _ => 0
  otherClusters : ∀ q, (∀ c ∈ l, drivePlace q ≠ drivePlace c) →
    drivePlace q ≠ drivePlace request.parentClusterNumber →
    drivePlace q ≠ drivePlace fatClusterNumber → clusterAt fs'.disk q = clusterAt fs.disk q
  slot : fs'.table request.parentClusterNumber
    = Function.update (fs.table request.parentClusterNumber) i FAT32DirectoryEntry.zero
  image : ImageInSync fs'
  reads : ∀ d j r, UsedSlot fs.table d j → (fs.table d j).attr = attrArchive →
    (d, j) ≠ (request.parentClusterNumber, i) → r.parentClusterNumber = d →
    firstMatch r (fs.table d) = some j → OsyFat32.read r fs' = OsyFat32.read r fs

/-! ## Zeroed clusters -/

theorem clusterAt_zeroChain_mem (disk : Disk) {c : UInt32} (hc : c ∈ l)
    (hlt : ∀ e ∈ l, e.toNat < clusterMapSize) : clusterAt (zeroChain disk l) c = fun _ => 0 := by
  induction l generalizing disk with
  | nil => exact nomatch hc
  | cons e rest ih =>
      have hrest : ∀ e ∈ rest, e.toNat < clusterMapSize :=
        fun e he => hlt e (List.mem_cons_of_mem _ he)
      by_cases hmem : c ∈ rest
      · exact ih (writeClusters disk (fun _ => 0) e 1) hmem hrest
      · obtain rfl : c = e := (List.mem_cons.mp hc).resolve_right hmem
        have hplace : ∀ e ∈ rest, drivePlace c ≠ drivePlace e := fun e he =>
          drivePlace_ne (hlt c List.mem_cons_self) (hrest e he) fun h => hmem (h ▸ he)
        exact (clusterAt_zeroChain_notMem _ hplace).trans (clusterAt_writeClusters_self _ _ _)

/-! ## Other files -/

/-- Two disks that agree on the clusters of a list are copied alike. -/
theorem copyClusters_congr {disk disk' : Disk} (h : ∀ c ∈ l, clusterAt disk c = clusterAt disk' c)
    (buf : Memory) (k : ℕ) : copyClusters disk buf k l = copyClusters disk' buf k l := by
  induction l generalizing buf k with
  | nil => rfl
  | cons c rest ih =>
      have hread : readClusterInto disk buf k c = readClusterInto disk' buf k c := by
        funext a
        simp only [readClusterInto, readClusters_congr (h c List.mem_cons_self)]
      rw [copyClusters, copyClusters, hread, ih fun e he => h e (List.mem_cons_of_mem _ he)]

/-- A lookup that the change of the table does not touch, on a chain that is kept with its
    clusters, reads the same. -/
theorem read_congr (hslot : firstMatch r (fs.table r.parentClusterNumber) = some j)
    (hslot' : firstMatch r (fs'.table r.parentClusterNumber) = some j)
    (hentry : fs'.table r.parentClusterNumber j = fs.table r.parentClusterNumber j)
    (hl : FatChain fs.fat (fs.table r.parentClusterNumber j).cluster l)
    (hl' : FatChain fs'.fat (fs.table r.parentClusterNumber j).cluster l)
    (hdisk : ∀ c ∈ l, clusterAt fs'.disk c = clusterAt fs.disk c) :
    OsyFat32.read r fs' = OsyFat32.read r fs := by
  by_cases hn : r.name = fun _ => 0
  · rw [read_emptyName hn, read_emptyName hn]
  by_cases hs : r.bufferSize = 0
  · rw [read_zeroSize hn hs, read_zeroSize hn hs]
  have hchain' : FatChain fs'.fat (fs'.table r.parentClusterNumber j).cluster l := by
    rw [hentry]
    exact hl'
  by_cases hsmall : clusterCount r < l.length
  · rw [read_tooSmall hn hs hslot hl hsmall, read_tooSmall hn hs hslot' hchain' hsmall]
  · have hle : l.length ≤ clusterCount r := Nat.not_lt.mp hsmall
    rw [read_eq hn hs hslot hl hle, read_eq hn hs hslot' hchain' hle,
      copyClusters_congr hdisk]

/-- Clearing another slot takes no match away from the lookup of a name. -/
theorem firstMatch_slotCleared {t : FAT32DirectoryTable} (hn : r.name ≠ fun _ => 0)
    (hm : firstMatch r t = some j) (hji : j ≠ i) :
    firstMatch r (Function.update t i FAT32DirectoryEntry.zero) = some j := by
  refine firstMatch_of_imp hm ?_ ?_
  · have hmatch := firstMatch_some hm
    rwa [Matches, Function.update_of_ne hji]
  · rintro k ⟨hk, hname, hext⟩
    by_cases hki : k = i
    · rw [hki, Function.update_self] at hname
      exact absurd hname hn
    · rw [Function.update_of_ne hki] at hname hext
      exact ⟨hk, hname, hext⟩

section Delete

variable (hcons : FsConsistent fs) (hs : UsedSlot fs.table request.parentClusterNumber i)
  (ha : (fs.table request.parentClusterNumber i).attr = attrArchive)
  (hl : FatChain fs.fat (fs.table request.parentClusterNumber i).cluster l)
include hcons hs ha hl

theorem slotCleared_removed_file :
    Removed fs.table (slotCleared request fs (freeChain fs.fat l) (zeroChain fs.disk l) i).table
      fs.fat (slotCleared request fs (freeChain fs.fat l) (zeroChain fs.disk l) i).fat
      request.parentClusterNumber i l := by
  refine slotCleared_removed hcons hs.live hs hl (fun _ h => h) ?_
  intro x hx
  exact absurd (ha.symm.trans hx.2.2.1) (by decide)

omit ha in
/-- The clusters of another file's chain are neither zeroed nor a table. -/
theorem slotCleared_file_clusterAt {c : UInt32} (hs' : UsedSlot fs.table d j)
    (ha' : (fs.table d j).attr = attrArchive) (hne : (d, j) ≠ (request.parentClusterNumber, i))
    (hl' : FatChain fs.fat (fs.table d j).cluster l') (hc : c ∈ l') :
    clusterAt (slotCleared request fs (freeChain fs.fat l) (zeroChain fs.disk l) i).disk c
      = clusterAt fs.disk c := by
  obtain ⟨l₀, hl₀, -, h3⟩ := hcons.chain hs'
  obtain rfl := chain_unique hl' hl₀
  have hlt := fatChain_lt hl' hc
  refine slotCleared_clusterAt (drivePlace_ne hlt (hcons.live_range hs.live).2 ?_)
    (place_ne_fatCluster (Nat.le_of_succ_le (h3 c hc)) hlt) ?_
  · rintro rfl
    have he := hcons.live_mem_chain hs.live hs' hl' hc
    exact absurd (ha'.symm.trans he.2.2.1) (by decide)
  · intro e he
    refine drivePlace_ne hlt (fatChain_lt hl he) ?_
    rintro rfl
    exact hne (Prod.ext_iff.mpr (hcons.disjoint hs' hs hl' hl hc he))

theorem slotCleared_read (hs' : UsedSlot fs.table d j)
    (ha' : (fs.table d j).attr = attrArchive) (hne : (d, j) ≠ (request.parentClusterNumber, i))
    (hr : r.parentClusterNumber = d) (hm : firstMatch r (fs.table d) = some j) :
    OsyFat32.read r (slotCleared request fs (freeChain fs.fat l) (zeroChain fs.disk l) i)
      = OsyFat32.read r fs := by
  by_cases hn : r.name = fun _ => 0
  · rw [read_emptyName hn, read_emptyName hn]
  subst hr
  have hrem := slotCleared_removed_file hcons hs ha hl
  have hne' : ¬ (r.parentClusterNumber = request.parentClusterNumber ∧ j = i) :=
    fun h => hne (Prod.ext_iff.mpr h)
  have hslot := (hrem.usedSlot_iff hcons).mpr ⟨hs', hne'⟩
  obtain ⟨l', hl', -⟩ := hcons.chain hs'
  refine read_congr hm ?_ (hrem.entry_kept hcons hslot) hl'
    (hrem.chain_kept hcons hs' hne' hl')
    fun c hc => slotCleared_file_clusterAt hcons hs hl hs' ha' hne hl' hc
  have hno : ¬ dirEdge fs.table request.parentClusterNumber i r.parentClusterNumber :=
    fun he => absurd (ha.symm.trans he.2.2.1) (by decide)
  by_cases hp : r.parentClusterNumber = request.parentClusterNumber
  · rw [hp, hrem.entry]
    exact firstMatch_slotCleared hn (hp ▸ hm) fun h => hne' ⟨hp, h⟩
  · rw [hrem.others _ hs'.live hp hno]
    exact hm

theorem slotCleared_freedExactly : FreedExactly request fs
    (slotCleared request fs (freeChain fs.fat l) (zeroChain fs.disk l) i) i l := by
  have hplace : drivePlace request.parentClusterNumber ≠ drivePlace fatClusterNumber :=
    parent_place hcons hs.live
  obtain ⟨l₀, hl₀, -, h3⟩ := hcons.chain hs
  obtain rfl := chain_unique hl hl₀
  constructor
  case cells => exact fun c hc => freeChain_get_mem _ hc (fatChain_lt hl hc)
  case otherCells => exact fun c hc => freeChain_get_notMem _ hc
  case clusters =>
    intro c hc
    have hlt := fatChain_lt hl hc
    have hparent : c ≠ request.parentClusterNumber := by
      rintro rfl
      have he := hcons.live_mem_chain hs.live hs hl hc
      exact absurd (ha.symm.trans he.2.2.1) (by decide)
    exact (flush_clusterAt _ _ _ (drivePlace_ne hlt (hcons.live_range hs.live).2 hparent)
      (place_ne_fatCluster (Nat.le_of_succ_le (h3 c hc)) hlt)).trans
      (clusterAt_zeroChain_mem _ hc fun e he => fatChain_lt hl he)
  case otherClusters => exact fun q hq hp h1 => slotCleared_clusterAt hp h1 hq
  case slot => exact flush_table_parent _ _ _ _
  case image => exact flush_imageInSync _ _ _ hplace
  case reads =>
    intro d j r hs' ha' hne hr hm
    exact slotCleared_read hcons hs ha hl hs' ha' hne hr hm

end Delete

/-- **Deleting a file frees exactly the file, provided it has a name and two clusters.** -/
theorem delete_freesExactly_iff (hcons : FsConsistent fs)
    (hlive : Live fs.table request.parentClusterNumber)
    (hm : firstMatch request (fs.table request.parentClusterNumber) = some i)
    (ha : (fs.table request.parentClusterNumber i).attr = attrArchive)
    (hl : FatChain fs.fat (fs.table request.parentClusterNumber i).cluster l) :
    (∃ fs', OsyFat32.delete request fs = some (0, fs') ∧ FreedExactly request fs fs' i l) ↔
      request.name ≠ (fun _ => 0) ∧ 2 ≤ l.length := by
  constructor
  · rintro ⟨fs', h, -⟩
    have hn : request.name ≠ fun _ => 0 := by
      intro hn
      rw [delete_emptyName hn] at h
      exact absurd (Prod.mk.inj (Option.some.inj h)).1 (by decide)
    refine ⟨hn, ?_⟩
    obtain ⟨l₀, hl₀, hne, -⟩ := hcons.chain (usedSlot_of_firstMatch hcons hlive hn hm)
    obtain rfl := chain_unique hl hl₀
    refine two_le_length hl hne ?_
    intro hend
    rw [delete_single hcons hlive hn ⟨i, hm, ha, hend⟩] at h
    exact nomatch h
  · rintro ⟨hn, hlen⟩
    have hs := usedSlot_of_firstMatch hcons hlive hn hm
    refine ⟨_, ?_, slotCleared_freedExactly hcons hs ha hl⟩
    rw [delete_file hn hm ha, deleteFile_eq hl hlen]

/-- The state after the file `a` of the given size was stored from cell 3 on. -/
def afterFile (size : UInt32) (rest : List UInt32) : FileSystem :=
  fileWritten (rootRequest [97] size) (freshFileSystem blankDisk) 3 rest

theorem rootName_a {size : UInt32} : (rootRequest [97] size).name ≠ fun _ => 0 := by
  show (fun j : Fin 8 => [97].getD j 0) ≠ fun _ => (0 : UInt8)
  decide

/-- The file in the fresh file system. -/
theorem afterFile_state (size : UInt32) (rest : List UInt32) (hs : size ≠ 0)
    (hwhole : clusterSize ∣ size.toNat)
    (htake : (freeCells (freshFileSystem blankDisk).fat).take
      (clusterCount (rootRequest [97] size)) = 3 :: rest)
    (hcells : clusterCount (rootRequest [97] size)
      ≤ (freeCells (freshFileSystem blankDisk).fat).length) :
    FsConsistent (afterFile size rest) ∧
      firstMatch (rootRequest [97] size) ((afterFile size rest).table 2) = some 1 ∧
      ((afterFile size rest).table 2 1).attr = attrArchive ∧
      FatChain (afterFile size rest).fat ((afterFile size rest).table 2 1).cluster
        (3 :: rest) := by
  have hreq : FileRequest (rootRequest [97] size) (freshFileSystem blankDisk) :=
    fresh_fileRequest rootName_a hs hwhole hcells
  have hwf := fresh_wellFormed blankDisk
  have hins := stored_inserted hwf hreq htake
  have hslot : writeSlot (rootRequest [97] size) (freshFileSystem blankDisk) = 1 :=
    fresh_idxEmpty blankDisk
  have hentry : (afterFile size rest).table 2 1
      = fileEntry (rootRequest [97] size) (freshFileSystem blankDisk) 3 := by
    rw [← hslot]
    exact (congrFun hins.entry _).trans (Function.update_self _ _ _)
  refine ⟨(stored_wellFormed hwf hreq htake).consistent, ?_, ?_, ?_⟩
  · refine firstMatch_unique ⟨by decide, ?_, ?_⟩ ?_
    · rw [hentry]
      rfl
    · rw [hentry]
      rfl
    · intro j hj
      rcases matches_fileWritten hwf hreq htake hreq.live hj with ⟨-, hjs⟩ | hold
      · exact hjs.trans hslot
      · exact absurd hold (hreq.fresh j)
  · rw [hentry, fileEntry_attr 3 hs]
  · rw [hentry]
    exact hins.chain

/-- A file of two clusters is freed. -/
theorem delete_freesExactly_twoClusters :
    (∃ fs', OsyFat32.delete (rootRequest [97] 4096) (afterFile 4096 [4]) = some (0, fs') ∧
      FreedExactly (rootRequest [97] 4096) (afterFile 4096 [4]) fs' 1 [3, 4]) ↔
      (rootRequest [97] 4096).name ≠ (fun _ => 0) ∧ 2 ≤ [3, 4].length := by
  obtain ⟨hcons, hm, ha, hl⟩ := afterFile_state 4096 [4] (by decide) (by decide)
    (by rw [fresh_freeCells]; rfl) (by rw [fresh_freeCells]; decide +kernel)
  exact delete_freesExactly_iff hcons Reach.root hm ha hl

/-- The file of one cluster in the fresh file system cannot be deleted. -/
theorem delete_singleCluster_undefined :
    FsConsistent (afterFile 2048 []) ∧
      firstMatch (rootRequest [97] 2048) ((afterFile 2048 []).table 2) = some 1 ∧
      ((afterFile 2048 []).table 2 1).attr = attrArchive ∧
      FatChain (afterFile 2048 []).fat ((afterFile 2048 []).table 2 1).cluster [3] ∧
      OsyFat32.delete (rootRequest [97] 2048) (afterFile 2048 []) = none := by
  obtain ⟨hcons, hm, ha, hl⟩ := afterFile_state 2048 [] (by decide) (by decide)
    (by rw [fresh_freeCells]; rfl) (by rw [fresh_freeCells]; decide +kernel)
  refine ⟨hcons, hm, ha, hl, ?_⟩
  rw [delete_file rootName_a hm ha]
  exact deleteFile_single hl

end OsyVolume
