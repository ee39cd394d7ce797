import Osyikkk.DirectoryTree

/-!
# Driver calls as edits of the volume

On a live parent of a consistent volume a successful `write` inserts an entry and a
successful `delete` removes one, in the sense of `Inserted` and `Removed`. Beside the edit
itself each call is given its frame: the clusters it leaves alone and the image of the file
allocation table it stores.
-/

namespace OsyVolume

open OsyDisk OsyFat32 LinkedChain RootedForest

variable {request : FAT32DriverRequest} {fs : FileSystem} {newTable : FAT32DirectoryTable}
  {Left : UInt32 → FAT32DirectoryEntry → Prop}

/-- The invariant of a mounted file system. -/
abbrev FsConsistent (fs : FileSystem) : Prop := Consistent fs.table fs.fat

theorem place_ne_fatCluster {c : UInt32} (h2 : 2 ≤ c.toNat) (hlt : c.toNat < clusterMapSize) :
    drivePlace c ≠ drivePlace fatClusterNumber := by
  refine drivePlace_ne hlt (by decide) ?_
  rintro rfl
  exact absurd h2 (by decide)

theorem place_ne_of_free {d c : UInt32} (hcons : ConsistentWith Left fs.table fs.fat)
    (hd : Live fs.table d) (hc : clusterMapGet fs.fat c = some 0) :
    drivePlace d ≠ drivePlace c := by
  refine drivePlace_ne (hcons.live_range hd).2 (clusterMapGet_lt hc) ?_
  rintro rfl
  exact hcons.live_ne_free hd hc

@[simp] theorem setCluster_cluster (e : FAT32DirectoryEntry) (c : UInt32) :
    (setCluster e c).cluster = c := joinCluster_masked_halves c

@[simp] theorem directoryEntry_cluster (c : UInt32) :
    (directoryEntry request fs c).cluster = c := setCluster_cluster _ c

@[simp] theorem fileEntry_cluster (c : UInt32) : (fileEntry request fs c).cluster = c :=
  setCluster_cluster _ c

theorem directoryEntry_attr (c : UInt32) (h : request.bufferSize = 0) :
    (directoryEntry request fs c).attr = attrSubdirectory := if_pos h

theorem fileEntry_attr (c : UInt32) (h : request.bufferSize ≠ 0) :
    (fileEntry request fs c).attr = attrArchive := if_neg h

theorem fileEntry_notDirectory (c : UInt32) (h : request.bufferSize ≠ 0) :
    (fileEntry request fs c).attr ≠ attrSubdirectory :=
  fun ha => archive_ne_subdirectory ((fileEntry_attr c h).symm.trans ha)

/-- Slot 0 of a table `init_directory_table` has filled. -/
theorem initDirectoryTable_self (t : FAT32DirectoryTable) (name : EntryName) (c : UInt32) :
    (initDirectoryTable t name c 0).used ∧
      (initDirectoryTable t name c 0).attr = attrSubdirectory ∧
      (initDirectoryTable t name c 0).name = name ∧
      (initDirectoryTable t name c 0).cluster = c := by
  rw [initDirectoryTable, Function.update_self]
  exact ⟨rfl, rfl, rfl, joinCluster_halves c⟩

theorem initDirectoryTable_ne (t : FAT32DirectoryTable) (name : EntryName) (c : UInt32)
    {i : Fin directoryEntryCount} (hi : i ≠ 0) : initDirectoryTable t name c i = t i :=
  Function.update_of_ne hi _ _

/-! ## Frames -/

theorem directoryWritten_clusterAt {c q : UInt32}
    (hp : drivePlace q ≠ drivePlace request.parentClusterNumber)
    (h1 : drivePlace q ≠ drivePlace fatClusterNumber) (hc : drivePlace q ≠ drivePlace c) :
    clusterAt (directoryWritten newTable request fs c).disk q = clusterAt fs.disk q :=
  (flush_clusterAt _ _ _ hp h1).trans (clusterAt_writeClusters_ne _ _ hc)

theorem fileWritten_clusterAt {c q : UInt32} {rest : List UInt32}
    (hp : drivePlace q ≠ drivePlace request.parentClusterNumber)
    (h1 : drivePlace q ≠ drivePlace fatClusterNumber)
    (hc : ∀ d ∈ c :: rest, drivePlace q ≠ drivePlace d) :
    clusterAt (fileWritten request fs c rest).disk q = clusterAt fs.disk q :=
  (flush_clusterAt _ _ _ hp h1).trans (clusterAt_dataLoop_notMem _ _ _ hc)

theorem slotCleared_clusterAt {q : UInt32} {l : List UInt32} {fat : FAT32FileAllocationTable}
    {i : Fin directoryEntryCount}
    (hp : drivePlace q ≠ drivePlace request.parentClusterNumber)
    (h1 : drivePlace q ≠ drivePlace fatClusterNumber)
    (hc : ∀ d ∈ l, drivePlace q ≠ drivePlace d) :
    clusterAt (slotCleared request fs fat (zeroChain fs.disk l) i).disk q
      = clusterAt fs.disk q :=
  (flush_clusterAt _ _ _ hp h1).trans (clusterAt_zeroChain_notMem _ hc)

/-- The stored image of the file allocation table is the one in memory. -/
def ImageInSync (fs : FileSystem) : Prop := readFat fs.disk fatClusterNumber = fs.fat

theorem flush_imageInSync (fat : FAT32FileAllocationTable) (disk : Disk) {parent : UInt32}
    (t : FAT32DirectoryTable) (hp : drivePlace parent ≠ drivePlace fatClusterNumber) :
    ImageInSync (flush fs fat disk parent t) :=
  flush_readFat fat disk t hp.symm

/-- Cluster `m` of the new chain holds cluster `m` of the buffer, unless it is the parent's
    cluster. -/
theorem fileWritten_clusterAt_cell {k : ℕ} {c : UInt32} {rest : List UInt32}
    (htake : (freeCells fs.fat).take k = c :: rest) {m : ℕ} (hm : m < (c :: rest).length)
    (hp : drivePlace (c :: rest)[m] ≠ drivePlace request.parentClusterNumber) :
    clusterAt (fileWritten request fs c rest).disk (c :: rest)[m]
      = (request.buf.offset (clusterSize * m)).toCluster := by
  have hlt : ∀ d ∈ c :: rest, d.toNat < clusterMapSize :=
    fun d hd => clusterMapGet_lt (taken_free htake hd).2
  have hmem := List.getElem_mem hm
  have hdata := clusterAt_dataLoop request.buf 0 fs.disk hlt (taken_nodup htake) hm
  rw [Nat.zero_add] at hdata
  exact (flush_clusterAt _ _ _ hp
    (place_ne_fatCluster (taken_free htake hmem).1 (hlt _ hmem))).trans hdata

/-! ## A successful `write` -/

/-- The call put the entry `e` with the chain `l` into the parent, which may be any cluster
    but the one of the image. -/
structure Placed (request : FAT32DriverRequest) (fs fs' : FileSystem) (e : FAT32DirectoryEntry)
    (l : List UInt32) : Prop where
  table : fs'.table request.parentClusterNumber
    = Function.update (fs.table request.parentClusterNumber) (writeSlot request fs) e
  used : e.used
  named : e.name = request.name
  fresh : ∀ c ∈ l, clusterMapGet fs.fat c = some 0
  chain : FatChain fs'.fat e.cluster l
  nonempty : l ≠ []
  kept : ∀ c, c ∉ l → clusterMapGet fs'.fat c = clusterMapGet fs.fat c
  claimed : ∀ c ∈ l, clusterMapGet fs'.fat c ≠ some 0
  clusters : ∀ q, drivePlace q ≠ drivePlace request.parentClusterNumber →
    drivePlace q ≠ drivePlace fatClusterNumber →
    (∀ c ∈ l, drivePlace q ≠ drivePlace c) → clusterAt fs'.disk q = clusterAt fs.disk q
  image : ImageInSync fs'

section Placed

variable (hp : drivePlace request.parentClusterNumber ≠ drivePlace fatClusterNumber)
include hp

theorem directoryWritten_placed {c : UInt32} (hc : c ∈ freeCells fs.fat) :
    Placed request fs (directoryWritten newTable request fs c) (directoryEntry request fs c)
      [c] := by
  have hfree := (mem_freeCells.mp hc).2
  constructor
  case table => exact flush_table_parent _ _ _ _
  case used => exact rfl
  case named => exact rfl
  case fresh => exact fun d hd => List.mem_singleton.mp hd ▸ hfree
  case chain =>
    rw [directoryEntry_cluster]
    exact Chain.cons (ne_endOfFile_of_get hfree)
      (clusterMapGet_setCell_self _ _ (clusterMapGet_lt hfree)) Chain.nil
  case nonempty => exact List.cons_ne_nil _ _
  case kept =>
    intro d hd
    exact clusterMapGet_setCell_ne _ _ fun h => hd (h ▸ List.mem_singleton_self c)
  case claimed =>
    intro d hd
    rw [List.mem_singleton.mp hd, directoryWritten_fat,
      clusterMapGet_setCell_self _ _ (clusterMapGet_lt hfree)]
    decide
  case clusters =>
    intro q hq h1 hne
    exact directoryWritten_clusterAt hq h1 (hne c (List.mem_singleton_self c))
  case image => exact flush_imageInSync _ _ _ hp

theorem fileWritten_placed {k : ℕ} {c : UInt32} {rest : List UInt32}
    (htake : (freeCells fs.fat).take k = c :: rest) :
    Placed request fs (fileWritten request fs c rest) (fileEntry request fs c) (c :: rest) := by
  constructor
  case table => exact flush_table_parent _ _ _ _
  case used => exact rfl
  case named => exact rfl
  case fresh => exact fun d hd => (taken_free htake hd).2
  case chain =>
    rw [fileEntry_cluster]
    exact linkCells_chain fs.fat (fun d hd => clusterMapGet_lt (taken_free htake hd).2)
      (taken_nodup htake)
  case nonempty => exact List.cons_ne_nil _ _
  case kept => exact fun d hd => linkCells_get_notMem _ hd
  case claimed => exact fun d hd h0 => ((linkCells_free_iff htake).mp h0).2 hd
  case clusters => exact fun q hq h1 hne => fileWritten_clusterAt hq h1 hne
  case image => exact flush_imageInSync _ _ _ hp

end Placed

/-! ## `write` inserts -/

/-- The table of a directory just made, unless the parent is at the same place. -/
theorem directoryWritten_ownTable {c : UInt32} (hc : c ∈ freeCells fs.fat)
    (hp : drivePlace c ≠ drivePlace request.parentClusterNumber) :
    (directoryWritten newTable request fs c).table c
      = initDirectoryTable newTable request.name c := by
  obtain ⟨hc2, hfree⟩ := mem_freeCells.mp hc
  have hc1 := place_ne_fatCluster hc2 (clusterMapGet_lt hfree)
  exact (readTable_congr (flush_clusterAt _ _ _ hp hc1)).trans (readTable_written _ _ _)

/-- The slot `write` takes is unused, or slot 0 of a table without an unused slot. -/
theorem writeSlot_spec (request : FAT32DriverRequest) (fs : FileSystem) :
    writeSlot request fs = 0 ∨
    ¬ (fs.table request.parentClusterNumber (writeSlot request fs)).used := by
  rcases idxEmpty_spec (fs.table request.parentClusterNumber) with h | h
  · exact Or.inr h
  · exact Or.inl h.1

/-- Claiming a cell without storing anything is harmless to the owned chains. -/
theorem claimed_consistent {c : UInt32} (hcons : FsConsistent fs)
    (hc : c ∈ freeCells fs.fat) :
    FsConsistent (fs.store (setCell fs.fat c fat32FatEndOfFile) fs.disk) := by
  refine ConsistentWith.congr hcons (fun _ _ => rfl) ?_
  intro d hd
  refine clusterMapGet_setCell_ne _ _ ?_
  rintro rfl
  exact hd (mem_freeCells.mp hc).2

section Write

variable (hcons : ConsistentWith Left fs.table fs.fat)
  (hlive : Live fs.table request.parentClusterNumber)
include hcons hlive

theorem parent_place :
    drivePlace request.parentClusterNumber ≠ drivePlace fatClusterNumber :=
  place_ne_fatCluster (hcons.live_range hlive).1 (hcons.live_range hlive).2

/-- With an unused slot in the parent the entry goes to one of the slots `1..63`. -/
theorem writeSlot_ne_zero {i : Fin directoryEntryCount}
    (hi : ¬ (fs.table request.parentClusterNumber i).used) : writeSlot request fs ≠ 0 := by
  intro h0
  have hun := idxEmpty_unused hi
  rw [show idxEmpty (fs.table request.parentClusterNumber) = 0 from h0] at hun
  exact hun (hcons.selfUsed hlive)

/-- The new directory's own table. -/
theorem directoryWritten_table {c : UInt32} (hc : c ∈ freeCells fs.fat) :
    (directoryWritten newTable request fs c).table c
      = initDirectoryTable newTable request.name c :=
  directoryWritten_ownTable hc (place_ne_of_free hcons hlive (mem_freeCells.mp hc).2).symm

/-- On a live parent the new entry is inserted into the tree. -/
theorem Placed.inserted {fs' : FileSystem} {e : FAT32DirectoryEntry} {l : List UInt32}
    (h : Placed request fs fs' e l)
    (hself : e.attr = attrSubdirectory → (fs'.table e.cluster 0).used ∧
      ∀ i, i ≠ 0 → ¬ (fs'.table e.cluster i).used ∧ Left e.cluster (fs'.table e.cluster i)) :
    InsertedWith Left fs.table fs'.table fs.fat fs'.fat request.parentClusterNumber
      (writeSlot request fs) e l := by
  constructor
  case live => exact hlive
  case slot => exact writeSlot_spec request fs
  case entry => exact h.table
  case used => exact h.used
  case others =>
    intro d hd hdp
    have hd2 := hcons.live_range hd
    exact readTable_congr (h.clusters d (drivePlace_ne hd2.2 (hcons.live_range hlive).2 hdp)
      (place_ne_fatCluster hd2.1 hd2.2) fun c hc => place_ne_of_free hcons hd (h.fresh c hc))
  case fresh => exact h.fresh
  case chain => exact h.chain
  case nonempty => exact h.nonempty
  case kept => exact h.kept
  case dirSelf => exact fun ha => (hself ha).1
  case dirLeft => exact fun ha => (hself ha).2

/-- A new directory is one when the table that `write` does not set marks no slot as used. -/
theorem directoryWritten_insertedWith {c : UInt32} (hc : c ∈ freeCells fs.fat)
    (hleft : ∀ i, i ≠ 0 → ¬ (newTable i).used ∧ Left c (newTable i)) :
    InsertedWith Left fs.table (directoryWritten newTable request fs c).table fs.fat
      (directoryWritten newTable request fs c).fat request.parentClusterNumber
      (writeSlot request fs) (directoryEntry request fs c) [c] := by
  refine (directoryWritten_placed (parent_place hcons hlive) hc).inserted hcons hlive ?_
  intro _
  rw [directoryEntry_cluster, directoryWritten_table hcons hlive hc]
  refine ⟨(initDirectoryTable_self newTable request.name c).1, ?_⟩
  intro i hi
  rw [initDirectoryTable_ne _ _ _ hi]
  exact hleft i hi

theorem fileWritten_inserted {k : ℕ} {c : UInt32} {rest : List UInt32}
    (hs : request.bufferSize ≠ 0) (htake : (freeCells fs.fat).take k = c :: rest) :
    InsertedWith Left fs.table (fileWritten request fs c rest).table fs.fat
      (fileWritten request fs c rest).fat request.parentClusterNumber
      (writeSlot request fs) (fileEntry request fs c) (c :: rest) := by
  refine (fileWritten_placed (parent_place hcons hlive) htake).inserted hcons hlive ?_
  exact fun ha => absurd ha (fileEntry_notDirectory c hs)

theorem fileWritten_data {k : ℕ} {c : UInt32} {rest : List UInt32}
    (htake : (freeCells fs.fat).take k = c :: rest) {m : ℕ} (hm : m < (c :: rest).length) :
    clusterAt (fileWritten request fs c rest).disk (c :: rest)[m]
      = (request.buf.offset (clusterSize * m)).toCluster := by
  refine fileWritten_clusterAt_cell htake hm ?_
  exact (place_ne_of_free hcons hlive (taken_free htake (List.getElem_mem hm)).2).symm

end Write

theorem directoryWritten_inserted (hcons : FsConsistent fs)
    (hlive : Live fs.table request.parentClusterNumber) {c : UInt32} (hc : c ∈ freeCells fs.fat)
    (hzero : ∀ i, i ≠ 0 → newTable i = FAT32DirectoryEntry.zero) :
    Inserted fs.table (directoryWritten newTable request fs c).table fs.fat
      (directoryWritten newTable request fs c).fat request.parentClusterNumber
      (writeSlot request fs) (directoryEntry request fs c) [c] := by
  refine directoryWritten_insertedWith hcons hlive hc ?_
  intro i hi
  rw [hzero i hi]
  exact ⟨zero_not_used, rfl⟩

/-! ## `delete` removes -/

section Delete

variable (hcons : FsConsistent fs) (hlive : Live fs.table request.parentClusterNumber)
include hcons hlive

theorem usedSlot_of_firstMatch {i : Fin directoryEntryCount}
    (hn : request.name ≠ fun _ => 0)
    (hm : firstMatch request (fs.table request.parentClusterNumber) = some i) :
    UsedSlot fs.table request.parentClusterNumber i := by
  obtain ⟨hi, hname, -⟩ := firstMatch_some hm
  exact ⟨hlive, hi, hcons.used_of_name hlive (hname ▸ hn)⟩

/-- Clearing a slot and freeing cells of its chain removes the entry, provided the clusters
    that are zeroed are the freed ones. -/
theorem slotCleared_removed {i : Fin directoryEntryCount} {l freed : List UInt32}
    (hs : UsedSlot fs.table request.parentClusterNumber i)
    (hl : FatChain fs.fat (fs.table request.parentClusterNumber i).cluster l)
    (hsub : ∀ c ∈ freed, c ∈ l)
    (hempty : ∀ x, dirEdge fs.table request.parentClusterNumber i x → TableEmpty (fs.table x)) :
    Removed fs.table (slotCleared request fs (freeChain fs.fat freed)
        (zeroChain fs.disk freed) i).table fs.fat
      (slotCleared request fs (freeChain fs.fat freed) (zeroChain fs.disk freed) i).fat
      request.parentClusterNumber i l := by
  refine
    { slot := hs
      chain := hl
      entry := flush_table_parent _ _ _ _
      others := fun d hd hdp hdx => ?_
      empty := hempty
      kept := fun c hc => freeChain_get_notMem _ fun h => hc (hsub c h) }
  have hd2 := hcons.live_range hd
  refine readTable_congr (slotCleared_clusterAt
    (drivePlace_ne hd2.2 (hcons.live_range hlive).2 hdp)
    (place_ne_fatCluster hd2.1 hd2.2) fun c hc => ?_)
  refine drivePlace_ne hd2.2 (fatChain_lt hl (hsub c hc)) ?_
  rintro rfl
  exact hdx (hcons.live_mem_chain hd hs hl (hsub d hc))

end Delete

end OsyVolume
