import Osyikkk.BootProofs
import Osyikkk.NewDirectoryProofs

/-!
# Removing a directory

`delete` removes a directory whose slots `1..63` are unused and leaves one that has entries
alone. What is removed is one cell, one cluster and one slot: every other path from the root
leads to the entry it led to, with the same bytes (`DirectoryRemoved`).
-/

namespace OsyVolume

open OsyDisk OsyFat32 LinkedChain RootedForest OsyBoot

variable {request : FAT32DriverRequest} {fs fs' : FileSystem} {tbl tbl' : Tables}
  {fat fat' : FAT32FileAllocationTable} {p c d : UInt32} {i j : Fin directoryEntryCount}
  {names : List EntryName} {l : List UInt32}

/-- The names of directories from the root, last one first, lead to the table with the used
    slot. -/
def LeadsTo (tbl : Tables) (names : List EntryName) (d : UInt32)
    (j : Fin directoryEntryCount) : Prop :=
  NamedPath tbl names d ∧ j ≠ 0 ∧ (tbl d j).used

/-- The cell, the cluster and the slot of the directory are gone, and no other path, entry
    or byte has changed. -/
structure DirectoryRemoved (fs fs' : FileSystem) (p : UInt32) (i : Fin directoryEntryCount)
    (c : UInt32) : Prop where
  cell : clusterMapGet fs'.fat c = some fat32FatEmptyEntry
  otherCells : ∀ x, x ≠ c → clusterMapGet fs'.fat x = clusterMapGet fs.fat x
  cluster : clusterAt fs'.disk c = fun _ => 0
  slot : fs'.table p = Function.update (fs.table p) i FAT32DirectoryEntry.zero
  image : ImageInSync fs'
  otherClusters : ∀ q, drivePlace q ≠ drivePlace c → drivePlace q ≠ drivePlace p →
    drivePlace q ≠ drivePlace fatClusterNumber → clusterAt fs'.disk q = clusterAt fs.disk q
  directories : ∀ names d, NamedPath fs'.table names d ↔ NamedPath fs.table names d ∧ d ≠ c
  entries : ∀ names d j, LeadsTo fs'.table names d j ↔
    LeadsTo fs.table names d j ∧ (d, j) ≠ (p, i)
  kept : ∀ names d j, LeadsTo fs'.table names d j → fs'.table d j = fs.table d j ∧
    ∃ l, FatChain fs.fat (fs.table d j).cluster l ∧ FatChain fs'.fat (fs.table d j).cluster l ∧
      ((fs.table d j).attr ≠ attrSubdirectory → p ∉ l) ∧
      ∀ x ∈ l, x ≠ p → clusterAt fs'.disk x = clusterAt fs.disk x

/-! ## Paths after a removal -/

section Removing

variable (hcons : Consistent tbl fat) (hrem : Removed tbl tbl' fat fat' p i l)
  (he : dirEdge tbl p i c)
include hcons hrem he

omit hcons in
/-- A directory other than the removed one keeps all its slots but the cleared one. -/
theorem Removed.slot_kept (hd : Live tbl d) (hdc : d ≠ c) (j : Fin directoryEntryCount) :
    (d = p ∧ j = i ∧ tbl' d j = FAT32DirectoryEntry.zero) ∨
      (¬ (d = p ∧ j = i) ∧ tbl' d j = tbl d j) :=
  hrem.table hd (fun h => hdc (dirEdge_functional tbl h he)) j

omit hcons in
/-- Nothing hangs on the removed directory. -/
theorem Removed.ne_of_used (hj : j ≠ 0) (hused : (tbl d j).used) : d ≠ c := by
  rintro rfl
  exact hrem.empty d he j hj hused

/-- The names lead to every directory but the removed one. -/
theorem Removed.namedPath_iff :
    NamedPath tbl' names d ↔ NamedPath tbl names d ∧ d ≠ c := by
  constructor
  · intro h
    induction h with
    | root =>
        refine ⟨NamedPath.root, ?_⟩
        rintro rfl
        exact hcons.uniqueParent.2 hrem.slot.live he
    | @child d x j names _ hedge ih =>
        obtain ⟨hpath, hdc⟩ := ih
        rcases hrem.slot_kept he hpath.live hdc j with ⟨-, -, hzero⟩ | ⟨hne, hsame⟩
        · rw [dirEdge, hzero] at hedge
          exact absurd hedge.2.1 zero_not_used
        · rw [dirEdge, hsame] at hedge
          rw [hsame]
          refine ⟨NamedPath.child hpath hedge, ?_⟩
          rintro rfl
          exact hne (hcons.uniqueParent.1 hpath.live hrem.slot.live hedge he)
  · rintro ⟨h, hdc⟩
    induction h with
    | root => exact NamedPath.root
    | @child d x j names hpath hedge ih =>
        have hd := hrem.ne_of_used he hedge.1 hedge.2.1
        rcases hrem.slot_kept he hpath.live hd j with ⟨rfl, rfl, -⟩ | ⟨-, hsame⟩
        · exact absurd (dirEdge_functional tbl hedge he) hdc
        · rw [← hsame]
          refine NamedPath.child (ih hd) ?_
          rw [dirEdge, hsame]
          exact hedge

/-- The names lead to every entry but the removed one. -/
theorem Removed.leadsTo_iff :
    LeadsTo tbl' names d j ↔ LeadsTo tbl names d j ∧ (d, j) ≠ (p, i) := by
  constructor
  · rintro ⟨hpath, hj, hused⟩
    obtain ⟨hpath, hdc⟩ := (hrem.namedPath_iff hcons he).mp hpath
    rcases hrem.slot_kept he hpath.live hdc j with ⟨-, -, hzero⟩ | ⟨hne, hsame⟩
    · rw [hzero] at hused
      exact absurd hused zero_not_used
    · exact ⟨⟨hpath, hj, hsame ▸ hused⟩, fun h => hne (Prod.ext_iff.mp h)⟩
  · rintro ⟨⟨hpath, hj, hused⟩, hne⟩
    have hdc := hrem.ne_of_used he hj hused
    rcases hrem.slot_kept he hpath.live hdc j with ⟨hd, hi, -⟩ | ⟨-, hsame⟩
    · exact absurd (Prod.ext_iff.mpr ⟨hd, hi⟩) hne
    · exact ⟨(hrem.namedPath_iff hcons he).mpr ⟨hpath, hdc⟩, hj, hsame.symm ▸ hused⟩

end Removing

/-! ## `delete` on a directory -/

section Delete

variable (hcons : FsConsistent fs) (hs : UsedSlot fs.table request.parentClusterNumber i)
  (he : dirEdge fs.table request.parentClusterNumber i c) (hempty : TableEmpty (fs.table c))
include hcons hs he

/-- The cell a directory's entry names is in the table, and it is not the parent's when the
    directory is empty. -/
theorem directory_cell : 3 ≤ c.toNat ∧ c.toNat < clusterMapSize :=
  he.2.2.2 ▸ hcons.start hs

include hempty

omit hcons in
theorem directory_ne_parent : c ≠ request.parentClusterNumber := by
  rintro rfl
  exact hempty i hs.slot hs.used

/-- Removing an empty directory is an edit of the tree. -/
theorem directory_removed :
    Removed fs.table
      (slotCleared request fs (freeChain fs.fat [c]) (zeroChain fs.disk [c]) i).table fs.fat
      (slotCleared request fs (freeChain fs.fat [c]) (zeroChain fs.disk [c]) i).fat
      request.parentClusterNumber i (hcons.chain hs).choose := by
  obtain ⟨hl, hne, -⟩ := (hcons.chain hs).choose_spec
  refine slotCleared_removed hcons hs.live hs hl ?_ ?_
  · intro x hx
    rw [List.mem_singleton.mp hx, ← he.2.2.2]
    exact chain_start_mem hl hne
  · intro x hx
    rwa [dirEdge_functional _ hx he]

/-- The clusters of another entry's chain are neither the directory's nor a table, apart from
    the parent's. -/
theorem directory_otherCluster {d x : UInt32} {j : Fin directoryEntryCount} {l : List UInt32}
    (hs' : UsedSlot fs.table d j) (hne : (d, j) ≠ (request.parentClusterNumber, i))
    (hl : FatChain fs.fat (fs.table d j).cluster l) (hx : x ∈ l)
    (hxp : x ≠ request.parentClusterNumber) :
    clusterAt (slotCleared request fs (freeChain fs.fat [c]) (zeroChain fs.disk [c]) i).disk x
      = clusterAt fs.disk x := by
  obtain ⟨l₀, hl₀, -, h3⟩ := hcons.chain hs'
  obtain rfl := chain_unique hl hl₀
  have hlt := fatChain_lt hl hx
  refine slotCleared_clusterAt (drivePlace_ne hlt (hcons.live_range hs.live).2 hxp)
    (place_ne_fatCluster (Nat.le_of_succ_le (h3 x hx)) hlt) ?_
  intro y hy
  rw [List.mem_singleton.mp hy]
  refine drivePlace_ne hlt (directory_cell hcons hs he).2 ?_
  rintro rfl
  obtain ⟨l', hl', hl'ne, -⟩ := hcons.chain hs
  have hmem : x ∈ l' := he.2.2.2 ▸ chain_start_mem hl' hl'ne
  exact hne (Prod.ext_iff.mpr (hcons.disjoint hs' hs hl hl' hx hmem))

/-- An empty directory is removed and nothing else is. -/
theorem directory_removedExactly : DirectoryRemoved fs
    (slotCleared request fs (freeChain fs.fat [c]) (zeroChain fs.disk [c]) i)
    request.parentClusterNumber i c := by
  obtain ⟨h3, hlt⟩ := directory_cell hcons hs he
  have hplace : drivePlace request.parentClusterNumber ≠ drivePlace fatClusterNumber :=
    parent_place hcons hs.live
  have hrem := directory_removed hcons hs he hempty
  constructor
  case cell => exact freeChain_get_mem _ (List.mem_singleton_self c) hlt
  case otherCells => exact fun x hx => freeChain_get_notMem _ (mt List.mem_singleton.mp hx)
  case cluster =>
    have hparent := directory_ne_parent hs he hempty
    exact (flush_clusterAt _ _ _ (drivePlace_ne hlt (hcons.live_range hs.live).2 hparent)
      (place_ne_fatCluster (Nat.le_of_succ_le h3) hlt)).trans
      (clusterAt_zeroChain_mem _ (List.mem_singleton_self c)
        fun x hx => List.mem_singleton.mp hx ▸ hlt)
  case slot => exact slotCleared_table _ _ _ _ _
  case image => exact flush_imageInSync _ _ _ hplace
  case otherClusters =>
    intro q hqc hqp hq1
    exact slotCleared_clusterAt hqp hq1 fun x hx => List.mem_singleton.mp hx ▸ hqc
  case directories => exact fun _ _ => hrem.namedPath_iff hcons he
  case entries => exact fun _ _ _ => hrem.leadsTo_iff hcons he
  case kept =>
    intro names d j h
    obtain ⟨hlead, hne⟩ := (hrem.leadsTo_iff hcons he).mp h
    have hs' : UsedSlot fs.table d j := ⟨hlead.1.live, hlead.2.1, hlead.2.2⟩
    have hne' : ¬ (d = request.parentClusterNumber ∧ j = i) := fun h => hne (Prod.ext_iff.mpr h)
    obtain ⟨l, hl, -⟩ := hcons.chain hs'
    refine ⟨hrem.entry_kept hcons ((hrem.usedSlot_iff hcons).mpr ⟨hs', hne'⟩), l, hl,
      hrem.chain_kept hcons hs' hne' hl, ?_, ?_⟩
    · intro hfile hmem
      exact hfile (hcons.live_mem_chain hs.live hs' hl hmem).2.2.1
    · intro x hx hxp
      exact directory_otherCluster hcons hs he hempty hs' hne hl hx hxp

end Delete

/-- **`rmdir` orphans nothing.** -/
theorem rmdir_orphansNothing (hcons : FsConsistent fs)
    (hlive : Live fs.table request.parentClusterNumber) (hn : request.name ≠ fun _ => 0)
    (hm : firstMatch request (fs.table request.parentClusterNumber) = some i)
    (hd : (fs.table request.parentClusterNumber i).attr = attrSubdirectory)
    (hc : (fs.table request.parentClusterNumber i).cluster = c) :
    ∃ code fs', OsyFat32.delete request fs = some (code, fs') ∧
      (code = 0 ↔ TableEmpty (fs.table c)) ∧
      (TableEmpty (fs.table c) → DirectoryRemoved fs fs' request.parentClusterNumber i c) ∧
      (¬ TableEmpty (fs.table c) → code = 2 ∧ fs' = fs) := by
  have hs := usedSlot_of_firstMatch hcons hlive hn hm
  have he : dirEdge fs.table request.parentClusterNumber i c := ⟨hs.slot, hs.used, hd, hc⟩
  rw [delete_directory hn hm hd]
  by_cases hempty : TableEmpty (fs.table c)
  · rw [deleteDirectory_eq hc hempty (directory_cell hcons hs he).2]
    exact ⟨0, _, rfl, iff_of_true rfl hempty,
      fun _ => directory_removedExactly hcons hs he hempty, fun h => absurd hempty h⟩
  · rw [deleteDirectory_filled (hc ▸ hempty)]
    exact ⟨2, fs, rfl, iff_of_false (by decide) hempty, fun h => absurd h hempty,
      fun _ => ⟨rfl, rfl⟩⟩

theorem fresh_writeSlot (name : List UInt8) (size : UInt32) :
    writeSlot (rootRequest name size) (freshFileSystem blankDisk) = 1 :=
  fresh_idxEmpty blankDisk

/-- The empty volume with one directory. -/
def madeDirectory (name : List UInt8) : FileSystem :=
  directoryWritten zeroTable (rootRequest name 0) (freshFileSystem blankDisk) 3

theorem madeDirectory_inserted (name : List UInt8) :
    Inserted (freshFileSystem blankDisk).table (madeDirectory name).table
      (freshFileSystem blankDisk).fat (madeDirectory name).fat rootClusterNumber 1
      (directoryEntry (rootRequest name 0) (freshFileSystem blankDisk) 3) [3] := by
  have hc : (3 : UInt32) ∈ freeCells (freshFileSystem blankDisk).fat :=
    mem_freeCells.mpr ⟨by decide, fresh_cell_free _ (by decide) (by decide)⟩
  rw [← fresh_writeSlot]
  exact directoryWritten_inserted (fresh_consistent blankDisk) Reach.root hc fun _ _ => rfl

theorem madeDirectory_entry (name : List UInt8) :
    (madeDirectory name).table rootClusterNumber 1
      = directoryEntry (rootRequest name 0) (freshFileSystem blankDisk) 3 := by
  rw [(madeDirectory_inserted name).entry, Function.update_self]

/-- It is consistent, its one entry is the first match of the request, and the directory has
    one cluster and no entries. -/
theorem madeDirectory_state (name : List UInt8) :
    FsConsistent (madeDirectory name) ∧
      (∀ d j, UsedSlot (madeDirectory name).table d j → d = rootClusterNumber ∧ j = 1) ∧
      firstMatch (rootRequest name 0) ((madeDirectory name).table rootClusterNumber) = some 1 ∧
      ((madeDirectory name).table rootClusterNumber 1).attr = attrSubdirectory ∧
      ((madeDirectory name).table rootClusterNumber 1).cluster = 3 ∧
      FatChain (madeDirectory name).fat 3 [3] ∧ TableEmpty ((madeDirectory name).table 3) := by
  have hins := madeDirectory_inserted name
  have hentry := madeDirectory_entry name
  have hattr : (directoryEntry (rootRequest name 0) (freshFileSystem blankDisk) 3).attr
      = attrSubdirectory := directoryEntry_attr 3 rfl
  have hchain := hins.chain
  rw [directoryEntry_cluster] at hchain
  refine ⟨hins.consistent (fresh_consistent _), ?_, ?_, hentry ▸ hattr, ?_, hchain, ?_⟩
  · intro d j h
    rcases hins.usedSlot h with ⟨hd, hj, -⟩ | ⟨hold, -⟩
    · exact ⟨hd, hj⟩
    · exact absurd hold (fresh_no_slot _)
  · rw [firstMatch_eq_some_iff, Matches, hentry]
    refine ⟨⟨by decide, rfl, ?_⟩, ?_⟩
    · show (fun _ => 0) = ((freshFileSystem blankDisk).table rootClusterNumber
        (writeSlot (rootRequest name 0) (freshFileSystem blankDisk))).ext
      rw [fresh_writeSlot, fresh_slot _ (by decide)]
      rfl
    · -- slot 1 is the first one that is looked at
      intro j hj hmatch
      exact hmatch.1 (Fin.ext (Nat.lt_one_iff.mp hj))
  · rw [hentry, directoryEntry_cluster]
  · intro j hj
    have hzero := hins.dirZero hattr j hj
    rw [directoryEntry_cluster] at hzero
    rw [hzero]
    exact zero_not_used

/-- An empty directory is removed. -/
theorem rmdir_orphansNothing_mkdir :
    ∃ code fs', OsyFat32.delete (rootRequest [97] 0) (madeDirectory [97]) = some (code, fs') ∧
      (code = 0 ↔ TableEmpty ((madeDirectory [97]).table 3)) ∧
      (TableEmpty ((madeDirectory [97]).table 3) →
        DirectoryRemoved (madeDirectory [97]) fs' 2 1 3) ∧
      (¬ TableEmpty ((madeDirectory [97]).table 3) → code = 2 ∧ fs' = madeDirectory [97]) := by
  obtain ⟨hcons, -, hm, hd, hc, -⟩ := madeDirectory_state [97]
  exact rmdir_orphansNothing hcons Reach.root rootName_a hm hd hc

/-- An empty directory without a name is well formed, but the request that matches it is
    refused. -/
theorem namelessDirectory_kept :
    FsConsistent (madeDirectory []) ∧
      (∀ d j, UsedSlot (madeDirectory []).table d j → d = rootClusterNumber ∧ j = 1) ∧
      firstMatch (rootRequest [] 0) ((madeDirectory []).table rootClusterNumber) = some 1 ∧
      ((madeDirectory []).table rootClusterNumber 1).attr = attrSubdirectory ∧
      ((madeDirectory []).table rootClusterNumber 1).cluster = 3 ∧
      FatChain (madeDirectory []).fat 3 [3] ∧ TableEmpty ((madeDirectory []).table 3) ∧
      OsyFat32.delete (rootRequest [] 0) (madeDirectory []) = some (-1, madeDirectory []) := by
  obtain ⟨hcons, hone, hm, hd, hc, hl, hempty⟩ := madeDirectory_state []
  exact ⟨hcons, hone, hm, hd, hc, hl, hempty, delete_emptyName rfl⟩

end OsyVolume
