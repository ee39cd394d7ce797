import Osyikkk.AtomicityProofs

/-!
# Calls on clusters that are no directories

The driver never checks that `parent_cluster_number` is the cluster of a directory: it reads
whatever the cluster holds as a table. So a call on such a parent is rejected only for
reasons that have nothing to do with the parent being one (`RejectedAnyway`), and
`rejects_iff` says that these are all: in every other case the call returns 0, changes the
disk or the file allocation table, or leaves `cluster_map`.
-/

namespace OsyVolume

open OsyDisk OsyFat32 LinkedChain RootedForest

variable {newTable : FAT32DirectoryTable} {request : FAT32DriverRequest} {fs : FileSystem}

/-- The parent of a driver call. -/
def parentOf : Call → Option UInt32
  | .write _ request | .delete request | .read request | .readDirectory request =>
      some request.parentClusterNumber
  | .move _ _ _ => none

/-- The call returns an error, without leaving `cluster_map`, and changes neither a cell nor
    a cluster. -/
def Rejects (fs : FileSystem) : Call → Prop
  | .write newTable request => ∃ code fs', OsyFat32.write newTable request fs = some (code, fs') ∧
      code ≠ 0 ∧ fs'.fat = fs.fat ∧ fs'.disk = fs.disk
  | .delete request => ∃ code fs', OsyFat32.delete request fs = some (code, fs') ∧
      code ≠ 0 ∧ fs'.fat = fs.fat ∧ fs'.disk = fs.disk
  | .read request => ∃ code buf, OsyFat32.read request fs = some (code, buf) ∧ code ≠ 0
  | .readDirectory request => (readDirectory request fs).1 ≠ 0
  | .move _ _ _ => True

/-- The reasons a call is rejected for, whatever its parent is. -/
def RejectedAnyway (fs : FileSystem) : Call → Prop
  | .write _ request =>
      request.name = (fun _ => 0) ∨ request.parentClusterNumber < 2 ∨ FewCells request fs
  | .delete request =>
      request.name = (fun _ => 0) ∨
        firstMatch request (fs.table request.parentClusterNumber) = none ∨
        ∃ i, firstMatch request (fs.table request.parentClusterNumber) = some i ∧
          (fs.table request.parentClusterNumber i).attr = attrSubdirectory ∧
          ¬ TableEmpty (fs.table (fs.table request.parentClusterNumber i).cluster)
  | .read request =>
      request.name = (fun _ => 0) ∨ request.bufferSize = 0 ∨
        firstMatch request (fs.table request.parentClusterNumber) = none ∨
        ∃ i l, firstMatch request (fs.table request.parentClusterNumber) = some i ∧
          FatChain fs.fat (fs.table request.parentClusterNumber i).cluster l ∧
          clusterCount request < l.length
  | .readDirectory request =>
      request.name = (fun _ => 0) ∨ request.bufferSize ≠ 0 ∨
        firstDirectory request (fs.table request.parentClusterNumber) = none
  | .move _ _ _ => True

theorem write_rejects_iff :
    Rejects fs (.write newTable request) ↔ RejectedAnyway fs (.write newTable request) := by
  constructor
  · rintro ⟨code, fs', h, hcode, hfat, hdisk⟩
    by_cases hn : request.name = fun _ => 0
    · exact Or.inl hn
    by_cases hp : request.parentClusterNumber < 2
    · exact Or.inr (Or.inl hp)
    refine Or.inr (Or.inr ?_)
    by_cases hs : request.bufferSize = 0
    · refine Or.inl ⟨hs, ?_⟩
      rw [write_directory hn hp hs] at h
      cases hfree : freeCells fs.fat with
      | nil => rfl
      | cons c rest =>
          by_cases hc : c.toNat = 511
          · -- cell 511 is claimed although the call fails
            rw [writeDirectory_lastCell hfree hc] at h
            obtain ⟨-, rfl⟩ := Prod.mk.inj (Option.some.inj h)
            have hcell : clusterMapGet fs.fat c = some 0 :=
              (mem_freeCells.mp (hfree ▸ List.mem_cons_self)).2
            rw [store_fat] at hfat
            rw [← hfat, clusterMapGet_setCell_self _ _ (clusterMapGet_lt hcell)] at hcell
            exact absurd (Option.some.inj hcell) (by decide)
          · rw [writeDirectory_eq hfree hc] at h
            exact absurd (Prod.mk.inj (Option.some.inj h)).1.symm hcode
    · refine Or.inr ⟨hs, ?_⟩
      by_contra hlen
      rw [write_file hn hp hs] at h
      by_cases h0 : clusterCount request = 0
      · rw [writeFile_short h0] at h
        exact nomatch h
      · obtain ⟨c, rest, -, hstored⟩ := writeFile_stored h0 (Nat.not_lt.mp hlen)
        rw [hstored] at h
        exact hcode (Prod.mk.inj (Option.some.inj h)).1.symm
  · intro h
    by_cases hn : request.name = fun _ => 0
    · exact ⟨-1, fs, write_emptyName hn, by decide, rfl, rfl⟩
    by_cases hp : request.parentClusterNumber < 2
    · exact ⟨2, fs, write_reserved hn hp, by decide, rfl, rfl⟩
    rcases h with h | h | hfew
    · exact absurd h hn
    · exact absurd h hp
    · exact ⟨1, fs, write_fewCells hn hp hfew, by decide, rfl, rfl⟩

theorem delete_rejects_iff :
    Rejects fs (.delete request) ↔ RejectedAnyway fs (.delete request) := by
  constructor
  · rintro ⟨code, fs', h, hcode, -, hdisk⟩
    by_cases hn : request.name = fun _ => 0
    · exact Or.inl hn
    refine Or.inr ?_
    cases hm : firstMatch request (fs.table request.parentClusterNumber) with
    | none => exact Or.inl rfl
    | some i =>
        refine Or.inr ⟨i, rfl, ?_⟩
        by_cases hd : (fs.table request.parentClusterNumber i).attr = attrSubdirectory
        · refine ⟨hd, ?_⟩
          intro hempty
          rw [delete_directory hn hm hd] at h
          obtain rfl := deleteDirectory_code h hcode
          exact hcode (deleteDirectory_code_zero h hempty)
        by_cases hf : (fs.table request.parentClusterNumber i).attr = attrArchive
        · rw [delete_file hn hm hf] at h
          exact absurd (deleteFile_code h) hcode
        · rw [delete_other hn hm hd hf] at h
          obtain ⟨-, rfl⟩ := Prod.mk.inj (Option.some.inj h)
          exact absurd hdisk (slotCleared_disk_ne _ _ ((firstMatch_some hm).2.1 ▸ hn))
  · intro h
    by_cases hn : request.name = fun _ => 0
    · exact ⟨-1, fs, delete_emptyName hn, by decide, rfl, rfl⟩
    rcases h with h | hm | ⟨i, hm, hd, hfilled⟩
    · exact absurd h hn
    · exact ⟨-1, fs, delete_notFound hn hm, by decide, rfl, rfl⟩
    · exact ⟨2, fs, by rw [delete_directory hn hm hd, deleteDirectory_filled hfilled],
        by decide, rfl, rfl⟩

theorem read_rejects_iff :
    Rejects fs (.read request) ↔ RejectedAnyway fs (.read request) := by
  constructor
  · rintro ⟨code, buf, h, hcode⟩
    by_cases hn : request.name = fun _ => 0
    · exact Or.inl hn
    by_cases hs : request.bufferSize = 0
    · exact Or.inr (Or.inl hs)
    refine Or.inr (Or.inr ?_)
    cases hm : firstMatch request (fs.table request.parentClusterNumber) with
    | none => exact Or.inl rfl
    | some i =>
        by_cases hchain : ∃ l, FatChain fs.fat (fs.table request.parentClusterNumber i).cluster l
        · obtain ⟨l, hl⟩ := hchain
          refine Or.inr ⟨i, l, rfl, hl, ?_⟩
          by_contra hlen
          rw [read_eq hn hs hm hl (Nat.not_lt.mp hlen)] at h
          exact hcode (Prod.mk.inj (Option.some.inj h)).1.symm
        · rw [read_noChain hn hs hm hchain] at h
          exact nomatch h
  · intro h
    by_cases hn : request.name = fun _ => 0
    · exact ⟨-1, request.buf, read_emptyName hn, by decide⟩
    by_cases hs : request.bufferSize = 0
    · exact ⟨1, request.buf, read_zeroSize hn hs, by decide⟩
    rcases h with h | h | hm | ⟨i, l, hm, hl, hlen⟩
    · exact absurd h hn
    · exact absurd h hs
    · exact ⟨3, request.buf, read_notFound hn hs hm, by decide⟩
    · exact ⟨2, request.buf, read_tooSmall hn hs hm hl hlen, by decide⟩

theorem readDirectory_rejects_iff :
    Rejects fs (.readDirectory request) ↔ RejectedAnyway fs (.readDirectory request) := by
  simp only [Rejects, RejectedAnyway]
  by_cases hn : request.name = fun _ => 0
  · simp [readDirectory_emptyName hn, hn]
  by_cases hs : request.bufferSize = 0
  · cases hm : firstDirectory request (fs.table request.parentClusterNumber) with
    | none => simp [readDirectory_notFound hn hs hm]
    | some i => simp [readDirectory_eq hn hs hm, hn, hs]
  · simp [readDirectory_sized hn hs, hs]

/-- **Only these calls on a cluster that is no live directory are rejected.** -/
theorem deadParent_rejects_iff (fs : FileSystem) (k : Call) (p : UInt32)
    (hp : parentOf k = some p) :
    (¬ Live fs.table p → Rejects fs k) ↔ (Live fs.table p ∨ RejectedAnyway fs k) := by
  have hiff : Rejects fs k ↔ RejectedAnyway fs k := by
    cases k with
    | write newTable request => exact write_rejects_iff
    | delete request => exact delete_rejects_iff
    | read request => exact read_rejects_iff
    | readDirectory request => exact readDirectory_rejects_iff
    | move _ _ _ => exact nomatch hp
  rw [hiff, or_iff_not_imp_left]

/-- A directory made in cluster 600. -/
def deadRequest : FAT32DriverRequest := { rootRequest [97] 0 with parentClusterNumber := 600 }

/-- A parent beyond the table is rejected when the name is empty. -/
theorem deadParent_rejects_emptyName :
    (¬ Live (freshFileSystem blankDisk).table 600 →
      Rejects (freshFileSystem blankDisk) (.read { deadRequest with name := fun _ => 0 })) ↔
    (Live (freshFileSystem blankDisk).table 600 ∨
      RejectedAnyway (freshFileSystem blankDisk)
        (.read { deadRequest with name := fun _ => 0 })) :=
  deadParent_rejects_iff _ _ 600 rfl

/-- The fresh file system makes a directory in cluster 600. -/
theorem deadParent_accepted :
    ¬ Live (freshFileSystem blankDisk).table 600 ∧
      ¬ Rejects (freshFileSystem blankDisk) (.write zeroTable deadRequest) := by
  refine ⟨fun h => absurd (fresh_live blankDisk h) (by decide), ?_⟩
  rw [write_rejects_iff, RejectedAnyway, FewCells, fresh_freeCells]
  decide

end OsyVolume
