import Osyikkk.DriverRuns

/-!
# The move syscall as an edit of the volume

`syscall` with `eax == 8` gets two tables and stores both. With the tables of two different
live directories it moves the entry (`entryMoved_moved`). With the same table twice the
second store undoes the clearing of the source slot, so the entry is duplicated
(`entryMoved_same`). Without an unused slot in the destination nothing changes
(`syscallMove_full`).
-/

namespace OsyVolume

open OsyDisk OsyFat32 LinkedChain RootedForest

variable {fs : FileSystem} {p q srcIdx : UInt32} {i j : Fin directoryEntryCount}

/-- The first unused slot of the destination's slots `1..63`. -/
def firstUnused (t : FAT32DirectoryTable) : Option (Fin directoryEntryCount) :=
  (slotsFrom 1).find? fun i => (t i).userAttribute ≠ uattrNotEmpty

theorem firstUnused_some {t : FAT32DirectoryTable} (h : firstUnused t = some j) :
    j ≠ 0 ∧ ¬ (t j).used := by
  have hp := List.find?_some h
  exact ⟨mem_slotsFrom_one.mp (List.mem_of_find?_eq_some h),
    by simpa [FAT32DirectoryEntry.used] using hp⟩

theorem firstUnused_eq_none {t : FAT32DirectoryTable} :
    firstUnused t = none ↔ ∀ j, j ≠ 0 → (t j).used := by
  simp only [firstUnused, List.find?_eq_none, mem_slotsFrom_one, decide_eq_true_eq, not_not,
    FAT32DirectoryEntry.used, ne_eq]

theorem exists_unused_iff {t : FAT32DirectoryTable} :
    (∃ j, firstUnused t = some j) ↔ ∃ j, j ≠ 0 ∧ ¬ (t j).used := by
  constructor
  · rintro ⟨j, hj⟩
    exact ⟨j, firstUnused_some hj⟩
  · rintro ⟨j, hj, hun⟩
    cases hfound : firstUnused t with
    | some k => exact ⟨k, rfl⟩
    | none => exact absurd (firstUnused_eq_none.mp hfound j hj) hun

/-- The state after slot `i` of `p` was moved to slot `j` of `q`, the source stored first. -/
def entryMoved (fs : FileSystem) (p q : UInt32) (i j : Fin directoryEntryCount) :
    FileSystem :=
  let disk := writeClusters fs.disk
    (tableToMemory (Function.update (fs.table p) i FAT32DirectoryEntry.zero)) p 1
  fs.store fs.fat (writeClusters disk
    (tableToMemory (Function.update (fs.table q) j (fs.table p i))) q 1)

@[simp] theorem entryMoved_fat (fs : FileSystem) (p q : UInt32)
    (i j : Fin directoryEntryCount) : (entryMoved fs p q i j).fat = fs.fat := rfl

section Syscall

variable (hp : (fs.table p 0).cluster = p) (hq : (fs.table q 0).cluster = q)
include hp hq

theorem syscallMove_full (h : firstUnused (fs.table q) = none) :
    syscallMove (fs.table p) (fs.table q) srcIdx fs = some fs := by
  have hentry : moveEntry (fs.table p) (fs.table q) srcIdx
      = some (fs.table p, fs.table q) := by
    rw [moveEntry, show (slotsFrom 1).find? _ = none from h]
  simp only [syscallMove, hentry, Option.map_some, hp, hq, writeClusters_readTable]
  rfl

theorem syscallMove_eq (hi : i ≠ 0) (hidx : srcIdx.toNat = i)
    (h : firstUnused (fs.table q) = some j) :
    syscallMove (fs.table p) (fs.table q) srcIdx fs = some (entryMoved fs p q i j) := by
  have hlt : srcIdx.toNat < directoryEntryCount := hidx ▸ i.isLt
  have hslot : (⟨srcIdx.toNat, hlt⟩ : Fin directoryEntryCount) = i := Fin.ext hidx
  have hentry : moveEntry (fs.table p) (fs.table q) srcIdx
      = some (Function.update (fs.table p) i FAT32DirectoryEntry.zero,
          Function.update (fs.table q) j (fs.table p i)) := by
    rw [moveEntry, show (slotsFrom 1).find? _ = some j from h]
    simp only [dif_pos hlt, hslot]
  have hj := (firstUnused_some h).1
  simp only [syscallMove, hentry, Option.map_some, Function.update_of_ne hi.symm,
    Function.update_of_ne hj.symm, hp, hq]
  rfl

end Syscall

/-! ## What was stored -/

theorem entryMoved_dest : (entryMoved fs p q i j).table q
    = Function.update (fs.table q) j (fs.table p i) := readTable_written _ _ _

/-- Other clusters keep their contents. -/
theorem entryMoved_clusterAt {c : UInt32} (hcp : drivePlace c ≠ drivePlace p)
    (hcq : drivePlace c ≠ drivePlace q) :
    clusterAt (entryMoved fs p q i j).disk c = clusterAt fs.disk c :=
  (clusterAt_writeClusters_ne _ _ hcq).trans (clusterAt_writeClusters_ne _ _ hcp)

/-- With one directory as source and destination the entry stays where it was as well. -/
theorem entryMoved_same : (entryMoved fs p p i j).table p
    = Function.update (fs.table p) j (fs.table p i) := entryMoved_dest

section Moving

variable (hcons : FsConsistent fs)
include hcons

theorem entryMoved_others (hlp : Live fs.table p) (hlq : Live fs.table q) {d : UInt32}
    (hd : Live fs.table d) (hdp : d ≠ p) (hdq : d ≠ q) :
    (entryMoved fs p q i j).table d = fs.table d :=
  readTable_congr (entryMoved_clusterAt
    (drivePlace_ne (hcons.live_range hd).2 (hcons.live_range hlp).2 hdp)
    (drivePlace_ne (hcons.live_range hd).2 (hcons.live_range hlq).2 hdq))

/-- Between two directories the entry is moved. -/
theorem entryMoved_moved (hs : UsedSlot fs.table p i) (hlq : Live fs.table q) (hpq : p ≠ q)
    (hj : j ≠ 0) (hfree : ¬ (fs.table q j).used) :
    Moved fs.table (entryMoved fs p q i j).table p q i j where
  slot := hs
  live := hlq
  free := hfree
  target := hj
  ne := hpq
  source := by
    have hplace := drivePlace_ne (hcons.live_range hs.live).2 (hcons.live_range hlq).2 hpq
    exact (readTable_writeClusters_ne _ _ hplace).trans (readTable_written _ _ _)
  dest := entryMoved_dest
  others _ hd hdp hdq := entryMoved_others hcons hs.live hlq hd hdp hdq

end Moving

end OsyVolume
