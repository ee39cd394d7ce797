import Osyikkk.DiskModel
import Osyikkk.LittleEndian
import Mathlib.Data.Fintype.Basic
import Mathlib.Tactic.IntervalCases

/-!
# The on-disk structures of `fat32.h`

The file allocation table, directory entries and directory tables, with their packed byte
layout. Every structure fills its cluster without a gap, so encoding and decoding are
inverse to each other in both directions: a table that is written and read back is the same
table, and a table that is read and written back leaves the same bytes.
-/

namespace OsyFat32

open OsyDisk LittleEndian

abbrev clusterMapSize : ℕ := 512
abbrev directoryEntryCount : ℕ := 64

instance : NeZero directoryEntryCount := ⟨by decide⟩

abbrev cluster0Value : UInt32 := 0x0FFFFFF0
abbrev cluster1Value : UInt32 := 0x0FFFFFFF
abbrev fat32FatEndOfFile : UInt32 := 0x0FFFFFFF
abbrev fat32FatEmptyEntry : UInt32 := 0

abbrev bootSector : UInt32 := 0
abbrev fatClusterNumber : UInt32 := 1
abbrev rootClusterNumber : UInt32 := 2

abbrev attrSubdirectory : UInt8 := 0b00010000
abbrev uattrNotEmpty : UInt8 := 0b10101010
abbrev attrArchive : UInt8 := 0b00100000

theorem archive_ne_subdirectory : attrArchive ≠ attrSubdirectory := by decide

/-- `char name[8]`. -/
abbrev EntryName := Fin 8 → UInt8

/-- `char ext[3]`. -/
abbrev EntryExt := Fin 3 → UInt8

/-- `struct FAT32FileAllocationTable`: its one member `cluster_map`. -/
abbrev FAT32FileAllocationTable := Fin clusterMapSize → UInt32

/-- `struct FAT32DirectoryEntry`; `attr` is its member `attribute`. -/
structure FAT32DirectoryEntry where
  name : EntryName
  ext : EntryExt
  attr : UInt8
  userAttribute : UInt8
  undelete : UInt8
  createTime : UInt16
  createDate : UInt16
  accessDate : UInt16
  clusterHigh : UInt16
  modifiedTime : UInt16
  modifiedDate : UInt16
  clusterLow : UInt16
  filesize : UInt32
  deriving DecidableEq

/-- `struct FAT32DirectoryTable`: its one member `table`. -/
abbrev FAT32DirectoryTable := Fin directoryEntryCount → FAT32DirectoryEntry

/-- `cluster_high << 16 | cluster_low`. -/
def joinCluster (high low : UInt16) : UInt32 := high.toUInt32 <<< 16 ||| low.toUInt32

/-- The first cluster an entry names. -/
def FAT32DirectoryEntry.cluster (e : FAT32DirectoryEntry) : UInt32 :=
  joinCluster e.clusterHigh e.clusterLow

theorem joinCluster_toNat (high low : UInt16) :
    (joinCluster high low).toNat = high.toNat * 65536 + low.toNat := by
  have hlow := UInt16.toNat_lt low
  have hhigh := UInt16.toNat_lt high
  have hshift : (high.toUInt32 <<< 16).toNat = high.toNat <<< 16 := by
    simp [UInt32.toNat_shiftLeft, Nat.shiftLeft_eq]
    omega
  rw [joinCluster, UInt32.toNat_or, hshift, UInt16.toNat_toUInt32,
    ← Nat.shiftLeft_add_eq_or_of_lt hlow, Nat.shiftLeft_eq]

theorem and_ffff_toNat (n : UInt32) : (n &&& 0xFFFF).toNat = n.toNat % 65536 := by
  rw [UInt32.toNat_and]
  exact Nat.and_two_pow_sub_one_eq_mod _ 16

theorem shiftRight16_toNat (n : UInt32) : (n >>> 16).toNat = n.toNat / 65536 := by
  rw [UInt32.toNat_shiftRight]
  exact Nat.shiftRight_eq_div_pow _ 16

/-- The two halves `init_directory_table` stores name the cluster again. -/
theorem joinCluster_halves (c : UInt32) :
    joinCluster (c >>> 16).toUInt16 (c &&& 0xFFFF).toUInt16 = c := by
  have hc := UInt32.toNat_lt c
  apply UInt32.toNat_inj.mp
  rw [joinCluster_toNat, UInt32.toNat_toUInt16, UInt32.toNat_toUInt16, and_ffff_toNat,
    shiftRight16_toNat]
  omega

/-- The two halves `write` stores name the cluster again. -/
theorem joinCluster_masked_halves (c : UInt32) :
    joinCluster (c >>> 16 &&& 0xFFFF).toUInt16 (c &&& 0xFFFF).toUInt16 = c := by
  have hc := UInt32.toNat_lt c
  apply UInt32.toNat_inj.mp
  rw [joinCluster_toNat, UInt32.toNat_toUInt16, UInt32.toNat_toUInt16, and_ffff_toNat,
    and_ffff_toNat, shiftRight16_toNat]
  omega

/-- An entry with every byte zero. -/
def FAT32DirectoryEntry.zero : FAT32DirectoryEntry where
  name := fun _ => 0
  ext := fun _ => 0
  attr := 0
  userAttribute := 0
  undelete := 0
  createTime := 0
  createDate := 0
  accessDate := 0
  clusterHigh := 0
  modifiedTime := 0
  modifiedDate := 0
  clusterLow := 0
  filesize := 0

/-! ## Packed layout -/

/-- The seven `uint16_t` members, in the order of the packed structure. -/
def FAT32DirectoryEntry.halfword (e : FAT32DirectoryEntry) : ℕ → UInt16
  | 0 => e.createTime
  | 1 => e.createDate
  | 2 => e.accessDate
  | 3 => e.clusterHigh
  | 4 => e.modifiedTime
  | 5 => e.modifiedDate
  | _ => e.clusterLow

/-- Byte `r` of the 32 bytes of an entry. -/
def FAT32DirectoryEntry.byte (e : FAT32DirectoryEntry) (r : ℕ) : UInt8 :=
  if h : r < 8 then e.name ⟨r, h⟩
  else if h : r - 8 < 3 then e.ext ⟨r - 8, h⟩
  else if r = 11 then e.attr
  else if r = 12 then e.userAttribute
  else if r = 13 then e.undelete
  else if r < 28 then byteAt (e.halfword ((r - 14) / 2)).toNat ((r - 14) % 2)
  else byteAt e.filesize.toNat (r - 28)

/-- A little-endian `uint16_t` in memory. -/
def uint16At (m : Memory) (k : ℕ) : UInt16 := UInt16.ofNat (natOfBytes 2 (m.offset k))

/-- A little-endian `uint32_t` in memory. -/
def uint32At (m : Memory) (k : ℕ) : UInt32 := UInt32.ofNat (natOfBytes 4 (m.offset k))

/-- The entry whose bytes start at `m`. -/
def FAT32DirectoryEntry.ofBytes (m : Memory) : FAT32DirectoryEntry where
  name := fun j => m j
  ext := fun j => m (8 + j)
  attr := m 11
  userAttribute := m 12
  undelete := m 13
  createTime := uint16At m 14
  createDate := uint16At m 16
  accessDate := uint16At m 18
  clusterHigh := uint16At m 20
  modifiedTime := uint16At m 22
  modifiedDate := uint16At m 24
  clusterLow := uint16At m 26
  filesize := uint32At m 28

theorem uint16At_of_bytes {m : Memory} {k : ℕ} {v : UInt16}
    (h : ∀ i < 2, m (k + i) = byteAt v.toNat i) : uint16At m k = v := by
  have hv := UInt16.toNat_lt v
  apply UInt16.toNat_inj.mp
  have hbytes : natOfBytes 2 (m.offset k) = natOfBytes 2 (byteAt v.toNat) :=
    natOfBytes_congr h
  rw [uint16At, hbytes, natOfBytes_byteAt, UInt16.toNat_ofNat']
  omega

theorem uint32At_of_bytes {m : Memory} {k : ℕ} {v : UInt32}
    (h : ∀ i < 4, m (k + i) = byteAt v.toNat i) : uint32At m k = v := by
  have hv := UInt32.toNat_lt v
  apply UInt32.toNat_inj.mp
  have hbytes : natOfBytes 4 (m.offset k) = natOfBytes 4 (byteAt v.toNat) :=
    natOfBytes_congr h
  rw [uint32At, hbytes, natOfBytes_byteAt, UInt32.toNat_ofNat']
  omega

theorem byteAt_uint16At (m : Memory) (k : ℕ) {i : ℕ} (hi : i < 2) :
    byteAt (uint16At m k).toNat i = m (k + i) := by
  have hlt := natOfBytes_lt 2 (m.offset k)
  have hmod : natOfBytes 2 (m.offset k) % 2 ^ 16 = natOfBytes 2 (m.offset k) :=
    Nat.mod_eq_of_lt hlt
  rw [uint16At, UInt16.toNat_ofNat', hmod, byteAt_natOfBytes _ hi]
  rfl

theorem byteAt_uint32At (m : Memory) (k : ℕ) {i : ℕ} (hi : i < 4) :
    byteAt (uint32At m k).toNat i = m (k + i) := by
  have hlt := natOfBytes_lt 4 (m.offset k)
  have hmod : natOfBytes 4 (m.offset k) % 2 ^ 32 = natOfBytes 4 (m.offset k) :=
    Nat.mod_eq_of_lt hlt
  rw [uint32At, UInt32.toNat_ofNat', hmod, byteAt_natOfBytes _ hi]
  rfl

/-- The fields of two bytes sit at the even offsets from 14 to 26. -/
theorem ofBytes_byte (e : FAT32DirectoryEntry) :
    FAT32DirectoryEntry.ofBytes e.byte = e := by
  have hname : (fun j : Fin 8 => e.byte j) = e.name := by
    funext j
    exact dif_pos j.isLt
  have hext : (fun j : Fin 3 => e.byte (8 + j)) = e.ext := by
    funext j
    have hj := j.isLt
    have hsub : 8 + (j : ℕ) - 8 = j := by omega
    rw [FAT32DirectoryEntry.byte, dif_neg (by omega), dif_pos (by omega)]
    exact congrArg e.ext (Fin.ext hsub)
  have h16 : ∀ (k : ℕ) (v : UInt16), (∀ i < 2, e.byte (k + i) = byteAt v.toNat i) →
      uint16At e.byte k = v := fun _ _ => uint16At_of_bytes
  have hsize : uint32At e.byte 28 = e.filesize :=
    uint32At_of_bytes fun i hi => by interval_cases i <;> rfl
  have hct := h16 14 e.createTime fun i hi => by interval_cases i <;> rfl
  have hcd := h16 16 e.createDate fun i hi => by interval_cases i <;> rfl
  have had := h16 18 e.accessDate fun i hi => by interval_cases i <;> rfl
  have hch := h16 20 e.clusterHigh fun i hi => by interval_cases i <;> rfl
  have hmt := h16 22 e.modifiedTime fun i hi => by interval_cases i <;> rfl
  have hmd := h16 24 e.modifiedDate fun i hi => by interval_cases i <;> rfl
  have hcl := h16 26 e.clusterLow fun i hi => by interval_cases i <;> rfl
  simp only [FAT32DirectoryEntry.ofBytes, hname, hext, hct, hcd, had, hch, hmt, hmd, hcl,
    hsize]
  rfl

theorem halfword_ofBytes (m : Memory) {j : ℕ} (hj : j < 7) :
    (FAT32DirectoryEntry.ofBytes m).halfword j = uint16At m (14 + 2 * j) := by
  interval_cases j <;> rfl

theorem byte_ofBytes (m : Memory) {r : ℕ} (hr : r < 32) :
    (FAT32DirectoryEntry.ofBytes m).byte r = m r := by
  unfold FAT32DirectoryEntry.byte
  by_cases h8 : r < 8
  · rw [dif_pos h8]
    rfl
  by_cases h11 : r - 8 < 3
  · have hr11 : 8 + (r - 8) = r := by omega
    rw [dif_neg h8, dif_pos h11]
    exact congrArg m hr11
  rw [dif_neg h8, dif_neg h11]
  by_cases e11 : r = 11
  · rw [if_pos e11, e11]
    rfl
  by_cases e12 : r = 12
  · rw [if_neg e11, if_pos e12, e12]
    rfl
  by_cases e13 : r = 13
  · rw [if_neg e11, if_neg e12, if_pos e13, e13]
    rfl
  rw [if_neg e11, if_neg e12, if_neg e13]
  by_cases h28 : r < 28
  · rw [if_pos h28, halfword_ofBytes m (by omega), byteAt_uint16At m _ (by omega)]
    exact congrArg m (by omega)
  · rw [if_neg h28]
    exact (byteAt_uint32At m 28 (by omega)).trans (congrArg m (by omega))

/-! ## Tables and the file allocation table in memory -/

/-- The bytes of a directory table. -/
def tableToMemory (t : FAT32DirectoryTable) : Memory :=
  fun k => if h : k / 32 < directoryEntryCount then (t ⟨k / 32, h⟩).byte (k % 32) else 0

/-- The directory table whose bytes start at `m`. -/
def tableOfMemory (m : Memory) : FAT32DirectoryTable :=
  fun i => FAT32DirectoryEntry.ofBytes (m.offset (32 * i))

/-- The bytes of the file allocation table. -/
def fatToMemory (fat : FAT32FileAllocationTable) : Memory :=
  fun k => if h : k / 4 < clusterMapSize then byteAt (fat ⟨k / 4, h⟩).toNat (k % 4) else 0

/-- The file allocation table whose bytes start at `m`. -/
def fatOfMemory (m : Memory) : FAT32FileAllocationTable := fun i => uint32At m (4 * i)

theorem uint16At_congr {m m' : Memory} {k : ℕ} (h : ∀ i < 2, m (k + i) = m' (k + i)) :
    uint16At m k = uint16At m' k :=
  congrArg UInt16.ofNat (natOfBytes_congr h)

theorem uint32At_congr {m m' : Memory} {k : ℕ} (h : ∀ i < 4, m (k + i) = m' (k + i)) :
    uint32At m k = uint32At m' k :=
  congrArg UInt32.ofNat (natOfBytes_congr h)

/-- An entry depends on its 32 bytes only. -/
theorem ofBytes_congr {m m' : Memory} (h : ∀ r < 32, m r = m' r) :
    FAT32DirectoryEntry.ofBytes m = FAT32DirectoryEntry.ofBytes m' := by
  have hname : (fun j : Fin 8 => m j) = fun j : Fin 8 => m' j :=
    funext fun j => h j (by omega)
  have hext : (fun j : Fin 3 => m (8 + j)) = fun j : Fin 3 => m' (8 + j) :=
    funext fun j => h (8 + j) (by omega)
  have h16 : ∀ k, k + 2 ≤ 32 → uint16At m k = uint16At m' k :=
    fun k hk => uint16At_congr fun i hi => h (k + i) (by omega)
  have h32 : uint32At m 28 = uint32At m' 28 :=
    uint32At_congr fun i hi => h (28 + i) (by omega)
  rw [FAT32DirectoryEntry.ofBytes, FAT32DirectoryEntry.ofBytes, hname, hext,
    h 11 (by omega), h 12 (by omega), h 13 (by omega), h16 14 (by omega),
    h16 16 (by omega), h16 18 (by omega), h16 20 (by omega), h16 22 (by omega),
    h16 24 (by omega), h16 26 (by omega), h32]

/-- A table that is stored and read back is the same table. -/
theorem tableOfMemory_tableToMemory (t : FAT32DirectoryTable) :
    tableOfMemory (tableToMemory t) = t := by
  funext i
  have hi := i.isLt
  have hbyte : ∀ r < 32, (tableToMemory t).offset (32 * i) r = (t i).byte r := by
    intro r hr
    have hdiv : (32 * (i : ℕ) + r) / 32 = i := by omega
    have hmod : (32 * (i : ℕ) + r) % 32 = r := by omega
    simp only [Memory.offset, tableToMemory, hdiv, hmod, dif_pos hi, Fin.eta]
  exact (ofBytes_congr hbyte).trans (ofBytes_byte (t i))

/-- A table that is read and stored back leaves the same bytes. -/
theorem tableToMemory_tableOfMemory (m : Memory) {k : ℕ} (hk : k < clusterSize) :
    tableToMemory (tableOfMemory m) k = m k := by
  have hdiv : k / 32 < directoryEntryCount := by
    simp only [clusterSize, directoryEntryCount] at hk ⊢
    omega
  have hk32 : 32 * (k / 32) + k % 32 = k := by omega
  rw [tableToMemory, dif_pos hdiv]
  exact (byte_ofBytes _ (by omega)).trans (congrArg m hk32)

theorem fatOfMemory_fatToMemory (fat : FAT32FileAllocationTable) :
    fatOfMemory (fatToMemory fat) = fat := by
  funext i
  have hi := i.isLt
  refine uint32At_of_bytes ?_
  intro j hj
  have hdiv : (4 * (i : ℕ) + j) / 4 = i := by omega
  have hmod : (4 * (i : ℕ) + j) % 4 = j := by omega
  simp only [fatToMemory, hdiv, hmod, dif_pos hi, Fin.eta]

theorem fatToMemory_fatOfMemory (m : Memory) {k : ℕ} (hk : k < clusterSize) :
    fatToMemory (fatOfMemory m) k = m k := by
  have hdiv : k / 4 < clusterMapSize := by
    simp only [clusterSize, clusterMapSize] at hk ⊢
    omega
  have hk4 : 4 * (k / 4) + k % 4 = k := by omega
  rw [fatToMemory, dif_pos hdiv]
  exact (byteAt_uint32At m _ (by omega)).trans (congrArg m hk4)

/-! ## Structures on the disk

    A local structure that `read_clusters` fills has no byte of its prior contents left, so
    the memory it is read over does not matter. -/

/-- The directory table stored at a cluster. -/
def readTable (disk : Disk) (cluster : UInt32) : FAT32DirectoryTable :=
  tableOfMemory (readClusters disk (fun _ => 0) cluster 1)

/-- The file allocation table stored at a cluster. -/
def readFat (disk : Disk) (cluster : UInt32) : FAT32FileAllocationTable :=
  fatOfMemory (readClusters disk (fun _ => 0) cluster 1)

theorem readClusters_congr {disk disk' : Disk} {c : UInt32}
    (h : clusterAt disk c = clusterAt disk' c) (ptr : Memory) :
    readClusters disk ptr c 1 = readClusters disk' ptr c 1 := by
  funext k
  simp only [readClusters_one, h]

theorem readTable_congr {disk disk' : Disk} {c : UInt32}
    (h : clusterAt disk c = clusterAt disk' c) : readTable disk c = readTable disk' c :=
  congrArg tableOfMemory (readClusters_congr h _)

theorem readFat_congr {disk disk' : Disk} {c : UInt32}
    (h : clusterAt disk c = clusterAt disk' c) : readFat disk c = readFat disk' c :=
  congrArg fatOfMemory (readClusters_congr h _)

theorem readClusters_written (disk : Disk) (ptr m : Memory) (c : UInt32) {k : ℕ}
    (hk : k < clusterSize) : readClusters (writeClusters disk m c 1) ptr c 1 k = m k := by
  rw [readClusters_one, dif_pos hk, clusterAt_writeClusters_self]
  rfl

@[simp] theorem readTable_written (disk : Disk) (t : FAT32DirectoryTable) (c : UInt32) :
    readTable (writeClusters disk (tableToMemory t) c 1) c = t := by
  have hbytes : ∀ i : Fin directoryEntryCount, ∀ r < 32,
      (readClusters (writeClusters disk (tableToMemory t) c 1) (fun _ => 0) c 1).offset
        (32 * i) r = (tableToMemory t).offset (32 * i) r := by
    intro i r hr
    have hi := i.isLt
    exact readClusters_written _ _ _ _ (by
      simp only [clusterSize, directoryEntryCount] at hi ⊢
      omega)
  calc readTable (writeClusters disk (tableToMemory t) c 1) c
      = tableOfMemory (tableToMemory t) := funext fun i => ofBytes_congr (hbytes i)
    _ = t := tableOfMemory_tableToMemory t

@[simp] theorem readFat_written (disk : Disk) (fat : FAT32FileAllocationTable)
    (c : UInt32) : readFat (writeClusters disk (fatToMemory fat) c 1) c = fat := by
  have hbytes : ∀ i : Fin clusterMapSize, ∀ r < 4,
      readClusters (writeClusters disk (fatToMemory fat) c 1) (fun _ => 0) c 1 (4 * i + r)
        = fatToMemory fat (4 * i + r) := by
    intro i r hr
    have hi := i.isLt
    exact readClusters_written _ _ _ _ (by
      simp only [clusterSize, clusterMapSize] at hi ⊢
      omega)
  calc readFat (writeClusters disk (fatToMemory fat) c 1) c
      = fatOfMemory (fatToMemory fat) := funext fun i => uint32At_congr (hbytes i)
    _ = fat := fatOfMemory_fatToMemory fat

theorem readTable_writeClusters_ne (disk : Disk) (m : Memory) {c c' : UInt32}
    (h : drivePlace c' ≠ drivePlace c) :
    readTable (writeClusters disk m c 1) c' = readTable disk c' :=
  readTable_congr (clusterAt_writeClusters_ne disk m h)

theorem readFat_writeClusters_ne (disk : Disk) (m : Memory) {c c' : UInt32}
    (h : drivePlace c' ≠ drivePlace c) :
    readFat (writeClusters disk m c 1) c' = readFat disk c' :=
  readFat_congr (clusterAt_writeClusters_ne disk m h)

/-- Storing the table a cluster already holds changes no byte of the disk. -/
theorem writeClusters_readTable (disk : Disk) (c : UInt32) :
    writeClusters disk (tableToMemory (readTable disk c)) c 1 = disk := by
  refine writeClusters_of_eq ?_
  funext k
  have hk := k.isLt
  exact (tableToMemory_tableOfMemory _ hk).trans
    ((readClusters_one _ _ _ _).trans (dif_pos hk))

end OsyFat32
