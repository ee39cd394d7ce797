import Mathlib.Data.UInt
import Mathlib.Tactic.Ring
import Mathlib.Logic.Function.Basic

/-!
# Memory, blocks and clusters

The disk as `disk.c` drives it: a block is addressed by the low 28 bits of its LBA
(`0xE0 | ((lba >> 24) & 0xF)` and three bytes more), a command transfers consecutive blocks,
and a transfer moves bytes in order. `fat32.c` sits on it with clusters of four blocks.

A memory region is a function from the byte offset behind its pointer, so a `void *` of the
source is a `Memory` and pointer arithmetic is a shift of the offset.
-/

namespace OsyDisk

abbrev blockSize : ℕ := 512
abbrev clusterBlockCount : UInt8 := 4
abbrev clusterSize : ℕ := 2048

/-- The bytes behind a pointer. -/
abbrev Memory := ℕ → UInt8

/-- The bytes of the disk, by byte address. -/
abbrev Disk := ℕ → UInt8

/-- `struct ClusterBuffer`. -/
abbrev ClusterBuffer := Fin clusterSize → UInt8

/-- The memory behind `ptr + n`. -/
def Memory.offset (ptr : Memory) (n : ℕ) : Memory := fun k => ptr (n + k)

/-- The block address that reaches the drive: 28 bits of the LBA. -/
def driveLba (lba : UInt32) : ℕ := lba.toNat % 2 ^ 28

/-- `read_blocks`: the memory behind `ptr` after the transfer. -/
def readBlocks (disk : Disk) (ptr : Memory) (lba : UInt32) (blockCount : UInt8) : Memory :=
  fun k =>
    if k < blockSize * blockCount.toNat then disk (blockSize * driveLba lba + k) else ptr k

/-- `write_blocks`: the disk after the transfer. -/
def writeBlocks (disk : Disk) (ptr : Memory) (lba : UInt32) (blockCount : UInt8) : Disk :=
  fun a =>
    if blockSize * driveLba lba ≤ a ∧
        a < blockSize * driveLba lba + blockSize * blockCount.toNat then
      ptr (a - blockSize * driveLba lba)
    else disk a

/-- `cluster_to_lba`. -/
def clusterToLba (cluster : UInt32) : UInt32 := cluster * 4

/-- `write_clusters`; the block count is an 8-bit parameter. -/
def writeClusters (disk : Disk) (ptr : Memory) (cluster : UInt32) (clusterCount : UInt8) :
    Disk :=
  writeBlocks disk ptr (clusterToLba cluster) (clusterCount * clusterBlockCount)

/-- `read_clusters`. -/
def readClusters (disk : Disk) (ptr : Memory) (cluster : UInt32) (clusterCount : UInt8) :
    Memory :=
  readBlocks disk ptr (clusterToLba cluster) (clusterCount * clusterBlockCount)

/-! ## Clusters as the drive sees them -/

/-- The place of a cluster on the drive: the LBA `4 * cluster` keeps 28 bits. -/
def drivePlace (cluster : UInt32) : ℕ := cluster.toNat % 2 ^ 26

/-- The bytes stored for a cluster. -/
def clusterAt (disk : Disk) (cluster : UInt32) : ClusterBuffer :=
  fun k => disk (clusterSize * drivePlace cluster + k)

/-- A cluster-sized object read from memory. -/
def Memory.toCluster (ptr : Memory) : ClusterBuffer := fun k => ptr k

theorem driveLba_clusterToLba (cluster : UInt32) :
    driveLba (clusterToLba cluster) = 4 * drivePlace cluster := by
  have h : (clusterToLba cluster).toNat = cluster.toNat * 4 % 2 ^ 32 := by
    simp [clusterToLba, UInt32.toNat_mul]
  unfold driveLba drivePlace
  rw [h]
  omega

theorem drivePlace_of_lt {cluster : UInt32} (h : cluster.toNat < 512) :
    drivePlace cluster = cluster.toNat := by
  unfold drivePlace
  omega

/-- Clusters inside the file allocation table have places of their own. -/
theorem drivePlace_ne {c c' : UInt32} (h : c.toNat < 512) (h' : c'.toNat < 512)
    (hne : c ≠ c') : drivePlace c ≠ drivePlace c' := by
  rw [drivePlace_of_lt h, drivePlace_of_lt h']
  exact fun heq => hne (UInt32.toNat_inj.mp heq)

theorem readClusters_one (disk : Disk) (ptr : Memory) (cluster : UInt32) (k : ℕ) :
    readClusters disk ptr cluster 1 k
      = if h : k < clusterSize then clusterAt disk cluster ⟨k, h⟩ else ptr k := by
  have hcount : ((1 : UInt8) * clusterBlockCount).toNat = 4 := rfl
  have haddr : blockSize * (4 * drivePlace cluster) = clusterSize * drivePlace cluster := by
    simp only [blockSize, clusterSize]
    ring
  simp only [readClusters, readBlocks, driveLba_clusterToLba, hcount, haddr, clusterAt]
  by_cases h : k < clusterSize
  · rw [if_pos (by simpa [blockSize, clusterSize] using h), dif_pos h]
  · rw [if_neg (by simpa [blockSize, clusterSize] using h), dif_neg h]

theorem writeClusters_one (disk : Disk) (ptr : Memory) (cluster : UInt32) (a : ℕ) :
    writeClusters disk ptr cluster 1 a
      = if a / clusterSize = drivePlace cluster then ptr (a % clusterSize) else disk a := by
  have hcount : ((1 : UInt8) * clusterBlockCount).toNat = 4 := rfl
  simp only [writeClusters, writeBlocks, driveLba_clusterToLba, hcount, blockSize,
    clusterSize]
  by_cases h : a / 2048 = drivePlace cluster
  · have hoff : a - 512 * (4 * drivePlace cluster) = a % 2048 := by omega
    rw [if_pos h, if_pos (by omega), hoff]
  · rw [if_neg h, if_neg (by omega)]

/-- Writing a cluster changes this cluster of the drive only. -/
theorem clusterAt_writeClusters (disk : Disk) (ptr : Memory) (c c' : UInt32) :
    clusterAt (writeClusters disk ptr c 1) c'
      = if drivePlace c' = drivePlace c then ptr.toCluster else clusterAt disk c' := by
  funext k
  have hk := k.isLt
  have hdiv : (clusterSize * drivePlace c' + (k : ℕ)) / clusterSize = drivePlace c' := by
    simp only [clusterSize] at hk ⊢
    omega
  have hmod : (clusterSize * drivePlace c' + (k : ℕ)) % clusterSize = k := by
    simp only [clusterSize] at hk ⊢
    omega
  simp only [clusterAt, writeClusters_one, hdiv, hmod]
  split <;> rfl

theorem clusterAt_writeClusters_self (disk : Disk) (ptr : Memory) (c : UInt32) :
    clusterAt (writeClusters disk ptr c 1) c = ptr.toCluster := by
  rw [clusterAt_writeClusters, if_pos rfl]

theorem clusterAt_writeClusters_ne (disk : Disk) (ptr : Memory) {c c' : UInt32}
    (h : drivePlace c' ≠ drivePlace c) :
    clusterAt (writeClusters disk ptr c 1) c' = clusterAt disk c' := by
  rw [clusterAt_writeClusters, if_neg h]

/-- Writing back what a cluster holds leaves the disk as it is. -/
theorem writeClusters_of_eq {disk : Disk} {ptr : Memory} {c : UInt32}
    (h : ptr.toCluster = clusterAt disk c) : writeClusters disk ptr c 1 = disk := by
  funext a
  rw [writeClusters_one]
  split
  · next hplace =>
      have hbyte := congrFun h ⟨a % clusterSize, Nat.mod_lt _ (by decide)⟩
      simp only [Memory.toCluster, clusterAt, ← hplace, Nat.div_add_mod] at hbyte
      exact hbyte
  · rfl

end OsyDisk
