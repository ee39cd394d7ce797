import Osyikkk.InsertionProofs

/-!
# The boot writes of `kernel_setup`

`kernel_setup` mounts the disk and then calls the driver itself: it makes the folders
`ikanaide` and `kano1` in the root, `kano2` in cluster 0xF, the file `daijoubu.uwu` in
cluster 0x10, and reads the shell. A boot is therefore a run of driver calls on the mounted
disk, and only the disk is left of it at the next one.
-/

namespace OsyBoot

open OsyDisk OsyFat32 OsyVolume OsyInserter

/-- A name of eight bytes, padded with zeros. -/
def nameOf (text : List UInt8) : EntryName := fun j => text.getD j 0

/-- `cbuf`: the clusters hold `a` to `e`. -/
def cbuf : Memory := fun k => 97 + UInt8.ofNat (k / clusterSize)

/-- `request` as `"ikanaide"` in the root. -/
def ikanaideRequest : FAT32DriverRequest where
  buf := cbuf
  name := nameOf [105, 107, 97, 110, 97, 105, 100, 101]
  ext := fun _ => 0
  parentClusterNumber := rootClusterNumber
  bufferSize := 0

/-- `request` after its name became `"kano1"`. -/
def kano1Request : FAT32DriverRequest :=
  { ikanaideRequest with name := nameOf [107, 97, 110, 111, 49] }

/-- `request_kano2`. -/
def kano2Request : FAT32DriverRequest where
  buf := cbuf
  name := nameOf [107, 97, 110, 111, 50]
  ext := fun _ => 0
  parentClusterNumber := 0xF
  bufferSize := 0

/-- `request` as `"daijoubu.uwu"` of five clusters in cluster 0x10. -/
def daijoubuRequest : FAT32DriverRequest :=
  { kano1Request with
    name := nameOf [100, 97, 105, 106, 111, 117, 98, 117]
    ext := fun j => [117, 119, 117].getD j 0
    parentClusterNumber := 0x10
    bufferSize := 5 * 2048 }

def shellName : EntryName := nameOf [115, 104, 101, 108, 108]

/-- `request_shell`; `buf` is the user memory at address 0. -/
def shellRequest (buf : Memory) : FAT32DriverRequest where
  buf := buf
  name := shellName
  ext := fun _ => 0
  parentClusterNumber := rootClusterNumber
  bufferSize := 0x100000

/-- What a boot finds in memory: the uninitialised tables of the three folders, which mark no
    slot from 1 on as used, and the user memory. -/
structure BootMemory where
  ikanaide : FAT32DirectoryTable
  kano1 : FAT32DirectoryTable
  kano2 : FAT32DirectoryTable
  user : Memory
  ikanaide_unused : ∀ i, i ≠ 0 → ¬ (ikanaide i).used
  kano1_unused : ∀ i, i ≠ 0 → ¬ (kano1 i).used
  kano2_unused : ∀ i, i ≠ 0 → ¬ (kano2 i).used

/-- The driver calls of `kernel_setup` behind `initialize_filesystem_fat32`. -/
def bootCalls (m : BootMemory) : List Call :=
  [.read ikanaideRequest, .write m.ikanaide ikanaideRequest, .write m.kano1 kano1Request,
    .write m.kano2 kano2Request, .write zeroTable daijoubuRequest,
    .read (shellRequest m.user)]

/-- `kernel_setup`: the disk after the boot. -/
def kernelSetup (disk : Disk) (m : BootMemory) : Option Disk :=
  (runCalls (mountImage disk) (bootCalls m)).map fun fs => fs.disk

end OsyBoot
