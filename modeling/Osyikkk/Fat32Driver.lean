import Osyikkk.Fat32Types
import Mathlib.Data.List.FinRange
import Mathlib.Data.Fintype.Pi

/-!
# The driver of `fat32.c`

The functions of the file system driver, over its static state and the disk. A function
whose C body can leave `cluster_map` (or `empty_fat_clusters`) or loop for ever returns
`Option`: `none` is such a call, which has no defined outcome.

The chain walks are given `clusterMapSize + 1` rounds. A walk over 512 cells that has not
met `FAT32_FAT_END_OF_FILE` by then has met a cell twice and never ends
(`countLoop_eq_none_iff`).

`write` has an array with an element for every cluster of the request. It may be of any length
in `writeFile`, and `writeOnStack` is the call on a stack with a bounded room for it.

`struct FAT32DirectoryTable new_table` of `write` is not initialised by the source, so its
prior contents is a parameter of the model.
-/

namespace OsyFat32

open OsyDisk

/-- `struct FAT32DriverState`. -/
structure FAT32DriverState where
  fatTable : FAT32FileAllocationTable
  dirTableBuf : FAT32DirectoryTable

/-- The driver state together with the disk it drives. -/
structure FileSystem where
  driverState : FAT32DriverState
  disk : Disk

/-- `struct FAT32DriverRequest`; `buf` is the memory its pointer leads to. -/
structure FAT32DriverRequest where
  buf : Memory
  name : EntryName
  ext : EntryExt
  parentClusterNumber : UInt32
  bufferSize : UInt32

/-- The in-memory file allocation table. -/
abbrev FileSystem.fat (fs : FileSystem) : FAT32FileAllocationTable :=
  fs.driverState.fatTable

/-- The table stored at a cluster. -/
abbrev FileSystem.table (fs : FileSystem) (cluster : UInt32) : FAT32DirectoryTable :=
  readTable fs.disk cluster

/-- The state after `fat_table` and the disk were changed. -/
def FileSystem.store (fs : FileSystem) (fat : FAT32FileAllocationTable) (disk : Disk) :
    FileSystem where
  driverState := { fs.driverState with fatTable := fat }
  disk := disk

@[simp] theorem store_fat (fs : FileSystem) (fat : FAT32FileAllocationTable) (disk : Disk) :
    (fs.store fat disk).fat = fat := rfl

@[simp] theorem store_disk (fs : FileSystem) (fat : FAT32FileAllocationTable)
    (disk : Disk) : (fs.store fat disk).disk = disk := rfl

/-- The tables are on the disk. -/
theorem table_congr {fs fs' : FileSystem} (h : fs'.disk = fs.disk) : fs'.table = fs.table :=
  congrArg readTable h

/-! ## Array accesses -/

/-- `cluster_map[cluster]`. -/
def clusterMapGet (fat : FAT32FileAllocationTable) (cluster : UInt32) : Option UInt32 :=
  if h : cluster.toNat < clusterMapSize then some (fat ⟨cluster.toNat, h⟩) else none

/-- `cluster_map[cluster] = value`. -/
def clusterMapSet (fat : FAT32FileAllocationTable) (cluster value : UInt32) :
    Option FAT32FileAllocationTable :=
  if h : cluster.toNat < clusterMapSize then
    some (Function.update fat ⟨cluster.toNat, h⟩ value)
  else none

/-- `memcmp` over two regions of the same length. -/
def memcmp : List UInt8 → List UInt8 → ℤ
  | a :: s1, b :: s2 => if a < b then -1 else if a > b then 1 else memcmp s1 s2
  | _, _ => 0

/-- The name compares equal to `"\0\0\0\0\0\0\0\0"`. -/
def FAT32DriverRequest.emptyName (request : FAT32DriverRequest) : Prop :=
  memcmp (List.ofFn request.name) (List.replicate 8 0) = 0

/-- `memcmp(request.name, e.name, 8) == 0`. -/
def FAT32DriverRequest.sameName (request : FAT32DriverRequest) (e : FAT32DirectoryEntry) :
    Prop :=
  memcmp (List.ofFn request.name) (List.ofFn e.name) = 0

/-- `memcmp(request.ext, e.ext, 3) == 0`. -/
def FAT32DriverRequest.sameExt (request : FAT32DriverRequest) (e : FAT32DirectoryEntry) :
    Prop :=
  memcmp (List.ofFn request.ext) (List.ofFn e.ext) = 0

instance (request : FAT32DriverRequest) : Decidable request.emptyName :=
  inferInstanceAs (Decidable (_ = _))

instance (request : FAT32DriverRequest) (e : FAT32DirectoryEntry) :
    Decidable (request.sameName e) :=
  inferInstanceAs (Decidable (_ = _))

instance (request : FAT32DriverRequest) (e : FAT32DirectoryEntry) :
    Decidable (request.sameExt e) :=
  inferInstanceAs (Decidable (_ = _))

/-- The slots `for (i = start; i < 64; i++)` visits. -/
def slotsFrom (start : ℕ) : List (Fin directoryEntryCount) := (List.finRange _).drop start

/-- The lookup of `read` and `delete`: the first of the slots `1..63` with the name and the
    extension of the request. -/
def firstMatch (request : FAT32DriverRequest) (parentTable : FAT32DirectoryTable) :
    Option (Fin directoryEntryCount) :=
  (slotsFrom 1).find? fun i =>
    request.sameName (parentTable i) ∧ request.sameExt (parentTable i)

/-- The lookup of `read_directory`: the first of all slots with the name of the request and
    the directory attribute. -/
def firstDirectory (request : FAT32DriverRequest) (parentTable : FAT32DirectoryTable) :
    Option (Fin directoryEntryCount) :=
  (slotsFrom 0).find? fun i =>
    request.sameName (parentTable i) ∧ (parentTable i).attr = attrSubdirectory

/-! ## Creating and mounting -/

/-- `init_directory_table`. -/
def initDirectoryTable (dirTable : FAT32DirectoryTable) (name : EntryName)
    (parentDirCluster : UInt32) : FAT32DirectoryTable :=
  Function.update dirTable 0
    { name := name
      ext := fun _ => 0
      attr := attrSubdirectory
      userAttribute := uattrNotEmpty
      undelete := 0
      createTime := 0
      createDate := 0
      accessDate := 0
      clusterHigh := (parentDirCluster >>> 16).toUInt16
      modifiedTime := 0
      modifiedDate := 0
      clusterLow := (parentDirCluster &&& 0xFFFF).toUInt16
      filesize := 0 }

/-- The five lines of text `fs_signature` starts with. -/
def fsSignatureText : List UInt8 :=
  [ 67, 111, 117, 114, 115, 101,  32,  32,  32,  32,  32,  32,  32,  32,  32,  32,
    68, 101, 115, 105, 103, 110, 101, 100,  32,  98, 121,  32,  32,  32,  32,  32,
    76,  97,  98,  32,  83, 105, 115, 116, 101, 114,  32,  73,  84,  66,  32,  32,
    77,  97, 100, 101,  32, 119, 105, 116, 104,  32,  60,  51,  32,  32,  32,  32,
    45,  45,  45,  45,  45,  45,  45,  45,  45,  45,  45,  50,  48,  50,  51,  10]

/-- `fs_signature`: the text, zeros, and `Ok` in the last two bytes of the block. -/
def fsSignature : Memory := fun k =>
  if k = blockSize - 2 then 79
  else if k = blockSize - 1 then 107
  else fsSignatureText.getD k 0

/-- `is_empty_storage`. -/
def isEmptyStorage (disk : Disk) : Prop :=
  memcmp ((List.range blockSize).map (readBlocks disk (fun _ => 0) bootSector 1))
    ((List.range blockSize).map fsSignature) ≠ 0

instance (disk : Disk) : Decidable (isEmptyStorage disk) :=
  inferInstanceAs (Decidable (_ ≠ _))

/-- `"ROOT\0\0\0\0"`. -/
def rootName : EntryName := fun j => [82, 79, 79, 84].getD j 0

/-- `create_fat32`. -/
def createFat32 (fs : FileSystem) : FileSystem :=
  let disk := writeBlocks fs.disk fsSignature bootSector 1
  let fat := Function.update fs.fat 0 cluster0Value
  let fat := Function.update fat 1 cluster1Value
  let fat := Function.update fat 2 fat32FatEndOfFile
  let disk := writeClusters disk (fatToMemory fat) fatClusterNumber 1
  let dirTableBuf := initDirectoryTable fs.driverState.dirTableBuf rootName rootClusterNumber
  let disk := writeClusters disk (tableToMemory dirTableBuf) rootClusterNumber 1
  { driverState := { fatTable := fat, dirTableBuf := dirTableBuf }, disk := disk }

/-- `initialize_filesystem_fat32`. -/
def initializeFilesystemFat32 (fs : FileSystem) : FileSystem :=
  if isEmptyStorage fs.disk then createFat32 fs
  else
    { fs with
      driverState :=
        { fatTable := readFat fs.disk fatClusterNumber
          dirTableBuf := readTable fs.disk rootClusterNumber } }

/-! ## Reading -/

/-- `read_directory`: the return code and the memory behind `request.buf`. -/
def readDirectory (request : FAT32DriverRequest) (fs : FileSystem) : Int8 × Memory :=
  if request.emptyName then (-1, request.buf)
  else if request.bufferSize ≠ 0 then (1, request.buf)
  else
    let parentTable := fs.table request.parentClusterNumber
    match firstDirectory request parentTable with
    | some i =>
        let currDir := tableToMemory (fs.table (parentTable i).cluster)
        (0, fun k => if k < clusterSize then currDir k else request.buf k)
    | none => (2, request.buf)

/-- The counting walk of `read`: `count++` until `FAT32_FAT_END_OF_FILE`. -/
def countLoop (fat : FAT32FileAllocationTable) : ℕ → UInt32 → UInt32 → Option UInt32
  | 0, _, _ => none
  | n + 1, clusterNumber, count =>
      if clusterNumber = fat32FatEndOfFile then some count
      else (clusterMapGet fat clusterNumber).bind fun next => countLoop fat n next (count + 1)

/-- `read_clusters((struct ClusterBuffer*) buf + j, cluster, 1)`. -/
def readClusterInto (disk : Disk) (buf : Memory) (j : ℕ) (cluster : UInt32) : Memory :=
  fun k =>
    if k < clusterSize * j then buf k
    else readClusters disk (buf.offset (clusterSize * j)) cluster 1 (k - clusterSize * j)

/-- The copying walk of `read`. -/
def copyLoop (fat : FAT32FileAllocationTable) (disk : Disk) :
    ℕ → UInt32 → ℕ → Memory → Option Memory
  | 0, _, _, _ => none
  | n + 1, clusterNumber, j, buf =>
      if clusterNumber = fat32FatEndOfFile then some buf
      else
        (clusterMapGet fat clusterNumber).bind fun next =>
          copyLoop fat disk n next (j + 1) (readClusterInto disk buf j clusterNumber)

/-- `read`: the return code and the memory behind `request.buf`. -/
def read (request : FAT32DriverRequest) (fs : FileSystem) : Option (Int8 × Memory) :=
  if request.emptyName then some (-1, request.buf)
  else if request.bufferSize = 0 then some (1, request.buf)
  else
    let parentTable := fs.table request.parentClusterNumber
    match firstMatch request parentTable with
    | some i =>
        let bufferCount := request.bufferSize / 2048
        let clusterNumber := (parentTable i).cluster
        (countLoop fs.fat (clusterMapSize + 1) clusterNumber 0).bind fun count =>
          if count > bufferCount then some (2, request.buf)
          else
            (copyLoop fs.fat fs.disk (clusterMapSize + 1) clusterNumber 0 request.buf).map
              fun buf => (0, buf)
    | none => some (3, request.buf)

/-! ## Writing -/

/-- The slot search of `write`; without an unused slot `idx_empty` keeps its value 0. -/
def idxEmpty (parentTable : FAT32DirectoryTable) : Fin directoryEntryCount :=
  ((slotsFrom 0).find? fun i => (parentTable i).userAttribute ≠ uattrNotEmpty).getD 0

/-- The members `write` sets in the parent's slot before it looks for clusters. -/
def fillEntry (old : FAT32DirectoryEntry) (request : FAT32DriverRequest) :
    FAT32DirectoryEntry :=
  { old with
    name := request.name
    attr := if request.bufferSize = 0 then attrSubdirectory else attrArchive
    userAttribute := uattrNotEmpty
    undelete := 0
    createTime := 0
    createDate := 0
    accessDate := 0
    modifiedTime := 0
    modifiedDate := 0
    filesize := request.bufferSize }

/-- `cluster_high` and `cluster_low` of a slot. -/
def setCluster (e : FAT32DirectoryEntry) (cluster : UInt32) : FAT32DirectoryEntry :=
  { e with
    clusterHigh := (cluster >>> 16 &&& 0xFFFF).toUInt16
    clusterLow := (cluster &&& 0xFFFF).toUInt16 }

/-- The last two statements of `write` and `delete`: the file allocation table and then the
    parent table go to the disk. -/
def flush (fs : FileSystem) (fat : FAT32FileAllocationTable) (disk : Disk)
    (parent : UInt32) (parentTable : FAT32DirectoryTable) : FileSystem :=
  let disk := writeClusters disk (fatToMemory fat) fatClusterNumber 1
  let disk := writeClusters disk (tableToMemory parentTable) parent 1
  fs.store fat disk

/-- The cell search of the directory branch: the table after it and the final `i`. Its
    first argument counts the cells left. -/
def claimLoop (fat : FAT32FileAllocationTable) : ℕ → ℕ → FAT32FileAllocationTable × ℕ
  | 0, i => (fat, i)
  | n + 1, i =>
      if h : i < clusterMapSize then
        if fat ⟨i, h⟩ = fat32FatEmptyEntry then
          -- the loop ends with `i` one behind the cell it claimed
          (Function.update fat ⟨i, h⟩ fat32FatEndOfFile, i + 1)
        else claimLoop fat n (i + 1)
      else (fat, i)

/-- The directory branch of `write`. `i == CLUSTER_MAP_SIZE` is taken for a full table. -/
def writeDirectory (newTable : FAT32DirectoryTable) (request : FAT32DriverRequest)
    (fs : FileSystem) : Int8 × FileSystem :=
  let parentTable := fs.table request.parentClusterNumber
  let idx := idxEmpty parentTable
  let (fat, i) := claimLoop fs.fat (clusterMapSize - 2) 2
  -- a claim of cell 511 ends here as well, and the cell stays taken in memory
  if i = clusterMapSize then (1, fs.store fat fs.disk)
  else
    let cluster := UInt32.ofNat (i - 1)
    let newTable := initDirectoryTable newTable request.name cluster
    let disk := writeClusters fs.disk (tableToMemory newTable) cluster 1
    let entry := setCluster (fillEntry (parentTable idx) request) cluster
    (0, flush fs fat disk request.parentClusterNumber (Function.update parentTable idx entry))

/-- The cell search of the file branch: `empty_fat_clusters`, of at most `need` cells. -/
def scanLoop (fat : FAT32FileAllocationTable) : ℕ → ℕ → ℕ → List UInt32
  | 0, _, _ => []
  | _ + 1, _, 0 => []
  | n + 1, j, need + 1 =>
      if h : j < clusterMapSize then
        if fat ⟨j, h⟩ = fat32FatEmptyEntry then
          UInt32.ofNat j :: scanLoop fat n (j + 1) need
        else scanLoop fat n (j + 1) (need + 1)
      else []

/-- The linking loop of the file branch, from index `i` on. -/
def linkLoop (emptyFatClusters : List UInt32) :
    ℕ → ℕ → FAT32FileAllocationTable → Option FAT32FileAllocationTable
  | 0, _, fat => some fat
  | n + 1, i, fat => do
      let cluster ← emptyFatClusters[i]?
      let next ← emptyFatClusters[i + 1]?
      let fat ← clusterMapSet fat cluster next
      linkLoop emptyFatClusters n (i + 1) fat

/-- The loop that stores the contents, cluster `i` of the buffer in the `i`-th cell. -/
def dataLoop (buf : Memory) : ℕ → List UInt32 → Disk → Disk
  | _, [], disk => disk
  | i, cluster :: rest, disk =>
      dataLoop buf (i + 1) rest (writeClusters disk (buf.offset (clusterSize * i)) cluster 1)

/-- The file branch of `write`. The bound of the linking loop and the index of the last
    cell are computed in `uint32_t`. -/
def writeFile (request : FAT32DriverRequest) (fs : FileSystem) : Option (Int8 × FileSystem) :=
  let parentTable := fs.table request.parentClusterNumber
  let idx := idxEmpty parentTable
  let clusterCount := request.bufferSize / 2048
  let emptyFatClusters := scanLoop fs.fat (clusterMapSize - 2) 2 clusterCount.toNat
  if emptyFatClusters.length < clusterCount.toNat then some (1, fs)
  else do
    -- below one cluster the bound wraps to `2 ^ 32 - 1` and the loop leaves the array
    let fat ← linkLoop emptyFatClusters (clusterCount - 1).toNat 0 fs.fat
    let last ← emptyFatClusters[(clusterCount - 1).toNat]?
    let fat ← clusterMapSet fat last fat32FatEndOfFile
    let first ← emptyFatClusters[0]?
    let entry := setCluster { fillEntry (parentTable idx) request with ext := request.ext } first
    let disk := dataLoop request.buf 0 emptyFatClusters fs.disk
    some (0, flush fs fat disk request.parentClusterNumber
      (Function.update parentTable idx entry))

/-- `write`. -/
def write (newTable : FAT32DirectoryTable) (request : FAT32DriverRequest)
    (fs : FileSystem) : Option (Int8 × FileSystem) :=
  if request.emptyName then some (-1, fs)
  else if request.parentClusterNumber < 2 then some (2, fs)
  else if request.bufferSize = 0 then some (writeDirectory newTable request fs)
  else writeFile request fs

/-- `KERNEL_STACK_SIZE` of `kernel_loader.s`. -/
def kernelStackSize : ℕ := 2097152

/-- `write`, when `room` bytes of the kernel stack are left where the file branch puts
    `empty_fat_clusters` on it. An array that is longer leaves the stack before the first cell
    is looked at. -/
def writeOnStack (room : ℕ) (newTable : FAT32DirectoryTable) (request : FAT32DriverRequest)
    (fs : FileSystem) : Option (Int8 × FileSystem) :=
  if request.emptyName then some (-1, fs)
  else if request.parentClusterNumber < 2 then some (2, fs)
  else if request.bufferSize = 0 then some (writeDirectory newTable request fs)
  else if room < 4 * (request.bufferSize / 2048).toNat then none
  else writeFile request fs

/-! ## Deleting -/

/-- The `do … while` of the file branch of `delete`: the tables after it and the cell it
    stopped at. -/
def deleteLoop : ℕ → FAT32FileAllocationTable → Disk → UInt32 →
    Option (FAT32FileAllocationTable × Disk × UInt32)
  | 0, _, _, _ => none
  | n + 1, fat, disk, clusterNumber => do
      let disk := writeClusters disk (fun _ => 0) clusterNumber 1
      let next ← clusterMapGet fat clusterNumber
      let fat ← clusterMapSet fat clusterNumber fat32FatEmptyEntry
      -- the test looks one cell ahead: a chain of one cell leads it out of the map
      let behind ← clusterMapGet fat next
      if behind ≠ fat32FatEndOfFile then deleteLoop n fat disk next
      else some (fat, disk, next)

/-- The directory branch of `delete`, for the match in slot `i`. -/
def deleteDirectory (request : FAT32DriverRequest) (fs : FileSystem)
    (i : Fin directoryEntryCount) : Option (Int8 × FileSystem) :=
  let parentTable := fs.table request.parentClusterNumber
  let clusterNumber := (parentTable i).cluster
  let currTable := fs.table clusterNumber
  if ∃ j ∈ slotsFrom 1, (currTable j).userAttribute = uattrNotEmpty then some (2, fs)
  else do
    let disk := writeClusters fs.disk (fun _ => 0) clusterNumber 1
    let fat ← clusterMapSet fs.fat clusterNumber fat32FatEmptyEntry
    some (0, flush fs fat disk request.parentClusterNumber
      (Function.update parentTable i FAT32DirectoryEntry.zero))

/-- The file branch of `delete`, for the match in slot `i`. -/
def deleteFile (request : FAT32DriverRequest) (fs : FileSystem)
    (i : Fin directoryEntryCount) : Option (Int8 × FileSystem) := do
  let parentTable := fs.table request.parentClusterNumber
  let (fat, disk, last) ←
    deleteLoop (2 * clusterMapSize) fs.fat fs.disk (parentTable i).cluster
  let fat ← clusterMapSet fat last fat32FatEmptyEntry
  let disk := writeClusters disk (fun _ => 0) last 1
  some (0, flush fs fat disk request.parentClusterNumber
    (Function.update parentTable i FAT32DirectoryEntry.zero))

/-- `delete`. A match of any other attribute loses its slot and returns the initial -1. -/
def delete (request : FAT32DriverRequest) (fs : FileSystem) : Option (Int8 × FileSystem) :=
  if request.emptyName then some (-1, fs)
  else
    let parentTable := fs.table request.parentClusterNumber
    match firstMatch request parentTable with
    | some i =>
        if (parentTable i).attr = attrSubdirectory then deleteDirectory request fs i
        else if (parentTable i).attr = attrArchive then deleteFile request fs i
        else
          some (-1, flush fs fs.fat fs.disk request.parentClusterNumber
            (Function.update parentTable i FAT32DirectoryEntry.zero))
    | none => some (-1, fs)

end OsyFat32
