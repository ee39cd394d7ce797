import Osyikkk.RebootProofs

/-!
# The inserter

`main` of `external-inserter.c`, which stores a file of the host in a disk image. It runs
the driver of `fat32.c` over an image in memory: `read_blocks` and `write_blocks` are its
own, and agree with the drive's for every block of the image (`imageRead_eq`,
`imageWrite_eq`). What `malloc` left in `file_buffer`, and the uninitialised table of
`write`, are parameters.
-/

namespace OsyInserter

open OsyDisk OsyFat32 OsyVolume

/-! ## The image in memory -/

/-- The byte of `image_storage` that the block loops address: `BLOCK_SIZE*(lba+i)` is
    computed in `uint32_t`. -/
def imageAddress (lba : UInt32) (k : ℕ) : ℕ :=
  (512 * (lba + UInt32.ofNat (k / blockSize))).toNat + k % blockSize

/-- `read_blocks` of the inserter: the memory behind `ptr` after the copies. -/
def imageRead (image : Disk) (ptr : Memory) (lba : UInt32) (blockCount : UInt8) : Memory :=
  fun k => if k < blockSize * blockCount.toNat then image (imageAddress lba k) else ptr k

/-- `write_blocks` of the inserter, a block at a time: the image after `n` copies. -/
def imageWriteLoop (image : Disk) (ptr : Memory) (lba : UInt32) : ℕ → Disk
  | 0 => image
  | n + 1 => fun a =>
      if imageAddress lba (blockSize * n) ≤ a ∧
          a < imageAddress lba (blockSize * n) + blockSize then
        ptr (blockSize * n + (a - imageAddress lba (blockSize * n)))
      else imageWriteLoop image ptr lba n a

/-- `write_blocks` of the inserter. -/
def imageWrite (image : Disk) (ptr : Memory) (lba : UInt32) (blockCount : UInt8) : Disk :=
  imageWriteLoop image ptr lba blockCount.toNat

/-- Blocks of the first 4 GiB are where the drive has them. -/
theorem imageAddress_eq {lba : UInt32} {k : ℕ} (h : lba.toNat + k / blockSize < 2 ^ 23) :
    imageAddress lba k = blockSize * driveLba lba + k := by
  have hsum : (512 * (lba + UInt32.ofNat (k / blockSize))).toNat
      = blockSize * (lba.toNat + k / blockSize) := by
    simp only [blockSize] at h ⊢
    simp only [UInt32.toNat_mul, UInt32.toNat_add, UInt32.toNat_ofNat, UInt32.toNat_ofNat']
    omega
  rw [imageAddress, hsum, driveLba]
  simp only [blockSize] at h ⊢
  omega

theorem imageRead_eq (image : Disk) (ptr : Memory) {lba : UInt32} {blockCount : UInt8}
    (h : lba.toNat + blockCount.toNat ≤ 2 ^ 23) :
    imageRead image ptr lba blockCount = readBlocks image ptr lba blockCount := by
  funext k
  rw [imageRead, readBlocks]
  split
  · next hk =>
      have hblock : k / blockSize < blockCount.toNat := by
        simp only [blockSize] at hk ⊢
        omega
      rw [imageAddress_eq (by omega)]
  · rfl

theorem imageWriteLoop_eq (image : Disk) (ptr : Memory) {lba : UInt32} {n : ℕ}
    (h : lba.toNat + n ≤ 2 ^ 23) (a : ℕ) :
    imageWriteLoop image ptr lba n a
      = if blockSize * driveLba lba ≤ a ∧ a < blockSize * driveLba lba + blockSize * n then
          ptr (a - blockSize * driveLba lba)
        else image a := by
  induction n with
  | zero =>
      rw [imageWriteLoop, if_neg]
      omega
  | succ n ih =>
      have haddr : imageAddress lba (blockSize * n) = blockSize * driveLba lba + blockSize * n := by
        refine imageAddress_eq ?_
        simp only [blockSize]
        omega
      simp only [imageWriteLoop, haddr, ih (by omega)]
      by_cases hin : blockSize * driveLba lba + blockSize * n ≤ a ∧
          a < blockSize * driveLba lba + blockSize * n + blockSize
      · -- the last block
        have hoff : blockSize * n + (a - (blockSize * driveLba lba + blockSize * n))
            = a - blockSize * driveLba lba := by omega
        rw [if_pos hin, hoff, if_pos]
        simp only [blockSize] at hin ⊢
        omega
      · rw [if_neg hin]
        refine if_congr ?_ rfl rfl
        simp only [blockSize] at hin ⊢
        omega

theorem imageWrite_eq (image : Disk) (ptr : Memory) {lba : UInt32} {blockCount : UInt8}
    (h : lba.toNat + blockCount.toNat ≤ 2 ^ 23) :
    imageWrite image ptr lba blockCount = writeBlocks image ptr lba blockCount :=
  funext fun a => imageWriteLoop_eq image ptr h a

/-! ## `main` -/

/-- `isspace`. -/
def isSpace (c : UInt8) : Bool := c = 32 || (9 ≤ c && c ≤ 13)

/-- `sscanf(s, "%8s", name)` into a name of zeros: the first word, of at most 8 bytes. -/
def scanWord (s : List UInt8) : EntryName := fun j =>
  (((s.takeWhile (· ≠ 0)).dropWhile isSpace).takeWhile fun c => !isSpace c).getD j 0

/-- `file_buffer` after `fread(file_buffer, 4*1024*1024, 1, fptr_target)`. -/
def readTarget (fileBuffer : Memory) (contents : List UInt8) : Memory :=
  fun k => if k < 4 * 1024 * 1024 then contents.getD k (fileBuffer k) else fileBuffer k

/-- The rounding of `filesize`, in `size_t`. -/
def roundFilesize (filesize : UInt64) : UInt64 :=
  if filesize ≠ 0 then ((filesize - 1) / 0x800 + 1) * 0x800 else filesize

/-- The request of `main`: `target` is the file at `argv[1]`, if it can be opened, and
    `buffer_size` takes the low 32 bits of `filesize`. -/
def mainRequest (fileBuffer : Memory) (argv1 : List UInt8) (target : Option (List UInt8))
    (parentClusterNumber : UInt32) : FAT32DriverRequest where
  buf := (target.map (readTarget fileBuffer)).getD fileBuffer
  name := scanWord argv1
  ext := fun _ => 0
  parentClusterNumber := parentClusterNumber
  bufferSize := (roundFilesize (UInt64.ofNat ((target.map List.length).getD 0))).toUInt32

/-- The driver over an image, as `initialize_filesystem_fat32` sets it up in a new process. -/
def mountImage (image : Disk) : FileSystem := initializeFilesystemFat32 (bootState image)

/-- `main`: the return code of `write`, which decides what is printed, and the image that
    goes back to the storage file. -/
def inserterMain (newTable : FAT32DirectoryTable) (fileBuffer : Memory) (argv1 : List UInt8)
    (target : Option (List UInt8)) (parentClusterNumber : UInt32) (image : Disk) :
    Option (Int8 × Disk) :=
  (OsyFat32.write newTable (mainRequest fileBuffer argv1 target parentClusterNumber)
    (mountImage image)).map fun result => (result.1, result.2.disk)

/-- The arguments of a run into the root, the file's bytes and the memory it starts with. -/
structure InserterRun where
  argv1 : List UInt8
  contents : List UInt8
  fileBuffer : Memory
  newTable : FAT32DirectoryTable

namespace InserterRun

variable (k : InserterRun)

def name : EntryName := scanWord k.argv1

def request : FAT32DriverRequest :=
  mainRequest k.fileBuffer k.argv1 (some k.contents) rootClusterNumber

/-- The return code that decides what is printed, and the image after the run. -/
def main (image : Disk) : Option (Int8 × Disk) :=
  inserterMain k.newTable k.fileBuffer k.argv1 (some k.contents) rootClusterNumber image

theorem request_parent : k.request.parentClusterNumber = rootClusterNumber := rfl

theorem request_size : k.request.bufferSize
    = (roundFilesize (UInt64.ofNat k.contents.length)).toUInt32 := rfl

end InserterRun

end OsyInserter
