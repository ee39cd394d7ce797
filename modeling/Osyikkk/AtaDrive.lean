import Osyikkk.Fat32Types
import Osyikkk.PartialRun

/-!
# The disk behind its ports, from `disk.c`

The drive answers on the ports 0x1F0 and 0x1F2 to 0x1F7. It takes a command only when it is
neither busy nor in the middle of a transfer, and words only when it is not busy and the
transfer has words left; anything else has no defined outcome. How long it stays busy, and
which bits its status register shows meanwhile, is up to the drive (`Drive.delays`).

`read_blocks` and `write_blocks` poll the status register, send a command and move the words
of one block after the other.
-/

namespace OsyAta

open OsyDisk OsyFat32 LittleEndian PartialRun

abbrev ataStatusBsy : UInt8 := 0x80
abbrev ataStatusRdy : UInt8 := 0x40
abbrev ataStatusDrq : UInt8 := 0x08

abbrev halfBlockSize : ℕ := 256

/-! ## The drive -/

/-- A status byte of a busy drive; the other bits mean nothing. -/
abbrev BusyStatus := { b : UInt8 // b &&& ataStatusBsy ≠ 0 }

/-- What the drive is in the middle of: from which block on, how many blocks are left, and
    how far it is in the first of them. -/
inductive Phase where
  | idle
  | reading (block left word : ℕ)
  | writing (block left : ℕ) (words : List UInt16)
  deriving DecidableEq

/-- The drive, its registers and what it will show of its work. -/
structure Drive where
  disk : Disk
  device : UInt8
  sectorCount : UInt8
  lbaLow : UInt8
  lbaMid : UInt8
  lbaHigh : UInt8
  phase : Phase
  /-- the status bytes before the drive is ready -/
  busy : List BusyStatus
  /-- the same for what it does later -/
  delays : List (List BusyStatus)

/-- The drive begins with something and is busy for a while. -/
def Drive.next (d : Drive) (phase : Phase) : Drive :=
  { d with phase := phase, busy := d.delays.headD [], delays := d.delays.tail }

def Phase.status : Phase → UInt8
  | .idle => ataStatusRdy
  | .reading _ _ _ => ataStatusRdy ||| ataStatusDrq
  | .writing _ _ _ => ataStatusRdy ||| ataStatusDrq

/-- The block address in the registers. -/
def Drive.lba (d : Drive) : ℕ :=
  (d.device &&& 0xF).toNat * 2 ^ 24 + d.lbaHigh.toNat * 2 ^ 16 + d.lbaMid.toNat * 2 ^ 8
    + d.lbaLow.toNat

/-- The number of blocks in the registers; 0 stands for 256. -/
def Drive.sectors (d : Drive) : ℕ := if d.sectorCount = 0 then 256 else d.sectorCount.toNat

/-- READ SECTORS and WRITE SECTORS, by block address and to the first drive. -/
def Drive.command (d : Drive) (data : UInt8) : Option Drive :=
  if d.device &&& 0xF0 = 0xE0 then
    if data = 0x20 then some (d.next (.reading d.lba d.sectors 0))
    else if data = 0x30 then some (d.next (.writing d.lba d.sectors []))
    else none
  else none

/-- A byte in the register behind a port. -/
def Drive.store (d : Drive) (port : UInt16) (data : UInt8) : Option Drive :=
  if port = 0x1F2 then some { d with sectorCount := data }
  else if port = 0x1F3 then some { d with lbaLow := data }
  else if port = 0x1F4 then some { d with lbaMid := data }
  else if port = 0x1F5 then some { d with lbaHigh := data }
  else if port = 0x1F6 then some { d with device := data }
  else if port = 0x1F7 then d.command data
  else none

/-- `out` to a port of the drive. -/
def Drive.out (d : Drive) (port : UInt16) (data : UInt8) : Option Drive :=
  if d.busy = [] ∧ d.phase = .idle then d.store port data else none

/-- `in` from port 0x1F7. -/
def Drive.inStatus (d : Drive) : UInt8 × Drive :=
  match d.busy with
  | b :: busy => (b.1, { d with busy := busy })
  | [] => (d.phase.status, d)

/-- A word of a block of the disk. -/
def diskWord (disk : Disk) (block word : ℕ) : UInt16 :=
  uint16At disk (blockSize * block + 2 * word)

/-- The disk with a block of words. -/
def storeBlock (disk : Disk) (block : ℕ) (words : List UInt16) : Disk := fun a =>
  if a / blockSize = block then
    byteAt (words.getD (a % blockSize / 2) 0).toNat (a % 2)
  else disk a

/-- `in16` from port 0x1F0. -/
def Drive.in16 (d : Drive) : Option (UInt16 × Drive) :=
  match d.busy, d.phase with
  | [], .reading block left word =>
      some (diskWord d.disk block word,
        if word + 1 < halfBlockSize then { d with phase := .reading block left (word + 1) }
        else d.next (if left ≤ 1 then .idle else .reading (block + 1) (left - 1) 0))
  | _, _ => none

/-- `out16` to port 0x1F0. The last word of a block stores it. -/
def Drive.out16 (d : Drive) (data : UInt16) : Option Drive :=
  match d.busy, d.phase with
  | [], .writing block left words =>
      if words.length + 1 < halfBlockSize then
        some { d with phase := .writing block left (words ++ [data]) }
      else
        some (Drive.next { d with disk := storeBlock d.disk block (words ++ [data]) }
          (if left ≤ 1 then .idle else .writing (block + 1) (left - 1) []))
  | _, _ => none

/-! ## `disk.c` -/

/-- `ATA_busy_wait`, with so many rounds at most. -/
def ataBusyWait : ℕ → Drive → Option Drive
  | 0, _ => none
  | fuel + 1, d =>
      if d.inStatus.1 &&& ataStatusBsy ≠ 0 then ataBusyWait fuel d.inStatus.2
      else some d.inStatus.2

/-- `ATA_DRQ_wait`, which waits for RDY. -/
def ataDrqWait : ℕ → Drive → Option Drive
  | 0, _ => none
  | fuel + 1, d =>
      if d.inStatus.1 &&& ataStatusRdy = 0 then ataDrqWait fuel d.inStatus.2
      else some d.inStatus.2

/-- What `read_blocks` and `write_blocks` begin with. -/
def sendCommand (fuel : ℕ) (lba : UInt32) (blockCount command : UInt8) (d : Drive) :
    Option Drive := do
  let d ← ataBusyWait fuel d
  let d ← d.out 0x1F6 ((0xE0 : UInt32) ||| ((lba >>> 24) &&& 0xF)).toUInt8
  let d ← d.out 0x1F2 blockCount
  let d ← d.out 0x1F3 lba.toUInt8
  let d ← d.out 0x1F4 (lba >>> 8).toUInt8
  let d ← d.out 0x1F5 (lba >>> 16).toUInt8
  d.out 0x1F7 command

/-- The two waits in front of every block. -/
def awaitBlock (fuel : ℕ) (d : Drive) : Option Drive :=
  (ataBusyWait fuel d).bind (ataDrqWait fuel)

/-- A word stored through a `uint16_t *`. -/
def storeWord (ptr : Memory) (n : ℕ) (w : UInt16) : Memory := fun k =>
  if k / 2 = n then byteAt w.toNat (k % 2) else ptr k

def readWord (base : ℕ) (s : Memory × Drive) (j : ℕ) : Option (Memory × Drive) :=
  s.2.in16.map fun r => (storeWord s.1 (base + j) r.1, r.2)

def readBlock (fuel : ℕ) (s : Memory × Drive) (i : ℕ) : Option (Memory × Drive) :=
  (awaitBlock fuel s.2).bind fun d =>
    run (readWord (halfBlockSize * i)) (s.1, d) (List.range halfBlockSize)

/-- `read_blocks`: the memory behind `ptr` and the drive afterwards. -/
def readBlocks (fuel : ℕ) (ptr : Memory) (lba : UInt32) (blockCount : UInt8) (d : Drive) :
    Option (Memory × Drive) :=
  (sendCommand fuel lba blockCount 0x20 d).bind fun d =>
    run (readBlock fuel) (ptr, d) (List.range blockCount.toNat)

def writeWord (ptr : Memory) (base : ℕ) (d : Drive) (j : ℕ) : Option Drive :=
  d.out16 (uint16At ptr (2 * (base + j)))

def writeBlock (fuel : ℕ) (ptr : Memory) (d : Drive) (i : ℕ) : Option Drive :=
  (awaitBlock fuel d).bind fun d =>
    run (writeWord ptr (halfBlockSize * i)) d (List.range halfBlockSize)

/-- `write_blocks`: the drive afterwards. -/
def writeBlocks (fuel : ℕ) (ptr : Memory) (lba : UInt32) (blockCount : UInt8) (d : Drive) :
    Option Drive :=
  (sendCommand fuel lba blockCount 0x30 d).bind fun d =>
    run (writeBlock fuel ptr) d (List.range blockCount.toNat)

/-! ## Calls -/

/-- A call of `disk.c`. -/
inductive DiskCall where
  | read (ptr : Memory) (lba : UInt32) (blockCount : UInt8)
  | write (ptr : Memory) (lba : UInt32) (blockCount : UInt8)

def DiskCall.count : DiskCall → UInt8
  | .read _ _ blockCount => blockCount
  | .write _ _ blockCount => blockCount

/-- The call at the ports; what `read_blocks` leaves behind its pointer is noted. -/
def atPorts (fuel : ℕ) (s : Drive × List Memory) : DiskCall → Option (Drive × List Memory)
  | .read ptr lba blockCount =>
      (readBlocks fuel ptr lba blockCount s.1).map fun r => (r.2, s.2 ++ [r.1])
  | .write ptr lba blockCount =>
      (writeBlocks fuel ptr lba blockCount s.1).map fun d => (d, s.2)

/-- The call as a transfer of blocks. -/
def onDisk (s : Disk × List Memory) : DiskCall → Disk × List Memory
  | .read ptr lba blockCount => (s.1, s.2 ++ [OsyDisk.readBlocks s.1 ptr lba blockCount])
  | .write ptr lba blockCount => (OsyDisk.writeBlocks s.1 ptr lba blockCount, s.2)

/-- A drive that has no command yet. -/
def Drive.powerOn (disk : Disk) (busy : List BusyStatus) (delays : List (List BusyStatus)) :
    Drive where
  disk := disk
  device := 0
  sectorCount := 0
  lbaLow := 0
  lbaMid := 0
  lbaHigh := 0
  phase := .idle
  busy := busy
  delays := delays

/-- A call of `read_clusters` or `write_clusters` for one cluster. -/
inductive ClusterCall where
  | read (ptr : Memory) (cluster : UInt32)
  | write (ptr : Memory) (cluster : UInt32)

def ClusterCall.blocks : ClusterCall → DiskCall
  | .read ptr cluster => .read ptr (clusterToLba cluster) (1 * clusterBlockCount)
  | .write ptr cluster => .write ptr (clusterToLba cluster) (1 * clusterBlockCount)

/-- The call as a transfer of a cluster. -/
def onVolume (s : Disk × List Memory) : ClusterCall → Disk × List Memory
  | .read ptr cluster => (s.1, s.2 ++ [readClusters s.1 ptr cluster 1])
  | .write ptr cluster => (writeClusters s.1 ptr cluster 1, s.2)

end OsyAta
