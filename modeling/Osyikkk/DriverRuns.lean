import Osyikkk.VolumeCallProofs
import Osyikkk.PartialRun

/-!
# Calls, the move syscall and runs

The requests a user program can make of the file system: the four driver functions
(`syscall`, `eax` 0 to 3) and the move of a directory entry (`eax` 8). A run is a list of
calls from the state `create_fat32` leaves.

`write_outcome` and `delete_outcome` are the inversion lemmas of the two calls that change
the volume: they say everything a call with an outcome can have done.
-/

namespace OsyVolume

open OsyDisk OsyFat32 LinkedChain RootedForest

/-! ## The move syscall -/

/-- The loop of `syscall` with `eax == 8`: the source entry goes to the first unused slot
    `1..63` of the destination, all its members, and its own slot is cleared. -/
def moveEntry (srcTable destTable : FAT32DirectoryTable) (srcIdx : UInt32) :
    Option (FAT32DirectoryTable × FAT32DirectoryTable) :=
  match (slotsFrom 1).find? fun i => (destTable i).userAttribute ≠ uattrNotEmpty with
  | none => some (srcTable, destTable)
  | some i =>
      -- an index behind the table is an access outside it
      if h : srcIdx.toNat < directoryEntryCount then
        some (Function.update srcTable ⟨srcIdx.toNat, h⟩ FAT32DirectoryEntry.zero,
          Function.update destTable i (srcTable ⟨srcIdx.toNat, h⟩))
      else none

/-- `syscall` with `eax == 8`: both tables are written to the clusters their slots 0 name,
    the source first. -/
def syscallMove (srcTable destTable : FAT32DirectoryTable) (srcIdx : UInt32)
    (fs : FileSystem) : Option FileSystem :=
  (moveEntry srcTable destTable srcIdx).map fun (srcTable, destTable) =>
    let disk := writeClusters fs.disk (tableToMemory srcTable) (srcTable 0).cluster 1
    let disk := writeClusters disk (tableToMemory destTable) (destTable 0).cluster 1
    fs.store fs.fat disk

/-! ## Calls and runs -/

/-- A request to the kernel's file system. -/
inductive Call where
  | write (newTable : FAT32DirectoryTable) (request : FAT32DriverRequest)
  | delete (request : FAT32DriverRequest)
  | read (request : FAT32DriverRequest)
  | readDirectory (request : FAT32DriverRequest)
  | move (srcTable destTable : FAT32DirectoryTable) (srcIdx : UInt32)

/-- The file system after a call. -/
def exec (fs : FileSystem) : Call → Option FileSystem
  | .write newTable request => (OsyFat32.write newTable request fs).map Prod.snd
  | .delete request => (OsyFat32.delete request fs).map Prod.snd
  | .read request => (OsyFat32.read request fs).map fun _ => fs
  | .readDirectory _ => some fs
  | .move srcTable destTable srcIdx => syscallMove srcTable destTable srcIdx fs

/-- The kernel's static driver memory before the file system is mounted. -/
def bootState (disk : Disk) : FileSystem where
  driverState :=
    { fatTable := fun _ => 0
      dirTableBuf := fun _ => FAT32DirectoryEntry.zero }
  disk := disk

/-- The state `create_fat32` leaves on a disk. -/
def freshFileSystem (disk : Disk) : FileSystem := createFat32 (bootState disk)

/-- The state after a list of calls. -/
abbrev runCalls : FileSystem → List Call → Option FileSystem := PartialRun.run exec

/-! ## Requests and tables of concrete runs -/

/-- A disk of zeros. -/
def blankDisk : Disk := fun _ => 0

/-- A table of unused slots. -/
def zeroTable : FAT32DirectoryTable := fun _ => FAT32DirectoryEntry.zero

/-- A request in the root for a name without extension; the buffer holds zeros. -/
def rootRequest (name : List UInt8) (bufferSize : UInt32) : FAT32DriverRequest where
  buf := fun _ => 0
  name := fun j => name.getD j 0
  ext := fun _ => 0
  parentClusterNumber := rootClusterNumber
  bufferSize := bufferSize

/-! ## What `write` can have done -/

/-- The outcomes of `write`. -/
inductive WriteOutcome (newTable : FAT32DirectoryTable) (request : FAT32DriverRequest)
    (fs : FileSystem) : Int8 → FileSystem → Prop where
  | refused {code : Int8} : code ≠ 0 → WriteOutcome newTable request fs code fs
  | leaked {c : UInt32} {rest : List UInt32} : request.bufferSize = 0 →
      freeCells fs.fat = c :: rest → c.toNat = 511 →
      WriteOutcome newTable request fs 1
        (fs.store (setCell fs.fat c fat32FatEndOfFile) fs.disk)
  | directory {c : UInt32} {rest : List UInt32} : request.name ≠ (fun _ => 0) →
      request.bufferSize = 0 → freeCells fs.fat = c :: rest → c.toNat ≠ 511 →
      WriteOutcome newTable request fs 0 (directoryWritten newTable request fs c)
  | file {c : UInt32} {rest : List UInt32} : request.name ≠ (fun _ => 0) →
      request.bufferSize ≠ 0 → clusterCount request ≠ 0 →
      clusterCount request ≤ (freeCells fs.fat).length →
      (freeCells fs.fat).take (clusterCount request) = c :: rest →
      WriteOutcome newTable request fs 0 (fileWritten request fs c rest)

variable {request : FAT32DriverRequest} {fs fs' : FileSystem}
  {newTable : FAT32DirectoryTable} {code : Int8}

/-- The request needs more cells than are free. -/
def FewCells (request : FAT32DriverRequest) (fs : FileSystem) : Prop :=
  (request.bufferSize = 0 ∧ freeCells fs.fat = []) ∨
    (request.bufferSize ≠ 0 ∧ (freeCells fs.fat).length < clusterCount request)

theorem not_fewCells_directory {c : UInt32} {rest : List UInt32} (hs : request.bufferSize = 0)
    (hfree : freeCells fs.fat = c :: rest) : ¬ FewCells request fs := by
  rintro (⟨-, hnil⟩ | ⟨hne, -⟩)
  · exact List.cons_ne_nil _ _ (hfree.symm.trans hnil)
  · exact hne hs

theorem not_fewCells_file (hs : request.bufferSize ≠ 0)
    (hlen : clusterCount request ≤ (freeCells fs.fat).length) : ¬ FewCells request fs := by
  rintro (⟨h0, -⟩ | ⟨-, hlt⟩)
  · exact hs h0
  · exact absurd hlt (Nat.not_lt.mpr hlen)

/-- A request that needs more cells than are free is refused and changes nothing. -/
theorem write_fewCells (hn : request.name ≠ fun _ => 0)
    (hp : ¬ request.parentClusterNumber < 2) (hfew : FewCells request fs) :
    OsyFat32.write newTable request fs = some (1, fs) := by
  rcases hfew with ⟨hs, hfree⟩ | ⟨hs, hlen⟩
  · rw [write_directory hn hp hs, writeDirectory_full hfree]
  · rw [write_file hn hp hs, writeFile_full hlen]

/-- A size that is a positive multiple of the cluster size is at least one cluster. -/
theorem clusterCount_ne_zero (hs : request.bufferSize ≠ 0)
    (hdvd : clusterSize ∣ request.bufferSize.toNat) : clusterCount request ≠ 0 := by
  obtain ⟨k, hk⟩ := hdvd
  have hpos : request.bufferSize.toNat ≠ 0 := fun h => hs (UInt32.toNat_inj.mp h)
  rw [clusterCount_eq]
  simp only [clusterSize] at hk
  omega

/-- A request of whole clusters always has one of the outcomes. -/
theorem write_total (newTable : FAT32DirectoryTable) (fs : FileSystem)
    (hsize : request.bufferSize = 0 ∨ clusterCount request ≠ 0) :
    ∃ code fs', OsyFat32.write newTable request fs = some (code, fs') ∧
      WriteOutcome newTable request fs code fs' := by
  by_cases hn : request.name = fun _ => 0
  · exact ⟨-1, fs, write_emptyName hn, .refused (by decide)⟩
  by_cases hp : request.parentClusterNumber < 2
  · exact ⟨2, fs, write_reserved hn hp, .refused (by decide)⟩
  by_cases hs : request.bufferSize = 0
  · rw [write_directory hn hp hs]
    cases hfree : freeCells fs.fat with
    | nil => exact ⟨1, fs, by rw [writeDirectory_full hfree], .refused (by decide)⟩
    | cons c rest =>
        by_cases hc : c.toNat = 511
        · exact ⟨1, _, by rw [writeDirectory_lastCell hfree hc], .leaked hs hfree hc⟩
        · exact ⟨0, _, by rw [writeDirectory_eq hfree hc], .directory hn hs hfree hc⟩
  · rw [write_file hn hp hs]
    have h0 : clusterCount request ≠ 0 := hsize.resolve_left hs
    by_cases hlen : (freeCells fs.fat).length < clusterCount request
    · exact ⟨1, fs, writeFile_full hlen, .refused (by decide)⟩
    · have hle : clusterCount request ≤ (freeCells fs.fat).length := Nat.not_lt.mp hlen
      obtain ⟨c, rest, htake, h⟩ := writeFile_stored h0 hle
      exact ⟨0, _, h, .file hn hs h0 hle htake⟩

theorem write_short (hn : request.name ≠ fun _ => 0)
    (hp : ¬ request.parentClusterNumber < 2) (hs : request.bufferSize ≠ 0)
    (h0 : clusterCount request = 0) : OsyFat32.write newTable request fs = none := by
  rw [write_file hn hp hs, writeFile_short h0]

theorem write_outcome (h : OsyFat32.write newTable request fs = some (code, fs')) :
    WriteOutcome newTable request fs code fs' := by
  by_cases hsize : request.bufferSize = 0 ∨ clusterCount request ≠ 0
  · obtain ⟨code₀, fs₀, h₀, hout⟩ := write_total newTable fs hsize
    obtain ⟨rfl, rfl⟩ := Prod.mk.inj (Option.some.inj (h₀.symm.trans h))
    exact hout
  · push Not at hsize
    -- fewer bytes than a cluster: only a request that fails earlier has an outcome
    by_cases hn : request.name = fun _ => 0
    · rw [write_emptyName hn] at h
      obtain ⟨rfl, rfl⟩ := Prod.mk.inj (Option.some.inj h)
      exact .refused (by decide)
    by_cases hp : request.parentClusterNumber < 2
    · rw [write_reserved hn hp] at h
      obtain ⟨rfl, rfl⟩ := Prod.mk.inj (Option.some.inj h)
      exact .refused (by decide)
    · rw [write_short hn hp hsize.1 hsize.2] at h
      exact nomatch h

/-- A live directory is not a reserved cluster. -/
theorem live_not_reserved (hcons : FsConsistent fs)
    (hlive : Live fs.table request.parentClusterNumber) : ¬ request.parentClusterNumber < 2 := by
  rw [UInt32.lt_iff_toNat_lt]
  exact Nat.not_lt.mpr (hcons.live_range hlive).1

/-! ## What `delete` can have done -/

/-- The outcomes of `delete` on a live parent of a consistent volume. -/
inductive DeleteOutcome (request : FAT32DriverRequest) (fs : FileSystem) :
    Int8 → FileSystem → Prop where
  | refused {code : Int8} : code ≠ 0 → DeleteOutcome request fs code fs
  | directory {i : Fin directoryEntryCount} {c : UInt32} :
      firstMatch request (fs.table request.parentClusterNumber) = some i →
      dirEdge fs.table request.parentClusterNumber i c → TableEmpty (fs.table c) →
      DeleteOutcome request fs 0
        (slotCleared request fs (freeChain fs.fat [c]) (zeroChain fs.disk [c]) i)
  | file {i : Fin directoryEntryCount} {l : List UInt32} :
      firstMatch request (fs.table request.parentClusterNumber) = some i →
      (fs.table request.parentClusterNumber i).attr = attrArchive →
      FatChain fs.fat (fs.table request.parentClusterNumber i).cluster l → 2 ≤ l.length →
      DeleteOutcome request fs 0
        (slotCleared request fs (freeChain fs.fat l) (zeroChain fs.disk l) i)
  | other {i : Fin directoryEntryCount} :
      firstMatch request (fs.table request.parentClusterNumber) = some i →
      (fs.table request.parentClusterNumber i).attr ≠ attrSubdirectory →
      (fs.table request.parentClusterNumber i).attr ≠ attrArchive →
      DeleteOutcome request fs (-1)
        (slotCleared request fs (freeChain fs.fat []) (zeroChain fs.disk []) i)

/-- The match is a file of one cluster. -/
def SingleClusterMatch (request : FAT32DriverRequest) (fs : FileSystem) : Prop :=
  ∃ i, firstMatch request (fs.table request.parentClusterNumber) = some i ∧
    (fs.table request.parentClusterNumber i).attr = attrArchive ∧
    clusterMapGet fs.fat (fs.table request.parentClusterNumber i).cluster
      = some fat32FatEndOfFile

/-- The chain of a cell that ends the file is the cell alone. -/
theorem chain_singleton_iff {fat : FAT32FileAllocationTable} {c : UInt32} {l : List UInt32}
    (h : FatChain fat c l) (hne : l ≠ []) :
    clusterMapGet fat c = some fat32FatEndOfFile ↔ l = [c] := by
  cases h with
  | nil => exact absurd rfl hne
  | @cons _ b rest hc hb hrest =>
      rw [hb]
      constructor
      · intro hstop
        obtain rfl := Option.some.inj hstop
        rw [chain_stop hrest]
      · intro heq
        obtain rfl : rest = [] := by simpa using heq
        rw [chain_nil_iff.mp hrest]

/-- The chain of a cell that does not end the file goes on. -/
theorem two_le_length {fat : FAT32FileAllocationTable} {c : UInt32} {l : List UInt32}
    (h : FatChain fat c l) (hne : l ≠ []) (hend : clusterMapGet fat c ≠ some fat32FatEndOfFile) :
    2 ≤ l.length := by
  by_contra hlt
  have hpos := List.length_pos_iff.mpr hne
  obtain ⟨d, rfl⟩ := List.length_eq_one_iff.mp (show l.length = 1 by omega)
  obtain rfl := (chain_cons_iff.mp h).1
  exact hend ((chain_singleton_iff h hne).mpr rfl)

section Delete

variable (hcons : FsConsistent fs) (hlive : Live fs.table request.parentClusterNumber)
include hcons hlive

/-- `delete` has one of the outcomes unless it meets a file of one cluster. -/
theorem delete_total (hsingle : request.name ≠ (fun _ => 0) → ¬ SingleClusterMatch request fs) :
    ∃ code fs', OsyFat32.delete request fs = some (code, fs') ∧
      DeleteOutcome request fs code fs' := by
  by_cases hn : request.name = fun _ => 0
  · exact ⟨-1, fs, delete_emptyName hn, .refused (by decide)⟩
  cases hm : firstMatch request (fs.table request.parentClusterNumber) with
  | none => exact ⟨-1, fs, delete_notFound hn hm, .refused (by decide)⟩
  | some i =>
      have hs := usedSlot_of_firstMatch hcons hlive hn hm
      obtain ⟨l, hl, hne, -⟩ := hcons.chain hs
      by_cases hd : (fs.table request.parentClusterNumber i).attr = attrSubdirectory
      · rw [delete_directory hn hm hd]
        by_cases hempty : TableEmpty (fs.table (fs.table request.parentClusterNumber i).cluster)
        · exact ⟨0, _, deleteDirectory_eq rfl hempty (hcons.start hs).2,
            .directory hm ⟨hs.slot, hs.used, hd, rfl⟩ hempty⟩
        · exact ⟨2, fs, deleteDirectory_filled hempty, .refused (by decide)⟩
      by_cases hf : (fs.table request.parentClusterNumber i).attr = attrArchive
      · have hlen : 2 ≤ l.length :=
          two_le_length hl hne fun hend => hsingle hn ⟨i, hm, hf, hend⟩
        rw [delete_file hn hm hf]
        exact ⟨0, _, deleteFile_eq hl hlen, .file hm hf hl hlen⟩
      · exact ⟨-1, _, delete_other hn hm hd hf, .other hm hd hf⟩

/-- `delete` of a file of one cluster leaves the table. -/
theorem delete_single (hn : request.name ≠ fun _ => 0)
    (hsingle : SingleClusterMatch request fs) : OsyFat32.delete request fs = none := by
  obtain ⟨i, hm, hf, hend⟩ := hsingle
  have hs := usedSlot_of_firstMatch hcons hlive hn hm
  obtain ⟨l, hl, hne, -⟩ := hcons.chain hs
  rw [(chain_singleton_iff hl hne).mp hend] at hl
  rw [delete_file hn hm hf, deleteFile_single hl]

theorem delete_outcome (h : OsyFat32.delete request fs = some (code, fs')) :
    DeleteOutcome request fs code fs' := by
  have hsingle : request.name ≠ (fun _ => 0) → ¬ SingleClusterMatch request fs := by
    intro hn hs
    rw [delete_single hcons hlive hn hs] at h
    exact nomatch h
  obtain ⟨code₀, fs₀, h₀, hout⟩ := delete_total hcons hlive hsingle
  obtain ⟨rfl, rfl⟩ := Prod.mk.inj (Option.some.inj (h₀.symm.trans h))
  exact hout

/-- A removing outcome is a removal of the volume, whose chain is freed up to the cells that
    are not named. -/
theorem DeleteOutcome.removed (h : DeleteOutcome request fs code fs')
    (hn : request.name ≠ fun _ => 0) :
    fs' = fs ∨ ∃ i l freed,
      firstMatch request (fs.table request.parentClusterNumber) = some i ∧
      fs' = slotCleared request fs (freeChain fs.fat freed) (zeroChain fs.disk freed) i ∧
      (∀ c ∈ freed, c ∈ l) ∧
      Removed fs.table fs'.table fs.fat fs'.fat request.parentClusterNumber i l := by
  cases h with
  | refused _ => exact Or.inl rfl
  | @directory i c hm hd hempty =>
      have hs := usedSlot_of_firstMatch hcons hlive hn hm
      obtain ⟨l, hl, hne, -⟩ := hcons.chain hs
      have hsub : ∀ d ∈ [c], d ∈ l := by
        intro d hmem
        rw [List.mem_singleton.mp hmem, ← hd.2.2.2]
        exact chain_start_mem hl hne
      refine Or.inr ⟨i, l, [c], hm, rfl, hsub, slotCleared_removed hcons hlive hs hl hsub ?_⟩
      intro x hx
      rwa [← dirEdge_functional _ hd hx]
  | @file i l hm ha hl hlen =>
      have hs := usedSlot_of_firstMatch hcons hlive hn hm
      refine Or.inr ⟨i, l, l, hm, rfl, fun _ h => h,
        slotCleared_removed hcons hlive hs hl (fun _ h => h) ?_⟩
      intro x hx
      exact absurd (ha.symm.trans hx.2.2.1) (by decide)
  | @other i hm hd ha =>
      have hs := usedSlot_of_firstMatch hcons hlive hn hm
      obtain ⟨l, hl, -⟩ := hcons.chain hs
      have hsub : ∀ c ∈ ([] : List UInt32), c ∈ l := fun c h => nomatch h
      refine Or.inr ⟨i, l, [], hm, rfl, hsub, slotCleared_removed hcons hlive hs hl hsub ?_⟩
      intro x hx
      exact absurd hx.2.2.1 hd

theorem DeleteOutcome.consistent (h : DeleteOutcome request fs code fs')
    (hn : request.name ≠ fun _ => 0) : FsConsistent fs' := by
  rcases h.removed hcons hlive hn with rfl | ⟨i, l, freed, -, -, -, hrem⟩
  · exact hcons
  · exact hrem.consistent hcons

end Delete

section Write

variable (hcons : FsConsistent fs) (hlive : Live fs.table request.parentClusterNumber)
include hcons hlive

/-- A storing outcome is an insertion into the volume. -/
theorem WriteOutcome.consistent (h : WriteOutcome newTable request fs code fs')
    (hzero : ∀ i, i ≠ 0 → newTable i = FAT32DirectoryEntry.zero) : FsConsistent fs' := by
  cases h with
  | refused _ => exact hcons
  | leaked _ hfree _ =>
      exact claimed_consistent hcons (hfree ▸ List.mem_cons_self)
  | directory _ _ hfree _ =>
      exact (directoryWritten_inserted hcons hlive (hfree ▸ List.mem_cons_self)
        hzero).consistent hcons
  | file _ hs _ _ htake => exact (fileWritten_inserted hcons hlive hs htake).consistent hcons

end Write

/-! ## `read` has an outcome -/

/-- Every match on a live parent has a chain to walk. -/
theorem read_outcome {Left : UInt32 → FAT32DirectoryEntry → Prop}
    (hcons : ConsistentWith Left fs.table fs.fat)
    (hlive : Live fs.table request.parentClusterNumber)
    (hnamed : ∀ i, (fs.table request.parentClusterNumber i).name ≠ (fun _ => 0) →
      (fs.table request.parentClusterNumber i).used) :
    ∃ result, OsyFat32.read request fs = some result := by
  by_cases hn : request.name = fun _ => 0
  · exact ⟨_, read_emptyName hn⟩
  by_cases hs : request.bufferSize = 0
  · exact ⟨_, read_zeroSize hn hs⟩
  cases hm : firstMatch request (fs.table request.parentClusterNumber) with
  | none => exact ⟨_, read_notFound hn hs hm⟩
  | some i =>
      obtain ⟨h0, hname, -⟩ := firstMatch_some hm
      obtain ⟨l, hl, -⟩ := hcons.chain ⟨hlive, h0, hnamed i (hname ▸ hn)⟩
      by_cases hsmall : clusterCount request < l.length
      · exact ⟨_, read_tooSmall hn hs hm hl hsmall⟩
      · exact ⟨_, read_eq hn hs hm hl (Nat.not_lt.mp hsmall)⟩

theorem read_total (hcons : FsConsistent fs) (hlive : Live fs.table request.parentClusterNumber) :
    ∃ result, OsyFat32.read request fs = some result :=
  read_outcome hcons hlive fun _ hname => hcons.used_of_name hlive hname

/-! ## Driver calls -/

/-- A call of one of the four driver functions on a live directory; the slots of a new
    directory's table that `write` does not set are zero. -/
def OnLiveDirectory (fs : FileSystem) : Call → Prop
  | .write newTable request => Live fs.table request.parentClusterNumber ∧
      ∀ i, i ≠ 0 → newTable i = FAT32DirectoryEntry.zero
  | .delete request | .read request | .readDirectory request =>
      Live fs.table request.parentClusterNumber
  | .move _ _ _ => False

/-- Files are written in whole clusters. -/
def WholeClusters : Call → Prop
  | .write _ request => clusterSize ∣ request.bufferSize.toNat
  | _ => True

instance : ∀ k, Decidable (WholeClusters k)
  | .write _ request => inferInstanceAs (Decidable (clusterSize ∣ request.bufferSize.toNat))
  | .delete _ | .read _ | .readDirectory _ | .move _ _ _ => isTrue trivial

/-- The calls that come to an end: a file that is written has a whole cluster at least, and one
    that is deleted has more than one. -/
def CallEnds (fs : FileSystem) : Call → Prop
  | .write _ request => request.name ≠ (fun _ => 0) →
      request.bufferSize = 0 ∨ clusterCount request ≠ 0
  | .delete request => request.name ≠ (fun _ => 0) → ¬ SingleClusterMatch request fs
  | _ => True

theorem callEnds_of_whole {k : Call} (hwhole : WholeClusters k) (hsingle : ∀ request,
    k = .delete request → request.name ≠ (fun _ => 0) → ¬ SingleClusterMatch request fs) :
    CallEnds fs k := by
  cases k with
  | write newTable request =>
      intro _
      by_cases hs : request.bufferSize = 0
      · exact Or.inl hs
      · exact Or.inr (clusterCount_ne_zero hs hwhole)
  | delete request => exact hsingle request rfl
  | read _ => trivial
  | readDirectory _ => trivial
  | move _ _ _ => trivial

/-- What a driver call on a live directory can have done. -/
inductive DriverOutcome (fs : FileSystem) : Call → FileSystem → Prop where
  | unchanged {k : Call} : DriverOutcome fs k fs
  | write {newTable : FAT32DirectoryTable} {request : FAT32DriverRequest} {code : Int8}
      {fs' : FileSystem} : request.name ≠ (fun _ => 0) →
      WriteOutcome newTable request fs code fs' → DriverOutcome fs (.write newTable request) fs'
  | delete {request : FAT32DriverRequest} {code : Int8} {fs' : FileSystem} :
      request.name ≠ (fun _ => 0) → DeleteOutcome request fs code fs' →
      DriverOutcome fs (.delete request) fs'

section DriverCalls

variable {k : Call} (hcons : FsConsistent fs) (hlive : OnLiveDirectory fs k)
include hcons hlive

/-- A driver call that comes to an end has one of the outcomes. -/
theorem driverCall_total (hends : CallEnds fs k) :
    ∃ fs', exec fs k = some fs' ∧ DriverOutcome fs k fs' := by
  cases k with
  | write newTable request =>
      by_cases hn : request.name = fun _ => 0
      · exact ⟨fs, by rw [exec, write_emptyName hn, Option.map_some], .unchanged⟩
      · obtain ⟨code, fs', h, hout⟩ := write_total newTable fs (hends hn)
        exact ⟨fs', by rw [exec, h, Option.map_some], .write hn hout⟩
  | delete request =>
      by_cases hn : request.name = fun _ => 0
      · exact ⟨fs, by rw [exec, delete_emptyName hn, Option.map_some], .unchanged⟩
      · obtain ⟨code, fs', h, hout⟩ := delete_total hcons hlive hends
        exact ⟨fs', by rw [exec, h, Option.map_some], .delete hn hout⟩
  | read request =>
      obtain ⟨result, h⟩ := read_total hcons hlive
      exact ⟨fs, by rw [exec, h, Option.map_some], .unchanged⟩
  | readDirectory request => exact ⟨fs, rfl, .unchanged⟩
  | move _ _ _ => exact hlive.elim

/-- And every other one has none. -/
theorem driverCall_ends_iff : (∃ fs', exec fs k = some fs') ↔ CallEnds fs k := by
  constructor
  · rintro ⟨fs', h⟩
    cases k with
    | write newTable request =>
        intro hn
        by_contra hshort
        rw [not_or, not_not] at hshort
        rw [exec, write_short hn (live_not_reserved hcons hlive.1) hshort.1 hshort.2] at h
        exact nomatch h
    | delete request =>
        intro hn hsingle
        rw [exec, delete_single hcons hlive hn hsingle] at h
        exact nomatch h
    | read _ => trivial
    | readDirectory _ => trivial
    | move _ _ _ => trivial
  · intro h
    obtain ⟨fs', hexec, -⟩ := driverCall_total hcons hlive h
    exact ⟨fs', hexec⟩

theorem driverCall_outcome (h : exec fs k = some fs') : DriverOutcome fs k fs' := by
  cases k with
  | write newTable request =>
      obtain ⟨⟨code, fs₁⟩, hcall, rfl⟩ := Option.map_eq_some_iff.mp h
      by_cases hn : request.name = fun _ => 0
      · rw [write_emptyName hn] at hcall
        obtain ⟨-, rfl⟩ := Prod.mk.inj (Option.some.inj hcall)
        exact .unchanged
      · exact .write hn (write_outcome hcall)
  | delete request =>
      obtain ⟨⟨code, fs₁⟩, hcall, rfl⟩ := Option.map_eq_some_iff.mp h
      by_cases hn : request.name = fun _ => 0
      · rw [delete_emptyName hn] at hcall
        obtain ⟨-, rfl⟩ := Prod.mk.inj (Option.some.inj hcall)
        exact .unchanged
      · exact .delete hn (delete_outcome hcons hlive hcall)
  | read request =>
      obtain ⟨-, -, rfl⟩ := Option.map_eq_some_iff.mp h
      exact .unchanged
  | readDirectory request =>
      obtain rfl := Option.some.inj h
      exact .unchanged
  | move _ _ _ => exact hlive.elim

end DriverCalls

/-! ## The fresh file system -/

theorem fresh_fat (disk : Disk) :
    (freshFileSystem disk).fat
      = Function.update (Function.update (Function.update (fun _ => 0) 0 cluster0Value)
          1 cluster1Value) 2 fat32FatEndOfFile := rfl

/-- Cells `0..2` of the fresh file allocation table are taken. -/
theorem fresh_cell_reserved (disk : Disk) {c : UInt32} (h : c.toNat < 3) :
    clusterMapGet (freshFileSystem disk).fat c ≠ some 0 := by
  have hcell : ∀ i : Fin clusterMapSize, i.val < 3 → (freshFileSystem disk).fat i ≠ 0 := by
    intro i hi
    have hcases : i = 2 ∨ i = 1 ∨ i = 0 := by
      simp only [Fin.ext_iff]
      show i.val = 2 ∨ i.val = 1 ∨ i.val = 0
      omega
    rw [fresh_fat]
    rcases hcases with rfl | rfl | rfl <;> decide
  have hlt : c.toNat < clusterMapSize := by
    simp only [clusterMapSize]
    omega
  rw [clusterMapGet_of_lt _ hlt]
  exact fun heq => hcell ⟨c.toNat, hlt⟩ h (Option.some.inj heq)

/-- The other cells are free. -/
theorem fresh_cell_free (disk : Disk) {c : UInt32} (h : 3 ≤ c.toNat)
    (hlt : c.toNat < clusterMapSize) :
    clusterMapGet (freshFileSystem disk).fat c = some 0 := by
  have hne : ∀ k : Fin clusterMapSize, k.val < 3 → (⟨c.toNat, hlt⟩ : Fin clusterMapSize) ≠ k := by
    rintro k hk rfl
    exact absurd hk (Nat.not_lt.mpr h)
  rw [clusterMapGet_of_lt _ hlt, fresh_fat]
  rw [Function.update_of_ne (hne 2 (by decide)), Function.update_of_ne (hne 1 (by decide)),
    Function.update_of_ne (hne 0 (by decide))]

/-- The root of the fresh disk holds its own entry and nothing else. -/
theorem fresh_root (disk : Disk) : (freshFileSystem disk).table rootClusterNumber
    = initDirectoryTable (fun _ => FAT32DirectoryEntry.zero) rootName rootClusterNumber :=
  readTable_written _ _ _

theorem fresh_imageInSync (disk : Disk) : ImageInSync (freshFileSystem disk) :=
  (readFat_writeClusters_ne _ _ (by decide)).trans (readFat_written _ _ _)

theorem fresh_slot (disk : Disk) {i : Fin directoryEntryCount} (hi : i ≠ 0) :
    (freshFileSystem disk).table rootClusterNumber i = FAT32DirectoryEntry.zero := by
  rw [fresh_root, initDirectoryTable_ne _ _ _ hi]

theorem fresh_unused (disk : Disk) {i : Fin directoryEntryCount} (hi : i ≠ 0) :
    ¬ ((freshFileSystem disk).table rootClusterNumber i).used := by
  rw [fresh_slot disk hi]
  exact zero_not_used

theorem fresh_live (disk : Disk) {d : UInt32} (h : Live (freshFileSystem disk).table d) :
    d = rootClusterNumber := by
  induction h with
  | root => rfl
  | child _ he ih =>
      subst ih
      exact absurd he.2.1 (fresh_unused disk he.1)

theorem fresh_no_slot (disk : Disk) {d : UInt32} {i : Fin directoryEntryCount} :
    ¬ UsedSlot (freshFileSystem disk).table d i := by
  intro hs
  have hused := hs.used
  rw [fresh_live disk hs.live] at hused
  exact fresh_unused disk hs.slot hused

theorem fresh_consistent (disk : Disk) : FsConsistent (freshFileSystem disk) where
  reserved _ hc := fresh_cell_reserved disk hc
  selfUsed hd := by
    rw [fresh_live disk hd, fresh_root]
    exact (initDirectoryTable_self _ _ _).1
  leftover {d i} hd hno := by
    obtain rfl := fresh_live disk hd
    by_cases hi : i = 0
    · rw [hi, fresh_root] at hno
      exact absurd (initDirectoryTable_self _ _ _).1 hno
    · exact fresh_slot disk hi
  chain hs := absurd hs (fresh_no_slot disk)
  disjoint hs := absurd hs (fresh_no_slot disk)

theorem fresh_idxEmpty (disk : Disk) :
    idxEmpty ((freshFileSystem disk).table rootClusterNumber) = 1 := by
  refine idxEmpty_eq (fresh_unused disk (by decide)) ?_
  intro j hj
  obtain rfl : j = 0 := Fin.ext (Nat.lt_one_iff.mp hj)
  exact (fresh_consistent disk).selfUsed Reach.root

/-! ## States of the blank disk -/

/-- The state after the directory `a` was made in the fresh root. -/
def afterMkdir : FileSystem :=
  (exec (freshFileSystem blankDisk) (.write zeroTable (rootRequest [97] 0))).getD
    (freshFileSystem blankDisk)

theorem exec_mkdir : exec (freshFileSystem blankDisk)
    (.write zeroTable (rootRequest [97] 0)) = some afterMkdir := by
  have hsome : (exec (freshFileSystem blankDisk)
      (.write zeroTable (rootRequest [97] 0))).isSome := by decide
  exact (Option.getD_of_ne_none (Option.isSome_iff_ne_none.mp hsome) _).symm

/-- Removing that directory again meets no file of one cluster. -/
theorem afterMkdir_not_single : ¬ SingleClusterMatch (rootRequest [97] 0) afterMkdir := by
  rintro ⟨i, hm, ha, -⟩
  have hfirst : firstMatch (rootRequest [97] 0) (afterMkdir.table 2) = some 1 := by decide
  obtain rfl := Option.some.inj (hfirst.symm.trans hm)
  exact absurd ha (by decide)

/-- The first free cell is not the last one when it is another one. -/
theorem headCell_ne_last {fs : FileSystem} {first : UInt32}
    (h : (freeCells fs.fat).head? = some first) (hne : first.toNat ≠ 511) :
    ∀ c ∈ (freeCells fs.fat).head?, c.toNat ≠ 511 := by
  intro c hc
  obtain rfl := Option.some.inj (h.symm.trans hc)
  exact hne

theorem fresh_headCell : (freeCells (freshFileSystem blankDisk).fat).head? = some 3 := by
  decide

/-- The file `a` of 508 clusters. -/
def bigFile : FAT32DriverRequest := rootRequest [97] 1040384

/-- The state after `a` was stored in all free cells but the last. -/
def afterBigFile : FileSystem :=
  fileWritten bigFile (freshFileSystem blankDisk) 3 ((List.range' 4 507).map UInt32.ofNat)

theorem fresh_freeCells : freeCells (freshFileSystem blankDisk).fat
    = (List.range' 3 509).map UInt32.ofNat := by decide +kernel

theorem fresh_freeCells_length : (freeCells (freshFileSystem blankDisk).fat).length = 509 := by
  rw [fresh_freeCells, List.length_map, List.length_range']

theorem take_bigFile : (freeCells (freshFileSystem blankDisk).fat).take (clusterCount bigFile)
    = 3 :: (List.range' 4 507).map UInt32.ofNat := by
  rw [fresh_freeCells]
  decide +kernel

theorem write_bigFile : OsyFat32.write zeroTable bigFile (freshFileSystem blankDisk)
    = some (0, afterBigFile) := by
  rw [write_file (by decide) (by decide) (by decide)]
  refine writeFile_eq (by decide) ?_ take_bigFile
  rw [fresh_freeCells]
  decide +kernel

theorem afterBigFile_freeCells : freeCells afterBigFile.fat = [511] := by
  rw [afterBigFile, fileWritten_fat, freeCells_linkCells take_bigFile, fresh_freeCells]
  decide +kernel

end OsyVolume
