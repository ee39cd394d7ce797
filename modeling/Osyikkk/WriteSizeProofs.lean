import Osyikkk.FileDeletionProofs

/-!
# Files of every size

A file request asks for `buffer_size / CLUSTER_SIZE` clusters, rounded down, and puts an array
of as many cells on the kernel stack. Sizes that are a multiple of the cluster size are stored
whole (`StoredWhole`) when there is room for that array. Any other size that finds its cells is
not: below one cluster the bound of the linking loop wraps and the call has no outcome, above
it the last part of the buffer is left out.
-/

namespace OsyVolume

open OsyDisk OsyFat32 LinkedChain RootedForest

variable {request : FAT32DriverRequest} {fs fs' : FileSystem} {newTable : FAT32DirectoryTable}
  {room : ℕ}

/-- The clusters that hold a number of bytes. -/
def clustersFor (size : ℕ) : ℕ := (size + (clusterSize - 1)) / clusterSize

/-- The entry of the request leads to a chain of as many clusters as its bytes need, and
    they are all there. -/
structure StoredWhole (request : FAT32DriverRequest) (fs fs' : FileSystem)
    (l : List UInt32) : Prop where
  used : (fs'.table request.parentClusterNumber (writeSlot request fs)).used
  file : (fs'.table request.parentClusterNumber (writeSlot request fs)).attr = attrArchive
  chain : FatChain fs'.fat
    (fs'.table request.parentClusterNumber (writeSlot request fs)).cluster l
  length : l.length = clustersFor request.bufferSize.toNat
  bytes : ∀ m, (hm : m < l.length) → ∀ k : Fin clusterSize,
    clusterSize * m + k < request.bufferSize.toNat →
    clusterAt fs'.disk l[m] k = request.buf (clusterSize * m + k)

/-- The call ends with an error that changed nothing, or with the whole buffer stored. -/
def SizeHandled (room : ℕ) (newTable : FAT32DirectoryTable) (request : FAT32DriverRequest)
    (fs : FileSystem) : Prop :=
  ∃ code fs', writeOnStack room newTable request fs = some (code, fs') ∧
    ((code ≠ 0 ∧ fs' = fs) ∨ (code = 0 ∧ ∃ l, StoredWhole request fs fs' l))

theorem clustersFor_eq_div_iff (size : ℕ) :
    size / clusterSize = clustersFor size ↔ clusterSize ∣ size := by
  simp only [clustersFor, clusterSize]
  omega

section Write

variable (hcons : FsConsistent fs) (hlive : Live fs.table request.parentClusterNumber)
  (hs : request.bufferSize ≠ 0)
include hcons hlive hs

theorem fileWritten_slot {k : ℕ} {c : UInt32} {rest : List UInt32}
    (htake : (freeCells fs.fat).take k = c :: rest) :
    (fileWritten request fs c rest).table request.parentClusterNumber (writeSlot request fs)
      = fileEntry request fs c := by
  rw [(fileWritten_inserted hcons hlive hs htake).entry, Function.update_self]

/-- A whole number of clusters is stored whole. -/
theorem fileWritten_whole {c : UInt32} {rest : List UInt32}
    (hlen : clusterCount request ≤ (freeCells fs.fat).length)
    (htake : (freeCells fs.fat).take (clusterCount request) = c :: rest)
    (hwhole : clusterSize ∣ request.bufferSize.toNat) :
    StoredWhole request fs (fileWritten request fs c rest) (c :: rest) := by
  have hslot := fileWritten_slot hcons hlive hs htake
  have hcount : (c :: rest).length = clusterCount request := by
    rw [← htake, List.length_take, Nat.min_eq_left hlen]
  constructor
  case used => exact hslot ▸ rfl
  case file => rw [hslot, fileEntry_attr c hs]
  case chain =>
    rw [hslot]
    exact (fileWritten_inserted hcons hlive hs htake).chain
  case length =>
    rw [hcount, clusterCount_eq]
    exact (clustersFor_eq_div_iff _).mpr hwhole
  case bytes =>
    intro m hm k _
    exact congrFun (fileWritten_data hcons hlive htake hm) k

/-- A file that finds its cells is stored whole only if it is whole clusters. -/
theorem SizeHandled.whole (h : SizeHandled room newTable request fs)
    (hn : request.name ≠ fun _ => 0)
    (hle : clusterCount request ≤ (freeCells fs.fat).length) :
    clusterSize ∣ request.bufferSize.toNat := by
  obtain ⟨code, fs', h, hcases⟩ := h
  have hp := live_not_reserved hcons hlive
  obtain ⟨-, h⟩ := writeOnStack_some hn hp h
  by_cases h0 : clusterCount request = 0
  · -- fewer bytes than a cluster, but not none
    rw [write_short hn hp hs h0] at h
    exact nomatch h
  obtain ⟨c, rest, htake, hstored⟩ := writeFile_stored h0 hle
  rw [write_file hn hp hs, hstored] at h
  obtain ⟨rfl, rfl⟩ := Prod.mk.inj (Option.some.inj h)
  obtain ⟨-, l, hwhole⟩ := hcases.resolve_left fun hcode => hcode.1 rfl
  have hchain := hwhole.chain
  rw [fileWritten_slot hcons hlive hs htake] at hchain
  -- the chain that was linked is the only one the entry leads to
  obtain rfl := chain_unique hchain (fileWritten_inserted hcons hlive hs htake).chain
  have hlength := hwhole.length
  rw [← htake, List.length_take, Nat.min_eq_left hle, clusterCount_eq] at hlength
  exact (clustersFor_eq_div_iff _).mp hlength

/-- **Every size is handled that finds room on the stack, and is refused there or is a multiple
    of the cluster size.** -/
theorem write_sizeHandled_iff (room : ℕ) (newTable : FAT32DirectoryTable) :
    SizeHandled room newTable request fs ↔
      request.name = (fun _ => 0) ∨
      (4 * (request.bufferSize.toNat / clusterSize) ≤ room ∧
        ((freeCells fs.fat).length < request.bufferSize.toNat / clusterSize ∨
          clusterSize ∣ request.bufferSize.toNat)) := by
  have hp := live_not_reserved hcons hlive
  rw [← clusterCount_eq request]
  by_cases hn : request.name = fun _ => 0
  · refine iff_of_true ⟨-1, fs, if_pos (emptyName_iff.mpr hn), Or.inl ⟨by decide, rfl⟩⟩ ?_
    exact Or.inl hn
  rw [or_iff_right hn]
  constructor
  · intro h
    have hfits : 4 * clusterCount request ≤ room := by
      obtain ⟨code, fs', hcall, -⟩ := h
      exact (writeOnStack_some hn hp hcall).1
    refine ⟨hfits, ?_⟩
    by_cases hlen : (freeCells fs.fat).length < clusterCount request
    · exact Or.inl hlen
    · exact Or.inr (h.whole hcons hlive hs hn (Nat.not_lt.mp hlen))
  · rintro ⟨hfits, h⟩
    rw [SizeHandled, writeOnStack_fits hfits]
    by_cases hlen : (freeCells fs.fat).length < clusterCount request
    · exact ⟨1, fs, write_fewCells hn hp (Or.inr ⟨hs, hlen⟩), Or.inl ⟨by decide, rfl⟩⟩
    have hwhole := h.resolve_left hlen
    have hle : clusterCount request ≤ (freeCells fs.fat).length := Nat.not_lt.mp hlen
    obtain ⟨c, rest, htake, hstored⟩ := writeFile_stored (clusterCount_ne_zero hs hwhole) hle
    exact ⟨0, _, (write_file hn hp hs).trans hstored,
      Or.inr ⟨rfl, _, fileWritten_whole hcons hlive hs hle htake hwhole⟩⟩

end Write

/-- The file of 508 clusters is handled. -/
theorem write_sizeHandled_bigFile :
    SizeHandled kernelStackSize zeroTable bigFile (freshFileSystem blankDisk) :=
  (write_sizeHandled_iff (fresh_consistent blankDisk) Reach.root (by decide) kernelStackSize
    zeroTable).mpr (Or.inr ⟨by decide, Or.inr (by decide)⟩)

/-- A file of one byte and one of a cluster and a byte are not handled. -/
theorem write_oddSizes :
    FsConsistent (freshFileSystem blankDisk) ∧
      ¬ SizeHandled kernelStackSize zeroTable (rootRequest [97] 1)
        (freshFileSystem blankDisk) ∧
      ¬ SizeHandled kernelStackSize zeroTable (rootRequest [97] 2049)
        (freshFileSystem blankDisk) := by
  have hcons := fresh_consistent blankDisk
  refine ⟨hcons, ?_, ?_⟩
  · intro h
    exact absurd (h.whole hcons Reach.root (by decide) rootName_a
      (by rw [fresh_freeCells_length]; decide)) (by decide)
  · intro h
    exact absurd (h.whole hcons Reach.root (by decide) rootName_a
      (by rw [fresh_freeCells_length]; decide)) (by decide)

end OsyVolume
