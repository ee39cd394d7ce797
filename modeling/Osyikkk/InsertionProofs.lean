import Osyikkk.Inserter
import Osyikkk.WriteSizeProofs

/-!
# What the inserter stores and what the kernel reads

One run of the inserter puts one entry into the root (`Placed`). The root is looked at
through `rootView`, in which the other directories are empty: the inserter never opens them,
so nothing is assumed of the uninitialised table that `write` stores for a directory.

A kernel that mounts the image reads the file back exactly when the first entry of its name
is a file of the right number of clusters that begins with its bytes (`HoldsContents`). That
fails for an empty file, for one of 4 GiB or more, and for a name that was taken.
-/

namespace OsyInserter

open OsyDisk OsyFat32 OsyVolume LinkedChain RootedForest

variable {request : FAT32DriverRequest} {fs fs' : FileSystem} {newTable : FAT32DirectoryTable}
  {name : EntryName} {contents : List UInt8} {e : FAT32DirectoryEntry} {l : List UInt32}

/-! ## The root -/

/-- The tables as far as the inserter looks at them. -/
def rootView (fs : FileSystem) : Tables := fun d =>
  if d = rootClusterNumber then fs.table rootClusterNumber
  else initDirectoryTable zeroTable (fun _ => 0) d

@[simp] theorem rootView_root (fs : FileSystem) :
    rootView fs rootClusterNumber = fs.table rootClusterNumber := if_pos rfl

theorem rootView_other (fs : FileSystem) {d : UInt32} (hd : d ≠ rootClusterNumber) :
    rootView fs d = initDirectoryTable zeroTable (fun _ => 0) d := if_neg hd

/-- What every run keeps. The used slots of the root come first: the inserter fills the
    first one that is free and never clears one. -/
structure RootSound (fs : FileSystem) : Prop where
  consistent : Consistent (rootView fs) fs.fat
  image : ImageInSync fs
  signed : ¬ isEmptyStorage fs.disk
  packed : ∀ i j, i ≤ j → (fs.table rootClusterNumber j).used →
    (fs.table rootClusterNumber i).used

theorem RootSound.usedSlot (h : RootSound fs) {i : Fin directoryEntryCount} (hi : i ≠ 0)
    (hn : (fs.table rootClusterNumber i).name ≠ fun _ => 0) :
    UsedSlot (rootView fs) rootClusterNumber i := by
  refine ⟨Reach.root, hi, h.consistent.used_of_name Reach.root ?_⟩
  rw [rootView_root]
  exact hn

theorem RootSound.congr (h : RootSound fs) (hfat : fs'.fat = fs.fat) (hdisk : fs'.disk = fs.disk) :
    RootSound fs' := by
  have hview : rootView fs' = rootView fs := by
    funext d
    rw [rootView, rootView, table_congr hdisk]
  constructor
  case consistent => exact hview ▸ hfat ▸ h.consistent
  case image => rw [ImageInSync, hdisk, hfat]; exact h.image
  case signed => exact hdisk ▸ h.signed
  case packed =>
    rw [table_congr hdisk]
    exact h.packed

/-- A process or a kernel that mounts the image finds what was there. -/
theorem RootSound.remount (h : RootSound fs) (memory : FAT32DriverState) :
    (initializeFilesystemFat32 { driverState := memory, disk := fs.disk }).fat = fs.fat ∧
    (initializeFilesystemFat32 { driverState := memory, disk := fs.disk }).disk = fs.disk :=
  ((reboots_of_image h.image h.signed).mounted memory).symm

theorem fresh_rootSound (disk : Disk) : RootSound (freshFileSystem disk) where
  consistent := by
    refine ConsistentWith.congr (fresh_consistent disk) ?_ (fun _ _ => rfl)
    intro d hd
    rw [fresh_live disk hd, rootView_root]
  image := fresh_imageInSync disk
  signed := fresh_not_empty disk
  packed i j hij hj := by
    by_cases h0 : j = 0
    · rw [h0] at hij hj
      rwa [Fin.le_zero_iff.mp hij]
    · exact absurd hj (fresh_unused disk h0)

/-! ## Reading back -/

/-- The lookup of a name without extension in the root. -/
def rootLookup (name : EntryName) : FAT32DriverRequest where
  buf := fun _ => 0
  name := name
  ext := fun _ => 0
  parentClusterNumber := rootClusterNumber
  bufferSize := 0

/-- A buffer of so many bytes holds a file of `length` bytes, as no file has more clusters
    than the file allocation table has cells. -/
def largeEnough (length : ℕ) : ℕ := clusterSize * min (clustersFor length) clusterMapSize

/-- Every kernel that mounts the image reads a file under the name, and its first bytes are
    the given ones. -/
def ReadBack (image : Disk) (name : EntryName) (contents : List UInt8) : Prop :=
  ∀ (memory : FAT32DriverState) (r : FAT32DriverRequest), keyOf r = keyOf (rootLookup name) →
    r.bufferSize ≠ 0 → largeEnough contents.length ≤ r.bufferSize.toNat →
    let kernel := initializeFilesystemFat32 { driverState := memory, disk := image }
    ∃ buf i, OsyFat32.read r kernel = some (0, buf) ∧
      (List.range contents.length).map buf = contents ∧
      firstMatch r (kernel.table rootClusterNumber) = some i ∧
      (kernel.table rootClusterNumber i).attr = attrArchive

/-- The first entry of the name is a file of as many clusters as the bytes need, and begins
    with them. -/
def HoldsContents (fs : FileSystem) (name : EntryName) (contents : List UInt8) : Prop :=
  ∃ i, firstMatch (rootLookup name) (fs.table rootClusterNumber) = some i ∧
    (fs.table rootClusterNumber i).attr = attrArchive ∧
    contents <+: chainBytes fs (fs.table rootClusterNumber i).cluster ∧
    (chainBytes fs (fs.table rootClusterNumber i).cluster).length
      = clusterSize * clustersFor contents.length

theorem range_map_prefix {α : Type} (f : ℕ → α) {m n : ℕ} (h : m ≤ n) :
    (List.range m).map f <+: (List.range n).map f := by
  rw [← Nat.min_eq_left h, ← List.take_range, List.map_take]
  exact List.take_prefix _ _

theorem le_clustersFor (length : ℕ) : length ≤ clusterSize * clustersFor length := by
  simp only [clustersFor, clusterSize]
  omega

theorem clustersFor_le {length n : ℕ} (h : length ≤ clusterSize * n) : clustersFor length ≤ n := by
  simp only [clustersFor, clusterSize] at h ⊢
  omega

/-- A buffer of its own for each cell is large enough. -/
theorem largeEnough_lt (length : ℕ) : largeEnough length < UInt32.size := by
  have hmin := Nat.min_le_right (clustersFor length) clusterMapSize
  simp only [largeEnough, clusterSize, clusterMapSize, UInt32.size] at hmin ⊢
  omega

/-- Reading looks at the file allocation table and the disk only. -/
theorem read_kernel {kernel : FileSystem} (hfat : kernel.fat = fs.fat)
    (hdisk : kernel.disk = fs.disk) (r : FAT32DriverRequest) :
    OsyFat32.read r kernel = OsyFat32.read r fs := by
  unfold OsyFat32.read
  rw [table_congr hdisk, hfat, hdisk]

/-- A buffer that differs from the contents everywhere shows where the copied bytes end. -/
theorem length_le_of_copied {disk : Disk} {l : List UInt32} {buf : Memory}
    (hbuf : ∀ n, buf n ≠ contents.getD n 0)
    (hmap : (List.range contents.length).map (copyClusters disk buf 0 l) = contents) :
    contents.length ≤ clusterSize * l.length := by
  by_contra hlt
  have hk : clusterSize * l.length < contents.length := Nat.not_le.mp hlt
  -- the byte behind the chain is one of the buffer's own
  have hbyte := congrArg (fun bytes => bytes.getD (clusterSize * l.length) 0) hmap
  simp only [List.getD_eq_getElem?_getD, List.getElem?_map, List.getElem?_range hk,
    Option.map_some, Option.getD_some] at hbyte
  rw [copyClusters_outside _ _ (Or.inr (by rw [Nat.zero_add])),
    ← List.getD_eq_getElem?_getD] at hbyte
  exact hbuf _ hbyte

section ReadBack

variable (hsound : RootSound fs) (hn : name ≠ fun _ => 0)
include hsound hn

theorem RootSound.readBack (h : HoldsContents fs name contents) :
    ReadBack fs.disk name contents := by
  intro memory r hkey hs hlarge
  obtain ⟨hfat, hdisk⟩ := hsound.remount memory
  obtain ⟨i, hm, ha, hfront, hlen⟩ := h
  obtain ⟨q, hq, -⟩ := hsound.consistent.chain
    (hsound.usedSlot (firstMatch_some hm).1 ((firstMatch_some hm).2.1 ▸ hn))
  rw [rootView_root] at hq
  rw [chainBytes_eq hq] at hfront hlen
  rw [length_flatMap_clusterBytes] at hlen
  obtain ⟨hparent, hne⟩ := Prod.mk.inj hkey
  obtain ⟨hname, hext⟩ := Prod.mk.inj hne
  have hp : r.parentClusterNumber = rootClusterNumber := hparent
  have hfound : firstMatch r (fs.table rootClusterNumber) = some i := by
    refine (firstMatch_congr ?_).trans hm
    intro j
    rw [Matches, Matches, hname, hext]
  have hcount : q.length ≤ clusterCount r := by
    have hcells := fatChain_length_le hq
    rw [clusterCount_eq]
    simp only [largeEnough, clusterSize] at hlarge hlen
    omega
  have hread := read_kernel hfat hdisk r
  refine ⟨copyClusters fs.disk r.buf 0 q, i, ?_, ?_, ?_, ?_⟩
  · rw [hread]
    exact read_eq (hname ▸ hn) hs (hp.symm ▸ hfound) (hp.symm ▸ hq) hcount
  · -- the bytes are the first ones of the chain
    have hbytes := copyClusters_bytes fs.disk r.buf q
    rw [← hbytes] at hfront
    have htake := List.prefix_iff_eq_take.mp hfront
    rw [← List.map_take, List.take_range, Nat.min_eq_left] at htake
    · exact htake.symm
    · have hle := le_clustersFor contents.length
      omega
  · rwa [table_congr hdisk]
  · rwa [table_congr hdisk]

/-- With a buffer of exactly the size, filled with other bytes, the read shows what the
    chain holds. -/
theorem RootSound.holdsContents (h : ReadBack fs.disk name contents) :
    HoldsContents fs name contents := by
  obtain ⟨hfat, hdisk⟩ := hsound.remount fs.driverState
  -- a buffer that differs from the contents everywhere, so what it shows was read
  let r : FAT32DriverRequest :=
    { rootLookup name with
      buf := fun k => if contents.getD k 0 = 0 then 1 else 0
      bufferSize := UInt32.ofNat (max 1 (largeEnough contents.length)) }
  have hsize : r.bufferSize.toNat = max 1 (largeEnough contents.length) := by
    refine UInt32.toNat_ofNat_of_lt' ?_
    exact max_lt (by decide) (largeEnough_lt contents.length)
  have hs : r.bufferSize ≠ 0 := by
    intro h0
    rw [h0] at hsize
    exact absurd hsize (Nat.ne_of_lt (le_max_left 1 _))
  obtain ⟨buf, i, hread, hmap, hm, ha⟩ :=
    h fs.driverState r rfl hs (hsize ▸ le_max_right 1 _)
  rw [table_congr hdisk] at hm ha
  rw [read_kernel hfat hdisk] at hread
  have hslot := hsound.usedSlot (firstMatch_some hm).1 ((firstMatch_some hm).2.1 ▸ hn)
  obtain ⟨q, hq, hne, -⟩ := hsound.consistent.chain hslot
  rw [rootView_root] at hq
  have hcount : q.length ≤ clusterCount r := by
    by_contra hsmall
    rw [read_tooSmall hn hs hm hq (Nat.not_le.mp hsmall)] at hread
    exact absurd (Prod.mk.inj (Option.some.inj hread)).1 (by decide)
  rw [read_eq hn hs hm hq hcount] at hread
  obtain ⟨-, rfl⟩ := Prod.mk.inj (Option.some.inj hread)
  have hle : contents.length ≤ clusterSize * q.length := by
    refine length_le_of_copied ?_ hmap
    intro n
    show (if contents.getD n 0 = 0 then 1 else 0) ≠ contents.getD n 0
    split
    · next h0 =>
        rw [h0]
        decide
    · next h0 => exact fun h => h0 h.symm
  refine ⟨i, hm, ha, ?_, ?_⟩
  · have hbytes := range_map_prefix (copyClusters fs.disk r.buf 0 q) hle
    rw [hmap, copyClusters_bytes] at hbytes
    rw [chainBytes_eq hq]
    exact hbytes
  · have hfor := clustersFor_le hle
    have hpos := List.length_pos_iff.mpr hne
    rw [chainBytes_eq hq, length_flatMap_clusterBytes]
    refine congrArg _ (le_antisymm ?_ hfor)
    rw [clusterCount_eq, hsize] at hcount
    simp only [largeEnough, clusterSize] at hcount
    omega

end ReadBack

/-! ## One entry more -/

section Placed

variable (hroot : request.parentClusterNumber = rootClusterNumber)
  (h : Placed request fs fs' e l)
include hroot h

theorem placed_root : fs'.table rootClusterNumber
    = Function.update (fs.table rootClusterNumber) (idxEmpty (fs.table rootClusterNumber)) e := by
  have htable := h.table
  rwa [writeSlot, hroot] at htable

variable (hsound : RootSound fs)
include hsound

/-- Seen from the root this is an insertion. -/
theorem rootView_inserted : Inserted (rootView fs) (rootView fs') fs.fat fs'.fat
    rootClusterNumber (idxEmpty (fs.table rootClusterNumber)) e l := by
  -- the chain of the entry starts at a cell that was free, so not at the root
  have hne : e.cluster ≠ rootClusterNumber := by
    intro heq
    have hfree := h.fresh e.cluster (chain_start_mem h.chain h.nonempty)
    rw [heq] at hfree
    exact hsound.consistent.reserved rootClusterNumber (by decide) hfree
  constructor
  case live => exact Reach.root
  case slot =>
    rw [rootView_root]
    exact (idxEmpty_spec (fs.table rootClusterNumber)).symm.imp And.left id
  case entry =>
    rw [rootView_root, rootView_root]
    exact placed_root hroot h
  case used => exact h.used
  case others =>
    intro d _ hd
    rw [rootView_other fs' hd, rootView_other fs hd]
  case fresh => exact h.fresh
  case chain => exact h.chain
  case nonempty => exact h.nonempty
  case kept => exact h.kept
  case dirSelf =>
    intro _
    rw [rootView_other fs' hne]
    exact (initDirectoryTable_self zeroTable (fun _ => 0) e.cluster).1
  case dirLeft =>
    intro _ i hi
    rw [rootView_other fs' hne, initDirectoryTable_ne _ _ _ hi]
    exact ⟨zero_not_used, rfl⟩

/-- What an entry of the root leads to keeps its bytes. -/
theorem root_chainBytes_kept {i : Fin directoryEntryCount}
    (hs : UsedSlot (rootView fs) rootClusterNumber i) :
    chainBytes fs' (fs.table rootClusterNumber i).cluster
      = chainBytes fs (fs.table rootClusterNumber i).cluster := by
  have hcons := hsound.consistent
  obtain ⟨q, hq, -, h3⟩ := hcons.chain hs
  have hq' := (rootView_inserted hroot h hsound).chain_kept hcons hs hq
  rw [rootView_root] at hq hq'
  rw [chainBytes_eq hq, chainBytes_eq hq']
  refine List.flatMap_congr ?_
  intro c hc
  have hlt := fatChain_lt hq hc
  rw [clusterBytes, clusterBytes, h.clusters c ?_ ?_ ?_]
  · -- the root is no cluster of a file
    rw [hroot]
    refine drivePlace_ne hlt (by decide) ?_
    rintro rfl
    exact absurd (h3 _ hc) (by decide)
  · exact place_ne_fatCluster (Nat.le_of_succ_le (h3 c hc)) hlt
  · intro d hd
    refine drivePlace_ne hlt (clusterMapGet_lt (h.fresh d hd)) ?_
    rintro rfl
    exact hcons.owned_ne_free hs ((rootView_root fs).symm ▸ hq) hc (h.fresh _ hd)

theorem rootSound_placed : RootSound fs' := by
  have hins := rootView_inserted hroot h hsound
  constructor
  case consistent => exact hins.consistent hsound.consistent
  case image => exact h.image
  case signed =>
    refine mt (isEmptyStorage_congr (h.clusters bootSector ?_ (by decide) ?_)).mp
      hsound.signed
    · rw [hroot]
      decide
    intro c hc
    exact place_ne_boot (Nat.le_of_succ_le (hins.fresh_range hsound.consistent hc))
      (clusterMapGet_lt (h.fresh c hc))
  case packed =>
    intro i j hij hj
    rw [placed_root hroot h] at hj ⊢
    by_cases hi : i = idxEmpty (fs.table rootClusterNumber)
    · rw [hi, Function.update_self]
      exact h.used
    rw [Function.update_of_ne hi]
    by_cases hjidx : j = idxEmpty (fs.table rootClusterNumber)
    · -- the slots before the first free one are used
      exact used_of_lt_idxEmpty (lt_of_le_of_ne (hjidx ▸ hij) hi)
    · rw [Function.update_of_ne hjidx] at hj
      exact hsound.packed i j hij hj

/-- A name that was there is looked up as before. -/
theorem holds_old {i : Fin directoryEntryCount} (hn : name ≠ fun _ => 0)
    (hm : firstMatch (rootLookup name) (fs.table rootClusterNumber) = some i) :
    HoldsContents fs' name contents ↔ HoldsContents fs name contents := by
  obtain ⟨hmatch, hfirst⟩ := firstMatch_eq_some_iff.mp hm
  have hslot := hsound.usedSlot hmatch.1 (hmatch.2.1 ▸ hn)
  have hused := hslot.used
  rw [rootView_root] at hused
  -- the slot that was free is behind it
  have hkept : ∀ j, j ≠ 0 → j ≤ i →
      fs'.table rootClusterNumber j = fs.table rootClusterNumber j := by
    intro j h0 hj
    rw [placed_root hroot h, Function.update_of_ne]
    rintro rfl
    refine (idxEmpty_spec (fs.table rootClusterNumber)).elim (fun hfree => ?_) fun hfull => ?_
    · exact hfree (hsound.packed _ i hj hused)
    · exact h0 hfull.1
  have hm' : firstMatch (rootLookup name) (fs'.table rootClusterNumber) = some i := by
    refine firstMatch_eq_some_iff.mpr ⟨?_, ?_⟩
    · rw [Matches, hkept i hmatch.1 le_rfl]
      exact hmatch
    · intro j hj hmatch'
      rw [Matches, hkept j hmatch'.1 hj.le] at hmatch'
      exact hfirst j hj hmatch'
  simp only [HoldsContents, hm, hm', Option.some.injEq, exists_eq_left',
    hkept i hmatch.1 le_rfl, root_chainBytes_kept hroot h hsound hslot]

omit hsound in
/-- A name that was not there is found in the new slot. -/
theorem holds_new
    (hnone : firstMatch (rootLookup request.name) (fs.table rootClusterNumber) = none)
    (hholds : HoldsContents fs' request.name contents) :
    idxEmpty (fs.table rootClusterNumber) ≠ 0 ∧ e.attr = attrArchive ∧
      contents <+: chainBytes fs' e.cluster ∧
      (chainBytes fs' e.cluster).length = clusterSize * clustersFor contents.length := by
  obtain ⟨i, hm, hrest⟩ := hholds
  have hmatch := firstMatch_some hm
  rw [placed_root hroot h] at hmatch hrest
  by_cases hi : i = idxEmpty (fs.table rootClusterNumber)
  · rw [hi, Function.update_self] at hrest
    exact ⟨hi ▸ hmatch.1, hrest⟩
  · rw [Matches, Function.update_of_ne hi] at hmatch
    exact absurd hmatch (firstMatch_eq_none.mp hnone i)

end Placed

/-! ## One run -/

namespace InserterRun

variable (k : InserterRun)

/-- Every length is rounded to whole clusters. -/
theorem request_whole : clusterSize ∣ k.request.bufferSize.toNat := by
  rw [request_size, roundFilesize]
  split
  · simp only [UInt64.toNat_toUInt32, UInt64.toNat_mul, UInt64.toNat_ofNat, clusterSize]
    omega
  · next h0 =>
      rw [not_not.mp h0]
      exact Dvd.intro 0 rfl

/-- Below 4 GiB the request is for the clusters the file needs. -/
theorem request_size_eq (h : clusterSize * clustersFor k.contents.length < 2 ^ 32) :
    k.request.bufferSize.toNat = clusterSize * clustersFor k.contents.length := by
  have hlen := le_clustersFor k.contents.length
  have hof : (UInt64.ofNat k.contents.length).toNat = k.contents.length :=
    UInt64.toNat_ofNat_of_lt' (by simp only [UInt64.size]; omega)
  rw [request_size, roundFilesize]
  split
  · next h0 =>
      have hpos : 1 ≤ k.contents.length := by
        rw [Nat.one_le_iff_ne_zero]
        intro hzero
        rw [hzero] at h0
        exact h0 rfl
      have hsub : (UInt64.ofNat k.contents.length - 1).toNat = k.contents.length - 1 := by
        have hle : (1 : UInt64) ≤ UInt64.ofNat k.contents.length := by
          rw [UInt64.le_iff_toNat_le, hof]
          exact hpos
        rw [UInt64.toNat_sub_of_le _ _ hle, hof]
        rfl
      simp only [UInt64.toNat_toUInt32, UInt64.toNat_mul, UInt64.toNat_add, UInt64.toNat_div,
        UInt64.toNat_ofNat, hsub, clustersFor, clusterSize, Nat.reduceMod, Nat.reducePow] at h ⊢
      omega
  · next h0 =>
      have hzero : k.contents.length = 0 := by
        rw [← hof, not_not.mp h0]
        rfl
      rw [hzero]
      rfl

/-- The run reports an error. -/
def Refused (fs : FileSystem) : Prop :=
  k.name = (fun _ => 0) ∨ FewCells k.request fs ∨
    (k.request.bufferSize = 0 ∧ ∃ c ∈ (freeCells fs.fat).head?, c.toNat = 511)

/-- What a run that is not refused does to the file system it mounts. -/
inductive Inserts (fs : FileSystem) : FileSystem → Prop where
  | directory {c : UInt32} : k.request.bufferSize = 0 → c ∈ freeCells fs.fat →
      Inserts fs (directoryWritten k.newTable k.request fs c)
  | file {c : UInt32} {rest : List UInt32} : k.request.bufferSize ≠ 0 →
      clusterCount k.request ≤ (freeCells fs.fat).length →
      (freeCells fs.fat).take (clusterCount k.request) = c :: rest →
      Inserts fs (fileWritten k.request fs c rest)

theorem request_place :
    drivePlace k.request.parentClusterNumber ≠ drivePlace fatClusterNumber := by
  rw [request_parent]
  decide

theorem request_not_reserved : ¬ k.request.parentClusterNumber < 2 := by
  rw [request_parent]
  decide

variable {k}

theorem Refused.write (h : k.Refused fs) :
    ∃ code fs', OsyFat32.write k.newTable k.request fs = some (code, fs') ∧
      code ≠ 0 ∧ fs'.disk = fs.disk := by
  by_cases hn : k.request.name = fun _ => 0
  · exact ⟨-1, _, write_emptyName hn, by decide, rfl⟩
  have hp := k.request_not_reserved
  rcases h.resolve_left hn with hfew | ⟨hs, c, hc, hlast⟩
  · exact ⟨1, _, write_fewCells hn hp hfew, by decide, rfl⟩
  · -- the cell stays taken in memory, and the memory is lost with the process
    obtain ⟨rest, hfree⟩ := List.head?_eq_some_iff.mp hc
    exact ⟨1, _, (write_directory hn hp hs).trans
      (congrArg some (writeDirectory_lastCell hfree hlast)), by decide, rfl⟩

theorem inserts_of_not_refused (h : ¬ k.Refused fs) :
    ∃ fs', OsyFat32.write k.newTable k.request fs = some (0, fs') ∧
      k.Inserts fs fs' := by
  simp only [Refused, not_or, not_and, not_exists] at h
  obtain ⟨hn, hfew, hlast⟩ := h
  have hp := k.request_not_reserved
  by_cases hs : k.request.bufferSize = 0
  · cases hfree : freeCells fs.fat with
    | nil => exact absurd (Or.inl ⟨hs, hfree⟩) hfew
    | cons c rest =>
        have hhead : (freeCells fs.fat).head? = some c := by rw [hfree]; rfl
        exact ⟨_, (write_directory hn hp hs).trans
          (congrArg some (writeDirectory_eq hfree (hlast hs c hhead))),
          .directory hs (hfree ▸ List.mem_cons_self)⟩
  · have hlen : clusterCount k.request ≤ (freeCells fs.fat).length := by
      refine Nat.not_lt.mp ?_
      intro hlt
      exact hfew (Or.inr ⟨hs, hlt⟩)
    obtain ⟨c, rest, htake, hwrite⟩ :=
      writeFile_stored (clusterCount_ne_zero hs k.request_whole) hlen
    exact ⟨_, (write_file hn hp hs).trans hwrite, .file hs hlen htake⟩

theorem Inserts.placed (h : k.Inserts fs fs') : ∃ e l, Placed k.request fs fs' e l := by
  cases h with
  | directory _ hc => exact ⟨_, _, directoryWritten_placed k.request_place hc⟩
  | file _ _ htake => exact ⟨_, _, fileWritten_placed k.request_place htake⟩

variable (k) in
/-- The run is refused, or the name is stored with these bytes already, or it is new, the
    root has a free slot and the file has between 1 byte and 4 GiB. -/
def Insertable (fs : FileSystem) : Prop :=
  k.Refused fs ∨ HoldsContents fs k.name k.contents ∨
    (firstMatch (rootLookup k.name) (fs.table rootClusterNumber) = none ∧
      (∃ i, ¬ (fs.table rootClusterNumber i).used) ∧ k.contents ≠ [] ∧
      clusterSize * clustersFor k.contents.length < 2 ^ 32)

section File

variable {c : UInt32} {rest : List UInt32} (hsound : RootSound fs)
  (hle : clusterCount k.request ≤ (freeCells fs.fat).length)
  (htake : (freeCells fs.fat).take (clusterCount k.request) = c :: rest)
include hsound htake

theorem file_chainBytes : chainBytes (fileWritten k.request fs c rest)
      (fileEntry k.request fs c).cluster
    = (List.range (clusterSize * (c :: rest).length)).map k.request.buf := by
  rw [chainBytes_eq (fileWritten_placed k.request_place htake).chain]
  refine flatMap_buffer k.request.buf ?_
  intro m hm
  refine fileWritten_clusterAt_cell htake hm ?_
  have hfree := (taken_free htake (List.getElem_mem hm)).2
  rw [request_parent]
  refine drivePlace_ne (clusterMapGet_lt hfree) (by decide) ?_
  intro heq
  rw [heq] at hfree
  exact hsound.consistent.reserved rootClusterNumber (by decide) hfree

omit hsound in
include hle in
theorem file_length : (c :: rest).length = k.request.bufferSize.toNat / clusterSize := by
  rw [← htake, List.length_take, Nat.min_eq_left hle, clusterCount_eq]

include hle in
/-- A file of the right length under a new name, in a root with a free slot. -/
theorem file_holds (hs : k.request.bufferSize ≠ 0)
    (hnone : firstMatch (rootLookup k.name) (fs.table rootClusterNumber) = none)
    (hfree : ∃ i, ¬ (fs.table rootClusterNumber i).used)
    (hsize : clusterSize * clustersFor k.contents.length < 2 ^ 32) :
    HoldsContents (fileWritten k.request fs c rest) k.name k.contents := by
  have hplaced := fileWritten_placed k.request_place htake
  have hbytes := file_chainBytes hsound htake
  have hlen : clusterSize * (c :: rest).length = clusterSize * clustersFor k.contents.length := by
    rw [file_length hle htake, k.request_size_eq hsize, Nat.mul_div_cancel_left _ (by decide)]
  obtain ⟨i, hi⟩ := hfree
  have h0 : idxEmpty (fs.table rootClusterNumber) ≠ 0 := by
    intro h0
    have hself := hsound.consistent.selfUsed Reach.root
    rw [rootView_root] at hself
    exact idxEmpty_unused hi (h0 ▸ hself)
  refine ⟨idxEmpty (fs.table rootClusterNumber), ?_, ?_, ?_, ?_⟩
  · refine firstMatch_unique ⟨h0, ?_, ?_⟩ ?_
    · rw [placed_root k.request_parent hplaced, Function.update_self]
      rfl
    · rw [placed_root k.request_parent hplaced, Function.update_self]
      rfl
    · intro j hj
      by_contra hne
      rw [Matches, placed_root k.request_parent hplaced, Function.update_of_ne hne] at hj
      exact firstMatch_eq_none.mp hnone j hj
  · rw [placed_root k.request_parent hplaced, Function.update_self]
    exact fileEntry_attr c hs
  · rw [placed_root k.request_parent hplaced, Function.update_self, hbytes, hlen]
    -- the buffer begins with the file, which is shorter than 4 MiB
    have hcells := fatChain_length_le hplaced.chain
    have hlong := le_clustersFor k.contents.length
    have hbuf : (List.range k.contents.length).map k.request.buf = k.contents := by
      refine List.ext_getElem (by simp) ?_
      intro m _ hm
      rw [List.getElem_map, List.getElem_range]
      refine (if_pos ?_).trans ((List.getElem_eq_getD _).symm)
      simp only [clusterSize, clusterMapSize] at hlen hlong hcells
      omega
    have hfront := range_map_prefix k.request.buf hlong
    rwa [hbuf] at hfront
  · rw [placed_root k.request_parent hplaced, Function.update_self, hbytes, List.length_map,
      List.length_range, hlen]

end File

/-- What the kernel will find is decided by the state before the run. -/
theorem Inserts.holds_iff (hsound : RootSound fs) (hn : k.name ≠ fun _ => 0)
    (h : k.Inserts fs fs') :
    HoldsContents fs' k.name k.contents ↔ HoldsContents fs k.name k.contents ∨
      (firstMatch (rootLookup k.name) (fs.table rootClusterNumber) = none ∧
        (∃ i, ¬ (fs.table rootClusterNumber i).used) ∧ k.contents ≠ [] ∧
        clusterSize * clustersFor k.contents.length < 2 ^ 32) := by
  cases hm : firstMatch (rootLookup k.name) (fs.table rootClusterNumber) with
  | some i =>
      obtain ⟨e, l, hplaced⟩ := h.placed
      rw [holds_old k.request_parent hplaced hsound hn hm]
      simp
  | none =>
      have hold : ¬ HoldsContents fs k.name k.contents := by
        rintro ⟨i, hi, -⟩
        rw [hm] at hi
        exact nomatch hi
      rw [or_iff_right hold, and_iff_right rfl]
      constructor
      · intro hholds
        obtain ⟨e, l, hplaced⟩ := h.placed
        obtain ⟨h0, ha, -, hlen⟩ := holds_new k.request_parent hplaced hm hholds
        have hfree : ¬ (fs.table rootClusterNumber (idxEmpty (fs.table rootClusterNumber))).used :=
          (idxEmpty_spec _).resolve_right fun hfull => h0 hfull.1
        -- the chain of the entry has a cluster, and at most as many as there are cells
        have hcells := fatChain_length_le hplaced.chain
        have hpos := List.length_pos_iff.mpr hplaced.nonempty
        rw [chainBytes_eq hplaced.chain, length_flatMap_clusterBytes] at hlen
        refine ⟨⟨_, hfree⟩, ?_, ?_⟩
        · intro hnil
          rw [hnil] at hlen
          simp only [List.length_nil, clustersFor, clusterSize] at hlen
          omega
        · rw [← hlen]
          simp only [clusterSize, clusterMapSize] at hcells ⊢
          omega
      · rintro ⟨hfree, hne, hsize⟩
        cases h with
        | directory hs _ =>
            have hzero := k.request_size_eq hsize
            rw [hs] at hzero
            have hlong := le_clustersFor k.contents.length
            rw [← hzero] at hlong
            exact absurd (List.length_eq_zero_iff.mp (Nat.le_zero.mp hlong)) hne
        | file hs hle htake => exact file_holds hsound hle htake hs hm hfree hsize

variable (k) in
/-- The run has an outcome, and after a reported success every kernel reads the bytes. -/
def ReadAfter (image : Disk) : Prop :=
  ∃ code image', k.main image = some (code, image') ∧
    (code = 0 → ReadBack image' k.name k.contents)

theorem main_eq {image : Disk} {code : Int8}
    (h : OsyFat32.write k.newTable k.request (mountImage image) = some (code, fs')) :
    k.main image = some (code, fs'.disk) := by
  rw [main, inserterMain]
  exact congrArg (Option.map fun result => (result.1, result.2.disk)) h

theorem Inserts.rootSound (hsound : RootSound fs) (h : k.Inserts fs fs') : RootSound fs' := by
  obtain ⟨e, l, hplaced⟩ := h.placed
  exact rootSound_placed k.request_parent hplaced hsound

theorem readAfter_iff {image : Disk} (hsound : RootSound (mountImage image)) :
    k.ReadAfter image ↔ k.Insertable (mountImage image) := by
  by_cases hrefused : k.Refused (mountImage image)
  · obtain ⟨code, fs', hwrite, hcode, -⟩ := hrefused.write
    exact iff_of_true ⟨code, fs'.disk, main_eq hwrite, fun h => absurd h hcode⟩ (Or.inl hrefused)
  obtain ⟨fs', hwrite, hins⟩ := inserts_of_not_refused hrefused
  have hn : k.name ≠ fun _ => 0 := fun hn => hrefused (Or.inl hn)
  have hsound' := hins.rootSound hsound
  rw [Insertable, or_iff_right hrefused, ← hins.holds_iff hsound hn]
  constructor
  · rintro ⟨code, image', hmain, hread⟩
    obtain ⟨rfl, rfl⟩ := Prod.mk.inj (Option.some.inj ((main_eq hwrite).symm.trans hmain))
    exact hsound'.holdsContents hn (hread rfl)
  · intro hholds
    exact ⟨0, fs'.disk, main_eq hwrite, fun _ => hsound'.readBack hn hholds⟩

end InserterRun

/-! ## Runs on one image -/

/-- The image after a run. -/
def insertStep (image : Disk) (k : InserterRun) : Option Disk := (k.main image).map Prod.snd

theorem RootSound.mount_eq (h : RootSound fs) :
    (mountImage fs.disk).fat = fs.fat ∧ (mountImage fs.disk).disk = fs.disk := by
  rw [mountImage, bootState]
  exact h.remount _

theorem RootSound.mounted (h : RootSound fs) : RootSound (mountImage fs.disk) :=
  h.congr h.mount_eq.1 h.mount_eq.2

theorem mountImage_empty {image : Disk} (h : isEmptyStorage image) :
    mountImage image = freshFileSystem image := by
  rw [mountImage, initializeFilesystemFat32]
  exact if_pos h

theorem insertStep_rootSound {image image' : Disk} {k : InserterRun}
    (hsound : RootSound (mountImage image)) (h : insertStep image k = some image') :
    RootSound (mountImage image') := by
  by_cases hrefused : k.Refused (mountImage image)
  · obtain ⟨code, fs', hwrite, -, hdisk⟩ := hrefused.write
    rw [insertStep, InserterRun.main_eq hwrite, Option.map_some] at h
    have hmounted := RootSound.mounted hsound
    rw [← hdisk] at hmounted
    obtain rfl := Option.some.inj h
    exact hmounted
  · obtain ⟨fs', hwrite, hins⟩ := InserterRun.inserts_of_not_refused hrefused
    rw [insertStep, InserterRun.main_eq hwrite, Option.map_some] at h
    obtain rfl := Option.some.inj h
    exact (hins.rootSound hsound).mounted

/-- **The kernel reads what the inserter stored, exactly when every run of the sequence is
    refused, repeats a file, or is for a new name and a file that is neither empty nor
    4 GiB long, with a free slot in the root.** -/
theorem inserted_isRead_iff {image : Disk} (h : isEmptyStorage image)
    (runs : List InserterRun) :
    PartialRun.Guarded insertStep (fun image k => k.ReadAfter image) image runs ↔
      PartialRun.Guarded insertStep (fun image k => k.Insertable (mountImage image)) image
        runs := by
  have hsound : RootSound (mountImage image) := by
    rw [mountImage_empty h]
    exact fresh_rootSound image
  have hstep : ∀ image k image', RootSound (mountImage image) →
      insertStep image k = some image' → RootSound (mountImage image') := by
    intro image k image' hsound hstep
    exact insertStep_rootSound hsound hstep
  refine PartialRun.guarded_congr insertStep hstep ?_ hsound
  intro image k hsound
  exact InserterRun.readAfter_iff hsound

/-- A run that inserts a file `a`. -/
def runOf (contents : List UInt8) : InserterRun where
  argv1 := [97]
  contents := contents
  fileBuffer := fun _ => 0
  newTable := zeroTable

theorem runOf_named (contents : List UInt8) : (runOf contents).name ≠ fun _ => 0 := by
  intro h
  have h0 : (97 : UInt8) = 0 := congrFun h 0
  exact absurd h0 (by decide)

theorem fresh_lookup (disk : Disk) (hn : name ≠ fun _ => 0) :
    firstMatch (rootLookup name) ((freshFileSystem disk).table rootClusterNumber) = none := by
  refine firstMatch_eq_none.mpr ?_
  rintro i ⟨h0, hname, -⟩
  rw [fresh_slot disk h0] at hname
  exact hn hname

theorem blankDisk_empty : isEmptyStorage blankDisk := by decide +kernel

theorem blankDisk_sound : RootSound (mountImage blankDisk) := by
  rw [mountImage_empty blankDisk_empty]
  exact fresh_rootSound blankDisk

/-- A file of a byte or more and below 4 GiB can be inserted first. -/
theorem runOf_insertable {contents : List UInt8} (hne : contents ≠ [])
    (hsize : clusterSize * clustersFor contents.length < 2 ^ 32) :
    (runOf contents).Insertable (mountImage blankDisk) := by
  rw [mountImage_empty blankDisk_empty]
  exact Or.inr (Or.inr ⟨fresh_lookup blankDisk (runOf_named contents),
    ⟨1, fresh_unused blankDisk (by decide)⟩, hne, hsize⟩)

/-- A file of a cluster and a byte is read from the image. -/
theorem inserted_isRead_twoClusters :
    PartialRun.Guarded insertStep (fun image k => k.ReadAfter image) blankDisk
      [runOf (List.replicate 2049 65)] := by
  refine (inserted_isRead_iff blankDisk_empty _).mpr ⟨?_, fun _ _ => trivial⟩
  refine runOf_insertable ?_ ?_
  · rw [List.replicate_succ]
    exact List.cons_ne_nil _ _
  · rw [List.length_replicate]
    decide

/-- A run is not refused while there are cells for it, the last one apart. -/
theorem runOf_not_refused {contents : List UInt8} {c : UInt32}
    (hfree : (freeCells fs.fat).head? = some c) (hc : c.toNat ≠ 511)
    (hcells : clusterCount (runOf contents).request ≤ (freeCells fs.fat).length) :
    ¬ (runOf contents).Refused fs := by
  rintro (hn | hfew | ⟨-, d, hd, hlast⟩)
  · exact runOf_named contents hn
  · rcases hfew with ⟨-, hnil⟩ | ⟨-, hlt⟩
    · rw [hnil] at hfree
      exact nomatch hfree
    · exact absurd hcells (Nat.not_le.mpr hlt)
  · rw [hfree] at hd
    obtain rfl := Option.some.inj hd
    exact hc hlast

/-- One byte that is not the one that was inserted first. -/
theorem repeated_not_insertable {b b' : UInt8} (hb : b ≠ b')
    (hrefused : ¬ (runOf [b']).Refused fs)
    (hholds : HoldsContents fs (runOf [b]).name [b]) : ¬ (runOf [b']).Insertable fs := by
  obtain ⟨i, hi, -, hfront, -⟩ := hholds
  rintro (h | ⟨j, hj, -, hfront', -⟩ | ⟨hnone, -⟩)
  · exact hrefused h
  · obtain rfl : i = j := Option.some.inj (hi.symm.trans hj)
    obtain ⟨rest, hrest⟩ := hfront
    rw [← hrest] at hfront'
    exact hb (List.cons_prefix_cons.mp hfront').1.symm
  · exact nomatch hi.symm.trans hnone

theorem blankImage_freeCells :
    freeCells (mountImage blankDisk).fat = (List.range' 3 509).map UInt32.ofNat := by
  rw [mountImage_empty blankDisk_empty]
  exact fresh_freeCells

/-- The blank disk takes a file of one cluster. -/
theorem blankImage_accepts {contents : List UInt8}
    (hcount : clusterCount (runOf contents).request ≤ 1) :
    ¬ (runOf contents).Refused (mountImage blankDisk) := by
  have hhead : (freeCells (mountImage blankDisk).fat).head? = some 3 := by
    rw [blankImage_freeCells]
    rfl
  refine runOf_not_refused hhead (by decide) ?_
  rw [blankImage_freeCells, List.length_map, List.length_range']
  omega

theorem emptyFile_notRead : ¬ (runOf []).ReadAfter blankDisk := by
  intro h
  rcases (InserterRun.readAfter_iff blankDisk_sound).mp h with
    hrefused | ⟨i, hi, -⟩ | ⟨-, -, hne, -⟩
  · exact blankImage_accepts (by decide) hrefused
  · rw [mountImage_empty blankDisk_empty, fresh_lookup blankDisk (runOf_named [])] at hi
    exact nomatch hi
  · exact hne rfl

/-- The second file of one name. -/
theorem secondFile_notRead : ∃ disk, insertStep blankDisk (runOf [65]) = some disk ∧
    ¬ (runOf [66]).ReadAfter disk := by
  have hok : ¬ (runOf [65]).Refused (mountImage blankDisk) := blankImage_accepts (by decide)
  obtain ⟨fs', hwrite, hins⟩ := InserterRun.inserts_of_not_refused hok
  have hsound := hins.rootSound blankDisk_sound
  obtain ⟨hfat, hdisk⟩ := hsound.mount_eq
  have hcells : freeCells (mountImage fs'.disk).fat = (List.range' 4 508).map UInt32.ofNat := by
    rw [hfat]
    cases hins with
    | directory hs _ => exact absurd hs (by decide)
    | file _ _ htake =>
        rw [fileWritten_fat, freeCells_linkCells htake, blankImage_freeCells]
        rfl
  refine ⟨fs'.disk, by rw [insertStep, InserterRun.main_eq hwrite, Option.map_some], fun h => ?_⟩
  have hinsertable := (InserterRun.readAfter_iff hsound.mounted).mp h
  refine repeated_not_insertable (show (65 : UInt8) ≠ 66 by decide) ?_ ?_ hinsertable
  · have hhead : (freeCells (mountImage fs'.disk).fat).head? = some 4 := by
      rw [hcells]
      rfl
    refine runOf_not_refused hhead (by decide) ?_
    rw [hcells, List.length_map, List.length_range']
    decide
  · -- the first file holds the name
    refine hsound.mounted.holdsContents (runOf_named [65]) ?_
    rw [hdisk]
    refine hsound.readBack (runOf_named [65]) ?_
    have hfirst := runOf_insertable (List.cons_ne_nil 65 []) (by decide)
    exact (hins.holds_iff blankDisk_sound (runOf_named [65])).mpr (hfirst.resolve_left hok)

/-- An empty file becomes a directory, and of two files of one name the kernel reads the
    first. -/
theorem inserted_notRead : isEmptyStorage blankDisk ∧
    ¬ PartialRun.Guarded insertStep (fun image k => k.ReadAfter image) blankDisk [runOf []] ∧
    ¬ PartialRun.Guarded insertStep (fun image k => k.ReadAfter image) blankDisk
      [runOf [65], runOf [66]] := by
  refine ⟨blankDisk_empty, ?_, ?_⟩
  · rintro ⟨h, -⟩
    exact emptyFile_notRead h
  · rintro ⟨-, hsecond⟩
    obtain ⟨disk, hstep, hno⟩ := secondFile_notRead
    exact hno (hsecond disk hstep).1

end OsyInserter
