import Osyikkk.DriverRuns

/-!
# The file store as a finite map

A well-formed file system is seen as a map from a directory's cluster, a name and an
extension to the bytes of the file. A file write with a free slot, enough cells and a new
name is an update of the map at its key (`fileWritten_map`), and what was written is read
back after any number of further writes (`Stored`).

Both rest on one frame lemma: the chain of another file and the clusters on it are not
touched, because the new chain is of free cells, the image and the parent's table are in
clusters no file owns (`fileWritten_keeps`).
-/

namespace OsyVolume

open OsyDisk OsyFat32 LinkedChain RootedForest

/-- The image of the file allocation table is current and the used slots own their chains. -/
structure WellFormed (fs : FileSystem) : Prop where
  image : ImageInSync fs
  consistent : FsConsistent fs

/-! ## The map -/

/-- A directory's cluster, a name and an extension. -/
abbrev FileKey := UInt32 × EntryName × EntryExt

/-- The bytes of a cluster. -/
def clusterBytes (disk : Disk) (c : UInt32) : List UInt8 := List.ofFn (clusterAt disk c)

open Classical in
/-- The bytes of the chain that starts at a cell. -/
noncomputable def chainBytes (fs : FileSystem) (c : UInt32) : List UInt8 :=
  if h : ∃ l, FatChain fs.fat c l then h.choose.flatMap (clusterBytes fs.disk) else []

/-- The first slot `1..63` that holds a file of the name and the extension. -/
def fileSlot (t : FAT32DirectoryTable) (name : EntryName) (ext : EntryExt) :
    Option (Fin directoryEntryCount) :=
  (slotsFrom 1).find? fun i =>
    (t i).used ∧ (t i).attr = attrArchive ∧ (t i).name = name ∧ (t i).ext = ext

open Classical in
/-- The files of a file system. -/
noncomputable def fileMap (fs : FileSystem) : FileKey → Option (List UInt8) :=
  fun ⟨d, name, ext⟩ =>
    if Live fs.table d then
      (fileSlot (fs.table d) name ext).map fun i => chainBytes fs (fs.table d i).cluster
    else none

/-- The key a request writes. -/
def keyOf (request : FAT32DriverRequest) : FileKey :=
  (request.parentClusterNumber, request.name, request.ext)

/-- The bytes a request writes. -/
def bufferBytes (request : FAT32DriverRequest) : List UInt8 :=
  (List.range request.bufferSize.toNat).map request.buf

variable {request : FAT32DriverRequest} {fs fs' : FileSystem} {newTable : FAT32DirectoryTable}

theorem chainBytes_eq {c : UInt32} {l : List UInt32} (h : FatChain fs.fat c l) :
    chainBytes fs c = l.flatMap (clusterBytes fs.disk) := by
  have hex : ∃ l, FatChain fs.fat c l := ⟨l, h⟩
  rw [chainBytes, dif_pos hex, chain_unique hex.choose_spec h]

/-- The slot of a file. -/
def HoldsFile (t : FAT32DirectoryTable) (name : EntryName) (ext : EntryExt)
    (i : Fin directoryEntryCount) : Prop :=
  i ≠ 0 ∧ (t i).used ∧ (t i).attr = attrArchive ∧ (t i).name = name ∧ (t i).ext = ext

theorem fileSlot_some {t : FAT32DirectoryTable} {name : EntryName} {ext : EntryExt}
    {i : Fin directoryEntryCount} (h : fileSlot t name ext = some i) :
    HoldsFile t name ext i := by
  have hp := List.find?_some h
  simp only [decide_eq_true_eq] at hp
  exact ⟨mem_slotsFrom_one.mp (List.mem_of_find?_eq_some h), hp⟩

theorem fileSlot_unique {t : FAT32DirectoryTable} {name : EntryName} {ext : EntryExt}
    {i : Fin directoryEntryCount} (hi : HoldsFile t name ext i)
    (huniq : ∀ j, HoldsFile t name ext j → j = i) : fileSlot t name ext = some i := by
  cases hfound : fileSlot t name ext with
  | some j => rw [huniq j (fileSlot_some hfound)]
  | none =>
      have hno := List.find?_eq_none.mp hfound i (mem_slotsFrom_one.mpr hi.1)
      simp only [decide_eq_true_eq] at hno
      exact absurd hi.2 hno

/-- The lookup depends on which slots hold the file. -/
theorem fileSlot_congr {t t' : FAT32DirectoryTable} {name : EntryName} {ext : EntryExt}
    (h : ∀ i, HoldsFile t name ext i ↔ HoldsFile t' name ext i) :
    fileSlot t name ext = fileSlot t' name ext := by
  refine List.find?_congr ?_
  intro i hi
  have hi0 := mem_slotsFrom_one.mp hi
  have hiff := h i
  simp only [HoldsFile, hi0, ne_eq, not_false_eq_true, true_and] at hiff
  simp only [decide_eq_decide]
  exact hiff

theorem ofFn_eq_map_range {α : Type} (n : ℕ) (g : ℕ → α) :
    List.ofFn (fun k : Fin n => g k) = (List.range n).map g := by
  refine List.ext_getElem (by simp) ?_
  intro k hk _
  simp

/-- Clusters that hold a buffer in order hold its bytes. -/
theorem flatMap_clusterBytes {disk : Disk} (buf : Memory) {l : List UInt32} (i : ℕ)
    (h : ∀ m, (hm : m < l.length) →
      clusterAt disk l[m] = (buf.offset (clusterSize * (i + m))).toCluster) :
    l.flatMap (clusterBytes disk)
      = (List.range (clusterSize * l.length)).map (buf.offset (clusterSize * i)) := by
  induction l generalizing i with
  | nil => rfl
  | cons c rest ih =>
      have hhead : clusterBytes disk c
          = (List.range clusterSize).map (buf.offset (clusterSize * i)) := by
        rw [clusterBytes, show clusterAt disk c = (buf.offset (clusterSize * i)).toCluster from
          h 0 (Nat.succ_pos _)]
        exact ofFn_eq_map_range _ _
      have htail := ih (i + 1) fun m hm => by
        have := h (m + 1) (Nat.succ_lt_succ hm)
        rwa [show i + (m + 1) = i + 1 + m by omega] at this
      have hlen : clusterSize * (c :: rest).length
          = clusterSize + clusterSize * rest.length := by
        simp only [List.length_cons, clusterSize]
        omega
      have hshift : buf.offset (clusterSize * (i + 1))
          = buf.offset (clusterSize * i) ∘ fun k => clusterSize + k := by
        funext k
        refine congrArg buf ?_
        simp only [clusterSize]
        omega
      rw [List.flatMap_cons, hhead, htail, hlen, List.range_add, List.map_append,
        List.map_map, hshift]

theorem length_flatMap_clusterBytes (disk : Disk) (l : List UInt32) :
    (l.flatMap (clusterBytes disk)).length = clusterSize * l.length := by
  induction l with
  | nil => rfl
  | cons c rest ih =>
      rw [List.flatMap_cons, List.length_append, ih, clusterBytes, List.length_ofFn,
        List.length_cons, Nat.mul_succ, Nat.add_comm]

/-- Clusters that hold a buffer piece by piece hold its bytes. -/
theorem flatMap_buffer {disk : Disk} (buf : Memory) {l : List UInt32}
    (hdata : ∀ m, (hm : m < l.length) →
      clusterAt disk l[m] = (buf.offset (clusterSize * m)).toCluster) :
    l.flatMap (clusterBytes disk) = (List.range (clusterSize * l.length)).map buf := by
  rw [flatMap_clusterBytes buf 0]
  · refine List.map_congr_left ?_
    intro k _
    rw [Memory.offset, Nat.mul_zero, Nat.zero_add]
  · intro m hm
    rw [Nat.zero_add]
    exact hdata m hm

/-- The copying walk leaves the chain's bytes in the buffer. -/
theorem copyClusters_bytes (disk : Disk) (buf : Memory) (l : List UInt32) :
    (List.range (clusterSize * l.length)).map (copyClusters disk buf 0 l)
      = l.flatMap (clusterBytes disk) := by
  refine (flatMap_buffer _ ?_).symm
  intro m hm
  funext r
  have hinside := copyClusters_inside disk buf 0 hm r
  rw [Nat.zero_add] at hinside
  exact hinside.symm

/-! ## One write -/

/-- A request for a file of whole clusters under a new name, in a live directory with an
    unused slot, that finds its cells. -/
structure FileRequest (request : FAT32DriverRequest) (fs : FileSystem) : Prop where
  named : request.name ≠ fun _ => 0
  sized : request.bufferSize ≠ 0
  whole : clusterSize ∣ request.bufferSize.toNat
  live : Live fs.table request.parentClusterNumber
  slot : ∃ i, i ≠ 0 ∧ ¬ (fs.table request.parentClusterNumber i).used
  fresh : ∀ i, ¬ Matches request (fs.table request.parentClusterNumber) i
  cells : clusterCount request ≤ (freeCells fs.fat).length

theorem write_fileRequest (newTable : FAT32DirectoryTable) (hcons : FsConsistent fs)
    (hreq : FileRequest request fs) :
    ∃ c rest, (freeCells fs.fat).take (clusterCount request) = c :: rest ∧
      OsyFat32.write newTable request fs = some (0, fileWritten request fs c rest) := by
  obtain ⟨c, rest, htake, h⟩ :=
    writeFile_stored (clusterCount_ne_zero hreq.sized hreq.whole) hreq.cells
  exact ⟨c, rest, htake,
    (write_file hreq.named (live_not_reserved hcons hreq.live) hreq.sized).trans h⟩

theorem stored_length {c : UInt32} {rest : List UInt32} (hreq : FileRequest request fs)
    (htake : (freeCells fs.fat).take (clusterCount request) = c :: rest) :
    clusterSize * (c :: rest).length = request.bufferSize.toNat := by
  have hlen := congrArg List.length htake
  rw [List.length_take, Nat.min_eq_left hreq.cells, clusterCount_eq] at hlen
  rw [← hlen]
  exact Nat.mul_div_cancel' hreq.whole

section Write

variable {c : UInt32} {rest : List UInt32} (hwf : WellFormed fs) (hreq : FileRequest request fs)
  (htake : (freeCells fs.fat).take (clusterCount request) = c :: rest)
include hwf hreq htake

theorem stored_inserted :
    Inserted fs.table (fileWritten request fs c rest).table fs.fat
      (fileWritten request fs c rest).fat request.parentClusterNumber
      (writeSlot request fs) (fileEntry request fs c) (c :: rest) :=
  fileWritten_inserted hwf.consistent hreq.live hreq.sized htake

theorem stored_live (d : UInt32) :
    Live (fileWritten request fs c rest).table d ↔ Live fs.table d := by
  rw [(stored_inserted hwf hreq htake).live_iff d]
  simp only [fileEntry_notDirectory c hreq.sized, and_false, or_false]

theorem stored_wellFormed : WellFormed (fileWritten request fs c rest) where
  image := flush_imageInSync _ _ _ (parent_place hwf.consistent hreq.live)
  consistent := (stored_inserted hwf hreq htake).consistent hwf.consistent

/-- Another file's chain and its clusters stay as they are. -/
theorem fileWritten_keeps {d : UInt32} {i : Fin directoryEntryCount} {l : List UInt32}
    (hs : UsedSlot fs.table d i) (ha : (fs.table d i).attr = attrArchive)
    (hl : FatChain fs.fat (fs.table d i).cluster l) :
    FatChain (fileWritten request fs c rest).fat (fs.table d i).cluster l ∧
      ∀ q ∈ l, clusterAt (fileWritten request fs c rest).disk q = clusterAt fs.disk q := by
  have hcons := hwf.consistent
  refine ⟨(stored_inserted hwf hreq htake).chain_kept hcons hs hl, ?_⟩
  intro q hq
  obtain ⟨l', hl', -, h3⟩ := hcons.chain hs
  obtain rfl := chain_unique hl hl'
  have hlt := fatChain_lt hl hq
  refine fileWritten_clusterAt (drivePlace_ne hlt (hcons.live_range hreq.live).2 ?_)
    (place_ne_fatCluster (Nat.le_of_succ_le (h3 q hq)) hlt) ?_
  · -- a file's cluster is no directory
    rintro rfl
    have he := hcons.live_mem_chain hreq.live hs hl hq
    exact absurd (ha.symm.trans he.2.2.1) (by decide)
  · -- nor is it one of the cells that were free
    intro e he
    have hfree := (taken_free htake he).2
    refine drivePlace_ne hlt (clusterMapGet_lt hfree) ?_
    rintro rfl
    exact hcons.owned_ne_free hs hl hq hfree

theorem stored_clusterAt {m : ℕ} (hm : m < (c :: rest).length) :
    clusterAt (fileWritten request fs c rest).disk (c :: rest)[m]
      = (request.buf.offset (clusterSize * m)).toCluster :=
  fileWritten_data hwf.consistent hreq.live htake hm

/-- The new chain holds the bytes of the buffer. -/
theorem stored_bytes :
    chainBytes (fileWritten request fs c rest) c = bufferBytes request := by
  have hchain := (stored_inserted hwf hreq htake).chain
  rw [fileEntry_cluster] at hchain
  rw [chainBytes_eq hchain, flatMap_buffer request.buf, stored_length hreq htake, bufferBytes]
  intro m hm
  exact stored_clusterAt hwf hreq htake hm

/-- The parent's slots afterwards: the new file's is the only one that matches it. -/
theorem stored_holdsFile {name : EntryName} {ext : EntryExt} (i : Fin directoryEntryCount) :
    HoldsFile ((fileWritten request fs c rest).table request.parentClusterNumber) name ext i ↔
      (i = writeSlot request fs ∧ request.name = name ∧ request.ext = ext) ∨
      HoldsFile (fs.table request.parentClusterNumber) name ext i := by
  obtain ⟨j, hj, hun⟩ := hreq.slot
  have h0 := writeSlot_ne_zero hwf.consistent hreq.live hun
  have hfree : ¬ (fs.table request.parentClusterNumber (writeSlot request fs)).used :=
    (writeSlot_spec request fs).resolve_left h0
  have hins := stored_inserted hwf hreq htake
  rcases hins.table hreq.live i with ⟨-, rfl, hti⟩ | ⟨hne, hti⟩
  · have hold : ¬ HoldsFile (fs.table request.parentClusterNumber) name ext
        (writeSlot request fs) := fun h => hfree h.2.1
    rw [or_iff_left hold, HoldsFile, hti]
    have hname : (fileEntry request fs c).name = request.name := rfl
    have hext : (fileEntry request fs c).ext = request.ext := rfl
    simp only [h0, hins.used, fileEntry_attr c hreq.sized, hname, hext, ne_eq,
      not_false_eq_true, true_and]
  · have hi : i ≠ writeSlot request fs := fun h => hne ⟨rfl, h⟩
    simp only [HoldsFile, hti, hi, false_and, false_or]

/-- Another file keeps its bytes. -/
theorem stored_chainBytes {d : UInt32} {i : Fin directoryEntryCount}
    (hs : UsedSlot fs.table d i) (ha : (fs.table d i).attr = attrArchive) :
    chainBytes (fileWritten request fs c rest) (fs.table d i).cluster
      = chainBytes fs (fs.table d i).cluster := by
  obtain ⟨l, hl, -⟩ := hwf.consistent.chain hs
  obtain ⟨hl', hdisk⟩ := fileWritten_keeps hwf hreq htake hs ha hl
  rw [chainBytes_eq hl, chainBytes_eq hl']
  refine List.flatMap_congr ?_
  intro q hq
  rw [clusterBytes, clusterBytes, hdisk q hq]

/-- The new file is found in the slot it was written to. -/
theorem stored_fileSlot_new :
    fileSlot ((fileWritten request fs c rest).table request.parentClusterNumber)
      request.name request.ext = some (writeSlot request fs) := by
  refine fileSlot_unique ?_ ?_
  · exact (stored_holdsFile hwf hreq htake _).mpr (Or.inl ⟨rfl, rfl, rfl⟩)
  · intro j hj
    rcases (stored_holdsFile hwf hreq htake j).mp hj with ⟨rfl, -⟩ | hj
    · rfl
    · exact absurd ⟨hj.1, hj.2.2.2.1.symm, hj.2.2.2.2.symm⟩ (hreq.fresh j)

/-- Every other key is looked up as before. -/
theorem stored_fileSlot_old {d : UInt32} {name : EntryName} {ext : EntryExt}
    (hd : Live fs.table d) (hkey : (d, name, ext) ≠ keyOf request) :
    fileSlot ((fileWritten request fs c rest).table d) name ext
      = fileSlot (fs.table d) name ext := by
  by_cases hdp : d = request.parentClusterNumber
  · subst hdp
    refine fileSlot_congr ?_
    intro i
    rw [stored_holdsFile hwf hreq htake i]
    refine or_iff_right ?_
    rintro ⟨-, rfl, rfl⟩
    exact hkey rfl
  · rw [(stored_inserted hwf hreq htake).others d hd hdp]

/-- **A file write updates the map at its key.** -/
theorem fileWritten_map : fileMap (fileWritten request fs c rest)
    = Function.update (fileMap fs) (keyOf request) (some (bufferBytes request)) := by
  have hins := stored_inserted hwf hreq htake
  funext ⟨d, name, ext⟩
  by_cases hkey : (d, name, ext) = keyOf request
  · obtain ⟨rfl, hne⟩ := Prod.mk.inj hkey
    obtain ⟨rfl, rfl⟩ := Prod.mk.inj hne
    have hlive := (stored_live hwf hreq htake request.parentClusterNumber).mpr hreq.live
    have hentry : (fileWritten request fs c rest).table request.parentClusterNumber
        (writeSlot request fs) = fileEntry request fs c := by
      rw [hins.entry, Function.update_self]
    rw [hkey, Function.update_self, ← hkey]
    simp only [fileMap, if_pos hlive, stored_fileSlot_new hwf hreq htake, Option.map_some,
      hentry, fileEntry_cluster, stored_bytes hwf hreq htake]
  rw [Function.update_of_ne hkey]
  by_cases hd : Live fs.table d
  · have hlive := (stored_live hwf hreq htake d).mpr hd
    simp only [fileMap, if_pos hlive, if_pos hd, stored_fileSlot_old hwf hreq htake hd hkey]
    cases hfound : fileSlot (fs.table d) name ext with
    | none => rfl
    | some i =>
        -- an old file is found in its old slot, and its chain is not touched
        obtain ⟨h0, hused, ha, -⟩ := fileSlot_some hfound
        have hs : UsedSlot fs.table d i := ⟨hd, h0, hused⟩
        rw [Option.map_some, Option.map_some, hins.entry_kept hs,
          stored_chainBytes hwf hreq htake hs ha]
  · have hlive := mt (stored_live hwf hreq htake d).mp hd
    simp only [fileMap, if_neg hlive, if_neg hd]

end Write

/-! ## Reading back -/

/-- The file a request wrote is the only match in its directory and its chain holds the
    buffer. -/
def Stored (request : FAT32DriverRequest) (fs : FileSystem) : Prop :=
  request.name ≠ (fun _ => 0) ∧ request.bufferSize ≠ 0 ∧
    clusterSize ∣ request.bufferSize.toNat ∧ ∃ i l,
    UsedSlot fs.table request.parentClusterNumber i ∧
    (fs.table request.parentClusterNumber i).attr = attrArchive ∧
    Matches request (fs.table request.parentClusterNumber) i ∧
    (∀ j, Matches request (fs.table request.parentClusterNumber) j → j = i) ∧
    FatChain fs.fat (fs.table request.parentClusterNumber i).cluster l ∧
    clusterSize * l.length = request.bufferSize.toNat ∧
    ∀ m, (hm : m < l.length) →
      clusterAt fs.disk l[m] = (request.buf.offset (clusterSize * m)).toCluster

/-- The slots that match a request after a file was written. -/
theorem matches_fileWritten {request₂ : FAT32DriverRequest} {c : UInt32} {rest : List UInt32}
    (hwf : WellFormed fs) (hreq : FileRequest request fs)
    (htake : (freeCells fs.fat).take (clusterCount request) = c :: rest)
    (hlive : Live fs.table request₂.parentClusterNumber) {j : Fin directoryEntryCount}
    (hj : Matches request₂ ((fileWritten request fs c rest).table
      request₂.parentClusterNumber) j) :
    (keyOf request₂ = keyOf request ∧ j = writeSlot request fs) ∨
      Matches request₂ (fs.table request₂.parentClusterNumber) j := by
  obtain ⟨h0, hname, hext⟩ := hj
  rcases (stored_inserted hwf hreq htake).table hlive j with ⟨hp, hidx, htj⟩ | ⟨-, htj⟩
  · rw [htj] at hname hext
    exact Or.inl ⟨Prod.ext hp (Prod.ext hname hext), hidx⟩
  · rw [htj] at hname hext
    exact Or.inr ⟨h0, hname, hext⟩

section Read

variable {c : UInt32} {rest : List UInt32} (hwf : WellFormed fs) (hreq : FileRequest request fs)
  (htake : (freeCells fs.fat).take (clusterCount request) = c :: rest)
include hwf hreq htake

theorem stored_fileWritten : Stored request (fileWritten request fs c rest) := by
  have hins := stored_inserted hwf hreq htake
  obtain ⟨j, hj, hun⟩ := hreq.slot
  have h0 := writeSlot_ne_zero hwf.consistent hreq.live hun
  have hentry : (fileWritten request fs c rest).table request.parentClusterNumber
      (writeSlot request fs) = fileEntry request fs c := by
    rw [hins.entry, Function.update_self]
  refine ⟨hreq.named, hreq.sized, hreq.whole, writeSlot request fs, c :: rest,
    ⟨(stored_live hwf hreq htake _).mpr hreq.live, h0, ?_⟩, ?_, ?_, ?_, ?_,
    stored_length hreq htake, fun m hm => stored_clusterAt hwf hreq htake hm⟩
  · exact hentry ▸ hins.used
  · rw [hentry, fileEntry_attr c hreq.sized]
  · exact ⟨h0, by rw [hentry]; rfl, by rw [hentry]; rfl⟩
  · intro j hj
    rcases matches_fileWritten hwf hreq htake hreq.live hj with ⟨-, rfl⟩ | hold
    · rfl
    · exact absurd hold (hreq.fresh j)
  · exact hentry ▸ hins.chain

/-- A file stays stored when another file is written. -/
theorem Stored.kept {request₁ : FAT32DriverRequest} (h : Stored request₁ fs) :
    Stored request₁ (fileWritten request fs c rest) := by
  obtain ⟨hn, hs, hwhole, i, l, hslot, ha, hmatch, huniq, hl, hlen, hdata⟩ := h
  have hins := stored_inserted hwf hreq htake
  have hti : (fileWritten request fs c rest).table request₁.parentClusterNumber i
      = fs.table request₁.parentClusterNumber i := hins.entry_kept hslot
  obtain ⟨hl', hdisk⟩ := fileWritten_keeps hwf hreq htake hslot ha hl
  refine ⟨hn, hs, hwhole, i, l,
    ⟨(stored_live hwf hreq htake _).mpr hslot.live, hslot.slot, hti ▸ hslot.used⟩, hti ▸ ha,
    ⟨hmatch.1, hti ▸ hmatch.2.1, hti ▸ hmatch.2.2⟩, ?_, hti ▸ hl', hlen,
    fun m hm => (hdisk _ (List.getElem_mem hm)).trans (hdata m hm)⟩
  intro j hj
  rcases matches_fileWritten hwf hreq htake hslot.live hj with ⟨hkey, -⟩ | hold
  · -- the new file has another key: its own directory had no match
    obtain ⟨hp, hne⟩ := Prod.mk.inj hkey
    obtain ⟨hname, hext⟩ := Prod.mk.inj hne
    refine absurd ?_ (hreq.fresh i)
    rw [← hp]
    exact ⟨hmatch.1, hname ▸ hmatch.2.1, hext ▸ hmatch.2.2⟩
  · exact huniq j hold

end Read

/-- Reading a stored file into a buffer that is large enough. -/
theorem Stored.read (h : Stored request fs) {r : FAT32DriverRequest}
    (hkey : keyOf r = keyOf request) (hsize : request.bufferSize ≤ r.bufferSize) :
    ∃ buf, OsyFat32.read r fs = some (0, buf) ∧
      (List.range request.bufferSize.toNat).map buf = bufferBytes request ∧
      ∀ k, request.bufferSize.toNat ≤ k → buf k = r.buf k := by
  obtain ⟨hn, hs, -, i, l, -, -, hmatch, huniq, hl, hlen, hdata⟩ := h
  obtain ⟨hp, hne⟩ := Prod.mk.inj hkey
  obtain ⟨hname, hext⟩ := Prod.mk.inj hne
  have hsame : ∀ j, Matches r (fs.table r.parentClusterNumber) j ↔
      Matches request (fs.table request.parentClusterNumber) j := by
    intro j
    simp only [Matches, hp, hname, hext]
  have hfirst : firstMatch r (fs.table r.parentClusterNumber) = some i :=
    (firstMatch_congr hsame).trans (firstMatch_unique hmatch huniq)
  have hle : request.bufferSize.toNat ≤ r.bufferSize.toNat := UInt32.le_iff_toNat_le.mp hsize
  have hr : r.bufferSize ≠ 0 := by
    intro h0
    rw [h0] at hle
    exact hs (UInt32.toNat_inj.mp (Nat.le_zero.mp hle))
  have hcount : l.length ≤ clusterCount r := by
    rw [clusterCount_eq]
    simp only [clusterSize] at hlen
    omega
  refine ⟨_, read_eq (hname ▸ hn) hr hfirst (hp ▸ hl) hcount, ?_, ?_⟩
  · rw [bufferBytes, ← hlen, copyClusters_bytes]
    exact flatMap_buffer request.buf hdata
  · intro k hk
    refine copyClusters_outside fs.disk r.buf (Or.inr ?_)
    rw [Nat.zero_add, hlen]
    exact hk

/-! ## Runs of writes -/

/-- A write that succeeds, with the uninitialised table of the call. -/
def writeStep (fs : FileSystem) (w : FAT32DirectoryTable × FAT32DriverRequest) :
    Option FileSystem :=
  (OsyFat32.write w.1 w.2 fs).bind fun (code, fs') => if code = 0 then some fs' else none

/-- The map after a list of writes. -/
noncomputable def mapWrites (m : FileKey → Option (List UInt8))
    (writes : List (FAT32DirectoryTable × FAT32DriverRequest)) :
    FileKey → Option (List UInt8) :=
  writes.foldl (fun m w => Function.update m (keyOf w.2) (some (bufferBytes w.2))) m

/-- One write of a file: the outcome, the invariant, the map and what stays stored. -/
theorem write_refines (newTable : FAT32DirectoryTable) (hwf : WellFormed fs)
    (hreq : FileRequest request fs) :
    ∃ fs', OsyFat32.write newTable request fs = some (0, fs') ∧ WellFormed fs' ∧
      fileMap fs' = Function.update (fileMap fs) (keyOf request) (some (bufferBytes request)) ∧
      Stored request fs' ∧ ∀ r, Stored r fs → Stored r fs' := by
  obtain ⟨c, rest, htake, h⟩ := write_fileRequest newTable hwf.consistent hreq
  exact ⟨_, h, stored_wellFormed hwf hreq htake, fileWritten_map hwf hreq htake,
    stored_fileWritten hwf hreq htake, fun r hr => hr.kept hwf hreq htake⟩

theorem run_writes {writes : List (FAT32DirectoryTable × FAT32DriverRequest)}
    (hwf : WellFormed fs)
    (h : PartialRun.Guarded writeStep (fun fs w => FileRequest w.2 fs) fs writes) :
    ∃ fs', PartialRun.run writeStep fs writes = some fs' ∧ WellFormed fs' ∧
      fileMap fs' = mapWrites (fileMap fs) writes ∧ (∀ w ∈ writes, Stored w.2 fs') ∧
      ∀ r, Stored r fs → Stored r fs' := by
  induction writes generalizing fs with
  | nil =>
      refine ⟨fs, rfl, hwf, rfl, ?_, fun _ hr => hr⟩
      intro w hw
      exact nomatch hw
  | cons w writes ih =>
      obtain ⟨fs₁, hwrite, hwf₁, hmap₁, hstored₁, hkeep₁⟩ := write_refines w.1 hwf h.1
      have hstep : writeStep fs w = some fs₁ := by
        rw [writeStep, hwrite]
        rfl
      obtain ⟨fs₂, hrun, hwf₂, hmap₂, hstored₂, hkeep₂⟩ := ih hwf₁ (h.2 fs₁ hstep)
      refine ⟨fs₂, by rw [PartialRun.run_cons, hstep, Option.bind_some, hrun], hwf₂, ?_,
        ?_, fun r hr => hkeep₂ r (hkeep₁ r hr)⟩
      · rw [hmap₂, hmap₁]
        rfl
      · intro v hv
        rcases List.mem_cons.mp hv with rfl | hv
        · exact hkeep₂ _ hstored₁
        · exact hstored₂ v hv

/-- **The file store refines a finite map.** -/
theorem fileStore_refines_map (fs : FileSystem) (hwf : WellFormed fs) :
    (∀ newTable request, FileRequest request fs →
      ∃ fs', OsyFat32.write newTable request fs = some (0, fs') ∧ WellFormed fs' ∧
        fileMap fs'
          = Function.update (fileMap fs) (keyOf request) (some (bufferBytes request))) ∧
    (∀ writes, PartialRun.Guarded writeStep (fun fs w => FileRequest w.2 fs) fs writes →
      ∃ fs', PartialRun.run writeStep fs writes = some fs' ∧ WellFormed fs' ∧
        fileMap fs' = mapWrites (fileMap fs) writes ∧
        ∀ w ∈ writes, ∀ r, keyOf r = keyOf w.2 → w.2.bufferSize ≤ r.bufferSize →
          ∃ buf, OsyFat32.read r fs' = some (0, buf) ∧
            (List.range w.2.bufferSize.toNat).map buf = bufferBytes w.2 ∧
            ∀ k, w.2.bufferSize.toNat ≤ k → buf k = r.buf k) := by
  constructor
  · intro newTable request hreq
    obtain ⟨fs', hwrite, hwf', hmap, -⟩ := write_refines newTable hwf hreq
    exact ⟨fs', hwrite, hwf', hmap⟩
  · intro writes h
    obtain ⟨fs', hrun, hwf', hmap, hstored, -⟩ := run_writes hwf h
    exact ⟨fs', hrun, hwf', hmap, fun w hw r hkey hsize => (hstored w hw).read hkey hsize⟩

theorem fresh_wellFormed (disk : Disk) : WellFormed (freshFileSystem disk) :=
  ⟨fresh_imageInSync disk, fresh_consistent disk⟩

/-- In the fresh root every name is new and every slot is free. -/
theorem fresh_fileRequest {name : List UInt8} {size : UInt32}
    (hn : (rootRequest name size).name ≠ fun _ => 0) (hs : size ≠ 0)
    (hwhole : clusterSize ∣ size.toNat)
    (hcells : clusterCount (rootRequest name size)
      ≤ (freeCells (freshFileSystem blankDisk).fat).length) :
    FileRequest (rootRequest name size) (freshFileSystem blankDisk) where
  named := hn
  sized := hs
  whole := hwhole
  live := Reach.root
  slot := ⟨1, by decide, fresh_unused blankDisk (by decide)⟩
  fresh i hi := hn (hi.2.1.trans (congrArg _ (fresh_slot blankDisk hi.1)))
  cells := hcells

/-- The file of 508 clusters, stored in the fresh file system. -/
theorem fileStore_refines_map_bigFile :
    ∃ fs', OsyFat32.write zeroTable bigFile (freshFileSystem blankDisk) = some (0, fs') ∧
      WellFormed fs' ∧
      fileMap fs' = Function.update (fileMap (freshFileSystem blankDisk)) (keyOf bigFile)
        (some (bufferBytes bigFile)) := by
  refine (fileStore_refines_map _ (fresh_wellFormed blankDisk)).1 zeroTable bigFile ?_
  refine fresh_fileRequest (by decide) (by decide) (by decide) ?_
  rw [fresh_freeCells]
  decide +kernel

end OsyVolume
