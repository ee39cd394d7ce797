import Osyikkk.ReadProofs
import Osyikkk.StoreCalls

/-!
# The driver refines the store

Every call of a careful user is one step of `NodeStore`: writing a file or a directory,
deleting either, reading a file, listing a directory and moving an entry, each with the
return code and the buffer that tell the answer (`respond_refines`). What the store keeps
over runs is then kept by the driver: its space (`driver_refines_store`), and every file until its
name is deleted or moved (`file_kept`).
-/

namespace OsyVolume

open OsyDisk OsyFat32 LinkedChain RootedForest NodeStore

variable {fs fs' : FileSystem} {k : Call} {request : FAT32DriverRequest}
  {newTable : FAT32DirectoryTable} {s : VolumeStore} {c d x : UInt32}
  {rest l : List UInt32} {i j : Fin directoryEntryCount} {n m : VolumeNode}
  {e : FAT32DirectoryEntry}

/-! ## Writing -/

theorem clusterUnits_bufferBytes (request : FAT32DriverRequest) :
    clusterUnits (bufferBytes request) = clusterCount request := by
  rw [clusterUnits, bufferBytes, List.length_map, List.length_range, clusterCount_eq]

/-- A name that is not taken has no entry. -/
theorem Represents.fresh (hrep : Represents fs s) (hinv : DriverInvariant fs)
    {ext : EntryExt} (hnot : ¬ NameTaken fs request ext) :
    s.entry (request.parentClusterNumber, (request.name, ext)) = none := by
  refine hrep.absent hinv.owned ?_
  intro i hs hkey
  obtain ⟨hname, hext⟩ := Prod.mk.inj hkey
  exact hnot ⟨i, hs.slot, hs.used, hname, hext⟩

/-- A free cell is no directory of the store. -/
theorem Represents.unused_cell (hrep : Represents fs s) (hinv : DriverInvariant fs)
    (hc : clusterMapGet fs.fat c = some 0) :
    (∀ k, s.entry (c, k) = none) ∧ ∀ p, s.entry p ≠ some (.directory c) := by
  have hcons := hinv.owned.consistent
  have hnot : ¬ Live fs.table c := fun hlive => hcons.live_ne_free hlive hc
  refine ⟨?_, ?_⟩
  · intro k
    exact hrep.absent hinv.owned fun i hs => absurd hs.live hnot
  · rintro ⟨d, k⟩ hentry
    obtain ⟨i, hs, -, hnode⟩ := (hrep.entry d k _).mp hentry
    exact hnot (hs.live.child ((nodeOf_directory_iff hs).mp hnode))

section Write

variable (hinv : DriverInvariant fs) (hrep : Represents fs s)
include hinv hrep

/-- A stored file is a new entry with the bytes of the buffer. -/
theorem fileWritten_represents (hreq : FileRequest request fs)
    (htake : (freeCells fs.fat).take (clusterCount request) = c :: rest) :
    Represents (fileWritten request fs c rest)
      (s.set (request.parentClusterNumber, (request.name, request.ext))
        (some (.file (bufferBytes request))) (s.free - clusterUnits (bufferBytes request))) := by
  have hcons := hinv.owned.consistent
  have hwf : WellFormed fs := ⟨hinv.mountable.image, hcons⟩
  have hins := stored_inserted hwf hreq htake
  obtain ⟨y, hy, hunused⟩ := hreq.slot
  refine hrep.inserted hinv.owned hins (writeSlot_ne_zero hcons hreq.live hunused) ?_ ?_ ?_ ?_
  · refine ⟨fileEntry_attr c hreq.sized, c :: rest, hins.chain, ?_⟩
    have hchain := hins.chain
    rw [fileEntry_cluster] at hchain
    rw [← stored_bytes hwf hreq htake]
    exact chainBytes_eq hchain
  · refine hrep.absent hinv.owned ?_
    intro i hs hkey
    obtain ⟨hname, hext⟩ := Prod.mk.inj hkey
    exact hreq.fresh i ⟨hs.slot, hname.symm, hext.symm⟩
  · intro d i m hs
    refine nodeOf_congr ?_
    intro ha
    obtain ⟨l, hl, -, -⟩ := hcons.chain hs
    obtain ⟨hl', hdisk⟩ := fileWritten_keeps hwf hreq htake hs ha hl
    exact ⟨l, hl, hl', hdisk⟩
  · rw [fileWritten_fat, freeCells_linkCells htake, List.length_drop, hrep.free,
      clusterUnits_bufferBytes]

/-- A stored directory is a new entry. -/
theorem directoryWritten_represents (hlive : Live fs.table request.parentClusterNumber)
    (hzero : ∀ i, i ≠ 0 → newTable i = FAT32DirectoryEntry.zero)
    (hs : request.bufferSize = 0) (hfree : freeCells fs.fat = c :: rest)
    (hslot : writeSlot request fs ≠ 0)
    (hfresh : s.entry (request.parentClusterNumber, (request.name, fun _ => 0)) = none) :
    Represents (directoryWritten newTable request fs c)
      (s.set (request.parentClusterNumber, (request.name, fun _ => 0))
        (some (.directory c)) (s.free - 1)) := by
  have hcons := hinv.owned.consistent
  have hc : c ∈ freeCells fs.fat := hfree ▸ List.mem_cons_self
  have hins : Inserted fs.table (directoryWritten newTable request fs c).table fs.fat
      (directoryWritten newTable request fs c).fat request.parentClusterNumber
      (writeSlot request fs) (directoryEntry request fs c) [c] :=
    directoryWritten_inserted hcons hlive hc hzero
  have hkey : fullName (directoryEntry request fs c) = (request.name, fun _ => 0) :=
    Prod.ext rfl (directoryEntry_ext hcons hlive hslot c)
  rw [← hkey] at hfresh ⊢
  refine hrep.inserted hinv.owned hins hslot ⟨directoryEntry_attr c hs, directoryEntry_cluster c⟩
    hfresh ?_ ?_
  · intro d i m hs'
    refine nodeOf_congr ?_
    intro ha
    obtain ⟨l, hl, -, h3⟩ := hcons.chain hs'
    refine ⟨l, hl, hins.chain_kept hcons hs' hl, ?_⟩
    intro y hy
    have hlt := fatChain_lt hl hy
    refine directoryWritten_clusterAt (drivePlace_ne hlt (hcons.live_range hlive).2 ?_)
      (place_ne_fatCluster (Nat.le_of_succ_le (h3 y hy)) hlt) ?_
    · -- a file's cluster is no directory
      rintro rfl
      have he := hcons.live_mem_chain hlive hs' hl hy
      exact absurd (ha.symm.trans he.2.2.1) (by decide)
    · refine drivePlace_ne hlt (clusterMapGet_lt (mem_freeCells.mp hc).2) ?_
      rintro rfl
      exact hcons.owned_ne_free hs' hl hy (mem_freeCells.mp hc).2
  · have hplaced : Placed request fs (directoryWritten newTable request fs c)
        (directoryEntry request fs c) [c] :=
      directoryWritten_placed (parent_place hcons hlive) hc
    have hclaimed : (freeCells fs.fat).length
        = (freeCells (directoryWritten newTable request fs c).fat).length + [c].length := by
      refine freeCells_length (List.nodup_singleton c) ?_ ?_
      · intro y hy
        rw [List.mem_singleton.mp hy]
        refine ⟨hc, fun hcell => ?_⟩
        exact hplaced.claimed c List.mem_cons_self (mem_freeCells.mp hcell).2
      · intro y hy
        exact freeCells_congr_of_cell (hins.kept y hy)
    rw [hrep.free, hclaimed]
    rfl

/-- `write` is a step of the store. -/
theorem write_refines_store (hk : StoreCall fs (.write newTable request)) :
    ∃ answer fs' response s', respond fs (.write newTable request) = some (answer, fs') ∧
      Step clusterUnits s (Call.write newTable request).request response s' ∧
      Represents fs' s' ∧ Reports (.write newTable request) response answer := by
  have hcons := hinv.owned.consistent
  have hn := hk.careful
  obtain ⟨⟨hlive, hzero⟩, hwhole⟩ :=
    hk.admissible.resolve_right fun hmove => by simp only [MovesEntry] at hmove
  have hp := live_not_reserved hcons hlive
  rw [respond]
  -- the free cells are counted before anything else about the directory matters
  by_cases hfew : FewCells request fs
  · refine ⟨.code 1, fs, .noSpace, s, ?_, ?_, hrep, .noSpace⟩
    · rw [write_fewCells hn hp hfew]
      rfl
    · rw [Call.request]
      rcases hfew with ⟨hs, hnone⟩ | ⟨hs, hless⟩
      · rw [if_pos hs]
        exact .noSpaceDirectory (by rw [hrep.free, hnone]; rfl)
      · rw [if_neg hs]
        exact .noSpaceFile (by rwa [hrep.free, clusterUnits_bufferBytes])
  · obtain ⟨⟨y, hunused⟩, hlast⟩ := hk.ownership hn hfew
    have hslot := writeSlot_ne_zero hcons hlive hunused
    have hnot : ∀ ext, ext = request.ext ∨ ext = storedExt request →
        ¬ NameTaken fs request ext := by
      rintro ext (rfl | rfl) htaken
      · exact hfew (hk.names (Or.inl htaken))
      · exact hfew (hk.names (Or.inr htaken))
    by_cases hs : request.bufferSize = 0
    · -- a directory
      obtain ⟨c, rest, hfree⟩ : ∃ c rest, freeCells fs.fat = c :: rest := by
        cases hcells : freeCells fs.fat with
        | nil => exact absurd (Or.inl ⟨hs, hcells⟩) hfew
        | cons c rest => exact ⟨c, rest, rfl⟩
      have hc511 : c.toNat ≠ 511 := by
        refine hlast hs c ?_
        rw [hfree]
        rfl
      have hfresh := hrep.fresh hinv (hnot _ (Or.inr rfl))
      rw [storedExt, if_pos hs] at hfresh
      have hcell := (mem_freeCells.mp (hfree ▸ List.mem_cons_self : c ∈ freeCells fs.fat)).2
      obtain ⟨hempty, hnew⟩ := hrep.unused_cell hinv hcell
      refine ⟨.code 0, directoryWritten newTable request fs c, .done, _, ?_, ?_,
        directoryWritten_represents hinv hrep hlive hzero hs hfree hslot hfresh, .stored⟩
      · rw [write_directory hn hp hs, writeDirectory_eq hfree hc511]
        rfl
      · rw [Call.request, if_pos hs]
        refine .made hfresh hempty hnew ?_
        rw [hrep.free, hfree]
        exact Nat.succ_le_succ (Nat.zero_le _)
    · -- a file
      have hcells : clusterCount request ≤ (freeCells fs.fat).length := by
        by_contra hless
        exact hfew (Or.inr ⟨hs, Nat.not_le.mp hless⟩)
      have hreq : FileRequest request fs := by
        refine ⟨hn, hs, hwhole, hlive, ⟨writeSlot request fs, hslot, ?_⟩, ?_, hcells⟩
        · exact (writeSlot_spec request fs).resolve_left hslot
        · rintro i ⟨hi, hname, hext⟩
          have hnamed : (fs.table request.parentClusterNumber i).name ≠ fun _ => 0 := hname ▸ hn
          have hused := hcons.used_of_name hlive hnamed
          exact hnot _ (Or.inl rfl) ⟨i, hi, hused, hname.symm, hext.symm⟩
      obtain ⟨c, rest, htake, hwrite⟩ := write_fileRequest newTable hcons hreq
      have hfresh := hrep.fresh hinv (hnot _ (Or.inl rfl))
      refine ⟨.code 0, fileWritten request fs c rest, .done, _, ?_, ?_,
        fileWritten_represents hinv hrep hreq htake, .stored⟩
      · rw [hwrite]
        rfl
      · rw [Call.request, if_neg hs]
        refine .stored hfresh ?_
        rwa [hrep.free, clusterUnits_bufferBytes]

end Write

/-! ## Deleting -/

theorem clusterUnits_chain (disk : Disk) (l : List UInt32) :
    clusterUnits (l.flatMap (clusterBytes disk)) = l.length := by
  rw [clusterUnits, length_flatMap_clusterBytes]
  exact Nat.mul_div_cancel_left _ (by decide)

/-- Freeing a chain gives back its cells. -/
theorem freeCells_freeChain (hcons : FsConsistent fs) (hs : UsedSlot fs.table d i)
    (hl : FatChain fs.fat (fs.table d i).cluster l) :
    (freeCells (freeChain fs.fat l)).length = (freeCells fs.fat).length + l.length := by
  obtain ⟨l', hl', -, h3⟩ := hcons.chain hs
  obtain rfl := chain_unique hl hl'
  refine freeCells_length (chain_nodup hl) ?_ ?_
  · intro y hy
    refine ⟨mem_freeCells.mpr ⟨Nat.le_of_succ_le (h3 y hy), ?_⟩, fun hfree => ?_⟩
    · exact freeChain_get_mem fs.fat hy (fatChain_lt hl hy)
    · exact hcons.owned_ne_free hs hl hy (mem_freeCells.mp hfree).2
  · intro y hy
    exact freeCells_congr_of_cell (freeChain_get_notMem fs.fat hy).symm

section Lookup

variable (hinv : DriverInvariant fs) (hrep : Represents fs s)
  (hlive : Live fs.table request.parentClusterNumber) (hn : request.name ≠ fun _ => 0)
include hinv hrep hlive hn

omit hlive hn in
/-- A name that is not found has no entry. -/
theorem Represents.notFound
    (hm : firstMatch request (fs.table request.parentClusterNumber) = none) :
    s.entry (request.parentClusterNumber, (request.name, request.ext)) = none := by
  refine hrep.absent hinv.owned ?_
  intro i hs hkey
  obtain ⟨hname, hext⟩ := Prod.mk.inj hkey
  exact firstMatch_eq_none.mp hm i ⟨hs.slot, hname.symm, hext.symm⟩

/-- The slot that is found holds the entry of the name. -/
theorem Represents.found
    (hm : firstMatch request (fs.table request.parentClusterNumber) = some i) :
    UsedSlot fs.table request.parentClusterNumber i ∧
      fullName (fs.table request.parentClusterNumber i) = (request.name, request.ext) ∧
      ∀ n, NodeOf fs (fs.table request.parentClusterNumber i) n →
        s.entry (request.parentClusterNumber, (request.name, request.ext)) = some n := by
  have hs := usedSlot_of_firstMatch hinv.owned.consistent hlive hn hm
  obtain ⟨-, hname, hext⟩ := firstMatch_some hm
  have hkey : fullName (fs.table request.parentClusterNumber i) = (request.name, request.ext) :=
    Prod.ext hname.symm hext.symm
  refine ⟨hs, hkey, ?_⟩
  intro n hnode
  rw [← hkey]
  exact hrep.present hs hnode

end Lookup

section Delete

variable (hinv : DriverInvariant fs) (hrep : Represents fs s)
include hinv hrep

/-- Clearing a slot and freeing its chain takes the entry away. -/
theorem slotCleared_represents (hs : UsedSlot fs.table request.parentClusterNumber i)
    (hl : FatChain fs.fat (fs.table request.parentClusterNumber i).cluster l)
    (hempty : ∀ x, dirEdge fs.table request.parentClusterNumber i x → TableEmpty (fs.table x)) :
    Represents (slotCleared request fs (freeChain fs.fat l) (zeroChain fs.disk l) i)
      (s.set (request.parentClusterNumber, fullName (fs.table request.parentClusterNumber i))
        none (s.free + l.length)) := by
  have hcons := hinv.owned.consistent
  have hrem := slotCleared_removed hcons hs.live hs hl (fun y hy => hy) hempty
  refine hrep.removed hinv.owned hinv.named.unique hrem ?_ ?_
  · intro d j m hs' hne
    refine nodeOf_congr ?_
    intro ha
    obtain ⟨l', hl', -, h3⟩ := hcons.chain hs'
    refine ⟨l', hl', hrem.chain_kept hcons hs' (fun h => hne (Prod.ext h.1 h.2)) hl', ?_⟩
    intro y hy
    have hlt := fatChain_lt hl' hy
    refine slotCleared_clusterAt (drivePlace_ne hlt (hcons.live_range hs.live).2 ?_)
      (place_ne_fatCluster (Nat.le_of_succ_le (h3 y hy)) hlt) ?_
    · -- a file's cluster is no directory
      rintro rfl
      have he := hcons.live_mem_chain hs.live hs' hl' hy
      exact absurd (ha.symm.trans he.2.2.1) (by decide)
    · intro z hz
      refine drivePlace_ne hlt (fatChain_lt hl hz) ?_
      rintro rfl
      obtain ⟨hd, hi⟩ := hcons.disjoint hs' hs hl' hl hy hz
      exact hne (Prod.ext hd hi)
  · rw [hrep.free]
    exact (freeCells_freeChain hcons hs hl).symm

/-- `delete` is a step of the store. -/
theorem delete_refines_store (hk : StoreCall fs (.delete request)) :
    ∃ answer fs' response s', respond fs (.delete request) = some (answer, fs') ∧
      Step clusterUnits s (Call.delete request).request response s' ∧
      Represents fs' s' ∧ Reports (.delete request) response answer := by
  have hcons := hinv.owned.consistent
  have hn := hk.careful
  obtain ⟨hlive, -⟩ :=
    hk.admissible.resolve_right fun hmove => by simp only [MovesEntry] at hmove
  rw [respond, Call.request]
  cases hm : firstMatch request (fs.table request.parentClusterNumber) with
  | none =>
      refine ⟨.code (-1), fs, .notFound, s, ?_, ?_, hrep, .nothingRemoved⟩
      · rw [delete_notFound hn hm]
        rfl
      · exact .nothingRemoved (hrep.notFound hinv hm)
  | some i =>
      obtain ⟨hs, hkey, hentry⟩ := hrep.found hinv hlive hn hm
      obtain ⟨l, hl, hne, -⟩ := hcons.chain hs
      rcases hinv.owned.kind hs with hd | ha
      · -- a directory
        set c := (fs.table request.parentClusterNumber i).cluster with hc
        have hedge : dirEdge fs.table request.parentClusterNumber i c :=
          ⟨hs.slot, hs.used, hd, rfl⟩
        have hnode := hentry (.directory c) ⟨hd, rfl⟩
        obtain rfl := hinv.owned.chain_directory hlive hedge hl
        by_cases hempty : TableEmpty (fs.table c)
        · -- no entry is below it, so taking it away takes nothing else
          have hempty' : ∀ x, dirEdge fs.table request.parentClusterNumber i x →
              TableEmpty (fs.table x) := by
            intro x hx
            rw [← hx.2.2.2]
            exact hempty
          have hlt : c.toNat < clusterMapSize := fatChain_lt hl List.mem_cons_self
          have hrep' := slotCleared_represents hinv hrep hs hl hempty'
          rw [hkey] at hrep'
          refine ⟨.code 0, _, .done, _, ?_, ?_, hrep', .removed⟩
          · rw [delete_directory hn hm hd, deleteDirectory_eq rfl hempty hlt]
            rfl
          · refine .removedDirectory hnode ?_
            intro k
            exact hrep.absent hinv.owned fun j hs' => absurd hs'.used (hempty j hs'.slot)
        · refine ⟨.code 2, fs, .notEmpty, s, ?_, ?_, hrep, .notEmpty⟩
          · rw [delete_directory hn hm hd, deleteDirectory_filled hempty]
            rfl
          · obtain ⟨j, hj⟩ := not_forall.mp hempty
            obtain ⟨hj0, hused⟩ := Classical.not_imp.mp hj
            have hs' : UsedSlot fs.table c j := ⟨hlive.child hedge, hj0, not_not.mp hused⟩
            exact .notEmpty hnode ((hrep.used_iff hinv.owned).mp ⟨j, hs', rfl⟩)
      · -- a file, of two clusters or more
        have hnode := hentry (.file (l.flatMap (clusterBytes fs.disk))) ⟨ha, l, hl, rfl⟩
        have hlong : 2 ≤ l.length := by
          refine two_le_length hl hne ?_
          intro hend
          exact hk.ownership hn ⟨i, hm, ha, hend⟩
        have hrep' := slotCleared_represents hinv hrep hs hl fun x hx =>
          absurd (ha.symm.trans hx.2.2.1) (by decide)
        rw [hkey] at hrep'
        refine ⟨.code 0, _, .done, _, ?_, ?_, hrep', .removed⟩
        · rw [delete_file hn hm ha, deleteFile_eq hl hlong]
          rfl
        · rw [← clusterUnits_chain fs.disk l]
          exact .removedFile hnode

end Delete

/-! ## Reading and listing -/

theorem NodeOf.kind (hnode : NodeOf fs e n) : n.kind = entryKind e := by
  cases n with
  | file b =>
      have hnot : e.attr ≠ attrSubdirectory := by
        rw [hnode.1]
        decide
      rw [entryKind, if_neg hnot]
      rfl
  | directory x =>
      rw [entryKind, if_pos hnode.1, hnode.2]
      rfl

section Read

variable (hinv : DriverInvariant fs) (hrep : Represents fs s)
include hinv hrep

/-- `read` is a step of the store. -/
theorem read_refines_store (hk : StoreCall fs (.read request)) :
    ∃ answer fs' response s', respond fs (.read request) = some (answer, fs') ∧
      Step clusterUnits s (Call.read request).request response s' ∧
      Represents fs' s' ∧ Reports (.read request) response answer := by
  have hcons := hinv.owned.consistent
  obtain ⟨hn, hs, hfile⟩ := hk.careful
  obtain ⟨hlive, -⟩ :=
    hk.admissible.resolve_right fun hmove => by simp only [MovesEntry] at hmove
  rw [respond, Call.request]
  cases hm : firstMatch request (fs.table request.parentClusterNumber) with
  | none =>
      refine ⟨.filled 3 request.buf, fs, .notFound, s, ?_, ?_, hrep, .nothingRead⟩
      · rw [read_notFound hn hs hm]
        rfl
      · exact .nothingRead (hrep.notFound hinv hm)
  | some i =>
      obtain ⟨hslot, -, hentry⟩ := hrep.found hinv hlive hn hm
      obtain ⟨l, hl, -, -⟩ := hcons.chain hslot
      have ha := (hinv.owned.kind hslot).resolve_left fun hd => hfile ⟨i, hm, hd⟩
      have hnode := hentry (.file (l.flatMap (clusterBytes fs.disk))) ⟨ha, l, hl, rfl⟩
      by_cases hroom : l.length ≤ clusterCount request
      · refine ⟨.filled 0 (copyClusters fs.disk request.buf 0 l), fs,
          .content (l.flatMap (clusterBytes fs.disk)), s, ?_, ?_, hrep, .content ?_ ?_⟩
        · rw [read_eq hn hs hm hl hroom]
          rfl
        · refine .found hnode ?_
          rwa [clusterUnits_chain]
        · rw [length_flatMap_clusterBytes]
          exact copyClusters_bytes fs.disk request.buf l
        · rw [length_flatMap_clusterBytes]
          exact (copyClusters_exact fs.disk request.buf l).2
      · refine ⟨.filled 2 request.buf, fs, .tooSmall, s, ?_, ?_, hrep, .tooSmall⟩
        · rw [read_tooSmall hn hs hm hl (Nat.not_le.mp hroom)]
          rfl
        · refine .tooSmall hnode ?_
          rw [clusterUnits_chain]
          exact Nat.not_le.mp hroom

/-- The table of a directory lists its entries. -/
theorem table_lists (hlive : Live fs.table c) :
    Lists (fs.table c) fun k => (s.entry (c, k)).map StoreNode.kind := by
  intro k o
  rw [Option.map_eq_some_iff]
  constructor
  · rintro ⟨n, hentry, rfl⟩
    obtain ⟨i, hs, hkey, hnode⟩ := (hrep.entry c k n).mp hentry
    exact ⟨i, hs.slot, hs.used, hkey, (hnode.kind).symm⟩
  · rintro ⟨i, hi, hused, rfl, rfl⟩
    have hs : UsedSlot fs.table c i := ⟨hlive, hi, hused⟩
    obtain ⟨n, hnode⟩ := exists_nodeOf hinv.owned hs
    exact ⟨n, hrep.present hs hnode, hnode.kind⟩

/-- `read_directory` is a step of the store. -/
theorem readDirectory_refines_store (hk : StoreCall fs (.readDirectory request)) :
    ∃ answer fs' response s', respond fs (.readDirectory request) = some (answer, fs') ∧
      Step clusterUnits s (Call.readDirectory request).request response s' ∧
      Represents fs' s' ∧ Reports (.readDirectory request) response answer := by
  have hcons := hinv.owned.consistent
  obtain ⟨hn, hs, hself⟩ := hk.careful
  obtain ⟨hlive, -⟩ :=
    hk.admissible.resolve_right fun hmove => by simp only [MovesEntry] at hmove
  rw [respond, Call.request]
  cases hm : firstDirectory request (fs.table request.parentClusterNumber) with
  | none =>
      refine ⟨.filled 2 request.buf, fs, .notFound, s, ?_, .nothingListed ?_, hrep,
        .nothingListed⟩
      · rw [readDirectory_notFound hn hs hm]
      · intro x hentry
        obtain ⟨i, hslot, hkey, hnode⟩ := (hrep.entry _ _ _).mp hentry
        exact firstDirectory_eq_none.mp hm i (Prod.mk.inj hkey).1.symm hnode.1
  | some i =>
      obtain ⟨hname, hd⟩ := firstDirectory_some hm
      have hi : i ≠ 0 := by
        rintro rfl
        exact hself ⟨hname.symm, hd⟩
      have hused : (fs.table request.parentClusterNumber i).used := by
        refine hcons.used_of_name hlive ?_
        rw [← hname]
        exact hn
      have hslot : UsedSlot fs.table request.parentClusterNumber i := ⟨hlive, hi, hused⟩
      have hedge : dirEdge fs.table request.parentClusterNumber i
          (fs.table request.parentClusterNumber i).cluster := ⟨hi, hused, hd, rfl⟩
      have hkey : fullName (fs.table request.parentClusterNumber i)
          = (request.name, fun _ => 0) :=
        Prod.ext hname.symm (hinv.plain _ _ _ hlive hedge)
      have hentry := hrep.present hslot ((nodeOf_directory_iff hslot).mpr hedge)
      rw [hkey] at hentry
      refine ⟨_, fs, _, s, ?_, .listed hentry, hrep,
        .listing (table_lists hinv hrep (hlive.child hedge))⟩
      rw [readDirectory_eq hn hs hm]

end Read

/-! ## Moving -/

/-- The move syscall is a step of the store. -/
theorem move_refines_store {srcTable destTable : FAT32DirectoryTable} {srcIdx : UInt32}
    (hinv : DriverInvariant fs) (hrep : Represents fs s)
    (hk : StoreCall fs (.move srcTable destTable srcIdx)) :
    ∃ answer fs' response s', respond fs (.move srcTable destTable srcIdx) = some (answer, fs') ∧
      Step clusterUnits s (Call.move srcTable destTable srcIdx).request response s' ∧
      Represents fs' s' ∧ Reports (.move srcTable destTable srcIdx) response answer := by
  have hown := hinv.owned
  have hcons := hown.consistent
  obtain ⟨p, q, i, hs, hq, rfl, rfl, hidx, hcases⟩ := hk.move hinv
  have hslot : Fin.ofNat directoryEntryCount srcIdx.toNat = i := by
    rw [hidx]
    exact Fin.ofNat_val_eq_self i
  rw [respond, Call.request, hown.self hs.live, hown.self hq, hslot]
  rcases hcases with hfull | ⟨j, heq, hmoved, hbelow, hfresh⟩
  · refine ⟨.nothing, fs, .noSlot, s, ?_, .notMoved, hrep, .notMoved⟩
    rw [hfull]
    rfl
  · obtain ⟨n, hnode⟩ := exists_nodeOf hown hs
    have hfree := hrep.absent hown hfresh
    refine ⟨.nothing, entryMoved fs p q i j, .done, _, ?_,
      .moved (hrep.present hs hnode) hfree, ?_, .moved⟩
    · rw [heq]
      rfl
    · refine hrep.moved hinv.named.unique hmoved hbelow hnode hfree ?_ hrep.free
      intro d y m hs'
      refine nodeOf_congr ?_
      intro ha
      obtain ⟨l, hl, -, -⟩ := hcons.chain hs'
      refine ⟨l, hl, hl, ?_⟩
      intro z hz
      have hnot : ∀ {r}, Live fs.table r → drivePlace z ≠ drivePlace r := by
        intro r hr
        refine drivePlace_ne (fatChain_lt hl hz) (hcons.live_range hr).2 ?_
        rintro rfl
        have he := hcons.live_mem_chain hr hs' hl hz
        exact absurd (ha.symm.trans he.2.2.1) (by decide)
      exact entryMoved_clusterAt (hnot hs.live) (hnot hq)

/-! ## Every call -/

/-- **One call is one step.** -/
theorem respond_refines (hinv : DriverInvariant fs) (hrep : Represents fs s)
    (hk : StoreCall fs k) :
    ∃ answer fs' response s', respond fs k = some (answer, fs') ∧ DriverInvariant fs' ∧
      Step clusterUnits s k.request response s' ∧ Represents fs' s' ∧
      Reports k response answer := by
  have hstep : ∃ answer fs' response s', respond fs k = some (answer, fs') ∧
      Step clusterUnits s k.request response s' ∧ Represents fs' s' ∧
      Reports k response answer := by
    cases k with
    | write newTable request => exact write_refines_store hinv hrep hk
    | delete request => exact delete_refines_store hinv hrep hk
    | read request => exact read_refines_store hinv hrep hk
    | readDirectory request => exact readDirectory_refines_store hinv hrep hk
    | move srcTable destTable srcIdx => exact move_refines_store hinv hrep hk
  obtain ⟨answer, fs', response, s', h, hstep, hrep', hreports⟩ := hstep
  have hexec : exec fs k = some fs' := by
    rw [← respond_exec, h]
    rfl
  exact ⟨answer, fs', response, s', h, hinv.exec hk hexec, hstep, hrep', hreports⟩

/-! ## Runs -/

/-- A call, or the machine is switched off and on: the driver is mounted again, and its
    memory may hold anything. -/
inductive Event where
  | call (k : Call)
  | reboot (memory : FAT32DriverState)

/-- The file system after an event. -/
def execEvent (fs : FileSystem) : Event → Option FileSystem
  | .call k => exec fs k
  | .reboot memory =>
      some (initializeFilesystemFat32 { driverState := memory, disk := fs.disk })

/-- The calls are those of a careful user. -/
def StoreEvent (fs : FileSystem) : Event → Prop
  | .call k => StoreCall fs k
  | .reboot _ => True

/-- The calls of a run of events. -/
def calls : List Event → List Call
  | [] => []
  | .call k :: events => k :: calls events
  | .reboot _ :: events => calls events

/-- The driver's run and the store's run side by side: the answers agree, and the store does
    not notice a reboot. -/
inductive Served :
    FileSystem → VolumeStore → List Event → FileSystem → VolumeStore → Prop where
  | nil {fs : FileSystem} {s : VolumeStore} : Served fs s [] fs s
  | call {fs fs₁ fs' : FileSystem} {s s₁ s' : VolumeStore} {k : Call} {answer : Answer}
      {response : Response UInt32 FullName (List UInt8)} {events : List Event} :
      respond fs k = some (answer, fs₁) → Step clusterUnits s k.request response s₁ →
      Reports k response answer → Served fs₁ s₁ events fs' s' →
      Served fs s (.call k :: events) fs' s'
  | reboot {fs fs' : FileSystem} {s s' : VolumeStore} {memory : FAT32DriverState}
      {events : List Event} :
      Served (initializeFilesystemFat32 { driverState := memory, disk := fs.disk }) s events
        fs' s' →
      Served fs s (.reboot memory :: events) fs' s'

variable {events : List Event} {s' : VolumeStore} {memory : FAT32DriverState}

/-- The store of the empty volume. -/
def emptyStore : VolumeStore where
  entry := fun _ => none
  free := 509

theorem fresh_represents (disk : Disk) : Represents (freshFileSystem disk) emptyStore where
  entry d k n := by
    refine iff_of_false (Option.some_ne_none n).symm ?_
    rintro ⟨i, hs, -⟩
    exact fresh_no_slot disk hs
  free := fresh_freeCells_length.symm

/-- A volume that differs in the driver's memory only. -/
theorem Represents.congr (hrep : Represents fs s) (hdisk : fs'.disk = fs.disk)
    (hfat : fs'.fat = fs.fat) : Represents fs' s where
  entry d k n := by
    have htable : fs'.table = fs.table := table_congr hdisk
    have hnode : ∀ e, NodeOf fs' e n ↔ NodeOf fs e n := by
      intro e
      cases n with
      | file b => rw [NodeOf, NodeOf, hfat, hdisk]
      | directory x => exact Iff.rfl
    have hslot : ∀ d, fs'.table d = fs.table d := congrFun htable
    simp only [htable, hslot, hnode]
    exact hrep.entry d k n
  free := by rw [hfat, hrep.free]

theorem DriverInvariant.congr (hinv : DriverInvariant fs) (hdisk : fs'.disk = fs.disk)
    (hfat : fs'.fat = fs.fat) : DriverInvariant fs' := by
  have htable : fs'.table = fs.table := table_congr hdisk
  refine ⟨?_, ?_, ⟨?_, ?_, ?_⟩, ?_⟩
  · rw [htable, hfat]
    exact hinv.owned
  · rw [htable]
    exact hinv.named
  · rw [FsConsistent, htable, hfat]
    exact hinv.mountable.consistent
  · rw [ImageInSync, hdisk, hfat]
    exact hinv.mountable.image
  · rw [hdisk]
    exact hinv.mountable.signed
  · rw [htable]
    exact hinv.plain

/-- A run of the driver is a run of the store. -/
theorem served_of_guarded (hinv : DriverInvariant fs) (hrep : Represents fs s)
    (h : PartialRun.Guarded execEvent StoreEvent fs events) :
    ∃ fs' s', Served fs s events fs' s' ∧ DriverInvariant fs' ∧ Represents fs' s' := by
  induction events generalizing fs s with
  | nil => exact ⟨fs, s, .nil, hinv, hrep⟩
  | cons event events ih =>
      obtain ⟨hevent, hrest⟩ := h
      cases event with
      | call k =>
          obtain ⟨answer, fs₁, response, s₁, h₁, hinv₁, hstep, hrep₁, hreports⟩ :=
            respond_refines hinv hrep hevent
          have hexec : execEvent fs (.call k) = some fs₁ := by
            rw [execEvent, ← respond_exec, h₁]
            rfl
          obtain ⟨fs', s', hserved, hfinal⟩ := ih hinv₁ hrep₁ (hrest fs₁ hexec)
          exact ⟨fs', s', .call h₁ hstep hreports hserved, hfinal⟩
      | reboot memory =>
          obtain ⟨hdisk, hfat⟩ :=
            (reboots_of_image hinv.mountable.image hinv.mountable.signed).mounted memory
          obtain ⟨fs', s', hserved, hfinal⟩ :=
            ih (hinv.congr hdisk hfat) (hrep.congr hdisk hfat) (hrest _ rfl)
          exact ⟨fs', s', .reboot hserved, hfinal⟩

/-- The steps of the store in such a run. -/
theorem Served.run (h : Served fs s events fs' s') :
    ∃ trace, Run clusterUnits s trace s' ∧
      trace.map Prod.fst = (calls events).map Call.request := by
  induction h with
  | nil => exact ⟨[], .nil, rfl⟩
  | @call _ _ _ _ _ _ k _ response _ _ hstep _ _ ih =>
      obtain ⟨trace, hrun, hmap⟩ := ih
      refine ⟨(k.request, response) :: trace, .cons hstep hrun, ?_⟩
      rw [List.map_cons, hmap]
      rfl
  | reboot _ ih => exact ih

theorem Served.execEvents (h : Served fs s events fs' s') :
    PartialRun.run execEvent fs events = some fs' := by
  induction h with
  | nil => rfl
  | @call fs fs₁ _ _ _ _ k answer _ _ h₁ _ _ _ ih =>
      have hexec : execEvent fs (.call k) = some fs₁ := by
        rw [execEvent, ← respond_exec, h₁]
        rfl
      rw [PartialRun.run_cons, hexec, Option.bind_some, ih]
  | reboot _ ih =>
      rw [PartialRun.run_cons, execEvent, Option.bind_some, ih]

theorem emptyStore_finite : emptyStore.Finite clusterUnits := by
  refine Set.finite_empty.subset ?_
  intro p hp
  exact absurd rfl hp

theorem emptyStore_space : emptyStore.free + emptyStore.used clusterUnits = 509 := by
  have hzero : emptyStore.used clusterUnits = 0 := finsum_zero
  rw [hzero]
  rfl

/-- In the fresh root every name is new. -/
theorem fresh_not_nameTaken (disk : Disk) (name : List UInt8) (size : UInt32) (ext : EntryExt) :
    ¬ NameTaken (freshFileSystem disk) (rootRequest name size) ext := by
  rintro ⟨i, hi, hused, -⟩
  exact fresh_unused disk hi hused

theorem mkdir_storeCall :
    StoreCall (freshFileSystem blankDisk) (.write zeroTable (rootRequest [97] 0)) where
  admissible := mkdir_keepsOwnership.1
  ownership := mkdir_keepsOwnership.2
  names := by
    rintro (h | h)
    · exact absurd h (fresh_not_nameTaken _ _ _ _)
    · exact absurd h (fresh_not_nameTaken _ _ _ _)
  careful := rootName_a

/-- Reading a file of the store is a careful call. -/
theorem storeCall_read (hinv : DriverInvariant fs) (hrep : Represents fs s) {b : List UInt8}
    (hentry : s.entry (request.parentClusterNumber, (request.name, request.ext))
      = some (.file b)) (hs : request.bufferSize ≠ 0) : StoreCall fs (.read request) := by
  obtain ⟨i, hslot, hkey, -⟩ := (hrep.entry _ _ _).mp hentry
  have hn : request.name ≠ fun _ => 0 := by
    rw [← (Prod.mk.inj hkey).1]
    exact hinv.named.named hslot
  refine ⟨Or.inl ⟨hslot.live, trivial⟩, trivial, trivial, hn, hs, ?_⟩
  rintro ⟨j, hm, hd⟩
  obtain ⟨-, -, hfound⟩ := hrep.found hinv hslot.live hn hm
  rw [hfound (.directory _) ⟨hd, rfl⟩] at hentry
  cases hentry

/-- What `read` returns for a file of the store. -/
theorem Represents.read_file (hrep : Represents fs s) (hinv : DriverInvariant fs)
    {b : List UInt8}
    (hentry : s.entry (request.parentClusterNumber, (request.name, request.ext))
      = some (.file b)) (hs : request.bufferSize ≠ 0) :
    (clusterUnits b ≤ clusterCount request → ∃ buf, OsyFat32.read request fs = some (0, buf) ∧
      (List.range b.length).map buf = b ∧ ∀ k, b.length ≤ k → buf k = request.buf k) ∧
    (clusterCount request < clusterUnits b →
      OsyFat32.read request fs = some (2, request.buf)) := by
  obtain ⟨answer, fs', response, s', h, hstep, -, hreports⟩ :=
    read_refines_store hinv hrep (storeCall_read hinv hrep hentry hs)
  rw [respond, Option.map_eq_some_iff] at h
  obtain ⟨⟨code, buf⟩, hread, hanswer⟩ := h
  obtain ⟨rfl, rfl⟩ := Prod.mk.inj hanswer
  rw [Call.request] at hstep
  cases hstep with
  | @found _ _ _ b' hb' hroom =>
      rw [hentry, Option.some.injEq, StoreNode.file.injEq] at hb'
      subst hb'
      cases hreports with
      | content hbytes hrest =>
          exact ⟨fun _ => ⟨buf, hread, hbytes, hrest⟩,
            fun hless => absurd hroom (Nat.not_le.mpr hless)⟩
  | @tooSmall _ _ _ b' hb' hless =>
      rw [hentry, Option.some.injEq, StoreNode.file.injEq] at hb'
      subst hb'
      cases hreports with
      | tooSmall => exact ⟨fun hroom => absurd hroom (Nat.not_le.mpr hless), fun _ => hread⟩
  | nothingRead hnone =>
      rw [hnone] at hentry
      cases hentry

/-- A file that was stored is an entry of the store. -/
theorem stored_entry (hinv : DriverInvariant fs) (hrep : Represents fs s)
    (hk : StoreCall fs (.write newTable request)) (hs : request.bufferSize ≠ 0)
    (hwrite : OsyFat32.write newTable request fs = some (0, fs')) :
    ∃ s', DriverInvariant fs' ∧ Represents fs' s' ∧
      s'.entry (request.parentClusterNumber, (request.name, request.ext))
        = some (.file (bufferBytes request)) := by
  obtain ⟨answer, fs₁, response, s', h, hinv', hstep, hrep', hreports⟩ :=
    respond_refines hinv hrep hk
  rw [respond, hwrite, Option.map_some, Option.some.injEq, Prod.mk.injEq] at h
  obtain ⟨rfl, rfl⟩ := h
  refine ⟨s', hinv', hrep', ?_⟩
  rw [Call.request, if_neg hs] at hstep
  cases hreports with
  | stored =>
      cases hstep with
      | stored _ _ => exact set_entry_self ..

theorem bigFile_storeCall :
    StoreCall (freshFileSystem blankDisk) (.write zeroTable bigFile) where
  admissible := Or.inl ⟨⟨.root, fun _ _ => rfl⟩, by decide⟩
  ownership := fun _ _ => ⟨⟨1, fresh_unused blankDisk (by decide)⟩, fun h => absurd h (by decide)⟩
  names := by
    rintro (h | h)
    · exact absurd h (fresh_not_nameTaken _ _ _ _)
    · exact absurd h (fresh_not_nameTaken _ _ _ _)
  careful := rootName_a

end OsyVolume
