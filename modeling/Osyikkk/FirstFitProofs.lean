import Osyikkk.AtomicityProofs

/-!
# First-fit allocation

A directory claims the first free cell in a scan that stops early, a file collects its cells
and links them in a loop of its own. Both take the lowest free cells of the table, link them
in ascending order and touch nothing else (`FirstFit`). They differ in how they notice that
the table is full: the scan for a directory compares its index with the end of the table and
so refuses cell 511 as well.
-/

namespace OsyVolume

open OsyDisk OsyFat32 LinkedChain RootedForest

variable {request : FAT32DriverRequest} {fs fs' : FileSystem} {newTable : FAT32DirectoryTable}
  {e : FAT32DirectoryEntry} {k : ℕ} {l : List UInt32}

/-- The cells of the list are the `k` lowest empty ones, they became one chain that the
    entry in the parent leads to, and nothing else changed. -/
structure FirstFit (request : FAT32DriverRequest) (fs fs' : FileSystem) (k : ℕ)
    (l : List UInt32) : Prop where
  length : l.length = k
  empty : ∀ c ∈ l, 2 ≤ c.toNat ∧ clusterMapGet fs.fat c = some fat32FatEmptyEntry
  ordered : l.Pairwise fun c d => c.toNat < d.toNat
  lowest : ∀ c ∈ l, ∀ d : UInt32, 2 ≤ d.toNat →
    clusterMapGet fs.fat d = some fat32FatEmptyEntry → d ∉ l → c.toNat < d.toNat
  changed : ∀ c, clusterMapGet fs'.fat c ≠ clusterMapGet fs.fat c ↔ c ∈ l
  linked : Linked (clusterMapGet fs'.fat) fat32FatEndOfFile l
  entry : ∃ e, fs'.table request.parentClusterNumber
      = Function.update (fs.table request.parentClusterNumber) (writeSlot request fs) e ∧
    l.head? = some e.cluster
  image : ImageInSync fs'
  clusters : ∀ q, drivePlace q ≠ drivePlace request.parentClusterNumber →
    drivePlace q ≠ drivePlace fatClusterNumber →
    (∀ c ∈ l, drivePlace q ≠ drivePlace c) → clusterAt fs'.disk q = clusterAt fs.disk q

/-- A number of free cells taken from the front are the lowest ones. -/
theorem taken_lowest {fat : FAT32FileAllocationTable} {c d : UInt32}
    (htake : (freeCells fat).take k = l) (hc : c ∈ l) (hd : d ∈ freeCells fat) (hno : d ∉ l) :
    c.toNat < d.toNat := by
  have hsplit := htake ▸ List.take_append_drop k (freeCells fat)
  have hordered := freeCells_ordered fat
  rw [← hsplit] at hd hordered
  have hdrop := (List.mem_append.mp hd).resolve_left hno
  exact (List.pairwise_append.mp hordered).2.2 c hc d hdrop

/-- An entry placed on cells from the front of the free ones is a first fit. -/
theorem Placed.firstFit (h : Placed request fs fs' e l) (htake : (freeCells fs.fat).take k = l)
    (hlen : k ≤ (freeCells fs.fat).length) : FirstFit request fs fs' k l := by
  constructor
  case length => rw [← htake, List.length_take, Nat.min_eq_left hlen]
  case empty => exact fun c hc => taken_free htake hc
  case ordered => exact htake ▸ (freeCells_ordered fs.fat).sublist (List.take_sublist _ _)
  case lowest =>
    intro c hc d hd2 hd hno
    exact taken_lowest htake hc (mem_freeCells.mpr ⟨hd2, hd⟩) hno
  case changed =>
    intro c
    constructor
    · intro hne
      by_contra hno
      exact hne (h.kept c hno)
    · intro hc heq
      exact h.claimed c hc (heq.trans (h.fresh c hc))
  case linked => exact linked_of_chain h.chain
  case entry =>
    refine ⟨e, h.table, ?_⟩
    obtain ⟨c, rest, hl⟩ := List.exists_cons_of_ne_nil h.nonempty
    obtain ⟨hhead, -⟩ := chain_cons_iff.mp (hl ▸ h.chain)
    rw [hl, List.head?_cons, hhead]
  case image => exact h.image
  case clusters => exact h.clusters

/-- A request that is accepted names a parent behind the reserved clusters. -/
theorem write_accepted_parent (h : OsyFat32.write newTable request fs = some (0, fs')) :
    ¬ request.parentClusterNumber < 2 := by
  intro hp
  by_cases hn : request.name = fun _ => 0
  · rw [write_emptyName hn] at h
    exact absurd (Prod.mk.inj (Option.some.inj h)).1 (by decide)
  · rw [write_reserved hn hp] at h
    exact absurd (Prod.mk.inj (Option.some.inj h)).1 (by decide)

/-- **Allocation is first-fit and touches nothing else.** -/
theorem write_firstFit
    (hsize : (request.bufferSize = 0 ∧ k = 1) ∨
      (1 ≤ k ∧ request.bufferSize.toNat = k * clusterSize))
    (hparent : request.parentClusterNumber.toNat < clusterMapSize)
    (h : OsyFat32.write newTable request fs = some (0, fs')) :
    ∃ l, FirstFit request fs fs' k l := by
  have h2 := write_accepted_parent h
  rw [UInt32.lt_iff_toNat_lt, Nat.not_lt] at h2
  have hplace := place_ne_fatCluster h2 hparent
  cases write_outcome h with
  | refused hcode => exact absurd rfl hcode
  | @directory c rest _ hs hfree _ =>
      have hk : k = 1 := by
        rcases hsize with ⟨-, hk⟩ | ⟨h1, hk⟩
        · exact hk
        · rw [hs, show (0 : UInt32).toNat = 0 from rfl] at hk
          simp only [clusterSize] at hk
          omega
      have hc : c ∈ freeCells fs.fat := hfree ▸ List.mem_cons_self
      refine ⟨[c], (directoryWritten_placed hplace hc).firstFit ?_ ?_⟩
      · rw [hk, hfree, List.take_succ_cons, List.take_zero]
      · rw [hk, hfree, List.length_cons]
        omega
  | @file c rest _ hs _ hlen htake =>
      have hk : clusterCount request = k := by
        rcases hsize with ⟨h0, -⟩ | ⟨-, hk⟩
        · exact absurd h0 hs
        · rw [clusterCount_eq, hk, clusterSize, Nat.mul_div_cancel _ (by decide)]
      rw [hk] at hlen htake
      exact ⟨c :: rest, (fileWritten_placed hplace htake).firstFit htake hlen⟩

/-- A file of 508 clusters takes the lowest 508 of the 509 cells of an empty volume. -/
theorem write_firstFit_bigFile :
    ∃ l, FirstFit bigFile (freshFileSystem blankDisk) afterBigFile 508 l :=
  write_firstFit (Or.inr ⟨by decide, by decide⟩) (by decide) write_bigFile

/-! ## The full table -/

/-- The cells a request of whole clusters needs. -/
def cellsNeeded (request : FAT32DriverRequest) : ℕ :=
  if request.bufferSize = 0 then 1 else request.bufferSize.toNat / clusterSize

/-- The request is refused with error 1 exactly when it needs more cells than are empty, and
    is accepted otherwise. -/
def UsesEveryCell (room : ℕ) (newTable : FAT32DirectoryTable) (request : FAT32DriverRequest)
    (fs : FileSystem) : Prop :=
  ∃ code fs', writeOnStack room newTable request fs = some (code, fs') ∧
    (code = 1 ↔ (freeCells fs.fat).length < cellsNeeded request) ∧ (code ≠ 1 → code = 0)

theorem fewCells_iff (request : FAT32DriverRequest) (fs : FileSystem) :
    FewCells request fs ↔ (freeCells fs.fat).length < cellsNeeded request := by
  unfold FewCells cellsNeeded
  by_cases hs : request.bufferSize = 0
  · rw [if_pos hs, Nat.lt_one_iff, List.length_eq_zero_iff]
    simp [hs]
  · rw [if_neg hs, clusterCount_eq]
    simp [hs]

/-- The request is accepted or refused for want of cells unless it claims cell 511. -/
theorem write_code {room : ℕ} (hwhole : clusterSize ∣ request.bufferSize.toNat)
    (hn : request.name ≠ fun _ => 0) (hp : ¬ request.parentClusterNumber < 2)
    (hfits : 4 * clusterCount request ≤ room)
    (hlast : ¬ (request.bufferSize = 0 ∧ (freeCells fs.fat).head? = some 511)) :
    UsesEveryCell room newTable request fs := by
  rw [UsesEveryCell, writeOnStack_fits hfits]
  by_cases hfew : FewCells request fs
  · exact ⟨1, fs, write_fewCells hn hp hfew, iff_of_true rfl ((fewCells_iff _ _).mp hfew),
      fun hne => absurd rfl hne⟩
  have hno := mt (fewCells_iff request fs).mpr hfew
  by_cases hs : request.bufferSize = 0
  · cases hfree : freeCells fs.fat with
    | nil => exact absurd (Or.inl ⟨hs, hfree⟩) hfew
    | cons c rest =>
        have hc : c.toNat ≠ 511 := by
          intro hc
          obtain rfl : c = 511 := UInt32.toNat_inj.mp hc
          exact hlast ⟨hs, by rw [hfree, List.head?_cons]⟩
        have hcall : OsyFat32.write newTable request fs
            = some (0, directoryWritten newTable request fs c) := by
          rw [write_directory hn hp hs, writeDirectory_eq hfree hc]
        exact ⟨0, _, hcall, iff_of_false (by decide) (hfree ▸ hno), fun _ => rfl⟩
  · have hlen : clusterCount request ≤ (freeCells fs.fat).length := by
      by_contra hlt
      exact hfew (Or.inr ⟨hs, Nat.not_le.mp hlt⟩)
    obtain ⟨c, rest, -, hstored⟩ := writeFile_stored (clusterCount_ne_zero hs hwhole) hlen
    exact ⟨0, _, (write_file hn hp hs).trans hstored, iff_of_false (by decide) hno,
      fun _ => rfl⟩

/-- **The volume is usable to the last cluster but for a directory in cell 511**, by requests
    whose array has room on the stack. -/
theorem write_usesEveryCell_iff (room : ℕ) (hwhole : clusterSize ∣ request.bufferSize.toNat) :
    UsesEveryCell room newTable request fs ↔
      request.name ≠ (fun _ => 0) ∧ ¬ request.parentClusterNumber < 2 ∧
        4 * (request.bufferSize.toNat / clusterSize) ≤ room ∧
        ¬ (request.bufferSize = 0 ∧ (freeCells fs.fat).head? = some 511) := by
  rw [← clusterCount_eq request]
  constructor
  · rintro ⟨code, fs', h, hone, hzero⟩
    have hcode : code = 1 ∨ code = 0 := Decidable.or_iff_not_imp_left.mpr hzero
    have hn : request.name ≠ fun _ => 0 := by
      intro hn
      rw [writeOnStack, if_pos (emptyName_iff.mpr hn)] at h
      obtain ⟨rfl, -⟩ := Prod.mk.inj (Option.some.inj h)
      exact absurd hcode (by decide)
    have hp : ¬ request.parentClusterNumber < 2 := by
      intro hp
      rw [writeOnStack, if_neg (mt emptyName_iff.mp hn), if_pos hp] at h
      obtain ⟨rfl, -⟩ := Prod.mk.inj (Option.some.inj h)
      exact absurd hcode (by decide)
    obtain ⟨hfits, h⟩ := writeOnStack_some hn hp h
    refine ⟨hn, hp, hfits, ?_⟩
    rintro ⟨hs, hhead⟩
    obtain ⟨rest, hfree⟩ := List.head?_eq_some_iff.mp hhead
    -- the cell is empty, yet the scan ends at the end of the table
    rw [write_directory hn hp hs, writeDirectory_lastCell hfree rfl] at h
    obtain ⟨rfl, -⟩ := Prod.mk.inj (Option.some.inj h)
    exact not_fewCells_directory hs hfree ((fewCells_iff _ _).mpr (hone.mp rfl))
  · rintro ⟨hn, hp, hfits, hlast⟩
    exact write_code hwhole hn hp hfits hlast

theorem write_usesEveryCell_mkdir :
    UsesEveryCell kernelStackSize zeroTable (rootRequest [97] 0)
      (freshFileSystem blankDisk) := by
  refine (write_usesEveryCell_iff kernelStackSize (by decide)).mpr
    ⟨by decide, by decide, by decide, ?_⟩
  rintro ⟨-, hhead⟩
  rw [fresh_headCell] at hhead
  exact absurd hhead (by decide)

/-- After a file of 508 clusters cell 511 is empty and the root has free slots, but a
    directory is refused for want of a cell. -/
theorem lastCell_refused :
    exec (freshFileSystem blankDisk) (.write zeroTable bigFile) = some afterBigFile ∧
      freeCells afterBigFile.fat = [511] ∧
      ¬ (afterBigFile.table rootClusterNumber 2).used ∧
      (∃ fs', OsyFat32.write zeroTable (rootRequest [98] 0) afterBigFile = some (1, fs')) ∧
      ¬ UsesEveryCell kernelStackSize zeroTable (rootRequest [98] 0) afterBigFile := by
  have hno : ¬ UsesEveryCell kernelStackSize zeroTable (rootRequest [98] 0) afterBigFile := by
    rintro ⟨code, fs', h, hone, -⟩
    rw [writeOnStack_fits (Nat.zero_le _), write_directory (by decide) (by decide) rfl,
      writeDirectory_lastCell afterBigFile_freeCells rfl] at h
    obtain ⟨rfl, -⟩ := Prod.mk.inj (Option.some.inj h)
    rw [afterBigFile_freeCells] at hone
    exact absurd (hone.mp rfl) (by decide)
  refine ⟨by rw [exec, write_bigFile, Option.map_some], afterBigFile_freeCells, ?_, ?_, hno⟩
  · have htable : afterBigFile.table rootClusterNumber = _ := flush_table_parent _ _ _ _
    rw [htable, Function.update_of_ne (by decide)]
    decide
  · exact ⟨_, by rw [write_directory (by decide) (by decide) rfl,
      writeDirectory_lastCell afterBigFile_freeCells rfl]⟩

end OsyVolume
