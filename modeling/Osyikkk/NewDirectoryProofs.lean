import Osyikkk.ReadingCommands
import Osyikkk.StackLinks

/-!
# New directories

`write` sets slot 0 of a new directory's table and stores the local `new_table` as it is, so
that what its memory held becomes the directory's contents. A directory is born empty, and
gone without a trace when it is removed again, exactly when that memory was zero, the parent
had an unused slot and no slot before it carries the same name (`newDirectory_bornEmpty_iff`).
It is found again unless slot 0 of its parent has its name (`newDirectory_found_iff`).
-/

namespace OsyVolume

open OsyDisk OsyFat32 LinkedChain RootedForest OsyShell

variable {request : FAT32DriverRequest} {fs fs' : FileSystem} {newTable : FAT32DirectoryTable}
  {t : FAT32DirectoryTable} {c : UInt32}

/-- Slot 0 is the only used slot of the table and the others are all zero. -/
structure EmptyDirectory (t : FAT32DirectoryTable) : Prop where
  self : (t 0).used
  zero : ∀ i, i ≠ 0 → t i = FAT32DirectoryEntry.zero

/-- `ls` prints nothing in a current directory whose table is the one at `c`. -/
def ListsNothing (fs : FileSystem) (c : UInt32) : Prop :=
  ∀ currentTable s, s.fs = fs → readCurrentTable currentTable s = some (0, fs.table c) →
    listCurrentDirectory currentTable s = some s

/-- Neither lookup of the driver finds a child in the table at `c`. -/
def FindsNoChild (fs : FileSystem) (c : UInt32) : Prop :=
  ∀ request, (request.name ≠ (fun _ => 0) → firstMatch request (fs.table c) = none) ∧
    ∀ i, firstDirectory request (fs.table c) = some i → i = 0

/-- The request that removes the directory again; a directory is stored without an
    extension. -/
def removal (request : FAT32DriverRequest) : FAT32DriverRequest :=
  { request with ext := fun _ => 0 }

/-- The new directory is empty for every observer, and removing it restores the file
    allocation table and the parent. -/
def BornEmpty (request : FAT32DriverRequest) (fs fs' : FileSystem) : Prop :=
  ∃ c, (freeCells fs.fat).head? = some c ∧ EmptyDirectory (fs'.table c) ∧
    ListsNothing fs' c ∧ FindsNoChild fs' c ∧
    ∃ fs'', OsyFat32.delete (removal request) fs' = some (0, fs'') ∧ fs''.fat = fs.fat ∧
      fs''.table request.parentClusterNumber = fs.table request.parentClusterNumber

/-! ## Empty tables -/

theorem EmptyDirectory.tableEmpty (h : EmptyDirectory t) : TableEmpty t := by
  intro i hi
  rw [h.zero i hi]
  exact zero_not_used

theorem EmptyDirectory.listsNothing (h : EmptyDirectory (fs.table c)) : ListsNothing fs c := by
  intro currentTable s _ hread
  rw [listCurrentDirectory_found hread, listTable_empty h.tableEmpty, List.append_nil]

theorem EmptyDirectory.findsNoChild (h : EmptyDirectory (fs.table c)) : FindsNoChild fs c := by
  intro request
  constructor
  · intro hn
    rw [firstMatch_eq_none]
    rintro i ⟨hi, hname, -⟩
    rw [h.zero i hi] at hname
    exact hn hname
  · intro i hfirst
    by_contra hi
    have hattr := (firstDirectory_some hfirst).2
    rw [h.zero i hi] at hattr
    exact absurd hattr (by decide)

/-- `init_directory_table` sets slot 0 only. -/
theorem emptyDirectory_init_iff (newTable : FAT32DirectoryTable) (name : EntryName)
    (c : UInt32) : EmptyDirectory (initDirectoryTable newTable name c) ↔
      ∀ i, i ≠ 0 → newTable i = FAT32DirectoryEntry.zero := by
  constructor
  · intro h i hi
    rw [← initDirectoryTable_ne newTable name c hi]
    exact h.zero i hi
  · intro h
    constructor
    case self => exact (initDirectoryTable_self newTable name c).1
    case zero =>
      intro i hi
      rw [initDirectoryTable_ne _ _ _ hi]
      exact h i hi

/-! ## Removing the directory again -/

theorem slotCleared_table (request : FAT32DriverRequest) (fs : FileSystem)
    (fat : FAT32FileAllocationTable) (disk : Disk) (i : Fin directoryEntryCount) :
    (slotCleared request fs fat disk i).table request.parentClusterNumber
      = Function.update (fs.table request.parentClusterNumber) i FAT32DirectoryEntry.zero :=
  flush_table_parent _ _ _ _

/-- A deletion that returns 0 clears the slot that matches first. -/
theorem DeleteOutcome.cleared (h : DeleteOutcome request fs 0 fs') :
    ∃ i, firstMatch request (fs.table request.parentClusterNumber) = some i ∧
      fs'.table request.parentClusterNumber
        = Function.update (fs.table request.parentClusterNumber) i FAT32DirectoryEntry.zero := by
  cases h with
  | refused hcode => exact absurd rfl hcode
  | directory hm _ _ => exact ⟨_, hm, slotCleared_table _ _ _ _ _⟩
  | file hm _ _ _ => exact ⟨_, hm, slotCleared_table _ _ _ _ _⟩

/-- Freeing the cell that was claimed brings the table back. -/
theorem freeChain_claimed {fat : FAT32FileAllocationTable}
    (hc : clusterMapGet fat c = some 0) :
    freeChain (setCell fat c fat32FatEndOfFile) [c] = fat := by
  have hlt := clusterMapGet_lt hc
  rw [clusterMapGet_of_lt fat hlt] at hc
  funext i
  show (if (i : ℕ) = c.toNat then fat32FatEmptyEntry
    else if (i : ℕ) = c.toNat then fat32FatEndOfFile else fat i) = fat i
  by_cases hi : (i : ℕ) = c.toNat
  · obtain rfl : i = ⟨c.toNat, hlt⟩ := Fin.ext hi
    rw [if_pos rfl]
    exact (Option.some.inj hc).symm
  · rw [if_neg hi, if_neg hi]

/-- The parent's table holds the new entry in the slot that was taken. -/
theorem directoryWritten_slot :
    (directoryWritten newTable request fs c).table request.parentClusterNumber
        (writeSlot request fs) = directoryEntry request fs c :=
  (congrFun (flush_table_parent _ _ _ _) _).trans (Function.update_self _ _ _)

/-- The other slots of the parent's table are as before. -/
theorem directoryWritten_slot_ne {i : Fin directoryEntryCount} (hi : i ≠ writeSlot request fs) :
    (directoryWritten newTable request fs c).table request.parentClusterNumber i
      = fs.table request.parentClusterNumber i :=
  (congrFun (flush_table_parent _ _ _ _) _).trans (Function.update_of_ne hi _ _)

section Write

variable (hcons : FsConsistent fs) (hlive : Live fs.table request.parentClusterNumber)
include hcons hlive

/-- With an unused slot in the parent the slot that is taken holds zeros. -/
theorem writeSlot_zero (hroom : ∃ i, ¬ (fs.table request.parentClusterNumber i).used) :
    writeSlot request fs ≠ 0 ∧
      fs.table request.parentClusterNumber (writeSlot request fs) = FAT32DirectoryEntry.zero := by
  obtain ⟨i, hi⟩ := hroom
  exact ⟨writeSlot_ne_zero hcons hlive hi, hcons.unusedZero hlive (idxEmpty_unused hi)⟩

/-- The new entry is the first match of its removal. -/
theorem firstMatch_removal
    (hroom : ∃ i, ¬ (fs.table request.parentClusterNumber i).used)
    (hfirst : ∀ j, j < writeSlot request fs →
      ¬ Matches (removal request) (fs.table request.parentClusterNumber) j) :
    firstMatch (removal request)
        ((directoryWritten newTable request fs c).table request.parentClusterNumber)
      = some (writeSlot request fs) := by
  obtain ⟨hslot, hzero⟩ := writeSlot_zero hcons hlive hroom
  rw [firstMatch_eq_some_iff]
  constructor
  · rw [Matches, directoryWritten_slot]
    refine ⟨hslot, rfl, ?_⟩
    show (fun _ => 0) = (fs.table request.parentClusterNumber (writeSlot request fs)).ext
    rw [hzero]
    rfl
  · intro j hj hmatch
    rw [Matches, directoryWritten_slot_ne (ne_of_lt hj)] at hmatch
    exact hfirst j hj hmatch

/-- Removing the new directory undoes its making. -/
theorem directoryWritten_removed (hs : request.bufferSize = 0)
    (hn : request.name ≠ fun _ => 0) (hc : c ∈ freeCells fs.fat)
    (hzero : ∀ i, i ≠ 0 → newTable i = FAT32DirectoryEntry.zero)
    (hroom : ∃ i, ¬ (fs.table request.parentClusterNumber i).used)
    (hfirst : ∀ j, j < writeSlot request fs →
      ¬ Matches (removal request) (fs.table request.parentClusterNumber) j) :
    ∃ fs'', OsyFat32.delete (removal request) (directoryWritten newTable request fs c)
        = some (0, fs'') ∧ fs''.fat = fs.fat ∧
      fs''.table request.parentClusterNumber = fs.table request.parentClusterNumber := by
  obtain ⟨-, hfree⟩ := mem_freeCells.mp hc
  have hm : firstMatch (removal request)
      ((directoryWritten newTable request fs c).table request.parentClusterNumber)
        = some (writeSlot request fs) := firstMatch_removal hcons hlive hroom hfirst
  obtain ⟨-, hslotZero⟩ := writeSlot_zero hcons hlive hroom
  have hempty : TableEmpty ((directoryWritten newTable request fs c).table c) := by
    rw [directoryWritten_table hcons hlive hc]
    exact ((emptyDirectory_init_iff _ _ _).mpr hzero).tableEmpty
  have hattr : ((directoryWritten newTable request fs c).table request.parentClusterNumber
      (writeSlot request fs)).attr = attrSubdirectory := by
    rw [directoryWritten_slot, directoryEntry_attr c hs]
  have hcluster : ((directoryWritten newTable request fs c).table request.parentClusterNumber
      (writeSlot request fs)).cluster = c := by
    rw [directoryWritten_slot, directoryEntry_cluster]
  have hn' : (removal request).name ≠ fun _ => 0 := hn
  refine ⟨_, (delete_directory hn' hm hattr).trans
    (deleteDirectory_eq hcluster hempty (clusterMapGet_lt hfree)), freeChain_claimed hfree, ?_⟩
  refine (slotCleared_table (removal request) _ _ _ _).trans ?_
  funext i
  by_cases hi : i = writeSlot request fs
  · rw [hi, Function.update_self, hslotZero]
  · rw [Function.update_of_ne hi]
    exact directoryWritten_slot_ne hi

end Write

/-! ## Born empty -/

/-- An accepted directory took the first free cell. -/
theorem written_directory (hs : request.bufferSize = 0)
    (h : OsyFat32.write newTable request fs = some (0, fs')) : request.name ≠ (fun _ => 0) ∧
      ∃ c rest, freeCells fs.fat = c :: rest ∧ fs' = directoryWritten newTable request fs c := by
  cases write_outcome h with
  | refused hcode => exact absurd rfl hcode
  | directory hn _ hfree _ => exact ⟨hn, _, _, hfree, rfl⟩
  | file _ hs' _ _ _ => exact absurd hs hs'

section Born

variable (hcons : FsConsistent fs) (hlive : Live fs.table request.parentClusterNumber)
  (hs : request.bufferSize = 0)
include hcons hlive

/-- A removal that restores the parent removed the new entry. -/
theorem removed_slot {fs'' : FileSystem} (hn : request.name ≠ fun _ => 0)
    (hc : c ∈ freeCells fs.fat)
    (hzero : ∀ i, i ≠ 0 → newTable i = FAT32DirectoryEntry.zero)
    (hdel : OsyFat32.delete (removal request) (directoryWritten newTable request fs c)
      = some (0, fs''))
    (hparent : fs''.table request.parentClusterNumber
      = fs.table request.parentClusterNumber) :
    ¬ (fs.table request.parentClusterNumber (writeSlot request fs)).used ∧
    firstMatch (removal request)
      ((directoryWritten newTable request fs c).table request.parentClusterNumber)
        = some (writeSlot request fs) := by
  have hins : Inserted fs.table (directoryWritten newTable request fs c).table fs.fat _
      request.parentClusterNumber _ _ [c] := directoryWritten_inserted hcons hlive hc hzero
  have hlive' := (hins.live_iff request.parentClusterNumber).mpr (Or.inl hlive)
  have hout : DeleteOutcome (removal request) _ 0 fs'' :=
    delete_outcome (hins.consistent hcons) hlive' hdel
  obtain ⟨i, hm, hcleared⟩ := hout.cleared
  have hi : fs.table request.parentClusterNumber i = FAT32DirectoryEntry.zero := by
    rw [← hparent]
    exact (congrFun hcleared i).trans (Function.update_self _ _ _)
  have hslot : i = writeSlot request fs := by
    by_contra hne
    have hname : request.name = _ := (firstMatch_some hm).2.1
    rw [show (removal request).parentClusterNumber = request.parentClusterNumber from rfl,
      directoryWritten_slot_ne hne, hi] at hname
    exact hn hname
  subst hslot
  rw [hi]
  exact ⟨zero_not_used, hm⟩

include hs in
/-- **A new directory is empty exactly when its memory was zero, its parent had an unused
    slot and its name is not found before that slot.** -/
theorem newDirectory_bornEmpty_iff
    (h : OsyFat32.write newTable request fs = some (0, fs')) :
    BornEmpty request fs fs' ↔
      (∀ i, i ≠ 0 → newTable i = FAT32DirectoryEntry.zero) ∧
      (∃ i, ¬ (fs.table request.parentClusterNumber i).used) ∧
      ∀ j, j < writeSlot request fs →
        ¬ Matches (removal request) (fs.table request.parentClusterNumber) j := by
  obtain ⟨hn, c, rest, hfree, rfl⟩ := written_directory hs h
  have hc : c ∈ freeCells fs.fat := hfree ▸ List.mem_cons_self
  have hhead : (freeCells fs.fat).head? = some c := by rw [hfree, List.head?_cons]
  constructor
  · rintro ⟨c', hc', hempty, -, -, fs'', hdel, -, hparent⟩
    obtain rfl := Option.some.inj (hhead.symm.trans hc')
    rw [directoryWritten_table hcons hlive hc, emptyDirectory_init_iff] at hempty
    obtain ⟨hun, hm⟩ := removed_slot hcons hlive hn hc hempty hdel hparent
    refine ⟨hempty, ⟨_, hun⟩, ?_⟩
    intro j hj hmatch
    refine (firstMatch_eq_some_iff.mp hm).2 j hj ?_
    rwa [Matches, directoryWritten_slot_ne (ne_of_lt hj)]
  · rintro ⟨hzero, hroom, hfirst⟩
    have hempty : EmptyDirectory ((directoryWritten newTable request fs c).table c) := by
      rw [directoryWritten_table hcons hlive hc]
      exact (emptyDirectory_init_iff _ _ _).mpr hzero
    exact ⟨c, hhead, hempty, hempty.listsNothing, hempty.findsNoChild,
      directoryWritten_removed hcons hlive hs hn hc hzero hroom hfirst⟩

end Born

theorem write_mkdir : OsyFat32.write zeroTable (rootRequest [97] 0) (freshFileSystem blankDisk)
    = some (0, afterMkdir) := by
  have hcode : (OsyFat32.write zeroTable (rootRequest [97] 0)
      (freshFileSystem blankDisk)).map Prod.fst = some 0 := by decide
  obtain ⟨⟨code, fs'⟩, hwrite, rfl⟩ := Option.map_eq_some_iff.mp hcode
  have hexec := exec_mkdir
  rw [exec, hwrite, Option.map_some] at hexec
  rw [hwrite, ← Option.some.inj hexec]

theorem newDirectory_bornEmpty_mkdir :
    BornEmpty (rootRequest [97] 0) (freshFileSystem blankDisk) afterMkdir := by
  refine (newDirectory_bornEmpty_iff (fresh_consistent _) Reach.root rfl write_mkdir).mpr
    ⟨fun _ _ => rfl, ⟨1, by decide⟩, ?_⟩
  rintro j - ⟨hj, hname, -⟩
  have hzero := fresh_slot blankDisk hj
  rw [show (freshFileSystem blankDisk).table (rootRequest [97] 0).parentClusterNumber j
    = FAT32DirectoryEntry.zero from hzero] at hname
  exact absurd hname (by decide)

/-- Memory in which an earlier table left a file entry. -/
def staleTable : FAT32DirectoryTable :=
  Function.update zeroTable 1 (fileEntry (rootRequest [98] 4096) (freshFileSystem blankDisk) 7)

/-- With that memory a new directory of the empty volume shows the file `b`. -/
theorem staleTable_shown :
    ∃ fs', OsyFat32.write staleTable (rootRequest [97] 0) (freshFileSystem blankDisk)
        = some (0, fs') ∧ (fs'.table 3 1).used ∧
      ¬ BornEmpty (rootRequest [97] 0) (freshFileSystem blankDisk) fs' := by
  obtain ⟨rest, hfree⟩ := List.head?_eq_some_iff.mp fresh_headCell
  have hwrite : OsyFat32.write staleTable (rootRequest [97] 0) (freshFileSystem blankDisk)
      = some (0, directoryWritten staleTable (rootRequest [97] 0)
          (freshFileSystem blankDisk) 3) := by
    rw [write_directory (by decide) (by decide) rfl, writeDirectory_eq hfree (by decide)]
  refine ⟨_, hwrite, ?_, ?_⟩
  · rw [directoryWritten_table (fresh_consistent _) Reach.root (hfree ▸ List.mem_cons_self),
      initDirectoryTable_ne _ _ _ (by decide)]
    decide
  · rw [newDirectory_bornEmpty_iff (fresh_consistent _) Reach.root rfl hwrite]
    rintro ⟨hzero, -⟩
    exact absurd (congrArg FAT32DirectoryEntry.userAttribute (hzero 1 (by decide))) (by decide)

/-! ## Found again -/

/-- A lookup of the name leads to the cell that was the first free one and returns its
    table, whose slot 0 names it. -/
def FoundAgain (request : FAT32DriverRequest) (fs fs' : FileSystem) : Prop :=
  ∃ c, (freeCells fs.fat).head? = some c ∧ (fs'.table c 0).cluster = c ∧
    (∃ k, NamedAt fs'.table request.parentClusterNumber request.name k c) ∧
    ∀ r : FAT32DriverRequest, r.name = request.name →
      r.parentClusterNumber = request.parentClusterNumber → r.bufferSize = 0 →
      readDirectory r fs' = (0, fun k =>
        if k < clusterSize then tableToMemory (fs'.table c) k else r.buf k)

theorem firstDirectory_eq_some_iff {r : FAT32DriverRequest} {k : Fin directoryEntryCount} :
    firstDirectory r t = some k ↔
      IsDirectory r.name (t k) ∧ ∀ j, j < k → ¬ IsDirectory r.name (t j) := by
  simp only [firstDirectory, find?_ordered (slotsFrom_ordered 0), mem_slotsFrom_zero,
    sameName_iff, IsDirectory, decide_eq_true_eq, true_and, eq_comm (a := r.name),
    forall_const]

/-- A name leads to the table that is returned for it. -/
theorem readDirectory_named {r : FAT32DriverRequest}
    {k : Fin directoryEntryCount} (hn : r.name ≠ fun _ => 0) (hs : r.bufferSize = 0)
    (h : NamedAt fs.table r.parentClusterNumber r.name k c) :
    readDirectory r fs = (0, fun k =>
      if k < clusterSize then tableToMemory (fs.table c) k else r.buf k) := by
  rw [readDirectory_eq hn hs (firstDirectory_eq_some_iff.mpr ⟨h.named, h.first⟩), h.cluster]

section Found

variable (hcons : FsConsistent fs) (hlive : Live fs.table request.parentClusterNumber)
  (hs : request.bufferSize = 0)
  (hnew : ∀ i, i ≠ 0 → ¬ IsDirectory request.name (fs.table request.parentClusterNumber i))
include hcons hlive hs hnew

omit hcons hlive hnew in
/-- The new entry is found when no slot before it has its name. -/
theorem directoryWritten_named (hfirst : ∀ j, j < writeSlot request fs →
    ¬ IsDirectory request.name (fs.table request.parentClusterNumber j)) :
    NamedAt (directoryWritten newTable request fs c).table request.parentClusterNumber
      request.name (writeSlot request fs) c := by
  constructor
  case named =>
    rw [directoryWritten_slot]
    exact ⟨rfl, directoryEntry_attr c hs⟩
  case cluster => rw [directoryWritten_slot, directoryEntry_cluster]
  case first =>
    intro j hj
    rw [directoryWritten_slot_ne (ne_of_lt hj)]
    exact hfirst j hj

omit hcons hlive hnew in
/-- In a full parent the new entry replaces slot 0, which a lookup takes first. -/
theorem directoryWritten_named_full
    (hfull : ∀ i, (fs.table request.parentClusterNumber i).used) :
    NamedAt (directoryWritten newTable request fs c).table request.parentClusterNumber
      request.name (writeSlot request fs) c := by
  have hslot : writeSlot request fs = 0 :=
    (writeSlot_spec request fs).resolve_right fun hun => hun (hfull _)
  refine directoryWritten_named hs ?_
  intro j hj
  rw [hslot] at hj
  exact absurd hj (Fin.not_lt_zero j)

omit hcons hlive in
/-- The new entry is found unless slot 0 has its name. -/
theorem directoryWritten_named_new
    (hself : ¬ IsDirectory request.name (fs.table request.parentClusterNumber 0)) :
    NamedAt (directoryWritten newTable request fs c).table request.parentClusterNumber
      request.name (writeSlot request fs) c := by
  refine directoryWritten_named hs ?_
  intro j _
  by_cases hj0 : j = 0
  · rw [hj0]
    exact hself
  · exact hnew j hj0

omit hs hnew in
/-- In a parent with an unused slot a directory in slot 0 with the name stays the one that
    is found. -/
theorem directoryWritten_named_self
    (hroom : ∃ i, ¬ (fs.table request.parentClusterNumber i).used)
    (hself : IsDirectory request.name (fs.table request.parentClusterNumber 0)) :
    NamedAt (directoryWritten newTable request fs c).table request.parentClusterNumber
      request.name 0 (fs.table request.parentClusterNumber 0).cluster := by
  have h0 : (directoryWritten newTable request fs c).table request.parentClusterNumber 0
      = fs.table request.parentClusterNumber 0 :=
    directoryWritten_slot_ne (writeSlot_zero hcons hlive hroom).1.symm
  constructor
  case named => rwa [h0]
  case cluster => rw [h0]
  case first => exact fun j hj => absurd hj (Fin.not_lt_zero j)

/-- What the name leads to once the directory is made. -/
theorem directoryWritten_named_iff :
    (∃ k, NamedAt (directoryWritten newTable request fs c).table request.parentClusterNumber
      request.name k c) ↔
    (∀ i, (fs.table request.parentClusterNumber i).used) ∨
      ¬ IsDirectory request.name (fs.table request.parentClusterNumber 0) ∨
      (fs.table request.parentClusterNumber 0).cluster = c := by
  by_cases hself : IsDirectory request.name (fs.table request.parentClusterNumber 0)
  case neg =>
    exact iff_of_true ⟨_, directoryWritten_named_new hs hnew hself⟩ (Or.inr (Or.inl hself))
  by_cases hfull : ∀ i, (fs.table request.parentClusterNumber i).used
  case pos => exact iff_of_true ⟨_, directoryWritten_named_full hs hfull⟩ (Or.inl hfull)
  have hold : NamedAt (directoryWritten newTable request fs c).table _ _ 0 _ :=
    directoryWritten_named_self hcons hlive (not_forall.mp hfull) hself
  constructor
  · rintro ⟨k, hk⟩
    exact Or.inr (Or.inr (hold.unique hk))
  · rintro (hall | hno | hcluster)
    · exact absurd hall hfull
    · exact absurd hself hno
    · exact ⟨0, hold.named, hold.first, hold.cluster.trans hcluster⟩

/-- **A directory just made is the one found unless slot 0 of its parent has its name.** -/
theorem newDirectory_found_iff (h : OsyFat32.write newTable request fs = some (0, fs')) :
    FoundAgain request fs fs' ↔
      (∀ i, (fs.table request.parentClusterNumber i).used) ∨
      ¬ IsDirectory request.name (fs.table request.parentClusterNumber 0) ∨
      (freeCells fs.fat).head? = some (fs.table request.parentClusterNumber 0).cluster := by
  obtain ⟨hn, c, rest, hfree, rfl⟩ := written_directory hs h
  have hc : c ∈ freeCells fs.fat := hfree ▸ List.mem_cons_self
  have hhead : (freeCells fs.fat).head? = some c := by rw [hfree, List.head?_cons]
  rw [hhead, Option.some.injEq, eq_comm (a := c)]
  have hnamed : (∃ k, NamedAt (directoryWritten newTable request fs c).table
      request.parentClusterNumber request.name k c) ↔ _ :=
    directoryWritten_named_iff hcons hlive hs hnew
  refine Iff.trans ?_ hnamed
  constructor
  · rintro ⟨c', hc', -, hnamed, -⟩
    obtain rfl := Option.some.inj (hhead.symm.trans hc')
    exact hnamed
  · rintro ⟨k, hk⟩
    refine ⟨c, hhead, ?_, ⟨k, hk⟩, ?_⟩
    · rw [directoryWritten_table hcons hlive hc]
      exact (initDirectoryTable_self newTable request.name c).2.2.2
    · intro r hname hparent hr
      rw [← hname, ← hparent] at hk
      exact readDirectory_named (hname ▸ hn) hr hk

end Found

/-- The root of an empty volume has no child of any name. -/
theorem fresh_no_child (disk : Disk) (name : List UInt8) (size : UInt32) :
    ∀ i, i ≠ 0 → ¬ IsDirectory (rootRequest name size).name
      ((freshFileSystem disk).table (rootRequest name size).parentClusterNumber i) := by
  intro i hi
  rw [show (freshFileSystem disk).table (rootRequest name size).parentClusterNumber i
    = FAT32DirectoryEntry.zero from fresh_slot disk hi]
  exact not_isDirectory_zero

theorem newDirectory_found_mkdir :
    FoundAgain (rootRequest [97] 0) (freshFileSystem blankDisk) afterMkdir := by
  refine (newDirectory_found_iff (fresh_consistent _) Reach.root rfl
    (fresh_no_child _ _ _) write_mkdir).mpr (Or.inr (Or.inl ?_))
  decide

/-- A directory `ROOT` made in the root is not found: the lookup returns the root. -/
theorem rootNamed_lost :
    ∃ fs', OsyFat32.write zeroTable (rootRequest [82, 79, 79, 84] 0) (freshFileSystem blankDisk)
        = some (0, fs') ∧
      ¬ FoundAgain (rootRequest [82, 79, 79, 84] 0) (freshFileSystem blankDisk) fs' := by
  obtain ⟨rest, hfree⟩ := List.head?_eq_some_iff.mp fresh_headCell
  have hwrite : OsyFat32.write zeroTable (rootRequest [82, 79, 79, 84] 0)
      (freshFileSystem blankDisk) = some (0, directoryWritten zeroTable
        (rootRequest [82, 79, 79, 84] 0) (freshFileSystem blankDisk) 3) := by
    rw [write_directory (by decide) (by decide) rfl, writeDirectory_eq hfree (by decide)]
  refine ⟨_, hwrite, ?_⟩
  rw [newDirectory_found_iff (fresh_consistent _) Reach.root rfl
    (fresh_no_child _ _ _) hwrite, fresh_headCell]
  decide

end OsyVolume
