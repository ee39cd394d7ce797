import Osyikkk.DriverRuns

/-!
# Names in a directory

`write` never looks whether the name it stores is in use. The used slots of a directory
have distinct names exactly as long as no request with a name in use finds cells
(`KeepsNames`); a second directory of one name is stored at once (`secondMkdir_shadows`).
-/

namespace OsyVolume

open OsyDisk OsyFat32 LinkedChain RootedForest

variable {tbl tbl' : Tables} {fat fat' : FAT32FileAllocationTable}

/-- No directory has two used slots `1..63` with one name and one extension. -/
def UniqueNames (tbl : Tables) : Prop :=
  ∀ {d i j}, UsedSlot tbl d i → UsedSlot tbl d j → (tbl d i).name = (tbl d j).name →
    (tbl d i).ext = (tbl d j).ext → i = j

/-- Names are distinct and not empty. -/
structure WellNamed (tbl : Tables) : Prop where
  unique : UniqueNames tbl
  named : ∀ {d i}, UsedSlot tbl d i → (tbl d i).name ≠ fun _ => 0

theorem fresh_wellNamed (disk : Disk) : WellNamed (freshFileSystem disk).table where
  unique hi := absurd hi (fresh_no_slot disk)
  named hi := absurd hi (fresh_no_slot disk)

theorem WellNamed.inserted {p : UInt32} {idx : Fin directoryEntryCount}
    {e : FAT32DirectoryEntry} {l : List UInt32} (hw : WellNamed tbl)
    (h : Inserted tbl tbl' fat fat' p idx e l) (hname : e.name ≠ fun _ => 0)
    (hnew : idx ≠ 0 → ∀ i, UsedSlot tbl p i → (tbl p i).name = e.name →
      (tbl p i).ext ≠ e.ext) : WellNamed tbl' := by
  constructor
  case unique =>
    intro d i j hi hj hn he
    rcases h.usedSlot hi with ⟨rfl, rfl, h0, hti⟩ | ⟨hi, -, hti⟩ <;>
      rcases h.usedSlot hj with ⟨hd, hj', h0, htj⟩ | ⟨hj, -, htj⟩
    · exact hj'.symm
    · rw [hti, htj] at hn he
      exact absurd he.symm (hnew h0 j hj hn.symm)
    · subst hd
      rw [hti, htj] at hn he
      exact absurd he (hnew h0 i hi hn)
    · rw [hti, htj] at hn he
      exact hw.unique hi hj hn he
  case named =>
    intro d i hi
    rcases h.usedSlot hi with ⟨-, -, -, hti⟩ | ⟨hi, -, hti⟩
    · exact hti ▸ hname
    · exact hti ▸ hw.named hi

theorem WellNamed.removed {p : UInt32} {i : Fin directoryEntryCount} {l : List UInt32}
    (hcons : Consistent tbl fat) (hw : WellNamed tbl) (h : Removed tbl tbl' fat fat' p i l) :
    WellNamed tbl' := by
  constructor
  case unique =>
    intro d j k hj hk hn he
    rw [h.entry_kept hcons hj, h.entry_kept hcons hk] at hn he
    exact hw.unique ((h.usedSlot_iff hcons).mp hj).1 ((h.usedSlot_iff hcons).mp hk).1 hn he
  case named =>
    intro d j hj
    rw [h.entry_kept hcons hj]
    exact hw.named ((h.usedSlot_iff hcons).mp hj).1

/-! ## The calls -/

/-- The extension `write` stores: a directory keeps the zeros of its slot. -/
def storedExt (request : FAT32DriverRequest) : EntryExt :=
  if request.bufferSize = 0 then fun _ => 0 else request.ext

/-- The parent has a used slot `1..63` with the name of the request and the extension. -/
def NameTaken (fs : FileSystem) (request : FAT32DriverRequest) (ext : EntryExt) : Prop :=
  ∃ i, i ≠ 0 ∧ (fs.table request.parentClusterNumber i).used ∧
    (fs.table request.parentClusterNumber i).name = request.name ∧
    (fs.table request.parentClusterNumber i).ext = ext

/-- A write of a name in use finds too few free cells. -/
def KeepsNames (fs : FileSystem) : Call → Prop
  | .write _ request =>
      NameTaken fs request request.ext ∨ NameTaken fs request (storedExt request) →
        FewCells request fs
  | _ => True

section Calls

variable {request : FAT32DriverRequest} {fs fs' : FileSystem} {newTable : FAT32DirectoryTable}
  {code : Int8}

/-- The entry of a new directory that found a slot has the extension zero. -/
theorem directoryEntry_ext (hcons : FsConsistent fs)
    (hlive : Live fs.table request.parentClusterNumber) (h0 : writeSlot request fs ≠ 0)
    (c : UInt32) : (directoryEntry request fs c).ext = fun _ => 0 := by
  have hun := (writeSlot_spec request fs).resolve_left h0
  have hzero := hcons.unusedZero hlive hun
  show (fs.table request.parentClusterNumber (writeSlot request fs)).ext = _
  rw [hzero]
  rfl

theorem WriteOutcome.wellNamed (hcons : FsConsistent fs) (hw : WellNamed fs.table)
    (hlive : OnLiveDirectory fs (.write newTable request))
    (hkeep : KeepsNames fs (.write newTable request))
    (h : WriteOutcome newTable request fs code fs') : WellNamed fs'.table := by
  obtain ⟨hlive, hzero⟩ := hlive
  -- an entry is stored only under a name that no used slot has
  have hfresh : ¬ FewCells request fs → ∀ i, UsedSlot fs.table request.parentClusterNumber i →
      (fs.table request.parentClusterNumber i).name = request.name →
      (fs.table request.parentClusterNumber i).ext ≠ storedExt request :=
    fun hmany i hi hn he => hmany (hkeep (Or.inr ⟨i, hi.slot, hi.used, hn, he⟩))
  cases h with
  | refused _ => exact hw
  | leaked _ _ _ => exact hw
  | @directory c rest hn hs hfree _ =>
      have hc : c ∈ freeCells fs.fat := hfree ▸ List.mem_cons_self
      refine hw.inserted (directoryWritten_inserted hcons hlive hc hzero) hn ?_
      intro h0 i hi hname
      rw [directoryEntry_ext hcons hlive h0 c]
      have hext := hfresh (not_fewCells_directory hs hfree) i hi hname
      rwa [storedExt, if_pos hs] at hext
  | @file c rest hn hs _ hlen htake =>
      refine hw.inserted (fileWritten_inserted hcons hlive hs htake) hn ?_
      intro _ i hi hname
      have hext := hfresh (not_fewCells_file hs hlen) i hi hname
      rwa [storedExt, if_neg hs] at hext

/-- Consistency together with the names. -/
def NameInvariant (fs : FileSystem) : Prop := FsConsistent fs ∧ WellNamed fs.table

theorem exec_nameInvariant (fs : FileSystem) (k : Call) (fs' : FileSystem)
    (hinv : NameInvariant fs) (hk : OnLiveDirectory fs k ∧ KeepsNames fs k)
    (h : exec fs k = some fs') : NameInvariant fs' := by
  obtain ⟨hcons, hw⟩ := hinv
  obtain ⟨hlive, hkeep⟩ := hk
  cases driverCall_outcome hcons hlive h with
  | unchanged => exact ⟨hcons, hw⟩
  | write hn hout =>
      exact ⟨hout.consistent hcons hlive.1 hlive.2, hout.wellNamed hcons hw hlive hkeep⟩
  | delete hn hout =>
      rcases hout.removed hcons hlive hn with rfl | ⟨i, l, freed, -, -, -, hrem⟩
      · exact ⟨hcons, hw⟩
      · exact ⟨hrem.consistent hcons, hw.removed hcons hrem⟩

/-- A write of a name in use that finds too few cells returns 1 and changes nothing. -/
theorem write_nameTaken (hinv : NameInvariant fs)
    (hlive : OnLiveDirectory fs (.write newTable request))
    (hkeep : KeepsNames fs (.write newTable request))
    (htaken : NameTaken fs request request.ext) :
    OsyFat32.write newTable request fs = some (1, fs) := by
  obtain ⟨hcons, hw⟩ := hinv
  have hfew := hkeep (Or.inl htaken)
  obtain ⟨i, hi, hused, hname, -⟩ := htaken
  exact write_fewCells (hname ▸ hw.named ⟨hlive.1, hi, hused⟩)
    (live_not_reserved hcons hlive.1) hfew

end Calls

/-- **Names stay unique.** A run has an outcome when each of its calls comes to an end. -/
theorem runCalls_uniqueNames (disk : Disk) (calls : List Call)
    (h : PartialRun.Guarded exec (fun fs k => OnLiveDirectory fs k ∧ KeepsNames fs k)
      (freshFileSystem disk) calls) :
    ((∃ fs, runCalls (freshFileSystem disk) calls = some fs) ↔
      PartialRun.Guarded exec CallEnds (freshFileSystem disk) calls) ∧
    ∀ fs, runCalls (freshFileSystem disk) calls = some fs → UniqueNames fs.table ∧
      ∀ newTable request, OnLiveDirectory fs (.write newTable request) →
        KeepsNames fs (.write newTable request) → NameTaken fs request request.ext →
        OsyFat32.write newTable request fs = some (1, fs) := by
  have hstart : NameInvariant (freshFileSystem disk) :=
    ⟨fresh_consistent disk, fresh_wellNamed disk⟩
  refine ⟨PartialRun.run_ends_iff exec exec_nameInvariant
    (fun _ _ hinv hk => driverCall_ends_iff hinv.1 hk.1) hstart h, fun fs hrun => ?_⟩
  have hinv := PartialRun.run_invariant exec exec_nameInvariant hstart h hrun
  exact ⟨hinv.2.unique, fun _ _ hlive hkeep htaken => write_nameTaken hinv hlive hkeep htaken⟩

/-- Making one directory is such a run. -/
theorem runCalls_uniqueNames_mkdir : UniqueNames afterMkdir.table ∧
    ∀ newTable request, OnLiveDirectory afterMkdir (.write newTable request) →
      KeepsNames afterMkdir (.write newTable request) →
      NameTaken afterMkdir request request.ext →
      OsyFat32.write newTable request afterMkdir = some (1, afterMkdir) := by
  have hfree : ∀ ext, ¬ NameTaken (freshFileSystem blankDisk) (rootRequest [97] 0) ext := by
    rintro ext ⟨i, hi, hused, -⟩
    exact fresh_no_slot blankDisk ⟨Reach.root, hi, hused⟩
  refine (runCalls_uniqueNames blankDisk [.write zeroTable (rootRequest [97] 0)]
    ⟨⟨⟨Reach.root, fun _ _ => rfl⟩, fun htaken => ?_⟩, fun _ _ => trivial⟩).2 afterMkdir ?_
  · exact absurd htaken (not_or.mpr ⟨hfree _, hfree _⟩)
  · rw [runCalls, PartialRun.run_cons, exec_mkdir, Option.bind_some, PartialRun.run_nil]

/-- The state after a second directory `a` was made in the root. -/
def afterSecondMkdir : FileSystem :=
  (exec afterMkdir (.write zeroTable (rootRequest [97] 0))).getD afterMkdir

/-- A second directory of the same name is stored beside the first. -/
theorem secondMkdir_shadows :
    PartialRun.Guarded exec OnLiveDirectory (freshFileSystem blankDisk)
      [.write zeroTable (rootRequest [97] 0), .write zeroTable (rootRequest [97] 0)] ∧
    runCalls (freshFileSystem blankDisk)
      [.write zeroTable (rootRequest [97] 0), .write zeroTable (rootRequest [97] 0)]
      = some afterSecondMkdir ∧ ¬ UniqueNames afterSecondMkdir.table := by
  have hsecond : exec afterMkdir (.write zeroTable (rootRequest [97] 0))
      = some afterSecondMkdir := by
    have hsome : (exec afterMkdir (.write zeroTable (rootRequest [97] 0))).isSome := by decide
    exact (Option.getD_of_ne_none (Option.isSome_iff_ne_none.mp hsome) _).symm
  refine ⟨⟨⟨Reach.root, fun _ _ => rfl⟩, fun _ _ =>
    ⟨⟨Reach.root, fun _ _ => rfl⟩, fun _ _ => trivial⟩⟩, ?_, ?_⟩
  · rw [runCalls, PartialRun.run_cons, exec_mkdir, Option.bind_some, PartialRun.run_cons,
      hsecond, Option.bind_some, PartialRun.run_nil]
  · intro hunique
    have h1 : UsedSlot afterSecondMkdir.table 2 1 := ⟨Reach.root, by decide, by decide⟩
    have h2 : UsedSlot afterSecondMkdir.table 2 2 := ⟨Reach.root, by decide, by decide⟩
    exact absurd (hunique h1 h2 (by decide) (by decide)) (by decide)

end OsyVolume
