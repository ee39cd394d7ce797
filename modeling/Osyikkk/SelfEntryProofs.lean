import Osyikkk.AtomicityProofs

/-!
# The entry a directory has of itself

Slot 0 of a directory's table names the directory: `cd`, `cp`, `mv` and the move syscall
take the cluster from it. `write` looks for an unused slot and keeps `idx_empty = 0` when
there is none, so the 64th entry of a directory replaces slot 0 (`fullRoot_loses_self`).
Runs in which no directory is full when an entry is stored keep every self entry.

The names directories were created with are recorded beside the run (`NamedRun`): a
directory's name is the one of the write that made its cluster live.
-/

namespace OsyVolume

open OsyDisk OsyFat32 LinkedChain RootedForest

/-- A file system and the names its live directories were created with. -/
structure NamedRun where
  fs : FileSystem
  created : UInt32 → EntryName

open Classical in
/-- The recorded names after a call: a write names the directories that were not live. -/
noncomputable def nameNew (s : NamedRun) (k : Call) : UInt32 → EntryName := fun d =>
  match k with
  | .write _ request => if Live s.fs.table d then s.created d else request.name
  | _ => s.created d

/-- A call, with the names recorded. -/
noncomputable def execNamed (s : NamedRun) (k : Call) : Option NamedRun :=
  (exec s.fs k).map fun fs => { fs := fs, created := nameNew s k }

/-- The fresh file system, whose only directory is `ROOT`. -/
def freshNamed (disk : Disk) : NamedRun where
  fs := freshFileSystem disk
  created := fun _ => rootName

/-- Recording the names does not change what the calls do. -/
theorem runNamed_fs (s : NamedRun) (calls : List Call) :
    (PartialRun.run execNamed s calls).map NamedRun.fs = runCalls s.fs calls := by
  refine PartialRun.run_simulation exec ?_ s calls
  intro t k
  rw [execNamed, Option.map_map]
  exact Option.map_id'

theorem nameNew_live {s : NamedRun} {d : UInt32} (hd : Live s.fs.table d) (k : Call) :
    nameNew s k d = s.created d := by
  cases k with
  | write _ _ => exact if_pos hd
  | delete _ | read _ | readDirectory _ | move _ _ _ => rfl

/-- Slot 0 of every live directory is in use, has the directory attribute, the name the
    directory was created with and its cluster. -/
def SelfEntries (s : NamedRun) : Prop :=
  ∀ d, Live s.fs.table d → (s.fs.table d 0).used ∧
    (s.fs.table d 0).attr = attrSubdirectory ∧ (s.fs.table d 0).name = s.created d ∧
    (s.fs.table d 0).cluster = d

/-- Every slot of the parent is in use. -/
def FullParent (request : FAT32DriverRequest) (fs : FileSystem) : Prop :=
  ∀ i, (fs.table request.parentClusterNumber i).used

/-- A write into a full directory fails for another reason: it has no name, too few cells,
    or meets cell 511 first. -/
def KeepsSelf (fs : FileSystem) : Call → Prop
  | .write _ request => FullParent request fs →
      request.name = (fun _ => 0) ∨ FewCells request fs ∨ ClaimsLastCell request fs
  | _ => True

section Calls

variable {s : NamedRun} {fs' : FileSystem} {request : FAT32DriverRequest}
  {newTable : FAT32DirectoryTable} {code : Int8}

/-- Tables that agree on live directories have the same self entries. -/
theorem SelfEntries.step (hself : SelfEntries s) {k : Call}
    (hlive : ∀ d, Live fs'.table d → Live s.fs.table d)
    (h0 : ∀ d, Live fs'.table d → fs'.table d 0 = s.fs.table d 0) :
    SelfEntries { fs := fs', created := nameNew s k } := by
  intro d hd
  have hold := hself d (hlive d hd)
  rw [← h0 d hd, ← nameNew_live (hlive d hd) k] at hold
  exact hold

/-- An entry that is stored found an unused slot, which is not slot 0. -/
theorem writeSlot_ne_zero_of_keepsSelf {fs : FileSystem} (hcons : FsConsistent fs)
    (hlive : Live fs.table request.parentClusterNumber)
    (hkeep : KeepsSelf fs (.write newTable request)) (hn : request.name ≠ fun _ => 0)
    (hcells : ¬ FewCells request fs) (hlast : ¬ ClaimsLastCell request fs) :
    writeSlot request fs ≠ 0 := by
  by_cases hfull : FullParent request fs
  · rcases hkeep hfull with h | h | h
    · exact absurd h hn
    · exact absurd h hcells
    · exact absurd h hlast
  · obtain ⟨i, hi⟩ := not_forall.mp hfull
    exact writeSlot_ne_zero hcons hlive hi

/-- A new directory has the self entry `init_directory_table` gives it. -/
theorem directoryWritten_selfEntries {c : UInt32} (hcons : FsConsistent s.fs)
    (hself : SelfEntries s) (hlive : Live s.fs.table request.parentClusterNumber)
    (hzero : ∀ i, i ≠ 0 → newTable i = FAT32DirectoryEntry.zero)
    (hc : c ∈ freeCells s.fs.fat) (h0 : writeSlot request s.fs ≠ 0) :
    SelfEntries { fs := directoryWritten newTable request s.fs c,
                  created := nameNew s (.write newTable request) } := by
  have hins := directoryWritten_inserted hcons hlive hc hzero
  intro d hd
  rcases (hins.live_iff d).mp hd with hd | ⟨hdc, -, -⟩
  · have hold := hself d hd
    rw [← hins.self_kept h0 hd, ← nameNew_live hd (.write newTable request)] at hold
    exact hold
  · rw [directoryEntry_cluster] at hdc
    subst hdc
    -- its cell was free, so no live directory had its cluster before
    have hnew : nameNew s (.write newTable request) d = request.name := by
      refine if_neg ?_
      intro hd
      exact hcons.live_ne_free hd (mem_freeCells.mp hc).2
    show _ ∧ _ ∧ _ = nameNew s (.write newTable request) d ∧ _
    rw [directoryWritten_table hcons hlive hc, hnew]
    exact initDirectoryTable_self _ _ _

theorem WriteOutcome.selfEntries (hcons : FsConsistent s.fs) (hself : SelfEntries s)
    (hlive : OnLiveDirectory s.fs (.write newTable request))
    (hkeep : KeepsSelf s.fs (.write newTable request))
    (h : WriteOutcome newTable request s.fs code fs') (hn : request.name ≠ fun _ => 0) :
    SelfEntries { fs := fs', created := nameNew s (.write newTable request) } := by
  obtain ⟨hlive, hzero⟩ := hlive
  have hslot := writeSlot_ne_zero_of_keepsSelf hcons hlive hkeep hn
  cases h with
  | refused _ => exact hself.step (fun _ hd => hd) fun _ _ => rfl
  | leaked _ _ _ => exact hself.step (fun _ hd => hd) fun _ _ => rfl
  | @directory c rest _ hs hfree hc511 =>
      have hlast : ¬ ClaimsLastCell request s.fs := by
        intro hlast
        have hhead := hlast.2.2.2
        rw [hfree, List.head?_cons, Option.some.injEq] at hhead
        exact hc511 (hhead ▸ rfl)
      exact directoryWritten_selfEntries hcons hself hlive hzero (hfree ▸ List.mem_cons_self)
        (hslot (not_fewCells_directory hs hfree) hlast)
  | @file c rest _ hs _ hlen htake =>
      have hins := fileWritten_inserted hcons hlive hs htake
      have h0 : writeSlot request s.fs ≠ 0 :=
        hslot (not_fewCells_file hs hlen) fun hlast => hs hlast.2.2.1
      -- a file makes no directory live
      have hold : ∀ d, Live (fileWritten request s.fs c rest).table d → Live s.fs.table d := by
        intro d hd
        rcases (hins.live_iff d).mp hd with hd | ⟨-, -, ha⟩
        · exact hd
        · exact absurd ha (fileEntry_notDirectory c hs)
      exact hself.step hold fun d hd => hins.self_kept h0 (hold d hd)

theorem DeleteOutcome.selfEntries (hcons : FsConsistent s.fs) (hself : SelfEntries s)
    (hlive : Live s.fs.table request.parentClusterNumber)
    (h : DeleteOutcome request s.fs code fs') (hn : request.name ≠ fun _ => 0) :
    SelfEntries { fs := fs', created := nameNew s (.delete request) } := by
  rcases h.removed hcons hlive hn with rfl | ⟨i, l, freed, -, -, -, hrem⟩
  · exact hself.step (fun _ hd => hd) fun _ _ => rfl
  · exact hself.step (fun d hd => ((hrem.live_iff hcons d).mp hd).1)
      fun _ hd => hrem.self_kept hcons hd

/-- Consistency together with the self entries. -/
def SelfInvariant (s : NamedRun) : Prop := FsConsistent s.fs ∧ SelfEntries s

theorem execNamed_selfInvariant (s : NamedRun) (k : Call) (s' : NamedRun)
    (hinv : SelfInvariant s) (hk : OnLiveDirectory s.fs k ∧ KeepsSelf s.fs k)
    (h : execNamed s k = some s') : SelfInvariant s' := by
  obtain ⟨hcons, hself⟩ := hinv
  obtain ⟨hlive, hkeep⟩ := hk
  obtain ⟨fs', hexec, rfl⟩ := Option.map_eq_some_iff.mp h
  cases driverCall_outcome hcons hlive hexec with
  | unchanged => exact ⟨hcons, hself.step (fun _ hd => hd) fun _ _ => rfl⟩
  | write hn hout =>
      exact ⟨hout.consistent hcons hlive.1 hlive.2,
        hout.selfEntries hcons hself hlive hkeep hn⟩
  | delete hn hout =>
      exact ⟨hout.consistent hcons hlive hn, hout.selfEntries hcons hself hlive hn⟩

/-- A write into a full directory that meets the condition fails and stores nothing. -/
theorem write_fullParent {fs : FileSystem} (hcons : FsConsistent fs)
    (hlive : Live fs.table request.parentClusterNumber)
    (hkeep : KeepsSelf fs (.write newTable request)) (hfull : FullParent request fs) :
    ∃ code fs', OsyFat32.write newTable request fs = some (code, fs') ∧ code ≠ 0 ∧
      fs'.disk = fs.disk := by
  by_cases hn : request.name = fun _ => 0
  · exact ⟨-1, fs, write_emptyName hn, by decide, rfl⟩
  have hp := live_not_reserved hcons hlive
  rcases hkeep hfull with h | hfew | ⟨-, -, hs, hhead⟩
  · exact absurd h hn
  · exact ⟨1, fs, write_fewCells hn hp hfew, by decide, rfl⟩
  · obtain ⟨rest, hfree⟩ := List.head?_eq_some_iff.mp hhead
    refine ⟨1, fs.store (setCell fs.fat 511 fat32FatEndOfFile) fs.disk, ?_, by decide, rfl⟩
    rw [write_directory hn hp hs, writeDirectory_lastCell hfree rfl]

end Calls

theorem fresh_selfInvariant (disk : Disk) : SelfInvariant (freshNamed disk) := by
  refine ⟨fresh_consistent disk, ?_⟩
  intro d hd
  obtain rfl := fresh_live disk hd
  show _ ∧ _ ∧ _ = rootName ∧ _
  rw [freshNamed, fresh_root]
  exact initDirectoryTable_self _ _ _

theorem execNamed_ends_iff (s : NamedRun) (k : Call) (hcons : FsConsistent s.fs)
    (hlive : OnLiveDirectory s.fs k) : (∃ s', execNamed s k = some s') ↔ CallEnds s.fs k := by
  rw [← driverCall_ends_iff hcons hlive, execNamed]
  constructor
  · rintro ⟨s', h⟩
    obtain ⟨fs', hexec, -⟩ := Option.map_eq_some_iff.mp h
    exact ⟨fs', hexec⟩
  · rintro ⟨fs', hexec⟩
    rw [hexec]
    exact ⟨_, rfl⟩

/-- **Directories keep their self entries.** A run has an outcome when each of its calls comes
    to an end. -/
theorem runNamed_selfEntries (disk : Disk) (calls : List Call)
    (h : PartialRun.Guarded execNamed
      (fun s k => OnLiveDirectory s.fs k ∧ KeepsSelf s.fs k) (freshNamed disk) calls) :
    ((∃ s, PartialRun.run execNamed (freshNamed disk) calls = some s) ↔
      PartialRun.Guarded execNamed (fun s k => CallEnds s.fs k) (freshNamed disk) calls) ∧
    ∀ s, PartialRun.run execNamed (freshNamed disk) calls = some s → SelfEntries s ∧
      ∀ newTable request, OnLiveDirectory s.fs (.write newTable request) →
        KeepsSelf s.fs (.write newTable request) → FullParent request s.fs →
        ∃ code fs', OsyFat32.write newTable request s.fs = some (code, fs') ∧ code ≠ 0 ∧
          fs'.disk = s.fs.disk := by
  refine ⟨PartialRun.run_ends_iff execNamed execNamed_selfInvariant
    (fun s k hinv hk => execNamed_ends_iff s k hinv.1 hk.1) (fresh_selfInvariant disk) h,
    fun s hrun => ?_⟩
  have hinv : SelfInvariant s := PartialRun.run_invariant execNamed execNamed_selfInvariant
    (fresh_selfInvariant disk) h hrun
  exact ⟨hinv.2, fun _ _ hlive hkeep hfull => write_fullParent hinv.1 hlive.1 hkeep hfull⟩

/-- Making a directory is such a run. -/
theorem runNamed_selfEntries_mkdir :
    SelfEntries { fs := afterMkdir,
                  created := nameNew (freshNamed blankDisk)
                    (.write zeroTable (rootRequest [97] 0)) } ∧
      ∀ newTable request, OnLiveDirectory afterMkdir (.write newTable request) →
        KeepsSelf afterMkdir (.write newTable request) → FullParent request afterMkdir →
        ∃ code fs', OsyFat32.write newTable request afterMkdir = some (code, fs') ∧
          code ≠ 0 ∧ fs'.disk = afterMkdir.disk := by
  refine (runNamed_selfEntries blankDisk [.write zeroTable (rootRequest [97] 0)]
    ⟨⟨⟨Reach.root, fun _ _ => rfl⟩, fun hfull => ?_⟩, fun _ _ => trivial⟩).2
    { fs := afterMkdir, created := nameNew (freshNamed blankDisk) _ } ?_
  · exact absurd (hfull 1) (fresh_unused blankDisk (by decide))
  · rw [PartialRun.run_cons, execNamed, freshNamed, exec_mkdir, Option.map_some,
      Option.bind_some, PartialRun.run_nil]

/-! ## A full root -/

/-- The slots of the root that are in use. -/
def rootUsed (fs : FileSystem) : Finset (Fin directoryEntryCount) :=
  Finset.univ.filter fun i => (fs.table rootClusterNumber i).used

/-- The root of a fresh file system holds its self entry only. -/
theorem fresh_rootUsed : rootUsed (freshFileSystem blankDisk) = {0} := by
  ext i
  by_cases hi : i = 0
  · simp [rootUsed, hi, fresh_root, initDirectoryTable_self]
  · simp [rootUsed, hi, fresh_slot blankDisk hi, zero_not_used]

/-- With 64 slots in use none is left. -/
theorem rootUsed_full {fs : FileSystem} (h : (rootUsed fs).card = 64)
    (i : Fin directoryEntryCount) : (fs.table rootClusterNumber i).used := by
  have huniv := Finset.eq_univ_of_card (rootUsed fs) (h.trans (Fintype.card_fin _).symm)
  have hi : i ∈ rootUsed fs := huniv ▸ Finset.mem_univ i
  simpa [rootUsed] using hi

section Filling

variable {fs : FileSystem} {c : UInt32} {rest : List UInt32}

theorem rootWritten_table (fs : FileSystem) (c : UInt32) :
    (directoryWritten zeroTable (rootRequest [97] 0) fs c).table rootClusterNumber
      = Function.update (fs.table rootClusterNumber) (writeSlot (rootRequest [97] 0) fs)
        (directoryEntry (rootRequest [97] 0) fs c) :=
  flush_table_parent _ _ _ _

/-- The call that makes one more directory in the root. -/
theorem exec_rootWritten (hfree : freeCells fs.fat = c :: rest) (hc : c.toNat ≠ 511) :
    exec fs (.write zeroTable (rootRequest [97] 0))
      = some (directoryWritten zeroTable (rootRequest [97] 0) fs c) := by
  rw [exec, write_directory (by decide) (by decide) rfl, writeDirectory_eq hfree hc,
    Option.map_some]

theorem rootUsed_rootWritten (fs : FileSystem) (c : UInt32) :
    rootUsed (directoryWritten zeroTable (rootRequest [97] 0) fs c)
      = insert (writeSlot (rootRequest [97] 0) fs) (rootUsed fs) := by
  have hused : (directoryEntry (rootRequest [97] 0) fs c).used := rfl
  ext i
  by_cases hi : i = writeSlot (rootRequest [97] 0) fs
  · simp [rootUsed, rootWritten_table, hi, hused]
  · simp [rootUsed, rootWritten_table, hi]

/-- While a slot is unused, the directory takes one that was not in use. -/
theorem card_rootUsed_rootWritten (h : (rootUsed fs).card < 64) :
    (rootUsed (directoryWritten zeroTable (rootRequest [97] 0) fs c)).card
      = (rootUsed fs).card + 1 := by
  rw [rootUsed_rootWritten, Finset.card_insert_of_notMem]
  rcases idxEmpty_spec (fs.table rootClusterNumber) with hun | ⟨-, hall⟩
  · intro hmem
    exact hun (Finset.mem_filter.mp hmem).2
  · have huniv : rootUsed fs = Finset.univ := by simp [rootUsed, hall]
    rw [huniv, Finset.card_univ, Fintype.card_fin] at h
    exact absurd h (by decide)

theorem rootWritten_freeCells (hfree : freeCells fs.fat = c :: rest) :
    freeCells (directoryWritten zeroTable (rootRequest [97] 0) fs c).fat = rest := by
  have htake : (freeCells fs.fat).take 1 = c :: [] := by
    rw [hfree]
    rfl
  rw [directoryWritten_fat]
  refine (freeCells_linkCells htake).trans ?_
  rw [hfree]
  rfl

end Filling

/-- Directories of one name after another, until `n` of the root's slots `1..63` are taken. -/
theorem fill_root (n : ℕ) (hn : n ≤ 63) :
    ∃ fs, runCalls (freshFileSystem blankDisk)
        (List.replicate n (.write zeroTable (rootRequest [97] 0))) = some fs ∧
      (rootUsed fs).card = n + 1 ∧
      freeCells fs.fat = ((List.range' 3 509).map UInt32.ofNat).drop n := by
  induction n with
  | zero =>
      refine ⟨_, rfl, ?_, fresh_freeCells⟩
      rw [fresh_rootUsed, Finset.card_singleton]
  | succ n ih =>
      obtain ⟨fs, hrun, hcard, hfree⟩ := ih (by omega)
      have hlt : n < ((List.range' 3 509).map UInt32.ofNat).length := by
        rw [List.length_map, List.length_range']
        omega
      rw [List.drop_eq_getElem_cons hlt] at hfree
      generalize hc : ((List.range' 3 509).map UInt32.ofNat)[n] = c at hfree
      -- the next free cell is `3 + n`, which is not the last one
      have hc511 : c.toNat ≠ 511 := by
        rw [← hc, List.getElem_map, List.getElem_range', UInt32.toNat_ofNat']
        omega
      refine ⟨_, (PartialRun.run_replicate_succ exec hrun).trans
        (exec_rootWritten hfree hc511), ?_, rootWritten_freeCells hfree⟩
      rw [card_rootUsed_rootWritten (by omega), hcard]

/-- The name the root was created with is recorded for good. -/
theorem runNamed_rootName {calls : List Call} {s s' : NamedRun}
    (hname : s.created rootClusterNumber = rootName)
    (hrun : PartialRun.run execNamed s calls = some s') :
    s'.created rootClusterNumber = rootName := by
  have hstep : ∀ (s : NamedRun) k s', s.created rootClusterNumber = rootName → True →
      execNamed s k = some s' → s'.created rootClusterNumber = rootName := by
    intro s k s' hname _ hk
    obtain ⟨fs', -, rfl⟩ := Option.map_eq_some_iff.mp hk
    exact (nameNew_live Reach.root k).trans hname
  exact PartialRun.run_invariant execNamed hstep hname
    (PartialRun.guarded_of_forall execNamed (fun _ _ _ => trivial) s) hrun

/-- The 64th directory of the root takes slot 0. -/
theorem fullRoot_loses_self :
    PartialRun.Guarded execNamed (fun s k => OnLiveDirectory s.fs k) (freshNamed blankDisk)
      (List.replicate 64 (.write zeroTable (rootRequest [97] 0))) ∧
    ∃ s, PartialRun.run execNamed (freshNamed blankDisk)
        (List.replicate 64 (.write zeroTable (rootRequest [97] 0))) = some s ∧
      ¬ SelfEntries s := by
  constructor
  · refine PartialRun.guarded_of_forall execNamed ?_ _
    intro s k hk
    rw [List.eq_of_mem_replicate hk]
    exact ⟨Reach.root, fun _ _ => rfl⟩
  · obtain ⟨fs, hrun, hcard, hfree⟩ := fill_root 63 (Nat.le_refl _)
    have hslot : writeSlot (rootRequest [97] 0) fs = 0 :=
      ((idxEmpty_spec _).resolve_left fun hun => hun (rootUsed_full hcard _)).1
    have hfirst : freeCells fs.fat = 66 :: (List.range' 67 445).map UInt32.ofNat :=
      hfree.trans (by decide +kernel)
    have hcalls := (PartialRun.run_replicate_succ exec hrun).trans
      (exec_rootWritten hfirst (by decide))
    have hnamed := runNamed_fs (freshNamed blankDisk)
      (List.replicate 64 (.write zeroTable (rootRequest [97] 0)))
    obtain ⟨s, hs, hfs⟩ := Option.map_eq_some_iff.mp (hnamed.trans hcalls)
    refine ⟨s, hs, ?_⟩
    intro hself
    -- the root was created as `ROOT` and its slot 0 is now called `a`
    have hname := (hself rootClusterNumber Reach.root).2.2.1
    have hentry : (directoryEntry (rootRequest [97] 0) fs 66).name
        = (rootRequest [97] 0).name := rfl
    rw [runNamed_rootName rfl hs, hfs, rootWritten_table, hslot, Function.update_self, hentry]
      at hname
    exact absurd (congrFun hname 0) (by decide)

end OsyVolume
