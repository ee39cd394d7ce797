import Osyikkk.MoveProofs

/-!
# Every cell has one owner

`ChainsOwned` is what a checker of the volume would test: the chains of the used slots are
well formed and disjoint, and no cell that is not free is without an owner. `Owned` is the
stronger invariant the calls keep; beside consistency it knows that slot 0 names its own
directory, that directories are single cells and that there are no other kinds of entries.

A run keeps it as long as every entry finds a slot and a cell of its own
(`KeepsOwnership`): a write into a directory without an unused slot leaks its chain, so does
a directory whose first free cell is 511, and the move syscall duplicates an entry when both
tables are the same and cuts off a directory that is moved below itself.
-/

namespace OsyVolume

open OsyDisk OsyFat32 LinkedChain RootedForest

/-- The used slots start disjoint chains of cells `3..511` without repetitions, and every
    cell that is not free is on the chain of exactly one slot. -/
structure ChainsOwned (fs : FileSystem) : Prop where
  chain : ∀ {d i}, UsedSlot fs.table d i →
    ∃ l, FatChain fs.fat (fs.table d i).cluster l ∧ l ≠ [] ∧ l.Nodup ∧
      ∀ c ∈ l, 3 ≤ c.toNat ∧ c.toNat < clusterMapSize
  disjoint : ∀ {d d' i i' l l' c}, UsedSlot fs.table d i → UsedSlot fs.table d' i' →
    FatChain fs.fat (fs.table d i).cluster l → FatChain fs.fat (fs.table d' i').cluster l' →
    c ∈ l → c ∈ l' → d = d' ∧ i = i'
  owned : ∀ {c v : UInt32}, 3 ≤ c.toNat → clusterMapGet fs.fat c = some v → v ≠ 0 →
    ∃! s : UInt32 × Fin directoryEntryCount, UsedSlot fs.table s.1 s.2 ∧
      ∃ l, FatChain fs.fat (fs.table s.1 s.2).cluster l ∧ c ∈ l

/-- The invariant behind `ChainsOwned`. -/
structure Owned (tbl : Tables) (fat : FAT32FileAllocationTable) : Prop where
  consistent : Consistent tbl fat
  self : ∀ {d}, Live tbl d → (tbl d 0).cluster = d
  kind : ∀ {d i}, UsedSlot tbl d i →
    (tbl d i).attr = attrSubdirectory ∨ (tbl d i).attr = attrArchive
  single : ∀ {d i c}, Live tbl d → dirEdge tbl d i c →
    clusterMapGet fat c = some fat32FatEndOfFile
  owned : ∀ {c v : UInt32}, 3 ≤ c.toNat → clusterMapGet fat c = some v → v ≠ 0 →
    ∃ d i l, UsedSlot tbl d i ∧ FatChain fat (tbl d i).cluster l ∧ c ∈ l

variable {tbl tbl' : Tables} {fat fat' : FAT32FileAllocationTable}

theorem Owned.chainsOwned {fs : FileSystem} (h : Owned fs.table fs.fat) : ChainsOwned fs where
  chain hs := by
    obtain ⟨l, hl, hne, h3⟩ := h.consistent.chain hs
    exact ⟨l, hl, hne, chain_nodup hl, fun c hc => ⟨h3 c hc, fatChain_lt hl hc⟩⟩
  disjoint := h.consistent.disjoint
  owned h3 hv hne := by
    obtain ⟨d, i, l, hs, hl, hc⟩ := h.owned h3 hv hne
    refine ⟨(d, i), ⟨hs, l, hl, hc⟩, ?_⟩
    rintro ⟨d', i'⟩ ⟨hs', l', hl', hc'⟩
    obtain ⟨rfl, rfl⟩ := h.consistent.disjoint hs' hs hl' hl hc' hc
    rfl

/-- A directory's chain is its one cell. -/
theorem Owned.chain_directory (h : Owned tbl fat) {d c : UInt32} {i : Fin directoryEntryCount}
    {l : List UInt32} (hd : Live tbl d) (he : dirEdge tbl d i c)
    (hl : FatChain fat (tbl d i).cluster l) : l = [c] := by
  have hs := usedSlot_of_dirEdge hd he
  obtain ⟨l₀, hl₀, hne, -⟩ := h.consistent.chain hs
  obtain rfl := chain_unique hl hl₀
  rw [he.2.2.2] at hl
  exact (chain_singleton_iff hl hne).mp (h.single hd he)

theorem Owned.congr (h : Owned tbl fat) (htbl : ∀ d, Live tbl d → tbl' d = tbl d) :
    Owned tbl' fat := by
  have hlive := live_congr htbl
  have hslot : ∀ {d i}, UsedSlot tbl' d i → UsedSlot tbl d i ∧ tbl' d = tbl d := by
    intro d i hs
    have hd := (hlive d).mp hs.live
    exact ⟨⟨hd, hs.slot, htbl d hd ▸ hs.used⟩, htbl d hd⟩
  constructor
  case consistent => exact h.consistent.congr htbl fun _ _ => rfl
  case self =>
    intro d hd
    have hd := (hlive d).mp hd
    exact htbl d hd ▸ h.self hd
  case kind =>
    intro d i hs
    obtain ⟨hs, ht⟩ := hslot hs
    exact ht ▸ h.kind hs
  case single =>
    intro d i c hd he
    have hd := (hlive d).mp hd
    exact h.single hd (by simpa only [dirEdge, htbl d hd] using he)
  case owned =>
    intro c v h3 hv hne
    obtain ⟨d, i, l, hs, hl, hc⟩ := h.owned h3 hv hne
    have ht := htbl d hs.live
    exact ⟨d, i, l, ⟨(hlive d).mpr hs.live, hs.slot, ht ▸ hs.used⟩, ht ▸ hl, hc⟩

/-! ## The three edits -/

section Inserting

variable {p : UInt32} {idx : Fin directoryEntryCount} {e : FAT32DirectoryEntry}
  {l : List UInt32}

/-- An entry that took one of the slots `1..63` owns its chain. -/
theorem Owned.inserted (hown : Owned tbl fat) (h : Inserted tbl tbl' fat fat' p idx e l)
    (hidx : idx ≠ 0) (hkind : e.attr = attrSubdirectory ∨ e.attr = attrArchive)
    (hself : e.attr = attrSubdirectory → (tbl' e.cluster 0).cluster = e.cluster)
    (hsingle : e.attr = attrSubdirectory → l = [e.cluster]) : Owned tbl' fat' := by
  have hcons := hown.consistent
  have hcell : e.attr = attrSubdirectory →
      clusterMapGet fat' e.cluster = some fat32FatEndOfFile := by
    intro ha
    exact (chain_singleton_iff h.chain h.nonempty).mpr (hsingle ha)
  constructor
  case consistent => exact h.consistent hcons
  case self =>
    intro d hd
    rcases (h.live_iff d).mp hd with hd | ⟨rfl, -, ha⟩
    · rcases h.table hd 0 with ⟨-, h0, -⟩ | ⟨-, ht⟩
      · exact absurd h0.symm hidx
      · exact ht ▸ hown.self hd
    · exact hself ha
  case kind =>
    intro d i hs
    rcases h.usedSlot hs with ⟨-, -, -, ht⟩ | ⟨hs, -, ht⟩
    · exact ht ▸ hkind
    · exact ht ▸ hown.kind hs
  case single =>
    intro d i c hd he
    rcases h.usedSlot (usedSlot_of_dirEdge hd he) with ⟨-, -, -, ht⟩ | ⟨hs, -, ht⟩
    · obtain ⟨-, -, ha, hc⟩ := he
      rw [ht] at ha hc
      exact hc ▸ hcell ha
    · have he₀ : dirEdge tbl d i c := by simpa only [dirEdge, ht] using he
      rw [h.kept c]
      · exact hown.single hs.live he₀
      · intro hmem
        have hfree := h.fresh c hmem
        rw [hown.single hs.live he₀] at hfree
        exact absurd (Option.some.inj hfree) (by decide)
  case owned =>
    intro c v h3 hv hne
    by_cases hmem : c ∈ l
    · have hentry : tbl' p idx = e := by rw [h.entry, Function.update_self]
      have hs : UsedSlot tbl' p idx :=
        ⟨(h.live_iff p).mpr (Or.inl h.live), hidx, hentry ▸ h.used⟩
      exact ⟨p, idx, l, hs, hentry ▸ h.chain, hmem⟩
    · rw [h.kept c hmem] at hv
      obtain ⟨d, i, l', hs, hl', hc⟩ := hown.owned h3 hv hne
      have ht : tbl' d i = tbl d i := by
        rcases h.table hs.live i with ⟨rfl, rfl, -⟩ | ⟨-, ht⟩
        · exact absurd hs.used (h.slot.resolve_left hidx)
        · exact ht
      exact ⟨d, i, l', ⟨(h.live_iff d).mpr (Or.inl hs.live), hs.slot, ht ▸ hs.used⟩,
        ht ▸ h.chain_kept hcons hs hl', hc⟩

end Inserting

section Removing

variable {p : UInt32} {i : Fin directoryEntryCount} {l : List UInt32}

/-- An entry that gave back its whole chain leaves nothing behind. -/
theorem Owned.removed (hown : Owned tbl fat) (h : Removed tbl tbl' fat fat' p i l)
    (hfreed : ∀ c ∈ l, clusterMapGet fat' c = some 0) : Owned tbl' fat' := by
  have hcons := hown.consistent
  constructor
  case consistent => exact h.consistent hcons
  case self =>
    intro d hd
    obtain ⟨hd, hx⟩ := (h.live_iff hcons d).mp hd
    rcases h.table hd hx 0 with ⟨-, h0, -⟩ | ⟨-, ht⟩
    · exact absurd h0.symm h.slot.slot
    · exact ht ▸ hown.self hd
  case kind =>
    intro d j hs
    rw [h.entry_kept hcons hs]
    exact hown.kind ((h.usedSlot_iff hcons).mp hs).1
  case single =>
    intro d j c hd he
    have hs := usedSlot_of_dirEdge hd he
    have ht := h.entry_kept hcons hs
    obtain ⟨hs, hne⟩ := (h.usedSlot_iff hcons).mp hs
    have he₀ : dirEdge tbl d j c := by simpa only [dirEdge, ht] using he
    rw [h.kept c]
    · exact hown.single hs.live he₀
    · intro hmem
      obtain ⟨l', hl', hne', -⟩ := hcons.chain hs
      have hc : c ∈ l' := he₀.2.2.2 ▸ chain_start_mem hl' hne'
      exact hne (hcons.disjoint hs h.slot hl' h.chain hc hmem)
  case owned =>
    intro c v h3 hv hne
    have hmem : c ∉ l := by
      intro hmem
      rw [hfreed c hmem] at hv
      exact hne (Option.some.inj hv).symm
    rw [h.kept c hmem] at hv
    obtain ⟨d, j, l', hs, hl', hc⟩ := hown.owned h3 hv hne
    have hne' : ¬ (d = p ∧ j = i) := by
      rintro ⟨rfl, rfl⟩
      exact hmem (chain_unique hl' h.chain ▸ hc)
    have hs' := (h.usedSlot_iff hcons).mpr ⟨hs, hne'⟩
    exact ⟨d, j, l', hs', h.entry_kept hcons hs' ▸ h.chain_kept hcons hs hne' hl', hc⟩

end Removing

theorem Owned.moved {p q : UInt32} {i j : Fin directoryEntryCount} (hown : Owned tbl fat)
    (h : Moved tbl tbl' p q i j) (hbelow : ¬ Below tbl p i q) : Owned tbl' fat := by
  constructor
  case consistent => exact h.consistent hown.consistent hbelow
  case self =>
    intro d hd
    have hd := (h.live_iff hbelow d).mp hd
    rcases h.table hd 0 with ⟨-, h0, -⟩ | ⟨-, h0, -⟩ | ⟨-, -, ht⟩
    · exact absurd h0.symm h.slot.slot
    · exact absurd h0.symm h.target
    · exact ht ▸ hown.self hd
  case kind =>
    intro d k hs
    obtain ⟨d₀, k₀, hs₀, ht, -⟩ := h.origin hbelow hs
    exact ht ▸ hown.kind hs₀
  case single =>
    intro d k c hd he
    obtain ⟨d₀, k₀, hs₀, ht, -⟩ := h.origin hbelow (usedSlot_of_dirEdge hd he)
    obtain ⟨-, hused, ha, hc⟩ := he
    rw [ht] at hused ha hc
    exact hown.single hs₀.live ⟨hs₀.slot, hused, ha, hc⟩
  case owned =>
    intro c v h3 hv hne
    obtain ⟨d, k, l, hs, hl, hc⟩ := hown.owned h3 hv hne
    obtain ⟨d', k', hs', ht⟩ := h.kept hbelow hs
    exact ⟨d', k', l, hs', ht ▸ hl, hc⟩

theorem fresh_owned (disk : Disk) :
    Owned (freshFileSystem disk).table (freshFileSystem disk).fat where
  consistent := fresh_consistent disk
  self hd := by
    rw [fresh_live disk hd, fresh_root]
    exact (initDirectoryTable_self _ _ _).2.2.2
  kind hs := absurd hs (fresh_no_slot disk)
  single hd he := absurd (usedSlot_of_dirEdge hd he) (fresh_no_slot disk)
  owned {c v} h3 hv hne := by
    rw [fresh_cell_free disk h3 (clusterMapGet_lt hv)] at hv
    exact absurd (Option.some.inj hv).symm hne

/-! ## The calls -/

/-- A move of a used slot with the two tables as they are on the disk. -/
def MovesEntry (fs : FileSystem) : Call → Prop
  | .move srcTable destTable srcIdx =>
      ∃ p q i, Live fs.table p ∧ Live fs.table q ∧ srcTable = fs.table p ∧
        destTable = fs.table q ∧ i ≠ 0 ∧ srcIdx.toNat = (i : Fin directoryEntryCount) ∧
        (fs.table p i).used
  | _ => False

theorem exists_move {fs : FileSystem} {k : Call} (h : MovesEntry fs k) :
    ∃ srcTable destTable srcIdx, k = .move srcTable destTable srcIdx := by
  cases k with
  | move srcTable destTable srcIdx => exact ⟨srcTable, destTable, srcIdx, rfl⟩
  | write _ _ | delete _ | read _ | readDirectory _ => exact h.elim

/-- The requests of a well-behaved user. -/
def Admissible (fs : FileSystem) (k : Call) : Prop :=
  (OnLiveDirectory fs k ∧ WholeClusters k) ∨ MovesEntry fs k

/-- The call gives every entry a slot and a chain of its own: a write that finds cells also
    finds an unused slot, and a directory not the last cell first; a file to delete has two
    clusters or more; a move leads to another directory that is not below its entry. -/
def KeepsOwnership (fs : FileSystem) : Call → Prop
  | .write _ request =>
      request.name ≠ (fun _ => 0) → ¬ FewCells request fs →
        (∃ i, ¬ (fs.table request.parentClusterNumber i).used) ∧
        (request.bufferSize = 0 → ∀ c ∈ (freeCells fs.fat).head?, c.toNat ≠ 511)
  | .delete request => request.name ≠ (fun _ => 0) → ¬ SingleClusterMatch request fs
  | .read _ | .readDirectory _ => True
  | .move srcTable destTable srcIdx =>
      (∃ j, j ≠ 0 ∧ ¬ (destTable j).used) →
        (srcTable 0).cluster ≠ (destTable 0).cluster ∧
        ∀ i : Fin directoryEntryCount, srcIdx.toNat = i →
          ¬ Below fs.table (srcTable 0).cluster i (destTable 0).cluster

section Calls

variable {request : FAT32DriverRequest} {fs fs' : FileSystem} {newTable : FAT32DirectoryTable}
  {code : Int8}

theorem WriteOutcome.owned (hown : Owned fs.table fs.fat)
    (hlive : OnLiveDirectory fs (.write newTable request))
    (hkeep : KeepsOwnership fs (.write newTable request))
    (h : WriteOutcome newTable request fs code fs') (hn : request.name ≠ fun _ => 0) :
    Owned fs'.table fs'.fat := by
  obtain ⟨hlive, hzero⟩ := hlive
  have hcons := hown.consistent
  cases h with
  | refused _ => exact hown
  | @leaked c rest hs hfree hc =>
      exact absurd hc ((hkeep hn (not_fewCells_directory hs hfree)).2 hs c (hfree ▸ rfl))
  | @directory c rest _ hs hfree _ =>
      obtain ⟨i, hi⟩ := (hkeep hn (not_fewCells_directory hs hfree)).1
      have hc : c ∈ freeCells fs.fat := hfree ▸ List.mem_cons_self
      refine hown.inserted (directoryWritten_inserted hcons hlive hc hzero)
        (writeSlot_ne_zero hcons hlive hi) ?_ ?_ ?_
      · exact Or.inl (directoryEntry_attr c hs)
      · intro _
        rw [directoryEntry_cluster, directoryWritten_table hcons hlive hc]
        exact (initDirectoryTable_self _ _ _).2.2.2
      · exact fun _ => by rw [directoryEntry_cluster]
  | @file c rest _ hs h0 hlen htake =>
      obtain ⟨i, hi⟩ := (hkeep hn (not_fewCells_file hs hlen)).1
      have hno : (fileEntry request fs c).attr ≠ attrSubdirectory := fileEntry_notDirectory c hs
      exact hown.inserted (fileWritten_inserted hcons hlive hs htake)
        (writeSlot_ne_zero hcons hlive hi) (Or.inr (fileEntry_attr c hs))
        (fun ha => absurd ha hno)
        (fun ha => absurd ha hno)

theorem DeleteOutcome.owned (hown : Owned fs.table fs.fat)
    (hlive : Live fs.table request.parentClusterNumber)
    (h : DeleteOutcome request fs code fs') (hn : request.name ≠ fun _ => 0) :
    Owned fs'.table fs'.fat := by
  have hcons := hown.consistent
  cases h with
  | refused _ => exact hown
  | @directory i c hm hd hempty =>
      have hs := usedSlot_of_firstMatch hcons hlive hn hm
      obtain ⟨l, hl, -⟩ := hcons.chain hs
      obtain rfl := hown.chain_directory hlive hd hl
      refine hown.removed (slotCleared_removed hcons hlive hs hl (fun _ h => h) ?_) ?_
      · intro x hx
        rwa [← dirEdge_functional _ hd hx]
      · exact fun c' hc' => freeChain_get_mem _ hc' (fatChain_lt hl hc')
  | @file i l hm ha hl _ =>
      have hs := usedSlot_of_firstMatch hcons hlive hn hm
      refine hown.removed (slotCleared_removed hcons hlive hs hl (fun _ h => h) ?_) ?_
      · intro x hx
        exact absurd (ha.symm.trans hx.2.2.1) (by decide)
      · exact fun c' hc' => freeChain_get_mem _ hc' (fatChain_lt hl hc')
  | other hm hd hf =>
      exact absurd (hown.kind (usedSlot_of_firstMatch hcons hlive hn hm)) (not_or.mpr ⟨hd, hf⟩)

/-- A call that keeps ownership has an outcome and keeps the invariant. -/
theorem exec_owned (fs : FileSystem) (k : Call) (hown : Owned fs.table fs.fat)
    (hk : Admissible fs k ∧ KeepsOwnership fs k) :
    ∃ fs', exec fs k = some fs' ∧ Owned fs'.table fs'.fat := by
  obtain ⟨hadm, hkeep⟩ := hk
  have hcons := hown.consistent
  rcases hadm with ⟨hlive, hwhole⟩ | hmove
  · have hsingle : ∀ request, k = .delete request → request.name ≠ (fun _ => 0) →
        ¬ SingleClusterMatch request fs := by
      rintro request rfl
      exact hkeep
    obtain ⟨fs', h, hout⟩ := driverCall_total hcons hlive (callEnds_of_whole hwhole hsingle)
    refine ⟨fs', h, ?_⟩
    cases hout with
    | unchanged => exact hown
    | write hn hout => exact hout.owned hown hlive hkeep hn
    | delete hn hout => exact hout.owned hown hlive hn
  · obtain ⟨srcTable, destTable, srcIdx, rfl⟩ := exists_move hmove
    obtain ⟨p, q, i, hp, hq, rfl, rfl, hi, hidx, hused⟩ := hmove
    cases hfind : firstUnused (fs.table q) with
    | none => exact ⟨fs, syscallMove_full (hown.self hp) (hown.self hq) hfind, hown⟩
    | some j =>
        obtain ⟨hj, hun⟩ := firstUnused_some hfind
        obtain ⟨hpq, hbelow⟩ := hkeep ⟨j, hj, hun⟩
        rw [hown.self hp, hown.self hq] at hpq hbelow
        refine ⟨_, syscallMove_eq (hown.self hp) (hown.self hq) hi hidx hfind, ?_⟩
        exact hown.moved (entryMoved_moved hcons ⟨hp, hi, hused⟩ hq hpq hj hun)
          (hbelow i hidx)

end Calls

/-! ## Runs -/

/-- **Cluster ownership over runs.** -/
theorem runCalls_chainsOwned (disk : Disk) (calls : List Call)
    (h : PartialRun.Guarded exec (fun fs k => Admissible fs k ∧ KeepsOwnership fs k)
      (freshFileSystem disk) calls) :
    ∃ fs, runCalls (freshFileSystem disk) calls = some fs ∧ ChainsOwned fs := by
  obtain ⟨fs, hrun, hown⟩ := PartialRun.run_total exec exec_owned (fresh_owned disk) h
  exact ⟨fs, hrun, hown.chainsOwned⟩

/-- Making the directory `a` in the fresh root is a call that keeps ownership. -/
theorem mkdir_keepsOwnership :
    Admissible (freshFileSystem blankDisk) (.write zeroTable (rootRequest [97] 0)) ∧
      KeepsOwnership (freshFileSystem blankDisk) (.write zeroTable (rootRequest [97] 0)) :=
  ⟨Or.inl ⟨⟨Reach.root, fun _ _ => rfl⟩, by decide⟩,
    fun _ _ => ⟨⟨1, by decide⟩, fun _ => headCell_ne_last fresh_headCell (by decide)⟩⟩

theorem afterMkdir_owned : Owned afterMkdir.table afterMkdir.fat := by
  obtain ⟨fs, hfs, hown⟩ := exec_owned _ _ (fresh_owned blankDisk) mkdir_keepsOwnership
  obtain rfl := Option.some.inj (exec_mkdir.symm.trans hfs)
  exact hown

/-- Making and removing a directory is such a run. -/
theorem runCalls_chainsOwned_mkdir_rm : ∃ fs, runCalls (freshFileSystem blankDisk)
    [.write zeroTable (rootRequest [97] 0), .delete (rootRequest [97] 0)] = some fs ∧
      ChainsOwned fs := by
  refine runCalls_chainsOwned _ _ ⟨mkdir_keepsOwnership, ?_⟩
  intro fs hfs
  obtain rfl := Option.some.inj (exec_mkdir.symm.trans hfs)
  exact ⟨⟨Or.inl ⟨Reach.root, trivial⟩, fun _ => afterMkdir_not_single⟩, fun _ _ => trivial⟩

/-- `mkdir a` and a move of `a` from the root to the root. -/
def moveInRoot : List Call :=
  [.write zeroTable (rootRequest [97] 0),
    .move (afterMkdir.table rootClusterNumber) (afterMkdir.table rootClusterNumber) 1]

/-- Moving within one directory leaves two slots with one chain. -/
theorem moveInRoot_shares :
    PartialRun.Guarded exec Admissible (freshFileSystem blankDisk) moveInRoot ∧
      ∃ fs, runCalls (freshFileSystem blankDisk) moveInRoot = some fs ∧ ¬ ChainsOwned fs := by
  have hmove : exec afterMkdir (.move (afterMkdir.table rootClusterNumber)
      (afterMkdir.table rootClusterNumber) 1) = some (entryMoved afterMkdir 2 2 1 2) :=
    syscallMove_eq (by decide) (by decide) (by decide) (by decide) (by decide)
  refine ⟨⟨Or.inl ⟨⟨Reach.root, fun _ _ => rfl⟩, by decide⟩, ?_⟩,
    entryMoved afterMkdir 2 2 1 2, ?_, ?_⟩
  · intro s hs
    obtain rfl := Option.some.inj (exec_mkdir.symm.trans hs)
    exact ⟨Or.inr ⟨2, 2, 1, Reach.root, Reach.root, rfl, rfl, by decide, by decide, by decide⟩,
      fun _ _ => trivial⟩
  · rw [moveInRoot, runCalls, PartialRun.run_cons, exec_mkdir, Option.bind_some,
      PartialRun.run_cons, hmove]
    rfl
  · intro h
    -- slots 1 and 2 of the root hold the same entry
    have hslot : ∀ k : Fin directoryEntryCount, k = 1 ∨ k = 2 →
        (entryMoved afterMkdir 2 2 1 2).table 2 k = afterMkdir.table 2 1 := by
      rw [entryMoved_same]
      rintro k (rfl | rfl)
      · exact Function.update_of_ne (by decide) _ _
      · exact Function.update_self _ _ _
    have hused : (afterMkdir.table 2 1).used := by decide
    have h1 : UsedSlot (entryMoved afterMkdir 2 2 1 2).table 2 1 := by
      refine ⟨Reach.root, by decide, ?_⟩
      rw [hslot 1 (Or.inl rfl)]
      exact hused
    have h2 : UsedSlot (entryMoved afterMkdir 2 2 1 2).table 2 2 := by
      refine ⟨Reach.root, by decide, ?_⟩
      rw [hslot 2 (Or.inr rfl)]
      exact hused
    obtain ⟨l, hl, hne, -⟩ := h.chain h1
    have hl2 : FatChain (entryMoved afterMkdir 2 2 1 2).fat
        ((entryMoved afterMkdir 2 2 1 2).table 2 2).cluster l := by
      rw [hslot 2 (Or.inr rfl), ← hslot 1 (Or.inl rfl)]
      exact hl
    have hmem := chain_start_mem hl hne
    exact absurd (h.disjoint h1 h2 hl hl2 hmem hmem).2 (by decide)

end OsyVolume
