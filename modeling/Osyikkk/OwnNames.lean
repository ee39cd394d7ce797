import Osyikkk.StoreRefinementProofs

/-!
# What a name leads to in the store

`write` puts a directory's own name in slot 0 of its table, and `read_directory` looks there
first: in a directory a name leads to what the store has under it, and the directory's own
name leads to the directory itself (`findDirectory_store`). The names in slot 0 are those of
the entries that lead there as long as the calls are those of a careful user (`OwnNames`).
-/

namespace OsyVolume

open OsyDisk OsyFat32 LinkedChain RootedForest NodeStore OsyShell

/-- The directory a name leads to. -/
def subdirectory (s : VolumeStore) (d : UInt32) (name : EntryName) : Option UInt32 :=
  (s.entry (d, (name, fun _ => 0))).bind StoreNode.kind

/-- Slot 0 of every directory is a directory with the name of the entry that leads there;
    that of the root has the root's name. -/
structure OwnNames (tbl : Tables) : Prop where
  directory : ∀ {d}, Live tbl d → (tbl d 0).attr = attrSubdirectory
  root : (tbl rootClusterNumber 0).name = rootName
  below : ∀ {d i x}, Live tbl d → dirEdge tbl d i x → (tbl x 0).name = (tbl d i).name

variable {fs fs' : FileSystem} {k : Call} {request : FAT32DriverRequest} {s : VolumeStore}
  {tbl tbl' : Tables} {fat fat' : FAT32FileAllocationTable} {d p q x : UInt32}
  {i j : Fin directoryEntryCount} {e : FAT32DirectoryEntry} {l : List UInt32}
  {name : EntryName} {newTable : FAT32DirectoryTable} {code : Int8}

theorem subdirectory_eq_some :
    subdirectory s d name = some x ↔ s.entry (d, (name, fun _ => 0)) = some (.directory x) := by
  rw [subdirectory, Option.bind_eq_some_iff]
  constructor
  · rintro ⟨n, hentry, hkind⟩
    cases n with
    | file b => exact nomatch hkind
    | directory y => exact hentry.trans (congrArg some (congrArg _ (Option.some.inj hkind)))
  · exact fun hentry => ⟨_, hentry, rfl⟩

theorem fresh_ownNames (disk : Disk) : OwnNames (freshFileSystem disk).table where
  directory hd := by
    obtain rfl := fresh_live disk hd
    exact (fresh_selfTree disk).root.2
  root := (fresh_selfTree disk).root.1
  below hd he := absurd (usedSlot_of_dirEdge hd he) (fresh_no_slot disk)

/-! ## The edits -/

/-- A new directory that carries its entry's name keeps the names. -/
theorem OwnNames.inserted (h : OwnNames tbl) (hins : Inserted tbl tbl' fat fat' p i e l)
    (hi : i ≠ 0) (hself : e.attr = attrSubdirectory →
      (tbl' e.cluster 0).attr = attrSubdirectory ∧ (tbl' e.cluster 0).name = e.name) :
    OwnNames tbl' where
  directory hd := by
    rcases (hins.live_iff _).mp hd with hold | ⟨rfl, -, hattr⟩
    · rw [hins.self_kept hi hold]
      exact h.directory hold
    · exact (hself hattr).1
  root := by
    rw [hins.self_kept hi Reach.root]
    exact h.root
  below hd hedge := by
    rcases hins.usedSlot (usedSlot_of_dirEdge hd hedge) with ⟨-, -, -, heq⟩ | ⟨hold, -, heq⟩
    · have hattr := hedge.2.2.1
      have hcluster := hedge.2.2.2
      rw [heq] at hattr hcluster ⊢
      rw [← hcluster]
      exact (hself hattr).2
    · rw [dirEdge, heq] at hedge
      rw [heq, hins.self_kept hi (Reach.child hold.live hedge)]
      exact h.below hold.live hedge

/-- Slot 0 of a directory that stays is as it was. -/
theorem OwnNames.removed (h : OwnNames tbl) (hcons : Consistent tbl fat)
    (hrem : Removed tbl tbl' fat fat' p i l) : OwnNames tbl' := by
  have hsame : ∀ {d}, Live tbl' d → Live tbl d ∧ tbl' d 0 = tbl d 0 := by
    intro d hd
    obtain ⟨hold, hx⟩ := (hrem.live_iff hcons d).mp hd
    rcases hrem.table hold hx 0 with ⟨-, h0, -⟩ | ⟨-, ht⟩
    · exact absurd h0.symm hrem.slot.slot
    · exact ⟨hold, ht⟩
  constructor
  case directory =>
    intro d hd
    rw [(hsame hd).2]
    exact h.directory (hsame hd).1
  case root =>
    rw [(hsame Reach.root).2]
    exact h.root
  case below =>
    intro d j x hd hedge
    rw [(hsame (Reach.child hd hedge)).2]
    have hs := usedSlot_of_dirEdge hd hedge
    have heq := hrem.entry_kept hcons hs
    rw [dirEdge, heq] at hedge
    rw [heq]
    exact h.below (hsame hd).1 hedge

/-- A directory that is moved keeps its name. -/
theorem OwnNames.moved (h : OwnNames tbl) (hmove : Moved tbl tbl' p q i j)
    (hbelow : ¬ Below tbl p i q) : OwnNames tbl' := by
  have hsame : ∀ {d}, Live tbl' d → Live tbl d ∧ tbl' d 0 = tbl d 0 := by
    intro d hd
    have hold := (hmove.live_iff hbelow d).mp hd
    rcases hmove.table hold 0 with ⟨-, h0, -⟩ | ⟨-, h0, -⟩ | ⟨-, -, ht⟩
    · exact absurd h0.symm hmove.slot.slot
    · exact absurd h0.symm hmove.target
    · exact ⟨hold, ht⟩
  constructor
  case directory =>
    intro d hd
    rw [(hsame hd).2]
    exact h.directory (hsame hd).1
  case root =>
    rw [(hsame Reach.root).2]
    exact h.root
  case below =>
    intro d y x hd hedge
    rw [(hsame (Reach.child hd hedge)).2]
    obtain ⟨d₀, y₀, hs₀, heq, -⟩ := hmove.origin hbelow (usedSlot_of_dirEdge hd hedge)
    rw [heq]
    exact h.below hs₀.live ⟨hs₀.slot, hs₀.used, heq ▸ hedge.2.2.1, heq ▸ hedge.2.2.2⟩

/-! ## The calls -/

theorem WriteOutcome.selfNamed (h : OwnNames fs.table) (hcons : FsConsistent fs)
    (hlive : OnLiveDirectory fs (.write newTable request))
    (hkeep : KeepsOwnership fs (.write newTable request))
    (hout : WriteOutcome newTable request fs code fs') : OwnNames fs'.table := by
  obtain ⟨hlive, hzero⟩ := hlive
  cases hout with
  | refused _ => exact h
  | leaked _ _ _ => exact h
  | @directory c rest hn hs hfree _ =>
      have hc : c ∈ freeCells fs.fat := hfree ▸ List.mem_cons_self
      obtain ⟨i, hi⟩ := (hkeep hn (not_fewCells_directory hs hfree)).1
      have hslot := writeSlot_ne_zero hcons hlive hi
      refine h.inserted (directoryWritten_inserted hcons hlive hc hzero) hslot fun _ => ?_
      rw [directoryEntry_cluster, directoryWritten_table hcons hlive hc]
      have hself := initDirectoryTable_self newTable request.name c
      exact ⟨hself.2.1, hself.2.2.1⟩
  | @file c rest hn hs _ hlen htake =>
      obtain ⟨i, hi⟩ := (hkeep hn (not_fewCells_file hs hlen)).1
      have hslot := writeSlot_ne_zero hcons hlive hi
      exact h.inserted (fileWritten_inserted hcons hlive hs htake) hslot
        fun hattr => absurd hattr (fileEntry_notDirectory c hs)

/-- **A careful call keeps the names.** -/
theorem OwnNames.exec (h : OwnNames fs.table) (hinv : DriverInvariant fs)
    (hk : StoreCall fs k) (hexec : exec fs k = some fs') : OwnNames fs'.table := by
  have hcons := hinv.owned.consistent
  rcases hk.admissible with ⟨hlive, -⟩ | hmove
  · cases driverCall_outcome hcons hlive hexec with
    | unchanged => exact h
    | write _ hout => exact hout.selfNamed h hcons hlive hk.ownership
    | delete hn hout =>
        rcases hout.removed hcons hlive hn with rfl | ⟨i, l, freed, -, -, -, hrem⟩
        · exact h
        · exact h.removed hcons hrem
  · obtain ⟨srcTable, destTable, srcIdx, rfl⟩ := exists_move hmove
    obtain ⟨p, q, i, -, -, -, -, -, hcases⟩ := hk.move hinv
    change syscallMove srcTable destTable srcIdx fs = some fs' at hexec
    rcases hcases with hfull | ⟨j, heq, hmoved, hbelow, -⟩
    · rw [hfull, Option.some.injEq] at hexec
      exact hexec ▸ h
    · rw [heq, Option.some.injEq] at hexec
      exact hexec ▸ h.moved hmoved hbelow

/-! ## Lookups -/

/-- The subdirectory with a name is the store's. -/
theorem childDirectory_store (hinv : DriverInvariant fs) (hrep : Represents fs s)
    (hd : Live fs.table d) (name : EntryName) :
    childDirectory fs d name = subdirectory s d name := by
  have hslot : ∀ {i}, i ∈ slotsFrom 1 ∧ ((fs.table d i).used ∧
        (fs.table d i).attr = attrSubdirectory ∧ (fs.table d i).name = name) →
      dirEdge fs.table d i (fs.table d i).cluster ∧
        fullName (fs.table d i) = (name, fun _ => 0) := by
    rintro i ⟨hi, hused, hattr, rfl⟩
    have hedge : dirEdge fs.table d i (fs.table d i).cluster :=
      ⟨mem_slotsFrom_one.mp hi, hused, hattr, rfl⟩
    exact ⟨hedge, Prod.ext rfl (hinv.plain d i _ hd hedge)⟩
  rw [childDirectory]
  cases hfind : (slotsFrom 1).find? fun i => (fs.table d i).used ∧
      (fs.table d i).attr = attrSubdirectory ∧ (fs.table d i).name = name with
  | some i =>
      have hi := List.mem_of_find?_eq_some hfind
      have hp := List.find?_some hfind
      rw [decide_eq_true_eq] at hp
      obtain ⟨hedge, hkey⟩ := hslot ⟨hi, hp⟩
      refine (subdirectory_eq_some.mpr ?_).symm
      rw [← hkey]
      exact hrep.present (usedSlot_of_dirEdge hd hedge) ⟨hp.2.1, rfl⟩
  | none =>
      have hnone := List.find?_eq_none.mp hfind
      refine (Option.eq_none_iff_forall_ne_some.mpr fun x hx => ?_).symm
      obtain ⟨i, hs, hkey, hattr, -⟩ := (hrep.entry _ _ _).mp (subdirectory_eq_some.mp hx)
      refine hnone i (mem_slotsFrom_one.mpr hs.slot) (decide_eq_true ⟨hs.used, hattr, ?_⟩)
      exact congrArg Prod.fst hkey

/-- Every directory has a name. -/
theorem OwnNames.ne_zero (h : OwnNames fs.table) (hinv : DriverInvariant fs)
    (hd : Live fs.table d) : (fs.table d 0).name ≠ fun _ => 0 := by
  cases hd with
  | root =>
      rw [h.root]
      decide
  | child hp hedge =>
      rw [h.below hp hedge]
      exact hinv.named.named (usedSlot_of_dirEdge hp hedge)

/-- **What a name leads to.** The directory's own name leads to itself, any other one where
    the store says. -/
theorem findDirectory_store (hinv : DriverInvariant fs) (hself : OwnNames fs.table)
    (hrep : Represents fs s) (hd : Live fs.table d) (name : EntryName) :
    findDirectory fs d name
      = if name = (fs.table d 0).name then some d else subdirectory s d name := by
  have hcons := hinv.owned.consistent
  by_cases hown : name = (fs.table d 0).name
  · have hnamed : NamedAt fs.table d name 0 d :=
      ⟨⟨hown.symm, hself.directory hd⟩, fun _ hj => absurd hj (Fin.not_lt_zero _),
        hinv.owned.self hd⟩
    have hname : name ≠ fun _ => 0 := hown ▸ hself.ne_zero hinv hd
    rw [if_pos hown, findDirectory, findTable_of_named hname hnamed, Option.map_some,
      hinv.owned.self hd]
  · rw [if_neg hown]
    by_cases hn : name = fun _ => 0
    · -- neither side knows a directory without a name
      rw [findDirectory, findTable, if_pos hn]
      refine (Option.eq_none_iff_forall_ne_some.mpr fun x hx => ?_).symm
      obtain ⟨i, hs, hkey, -⟩ := (hrep.entry _ _ _).mp (subdirectory_eq_some.mp hx)
      exact hinv.named.named hs ((congrArg Prod.fst hkey).trans hn)
    · rw [← childDirectory_store hinv hrep hd]
      exact findDirectory_eq_child hn
        (lookupOk_of_consistent hcons hd (fun c hc => hinv.owned.self hc) hn (Ne.symm hown))

end OsyVolume
