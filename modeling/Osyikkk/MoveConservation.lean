import Osyikkk.DirectoryRemovalProofs
import Osyikkk.MoveProofs
import Mathlib.Algebra.BigOperators.Group.Finset.Basic
import Mathlib.Algebra.Order.Group.Multiset
import Mathlib.Tactic.Abel

/-!
# What the move system call conserves

`syscall` with `eax` 8 edits snapshots of two tables and stores each at the cluster its own
slot 0 names, the source first. With a free slot in the destination the entry changes its
directory exactly when these clusters are the ones the tables were read from and the two
directories differ: for one and the same directory the second snapshot still holds the entry
in its old slot. Without a free slot the tables are stored as they are.
-/

namespace OsyVolume

open OsyDisk OsyFat32 LinkedChain RootedForest

variable {fs fs' : FileSystem} {p q srcIdx : UInt32} {i j : Fin directoryEntryCount}
  {t : FAT32DirectoryTable} {e : FAT32DirectoryEntry}

/-- Name, extension, attribute, cluster and size of an entry. -/
def entryKey (e : FAT32DirectoryEntry) : EntryName × EntryExt × UInt8 × UInt32 × UInt32 :=
  (e.name, e.ext, e.attr, e.cluster, e.filesize)

/-- What a slot contributes to the entries of a directory. -/
def slotEntries (e : FAT32DirectoryEntry) :
    Multiset (EntryName × EntryExt × UInt8 × UInt32 × UInt32) :=
  if e.used then {entryKey e} else 0

/-- The used entries of slots `1..63`. -/
def usedEntries (t : FAT32DirectoryTable) :
    Multiset (EntryName × EntryExt × UInt8 × UInt32 × UInt32) :=
  ∑ i ∈ Finset.univ.erase 0, slotEntries (t i)

/-- The slot holds the entry. -/
def Holds (e e' : FAT32DirectoryEntry) : Prop := e'.used ∧ entryKey e' = entryKey e

/-- The entry arrived in one slot of the destination that was free, and the slots of both
    directories other than this one and the source are as before. -/
def Arrived (fs fs' : FileSystem) (p q : UInt32) (i : Fin directoryEntryCount) : Prop :=
  ∃ j, j ≠ 0 ∧ ¬ (fs.table q j).used ∧
    (∀ k, k ≠ 0 → (Holds (fs.table p i) (fs'.table q k) ↔ k = j)) ∧
    ∀ d k, d = p ∨ d = q → (d, k) ≠ (p, i) → (d, k) ≠ (q, j) → fs'.table d k = fs.table d k

/-- The entries of the two directories are conserved, the entry is where it belongs, and
    nothing else has changed. -/
structure MoveConserves (fs fs' : FileSystem) (p q : UInt32) (i : Fin directoryEntryCount) :
    Prop where
  entries : ∑ d ∈ ({p, q} : Finset UInt32), usedEntries (fs'.table d)
    = ∑ d ∈ ({p, q} : Finset UInt32), usedEntries (fs.table d)
  arrived : (∃ j, j ≠ 0 ∧ ¬ (fs.table q j).used) → Arrived fs fs' p q i
  stayed : (∀ j, j ≠ 0 → (fs.table q j).used) → fs'.table p = fs.table p ∧
    fs'.table q = fs.table q
  fat : fs'.fat = fs.fat
  clusters : ∀ x, drivePlace x ≠ drivePlace p → drivePlace x ≠ drivePlace q →
    clusterAt fs'.disk x = clusterAt fs.disk x

/-- The cluster that slot 0 of the table at `d` names, to which the table is stored. -/
def homeOf (fs : FileSystem) (d : UInt32) : UInt32 := (fs.table d 0).cluster

/-- Storing both tables as they are changes no cluster. -/
def StoresBack (fs : FileSystem) (p q : UInt32) : Prop :=
  clusterAt fs.disk (homeOf fs q) = clusterAt fs.disk q ∧
    (drivePlace (homeOf fs p) = drivePlace (homeOf fs q) ∨
      clusterAt fs.disk (homeOf fs p) = clusterAt fs.disk p)

/-! ## Entries of an edited table -/

theorem slotEntries_unused (h : ¬ e.used) : slotEntries e = 0 := if_neg h

theorem slotEntries_used (h : e.used) : slotEntries e = {entryKey e} := if_pos h

/-- An edit of a slot exchanges what the slot contributes. -/
theorem usedEntries_update (t : FAT32DirectoryTable) (hj : j ≠ 0) (e : FAT32DirectoryEntry) :
    usedEntries (Function.update t j e) + slotEntries (t j) = usedEntries t + slotEntries e := by
  have hmem : j ∈ (Finset.univ : Finset (Fin directoryEntryCount)).erase 0 :=
    Finset.mem_erase.mpr ⟨hj, Finset.mem_univ j⟩
  have hrest : ∑ k ∈ (Finset.univ.erase 0).erase j, slotEntries (Function.update t j e k)
      = ∑ k ∈ (Finset.univ.erase 0).erase j, slotEntries (t k) := by
    refine Finset.sum_congr rfl ?_
    intro k hk
    rw [Function.update_of_ne (Finset.ne_of_mem_erase hk)]
  rw [usedEntries, usedEntries, ← Finset.add_sum_erase _ _ hmem, hrest,
    ← Finset.add_sum_erase _ (fun k => slotEntries (t k)) hmem, Function.update_self]
  abel

/-! ## What is stored -/

theorem clusterAt_of_place (disk : Disk) {x y : UInt32} (h : drivePlace x = drivePlace y) :
    clusterAt disk x = clusterAt disk y := by
  funext k
  rw [clusterAt, clusterAt, h]

theorem table_of_place (fs : FileSystem) {x y : UInt32} (h : drivePlace x = drivePlace y) :
    fs.table x = fs.table y := by
  have hbytes : readClusters fs.disk (fun _ => 0) x 1 = readClusters fs.disk (fun _ => 0) y 1 := by
    funext k
    simp only [readClusters_one, clusterAt_of_place fs.disk h]
  exact congrArg tableOfMemory hbytes

/-- The bytes of a cluster are those of its table. -/
theorem clusterAt_table (fs : FileSystem) (c : UInt32) :
    clusterAt fs.disk c = (tableToMemory (fs.table c)).toCluster := by
  have hself := clusterAt_writeClusters_self fs.disk (tableToMemory (fs.table c)) c
  rwa [show writeClusters fs.disk (tableToMemory (fs.table c)) c 1 = fs.disk
    from writeClusters_readTable fs.disk c] at hself

/-- The two stores of the system call. -/
def tablesStored (fs : FileSystem) (p q : UInt32) (src dst : FAT32DirectoryTable) :
    FileSystem :=
  fs.store fs.fat (writeClusters
    (writeClusters fs.disk (tableToMemory src) (homeOf fs p) 1) (tableToMemory dst)
    (homeOf fs q) 1)

theorem syscallMove_stored_full (h : firstUnused (fs.table q) = none) :
    syscallMove (fs.table p) (fs.table q) srcIdx fs
      = some (tablesStored fs p q (fs.table p) (fs.table q)) := by
  rw [syscallMove, moveEntry, show (slotsFrom 1).find? _ = none from h]
  rfl

theorem syscallMove_stored_room (hi : i ≠ 0) (hidx : srcIdx.toNat = i)
    (h : firstUnused (fs.table q) = some j) :
    syscallMove (fs.table p) (fs.table q) srcIdx fs
      = some (tablesStored fs p q (Function.update (fs.table p) i FAT32DirectoryEntry.zero)
          (Function.update (fs.table q) j (fs.table p i))) := by
  have hlt : srcIdx.toNat < directoryEntryCount := hidx ▸ i.isLt
  have hslot : (⟨srcIdx.toNat, hlt⟩ : Fin directoryEntryCount) = i := Fin.ext hidx
  have hj := (firstUnused_some h).1
  rw [syscallMove, moveEntry, show (slotsFrom 1).find? _ = some j from h]
  simp only [dif_pos hlt, hslot, Option.map_some, Function.update_of_ne hi.symm,
    Function.update_of_ne hj.symm]
  rfl

section Stored

variable {src dst : FAT32DirectoryTable} {x : UInt32}

theorem stored_clusterAt_dest (h : drivePlace x = drivePlace (homeOf fs q)) :
    clusterAt (tablesStored fs p q src dst).disk x = (tableToMemory dst).toCluster :=
  (clusterAt_of_place _ h).trans (clusterAt_writeClusters_self _ _ _)

theorem stored_clusterAt_source (hq : drivePlace x ≠ drivePlace (homeOf fs q))
    (h : drivePlace x = drivePlace (homeOf fs p)) :
    clusterAt (tablesStored fs p q src dst).disk x = (tableToMemory src).toCluster :=
  (clusterAt_writeClusters_ne _ _ hq).trans
    ((clusterAt_of_place _ h).trans (clusterAt_writeClusters_self _ _ _))

theorem stored_clusterAt_other (hq : drivePlace x ≠ drivePlace (homeOf fs q))
    (hp : drivePlace x ≠ drivePlace (homeOf fs p)) :
    clusterAt (tablesStored fs p q src dst).disk x = clusterAt fs.disk x :=
  (clusterAt_writeClusters_ne _ _ hq).trans (clusterAt_writeClusters_ne _ _ hp)

theorem stored_table_dest (h : drivePlace x = drivePlace (homeOf fs q)) :
    (tablesStored fs p q src dst).table x = dst :=
  (table_of_place _ h).trans (readTable_written _ _ _)

theorem stored_table_source (hq : drivePlace x ≠ drivePlace (homeOf fs q))
    (h : drivePlace x = drivePlace (homeOf fs p)) :
    (tablesStored fs p q src dst).table x = src :=
  (readTable_writeClusters_ne _ _ hq).trans
    ((table_of_place (fs.store fs.fat (writeClusters fs.disk (tableToMemory src)
      (homeOf fs p) 1)) h).trans (readTable_written _ _ _))

theorem stored_table_other (hq : drivePlace x ≠ drivePlace (homeOf fs q))
    (hp : drivePlace x ≠ drivePlace (homeOf fs p)) :
    (tablesStored fs p q src dst).table x = fs.table x :=
  readTable_congr (stored_clusterAt_other hq hp)

end Stored

/-! ## Without a free slot -/

/-- Storing the tables as they are conserves everything exactly when it changes nothing. -/
theorem storedBack_conserves_iff (hfull : ∀ j, j ≠ 0 → (fs.table q j).used) :
    MoveConserves fs (tablesStored fs p q (fs.table p) (fs.table q)) p q i ↔
      StoresBack fs p q := by
  constructor
  · intro h
    obtain ⟨hp, hq⟩ := h.stayed hfull
    have hkept : ∀ x, clusterAt (tablesStored fs p q (fs.table p) (fs.table q)).disk x
        = clusterAt fs.disk x := by
      intro x
      by_cases hxp : drivePlace x = drivePlace p
      · rw [clusterAt_of_place _ hxp, clusterAt_of_place fs.disk hxp, clusterAt_table, hp,
          clusterAt_table]
      by_cases hxq : drivePlace x = drivePlace q
      · rw [clusterAt_of_place _ hxq, clusterAt_of_place fs.disk hxq, clusterAt_table, hq,
          clusterAt_table]
      exact h.clusters x hxp hxq
    constructor
    · rw [← hkept, stored_clusterAt_dest rfl, clusterAt_table fs q]
    · refine or_iff_not_imp_left.mpr ?_
      intro hne
      rw [← hkept, stored_clusterAt_source hne rfl, clusterAt_table fs p]
  · rintro ⟨hback, hsource⟩
    have hkept : ∀ x, clusterAt (tablesStored fs p q (fs.table p) (fs.table q)).disk x
        = clusterAt fs.disk x := by
      intro x
      by_cases hxq : drivePlace x = drivePlace (homeOf fs q)
      · rw [stored_clusterAt_dest hxq, ← clusterAt_table, clusterAt_of_place _ hxq, hback]
      by_cases hxp : drivePlace x = drivePlace (homeOf fs p)
      · have hsame := hsource.resolve_left fun heq => hxq (hxp.trans heq)
        rw [stored_clusterAt_source hxq hxp, ← clusterAt_table, clusterAt_of_place _ hxp, hsame]
      · exact stored_clusterAt_other hxq hxp
    have htable : ∀ d, (tablesStored fs p q (fs.table p) (fs.table q)).table d = fs.table d :=
      fun d => readTable_congr (hkept d)
    constructor
    case entries => simp only [htable]
    case arrived =>
      rintro ⟨j, hj, hun⟩
      exact absurd (hfull j hj) hun
    case stayed => exact fun _ => ⟨htable p, htable q⟩
    case fat => rfl
    case clusters => exact fun x _ _ => hkept x

/-! ## With a free slot -/

theorem entryKey_cluster {e' : FAT32DirectoryEntry} (h : entryKey e' = entryKey e) :
    e'.cluster = e.cluster := by
  simp only [entryKey, Prod.mk.injEq] at h
  exact h.2.2.2.1

/-- Used slots that hold one entry are one slot: both own its chain. -/
theorem Holds.same_slot (hcons : FsConsistent fs) {d : UInt32} {k : Fin directoryEntryCount}
    (hs : UsedSlot fs.table p i) (hs' : UsedSlot fs.table d k)
    (h : Holds (fs.table p i) (fs.table d k)) : d = p ∧ k = i := by
  have hcluster := entryKey_cluster h.2
  obtain ⟨l, hl, hne, -⟩ := hcons.chain hs
  have hl' : FatChain fs.fat (fs.table d k).cluster l := by
    rw [hcluster]
    exact hl
  have hmem := chain_start_mem hl hne
  exact hcons.disjoint hs' hs hl' hl hmem hmem

theorem Holds.self (hs : UsedSlot fs.table p i) : Holds (fs.table p i) (fs.table p i) :=
  ⟨hs.used, rfl⟩

section Room

variable (hcons : FsConsistent fs) (hs : UsedSlot fs.table p i) (hlq : Live fs.table q)
  (hj : firstUnused (fs.table q) = some j)

/-- The state after the two stores when slot `j` of the destination is free. -/
abbrev entryStored (fs : FileSystem) (p q : UInt32) (i j : Fin directoryEntryCount) : FileSystem :=
  tablesStored fs p q (Function.update (fs.table p) i FAT32DirectoryEntry.zero)
    (Function.update (fs.table q) j (fs.table p i))

include hs hj in
/-- In one and the same directory the entry does not move: either both slots hold it
    afterwards, or the old one alone. -/
theorem entryStored_same (h : MoveConserves fs (entryStored fs p q i j) p q i) : p ≠ q := by
  rintro rfl
  obtain ⟨hj0, hun⟩ := firstUnused_some hj
  obtain ⟨k, hk, hfree, honly, -⟩ := h.arrived ⟨j, hj0, hun⟩
  have hik : i ≠ k := by
    rintro rfl
    exact hfree hs.used
  have hij : i ≠ j := by
    rintro rfl
    exact hun hs.used
  have hold : (entryStored fs p p i j).table p i = fs.table p i := by
    by_cases hhome : drivePlace p = drivePlace (homeOf fs p)
    · rw [stored_table_dest hhome, Function.update_of_ne hij]
    · rw [stored_table_other hhome hhome]
  refine hik ((honly i hs.slot).mp ?_)
  rw [hold]
  exact Holds.self hs

include hcons hs hj in
/-- The entry arrives only if the destination's table names its own cluster. -/
theorem entryStored_dest (h : MoveConserves fs (entryStored fs p q i j) p q i) :
    drivePlace q = drivePlace (homeOf fs q) := by
  by_contra hq
  obtain ⟨hj0, hun⟩ := firstUnused_some hj
  obtain ⟨k, hk, hfree, honly, -⟩ := h.arrived ⟨j, hj0, hun⟩
  have hholds := (honly k hk).mpr rfl
  by_cases hp : drivePlace q = drivePlace (homeOf fs p)
  · -- the source without the entry was stored over the destination
    rw [stored_table_source hq hp] at hholds
    by_cases hki : k = i
    · rw [hki, Function.update_self] at hholds
      exact zero_not_used hholds.1
    · rw [Function.update_of_ne hki] at hholds
      exact hki (hholds.same_slot hcons hs ⟨hs.live, hk, hholds.1⟩).2
  · rw [stored_table_other hq hp] at hholds
    exact hfree hholds.1

include hcons hs hlq hj in
/-- The entry leaves only if the source's table names its own cluster. -/
theorem entryStored_source (hpq : p ≠ q) (h : MoveConserves fs (entryStored fs p q i j) p q i) :
    drivePlace p = drivePlace (homeOf fs p) := by
  have hdest := entryStored_dest hcons hs hj h
  by_contra hp
  obtain ⟨hj0, hun⟩ := firstUnused_some hj
  have hplace : drivePlace p ≠ drivePlace (homeOf fs q) := by
    rw [← hdest]
    exact drivePlace_ne (hcons.live_range hs.live).2 (hcons.live_range hlq).2 hpq
  have hentries := h.entries
  have hgained := usedEntries_update (fs.table q) hj0 (fs.table p i)
  rw [slotEntries_unused hun, slotEntries_used hs.used, add_zero] at hgained
  rw [Finset.sum_pair hpq, Finset.sum_pair hpq, stored_table_other hplace hp,
    stored_table_dest hdest, hgained, ← add_assoc] at hentries
  -- one entry more than before
  have hcard := congrArg Multiset.card hentries
  rw [Multiset.card_add, Multiset.card_singleton] at hcard
  omega

include hcons hs hlq hj in
/-- **With a free slot the entry is conserved exactly between two directories whose tables
    name their own clusters.** -/
theorem entryStored_conserves_iff :
    MoveConserves fs (entryStored fs p q i j) p q i ↔
      p ≠ q ∧ drivePlace p = drivePlace (homeOf fs p) ∧
        drivePlace q = drivePlace (homeOf fs q) := by
  constructor
  · intro h
    have hpq := entryStored_same hs hj h
    exact ⟨hpq, entryStored_source hcons hs hlq hj hpq h, entryStored_dest hcons hs hj h⟩
  · rintro ⟨hpq, hp, hq⟩
    obtain ⟨hj0, hun⟩ := firstUnused_some hj
    have hplace : drivePlace p ≠ drivePlace q :=
      drivePlace_ne (hcons.live_range hs.live).2 (hcons.live_range hlq).2 hpq
    have hsource : (entryStored fs p q i j).table p
        = Function.update (fs.table p) i FAT32DirectoryEntry.zero :=
      stored_table_source (hq ▸ hplace) hp
    have hdest : (entryStored fs p q i j).table q
        = Function.update (fs.table q) j (fs.table p i) := stored_table_dest hq
    constructor
    case entries =>
      have hlost := usedEntries_update (fs.table p) hs.slot FAT32DirectoryEntry.zero
      have hgained := usedEntries_update (fs.table q) hj0 (fs.table p i)
      rw [slotEntries_unused zero_not_used, add_zero] at hlost
      rw [slotEntries_unused hun, add_zero] at hgained
      rw [Finset.sum_pair hpq, Finset.sum_pair hpq, hsource, hdest, hgained, ← hlost]
      abel
    case arrived =>
      intro _
      refine ⟨j, hj0, hun, ?_, ?_⟩
      · intro k hk
        rw [hdest]
        by_cases hkj : k = j
        · rw [hkj, Function.update_self]
          exact iff_of_true (Holds.self hs) rfl
        · rw [Function.update_of_ne hkj]
          refine iff_of_false ?_ hkj
          intro hholds
          exact hpq (hholds.same_slot hcons hs ⟨hlq, hk, hholds.1⟩).1.symm
      · rintro d k (rfl | rfl) hsrc hdst
        · have hki : k ≠ i := fun h => hsrc (h ▸ rfl)
          rw [hsource, Function.update_of_ne hki]
        · have hkj : k ≠ j := fun h => hdst (h ▸ rfl)
          rw [hdest, Function.update_of_ne hkj]
    case stayed => exact fun hfull => absurd (hfull j hj0) hun
    case fat => rfl
    case clusters =>
      intro x hxp hxq
      exact stored_clusterAt_other (hq ▸ hxq) (hp ▸ hxp)

end Room

/-- **The move system call conserves entries between two directories that name their own
    clusters, or when it has nothing to store.** -/
theorem syscallMove_conserves_iff (hcons : FsConsistent fs) (hs : UsedSlot fs.table p i)
    (hlq : Live fs.table q) (hidx : srcIdx.toNat = i) :
    (∃ fs', syscallMove (fs.table p) (fs.table q) srcIdx fs = some fs' ∧
      MoveConserves fs fs' p q i) ↔
    ((∃ j, j ≠ 0 ∧ ¬ (fs.table q j).used) ∧ p ≠ q ∧
      drivePlace p = drivePlace (homeOf fs p) ∧ drivePlace q = drivePlace (homeOf fs q)) ∨
    ((∀ j, j ≠ 0 → (fs.table q j).used) ∧ StoresBack fs p q) := by
  cases hj : firstUnused (fs.table q) with
  | some j =>
      have hroom := exists_unused_iff.mp ⟨j, hj⟩
      have hnot : ¬ ∀ j, j ≠ 0 → (fs.table q j).used := fun hfull => by
        obtain ⟨k, hk, hun⟩ := hroom
        exact hun (hfull k hk)
      rw [syscallMove_stored_room hs.slot hidx hj]
      simp only [Option.some.injEq, exists_eq_left', entryStored_conserves_iff hcons hs hlq hj,
        hroom, hnot, true_and, false_and, or_false]
  | none =>
      have hfull := firstUnused_eq_none.mp hj
      have hnot : ¬ ∃ j, j ≠ 0 ∧ ¬ (fs.table q j).used := by
        rintro ⟨k, hk, hun⟩
        exact hun (hfull k hk)
      rw [syscallMove_stored_full hj]
      simp only [Option.some.injEq, exists_eq_left', storedBack_conserves_iff hfull, hnot,
        false_and, false_or]
      exact ⟨fun h => ⟨hfull, h⟩, fun h => h.2⟩

/-- The root and the one directory of a volume name their own clusters, and have room. -/
theorem madeDirectory_homes (name : List UInt8) :
    UsedSlot (madeDirectory name).table 2 1 ∧ Live (madeDirectory name).table 3 ∧
      homeOf (madeDirectory name) 2 = 2 ∧ homeOf (madeDirectory name) 3 = 3 ∧
      (∃ j, j ≠ 0 ∧ ¬ ((madeDirectory name).table 2 j).used) ∧
      ∃ j, j ≠ 0 ∧ ¬ ((madeDirectory name).table 3 j).used := by
  have hins := madeDirectory_inserted name
  obtain ⟨-, -, -, hattr, hcluster, -, hempty⟩ := madeDirectory_state name
  have hlive : Live (madeDirectory name).table 2 := Reach.root
  have hused : ((madeDirectory name).table 2 1).used := by
    rw [madeDirectory_entry]
    exact hins.used
  have hc : (3 : UInt32) ∈ freeCells (freshFileSystem blankDisk).fat :=
    mem_freeCells.mpr ⟨by decide, fresh_cell_free _ (by decide) (by decide)⟩
  have htable : (madeDirectory name).table 3
      = initDirectoryTable zeroTable (rootRequest name 0).name 3 :=
    directoryWritten_table (fresh_consistent _) Reach.root hc
  refine ⟨⟨hlive, by decide, hused⟩, Reach.child hlive ⟨by decide, hused, hattr, hcluster⟩, ?_,
    ?_, ⟨2, by decide, ?_⟩, ⟨1, by decide, hempty 1 (by decide)⟩⟩
  · rw [homeOf, show (madeDirectory name).table 2 0 = _
      from hins.self_kept (by decide) Reach.root]
    rfl
  · rw [homeOf, htable]
    exact (initDirectoryTable_self _ _ _).2.2.2
  · rw [show (madeDirectory name).table 2 = _ from hins.entry, Function.update_of_ne (by decide),
      fresh_slot _ (by decide)]
    exact zero_not_used

/-- Moving the entry into the directory it names conserves it. -/
theorem syscallMove_conserves_twoDirectories :
    ∃ fs', syscallMove ((madeDirectory [97]).table 2) ((madeDirectory [97]).table 3) 1
        (madeDirectory [97]) = some fs' ∧ MoveConserves (madeDirectory [97]) fs' 2 3 1 := by
  obtain ⟨hs, hlq, hp, hq, -, hroom⟩ := madeDirectory_homes [97]
  refine (syscallMove_conserves_iff (madeDirectory_state [97]).1 hs hlq rfl).mpr
    (Or.inl ⟨hroom, by decide, ?_, ?_⟩)
  · rw [hp]
  · rw [hq]

/-- Moving the entry inside its directory duplicates it. -/
theorem syscallMove_duplicates :
    FsConsistent (madeDirectory [97]) ∧ UsedSlot (madeDirectory [97]).table 2 1 ∧
      ¬ ∃ fs', syscallMove ((madeDirectory [97]).table 2) ((madeDirectory [97]).table 2) 1
        (madeDirectory [97]) = some fs' ∧ MoveConserves (madeDirectory [97]) fs' 2 2 1 := by
  obtain ⟨hs, -, -, -, hroom, -⟩ := madeDirectory_homes [97]
  obtain ⟨hcons, -⟩ := madeDirectory_state [97]
  refine ⟨hcons, hs, ?_⟩
  obtain ⟨j, hj⟩ := exists_unused_iff.mpr hroom
  rw [syscallMove_stored_room hs.slot rfl hj]
  rintro ⟨fs', hmove, h⟩
  obtain rfl := Option.some.inj hmove
  exact entryStored_same hs hj h rfl

end OsyVolume
