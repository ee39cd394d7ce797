import Osyikkk.FileMapProofs
import Osyikkk.NodeStore
import Osyikkk.NameProofs
import Osyikkk.OwnershipProofs

/-!
# A volume as a store of files and directories

A volume represents a store when the used slots of its live directories are the store's
entries: the cluster of a directory is its identity, name and extension are the key, the
bytes of the chain are the contents (`Represents`). The three edits of a volume are changes
of the store at one key or two.
-/

namespace OsyVolume

open OsyDisk OsyFat32 LinkedChain RootedForest NodeStore

/-- A name and an extension. -/
abbrev FullName := EntryName × EntryExt

/-- The store of a volume. -/
abbrev VolumeStore := Store UInt32 FullName (List UInt8)

abbrev VolumeNode := StoreNode UInt32 (List UInt8)

/-- Files take whole clusters. -/
def clusterUnits (b : List UInt8) : ℕ := b.length / clusterSize

def fullName (e : FAT32DirectoryEntry) : FullName := (e.name, e.ext)

/-- What an entry leads to. -/
def NodeOf (fs : FileSystem) (e : FAT32DirectoryEntry) : VolumeNode → Prop
  | .file b => e.attr = attrArchive ∧
      ∃ l, FatChain fs.fat e.cluster l ∧ b = l.flatMap (clusterBytes fs.disk)
  | .directory x => e.attr = attrSubdirectory ∧ e.cluster = x

/-- The used slots are the entries of the store, the free cells its space. -/
structure Represents (fs : FileSystem) (s : VolumeStore) : Prop where
  entry : ∀ d k n, s.entry (d, k) = some n ↔
    ∃ i, UsedSlot fs.table d i ∧ fullName (fs.table d i) = k ∧ NodeOf fs (fs.table d i) n
  free : s.free = (freeCells fs.fat).length

variable {fs fs' : FileSystem} {s : VolumeStore} {e : FAT32DirectoryEntry}
  {d p q x : UInt32} {i j : Fin directoryEntryCount} {k : FullName} {m n : VolumeNode}
  {l : List UInt32} {b : List UInt8} {free : ℕ}

/-! ## Entries and nodes -/

theorem NodeOf.unique (h : NodeOf fs e n) (h' : NodeOf fs e m) : n = m := by
  cases n with
  | file b =>
      obtain ⟨ha, l, hl, rfl⟩ := h
      cases m with
      | file b' =>
          obtain ⟨-, l', hl', rfl⟩ := h'
          rw [chain_unique hl hl']
      | directory x => exact absurd (ha.symm.trans h'.1) (by decide)
  | directory x =>
      obtain ⟨hd, rfl⟩ := h
      cases m with
      | file b' => exact absurd (hd.symm.trans h'.1) (by decide)
      | directory y =>
          obtain ⟨-, rfl⟩ := h'
          rfl

/-- A directory's node is an edge of the tree. -/
theorem nodeOf_directory_iff (hs : UsedSlot fs.table d i) :
    NodeOf fs (fs.table d i) (.directory x) ↔ dirEdge fs.table d i x :=
  ⟨fun h => ⟨hs.slot, hs.used, h⟩, fun h => h.2.2⟩

/-- Every used slot leads to something. -/
theorem exists_nodeOf (hown : Owned fs.table fs.fat) (hs : UsedSlot fs.table d i) :
    ∃ n, NodeOf fs (fs.table d i) n := by
  rcases hown.kind hs with hd | ha
  · exact ⟨.directory (fs.table d i).cluster, hd, rfl⟩
  · obtain ⟨l, hl, -, -⟩ := hown.consistent.chain hs
    exact ⟨.file (l.flatMap (clusterBytes fs.disk)), ha, l, hl, rfl⟩

/-- A chain that is kept with its clusters keeps the node. -/
theorem nodeOf_congr (hchain : e.attr = attrArchive → ∃ l, FatChain fs.fat e.cluster l ∧
      FatChain fs'.fat e.cluster l ∧ ∀ c ∈ l, clusterAt fs'.disk c = clusterAt fs.disk c) :
    NodeOf fs' e m ↔ NodeOf fs e m := by
  cases m with
  | directory x => exact Iff.rfl
  | file b =>
      refine and_congr_right ?_
      intro ha
      obtain ⟨l, hl, hl', hdisk⟩ := hchain ha
      have hbytes : l.flatMap (clusterBytes fs'.disk) = l.flatMap (clusterBytes fs.disk) := by
        refine List.flatMap_congr ?_
        intro c hc
        rw [clusterBytes, clusterBytes, hdisk c hc]
      constructor
      · rintro ⟨l', hl'', rfl⟩
        rw [chain_unique hl'' hl']
        exact ⟨l, hl, hbytes⟩
      · rintro ⟨l', hl'', rfl⟩
        rw [chain_unique hl'' hl]
        exact ⟨l, hl', hbytes.symm⟩

theorem Represents.used_iff (h : Represents fs s) (hown : Owned fs.table fs.fat) :
    (∃ i, UsedSlot fs.table d i ∧ fullName (fs.table d i) = k) ↔ s.entry (d, k) ≠ none := by
  constructor
  · rintro ⟨i, hs, hk⟩ hnone
    obtain ⟨n, hn⟩ := exists_nodeOf hown hs
    rw [(h.entry d k n).mpr ⟨i, hs, hk, hn⟩] at hnone
    cases hnone
  · intro hne
    obtain ⟨n, hn⟩ := Option.ne_none_iff_exists'.mp hne
    obtain ⟨i, hs, hk, -⟩ := (h.entry d k n).mp hn
    exact ⟨i, hs, hk⟩

theorem Represents.absent (h : Represents fs s) (hown : Owned fs.table fs.fat)
    (hno : ∀ i, UsedSlot fs.table d i → fullName (fs.table d i) ≠ k) :
    s.entry (d, k) = none := by
  by_contra hne
  obtain ⟨i, hs, hk⟩ := (h.used_iff hown).mpr hne
  exact hno i hs hk

/-- A slot is what its key leads to. -/
theorem Represents.present (h : Represents fs s) (hs : UsedSlot fs.table d i)
    (hn : NodeOf fs (fs.table d i) n) : s.entry (d, fullName (fs.table d i)) = some n :=
  (h.entry _ _ _).mpr ⟨i, hs, rfl, hn⟩

/-! ## Free cells -/

/-- Cells that were claimed or freed are the difference of the counts. -/
theorem freeCells_length {fat fat' : FAT32FileAllocationTable} (hnodup : l.Nodup)
    (hl : ∀ c ∈ l, c ∈ freeCells fat ∧ c ∉ freeCells fat')
    (hother : ∀ c, c ∉ l → (c ∈ freeCells fat ↔ c ∈ freeCells fat')) :
    (freeCells fat).length = (freeCells fat').length + l.length := by
  have hperm : (freeCells fat).Perm (l ++ freeCells fat') := by
    refine (List.perm_ext_iff_of_nodup (freeCells_nodup fat) ?_).mpr ?_
    · refine hnodup.append (freeCells_nodup fat') ?_
      intro c hc hc'
      exact (hl c hc).2 hc'
    · intro c
      rw [List.mem_append]
      by_cases hc : c ∈ l
      · exact iff_of_true (hl c hc).1 (Or.inl hc)
      · rw [hother c hc]
        exact ⟨Or.inr, fun h => h.resolve_left hc⟩
  rw [hperm.length_eq, List.length_append, Nat.add_comm]

theorem freeCells_congr_of_cell {fat fat' : FAT32FileAllocationTable} {c : UInt32}
    (h : clusterMapGet fat' c = clusterMapGet fat c) :
    c ∈ freeCells fat ↔ c ∈ freeCells fat' := by
  rw [mem_freeCells, mem_freeCells, h]

/-! ## The edits -/

/-- An entry under a new key is a new entry of the store. -/
theorem Represents.inserted (h : Represents fs s) (hown : Owned fs.table fs.fat)
    (hins : Inserted fs.table fs'.table fs.fat fs'.fat p i e l) (hi : i ≠ 0)
    (hnode : NodeOf fs' e n) (hfresh : s.entry (p, fullName e) = none)
    (hkeep : ∀ d j m, UsedSlot fs.table d j →
      (NodeOf fs' (fs.table d j) m ↔ NodeOf fs (fs.table d j) m))
    (hfree : free = (freeCells fs'.fat).length) :
    Represents fs' (s.set (p, fullName e) (some n) free) where
  free := hfree
  entry := by
    intro d k m
    have hnew : fs'.table p i = e := by rw [hins.entry, Function.update_self]
    have hslot : UsedSlot fs'.table p i :=
      ⟨(hins.live_iff p).mpr (Or.inl hins.live), hi, hnew.symm ▸ hins.used⟩
    by_cases hkey : (d, k) = (p, fullName e)
    · obtain ⟨rfl, rfl⟩ := Prod.mk.inj hkey
      rw [set_entry_self, Option.some.injEq]
      constructor
      · rintro rfl
        exact ⟨i, hslot, by rw [hnew], by rw [hnew]; exact hnode⟩
      · rintro ⟨j, hs, hj, hm⟩
        rcases hins.usedSlot hs with ⟨-, -, -, heq⟩ | ⟨hold, -, heq⟩
        · rw [heq] at hm
          exact hnode.unique hm
        · rw [heq] at hj
          exact absurd hfresh ((h.used_iff hown).mp ⟨j, hold, hj⟩)
    · rw [set_entry_of_ne _ _ _ hkey, h.entry]
      constructor
      · rintro ⟨j, hs, hj, hm⟩
        have heq := hins.entry_kept hs
        refine ⟨j, ⟨(hins.live_iff d).mpr (Or.inl hs.live), hs.slot, heq.symm ▸ hs.used⟩, ?_⟩
        rw [heq]
        exact ⟨hj, (hkeep d j m hs).mpr hm⟩
      · rintro ⟨j, hs, hj, hm⟩
        rcases hins.usedSlot hs with ⟨rfl, rfl, -, heq⟩ | ⟨hold, -, heq⟩
        · rw [heq] at hj
          exact absurd (by rw [hj]) hkey
        · rw [heq] at hj hm
          exact ⟨j, hold, hj, (hkeep d j m hold).mp hm⟩

/-- A cleared slot is a key without an entry. -/
theorem Represents.removed (h : Represents fs s) (hown : Owned fs.table fs.fat)
    (hunique : UniqueNames fs.table)
    (hrem : Removed fs.table fs'.table fs.fat fs'.fat p i l)
    (hkeep : ∀ d j m, UsedSlot fs.table d j → (d, j) ≠ (p, i) →
      (NodeOf fs' (fs.table d j) m ↔ NodeOf fs (fs.table d j) m))
    (hfree : free = (freeCells fs'.fat).length) :
    Represents fs' (s.set (p, fullName (fs.table p i)) none free) where
  free := hfree
  entry := by
    intro d k m
    have hcons := hown.consistent
    by_cases hkey : (d, k) = (p, fullName (fs.table p i))
    · obtain ⟨rfl, rfl⟩ := Prod.mk.inj hkey
      rw [set_entry_self]
      refine iff_of_false (Option.some_ne_none m).symm ?_
      rintro ⟨j, hs, hj, -⟩
      obtain ⟨hold, hne⟩ := (hrem.usedSlot_iff hcons).mp hs
      rw [hrem.entry_kept hcons hs] at hj
      obtain ⟨hname, hext⟩ := Prod.mk.inj hj
      exact hne ⟨rfl, hunique hold hrem.slot hname hext⟩
    · rw [set_entry_of_ne _ _ _ hkey, h.entry]
      constructor
      · rintro ⟨j, hs, hj, hm⟩
        have hne : (d, j) ≠ (p, i) := by
          intro heq
          obtain ⟨rfl, rfl⟩ := Prod.mk.inj heq
          exact hkey (by rw [hj])
        have hs' : UsedSlot fs'.table d j :=
          (hrem.usedSlot_iff hcons).mpr ⟨hs, fun hdj => hne (Prod.ext hdj.1 hdj.2)⟩
        refine ⟨j, hs', ?_⟩
        rw [hrem.entry_kept hcons hs']
        exact ⟨hj, (hkeep d j m hs hne).mpr hm⟩
      · rintro ⟨j, hs, hj, hm⟩
        obtain ⟨hold, hne⟩ := (hrem.usedSlot_iff hcons).mp hs
        rw [hrem.entry_kept hcons hs] at hj hm
        exact ⟨j, hold, hj,
          (hkeep d j m hold fun heq => hne (Prod.mk.inj heq)).mp hm⟩

/-- Where the entries are after a move. -/
theorem Moved.usedSlot_iff {tbl tbl' : Tables} (h : Moved tbl tbl' p q i j)
    (hbelow : ¬ Below tbl p i q) {y : Fin directoryEntryCount} :
    UsedSlot tbl' d y ↔
      (d = q ∧ y = j) ∨ (UsedSlot tbl d y ∧ ¬ (d = p ∧ y = i) ∧ ¬ (d = q ∧ y = j)) := by
  have hlive := h.live_iff hbelow
  constructor
  · intro hs
    have hd := (hlive d).mp hs.live
    rcases h.table hd y with ⟨-, -, ht⟩ | ⟨hdq, hyj, -⟩ | ⟨hp, hq, ht⟩
    · exact absurd (ht ▸ hs.used) zero_not_used
    · exact Or.inl ⟨hdq, hyj⟩
    · exact Or.inr ⟨⟨hd, hs.slot, ht ▸ hs.used⟩, hp, hq⟩
  · rintro (⟨rfl, rfl⟩ | ⟨hs, hp, hq⟩)
    · have ht : tbl' d y = tbl p i := by rw [h.dest, Function.update_self]
      exact ⟨(hlive d).mpr h.live, h.target, ht.symm ▸ h.slot.used⟩
    · rcases h.table hs.live y with ⟨hdp, hyi, -⟩ | ⟨hdq, hyj, -⟩ | ⟨-, -, ht⟩
      · exact absurd ⟨hdp, hyi⟩ hp
      · exact absurd ⟨hdq, hyj⟩ hq
      · exact ⟨(hlive d).mpr hs.live, hs.slot, ht.symm ▸ hs.used⟩

/-- An entry that goes to another directory goes there under its key. -/
theorem Represents.moved (h : Represents fs s) (hunique : UniqueNames fs.table)
    (hmove : Moved fs.table fs'.table p q i j) (hbelow : ¬ Below fs.table p i q)
    (hn : NodeOf fs (fs.table p i) n)
    (hfresh : s.entry (q, fullName (fs.table p i)) = none)
    (hkeep : ∀ d j m, UsedSlot fs.table d j →
      (NodeOf fs' (fs.table d j) m ↔ NodeOf fs (fs.table d j) m))
    (hfree : free = (freeCells fs'.fat).length) :
    Represents fs' ((s.set (p, fullName (fs.table p i)) none free).set
      (q, fullName (fs.table p i)) (some n) free) where
  free := hfree
  entry := by
    intro d k m
    have hdest : fs'.table q j = fs.table p i := by rw [hmove.dest, Function.update_self]
    have hsame : ∀ {d y}, UsedSlot fs.table d y → ¬ (d = p ∧ y = i) → ¬ (d = q ∧ y = j) →
        fs'.table d y = fs.table d y := by
      intro d y hs hp hq
      rcases hmove.table hs.live y with ⟨hdp, hyi, -⟩ | ⟨hdq, hyj, -⟩ | ⟨-, -, ht⟩
      · exact absurd ⟨hdp, hyi⟩ hp
      · exact absurd ⟨hdq, hyj⟩ hq
      · exact ht
    -- the slots afterwards are the target and the old ones without the source
    have hslots : (∃ y, UsedSlot fs'.table d y ∧ fullName (fs'.table d y) = k ∧
          NodeOf fs' (fs'.table d y) m) ↔
        ((d = q ∧ fullName (fs.table p i) = k ∧ n = m) ∨
          ∃ y, UsedSlot fs.table d y ∧ ¬ (d = p ∧ y = i) ∧ fullName (fs.table d y) = k ∧
            NodeOf fs (fs.table d y) m) := by
      constructor
      · rintro ⟨y, hs, hy, hm⟩
        rcases (hmove.usedSlot_iff hbelow).mp hs with ⟨rfl, rfl⟩ | ⟨hold, hp, hq⟩
        · rw [hdest] at hy hm
          exact Or.inl ⟨rfl, hy, hn.unique ((hkeep p i m hmove.slot).mp hm)⟩
        · rw [hsame hold hp hq] at hy hm
          exact Or.inr ⟨y, hold, hp, hy, (hkeep d y m hold).mp hm⟩
      · rintro (⟨rfl, hk, rfl⟩ | ⟨y, hold, hp, hy, hm⟩)
        · refine ⟨j, (hmove.usedSlot_iff hbelow).mpr (Or.inl ⟨rfl, rfl⟩), ?_⟩
          rw [hdest]
          exact ⟨hk, (hkeep p i n hmove.slot).mpr hn⟩
        · have hq : ¬ (d = q ∧ y = j) := by
            rintro ⟨rfl, rfl⟩
            exact hmove.free hold.used
          refine ⟨y, (hmove.usedSlot_iff hbelow).mpr (Or.inr ⟨hold, hp, hq⟩), ?_⟩
          rw [hsame hold hp hq]
          exact ⟨hy, (hkeep d y m hold).mpr hm⟩
    rw [hslots]
    by_cases hq : (d, k) = (q, fullName (fs.table p i))
    · obtain ⟨rfl, rfl⟩ := Prod.mk.inj hq
      rw [set_entry_self, Option.some.injEq]
      constructor
      · exact fun heq => Or.inl ⟨rfl, rfl, heq⟩
      · rintro (⟨-, -, heq⟩ | ⟨y, hold, -, hy, hm⟩)
        · exact heq
        · rw [(h.entry _ _ m).mpr ⟨y, hold, hy, hm⟩] at hfresh
          cases hfresh
    · have hnotq : ¬ (d = q ∧ fullName (fs.table p i) = k ∧ n = m) := by
        rintro ⟨rfl, rfl, -⟩
        exact hq rfl
      rw [set_entry_of_ne _ _ _ hq, or_iff_right hnotq]
      by_cases hp : (d, k) = (p, fullName (fs.table p i))
      · obtain ⟨rfl, rfl⟩ := Prod.mk.inj hp
        rw [set_entry_self]
        refine iff_of_false (Option.some_ne_none m).symm ?_
        rintro ⟨y, hold, hy, hk, -⟩
        obtain ⟨hname, hext⟩ := Prod.mk.inj hk
        exact hy ⟨rfl, hunique hold hmove.slot hname hext⟩
      · rw [set_entry_of_ne _ _ _ hp, h.entry]
        constructor
        · rintro ⟨y, hs, hy, hm⟩
          refine ⟨y, hs, ?_, hy, hm⟩
          rintro ⟨rfl, rfl⟩
          exact hp (by rw [hy])
        · rintro ⟨y, hs, -, hy, hm⟩
          exact ⟨y, hs, hy, hm⟩

end OsyVolume
