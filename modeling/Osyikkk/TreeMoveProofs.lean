import Osyikkk.FileMapProofs
import Osyikkk.MoveProofs
import Osyikkk.OwnershipProofs

/-!
# What a move does to the tree

Nothing is lost or duplicated when every directory and every entry that was reachable is
reachable by exactly one path afterwards, and the files have the same bytes (`KeptOnce`).
The move syscall does so exactly when the destination is another directory than the source
and is not the moved entry or below it (`entryMoved_keptOnce_iff`): in one directory the
entry is there twice, and a directory that is moved below itself is cut off.
-/

namespace OsyVolume

open OsyDisk OsyFat32 LinkedChain RootedForest

/-- The slots of the list, last one first, lead from the root to the used slot of `e`. -/
def EntryAt (tbl : Tables) : List (Fin directoryEntryCount) → FAT32DirectoryEntry → Prop
  | [], _ => False
  | i :: l, e => ∃ d, Path (dirEdge tbl) rootClusterNumber l d ∧ UsedSlot tbl d i ∧ tbl d i = e

/-- Every directory and every entry is reachable by exactly one path, and the files have the
    same bytes. -/
structure KeptOnce (fs fs' : FileSystem) : Prop where
  directory : ∀ {d}, Live fs.table d → ∃! l, Path (dirEdge fs'.table) rootClusterNumber l d
  entry : ∀ {l e}, EntryAt fs.table l e → ∃ l', EntryAt fs'.table l' e ∧
    ∀ {l'' e''}, EntryAt fs'.table l'' e'' → e''.cluster = e.cluster → l'' = l'
  bytes : ∀ {l e}, EntryAt fs.table l e → e.attr ≠ attrSubdirectory →
    chainBytes fs' e.cluster = chainBytes fs e.cluster

variable {tbl : Tables} {fat : FAT32FileAllocationTable} {fs fs' : FileSystem}
  {p q d : UInt32} {i j : Fin directoryEntryCount}

theorem EntryAt.slot {l : List (Fin directoryEntryCount)} {e : FAT32DirectoryEntry}
    (h : EntryAt tbl l e) : ∃ d i, UsedSlot tbl d i ∧ tbl d i = e := by
  cases l with
  | nil => exact h.elim
  | cons i l =>
      obtain ⟨d, -, hs, he⟩ := h
      exact ⟨d, i, hs, he⟩

theorem UsedSlot.entryAt (hs : UsedSlot tbl d i) : ∃ l, EntryAt tbl l (tbl d i) := by
  obtain ⟨l, hl⟩ := path_of_reach hs.live
  exact ⟨i :: l, d, hl, hs, rfl⟩

/-- On a consistent volume entries with one first cluster are one entry, on one path. -/
theorem Consistent.entryAt_unique (hcons : Consistent tbl fat)
    {l l' : List (Fin directoryEntryCount)} {e e' : FAT32DirectoryEntry} (h : EntryAt tbl l e)
    (h' : EntryAt tbl l' e') (hc : e'.cluster = e.cluster) : l' = l := by
  cases l with
  | nil => exact h.elim
  | cons i l =>
      cases l' with
      | nil => exact h'.elim
      | cons i' l' =>
          obtain ⟨d, hl, hs, rfl⟩ := h
          obtain ⟨d', hl', hs', rfl⟩ := h'
          obtain ⟨chain, hchain, hne, -⟩ := hcons.chain hs
          have hmem := chain_start_mem hchain hne
          have hchain' : FatChain fat (tbl d' i').cluster chain := by
            rw [hc]
            exact hchain
          obtain ⟨rfl, rfl⟩ := hcons.disjoint hs' hs hchain' hchain hmem hmem
          rw [path_unique hcons.uniqueParent hl' hl]

/-- A step to a consistent volume that keeps the live directories, the entries and the files
    keeps everything once. -/
theorem keptOnce_of_kept (hcons : FsConsistent fs')
    (hlive : ∀ d, Live fs.table d → Live fs'.table d)
    (hkept : ∀ d i, UsedSlot fs.table d i →
      ∃ d' i', UsedSlot fs'.table d' i' ∧ fs'.table d' i' = fs.table d i)
    (hbytes : ∀ d i, UsedSlot fs.table d i → (fs.table d i).attr ≠ attrSubdirectory →
      chainBytes fs' (fs.table d i).cluster = chainBytes fs (fs.table d i).cluster) :
    KeptOnce fs fs' where
  directory hd := by
    obtain ⟨l, hl⟩ := path_of_reach (hlive _ hd)
    exact ⟨l, hl, fun l' hl' => path_unique hcons.uniqueParent hl' hl⟩
  entry h := by
    obtain ⟨d, i, hs, rfl⟩ := h.slot
    obtain ⟨d', i', hs', he⟩ := hkept d i hs
    obtain ⟨l', hl'⟩ := hs'.entryAt
    rw [he] at hl'
    exact ⟨l', hl', fun h'' hc => hcons.entryAt_unique hl' h'' hc⟩
  bytes h hattr := by
    obtain ⟨d, i, hs, rfl⟩ := h.slot
    exact hbytes d i hs hattr

theorem keptOnce_refl (hcons : FsConsistent fs) : KeptOnce fs fs :=
  keptOnce_of_kept hcons (fun _ hd => hd) (fun d i hs => ⟨d, i, hs, rfl⟩) fun _ _ _ _ => rfl

section Syscall

variable (hcons : FsConsistent fs) (hs : UsedSlot fs.table p i)
include hcons hs

/-- The move writes to no cluster of a file. -/
theorem entryMoved_bytes (hlq : Live fs.table q) {k : Fin directoryEntryCount}
    (hfile : UsedSlot fs.table d k) (hattr : (fs.table d k).attr ≠ attrSubdirectory) :
    chainBytes (entryMoved fs p q i j) (fs.table d k).cluster
      = chainBytes fs (fs.table d k).cluster := by
  obtain ⟨l, hl, -⟩ := hcons.chain hfile
  have hplace : ∀ c ∈ l, ∀ x, Live fs.table x → drivePlace c ≠ drivePlace x := by
    intro c hc x hx
    refine drivePlace_ne (fatChain_lt hl hc) (hcons.live_range hx).2 ?_
    rintro rfl
    exact hattr (hcons.live_mem_chain hx hfile hl hc).2.2.1
  have hbytes : ∀ c ∈ l,
      clusterBytes (entryMoved fs p q i j).disk c = clusterBytes fs.disk c := by
    intro c hc
    rw [clusterBytes, clusterBytes,
      entryMoved_clusterAt (hplace c hc p hs.live) (hplace c hc q hlq)]
  have hl' : FatChain (entryMoved fs p q i j).fat (fs.table d k).cluster l := hl
  rw [chainBytes_eq hl, chainBytes_eq hl']
  exact List.flatMap_congr hbytes

/-- A move into another directory that is not below the entry keeps everything once. -/
theorem entryMoved_keptOnce (hlq : Live fs.table q) (hpq : p ≠ q) (hj : j ≠ 0)
    (hfree : ¬ (fs.table q j).used) (hbelow : ¬ Below fs.table p i q) :
    KeptOnce fs (entryMoved fs p q i j) := by
  have hmoved := entryMoved_moved hcons hs hlq hpq hj hfree
  refine keptOnce_of_kept (hmoved.consistent hcons hbelow)
    (fun d hd => (hmoved.live_iff hbelow d).mpr hd) (fun d k hk => hmoved.kept hbelow hk) ?_
  exact fun d k hk hattr => entryMoved_bytes hcons hs hlq hk hattr

omit hcons in
/-- Within one directory the entry is in two slots afterwards. -/
theorem entryMoved_same_twice (hj : j ≠ 0) (hfree : ¬ (fs.table p j).used) :
    ¬ KeptOnce fs (entryMoved fs p p i j) := by
  intro h
  have hij : i ≠ j := by
    rintro rfl
    exact hfree hs.used
  obtain ⟨l, hl, -⟩ := h.directory hs.live
  have hslot : ∀ k, k = i ∨ k = j → EntryAt (entryMoved fs p p i j).table (k :: l)
      (fs.table p i) := by
    intro k hk
    have hk0 : k ≠ 0 := by
      rcases hk with rfl | rfl
      · exact hs.slot
      · exact hj
    have hentry : (entryMoved fs p p i j).table p k = fs.table p i := by
      rw [entryMoved_same]
      rcases hk with rfl | rfl
      · exact Function.update_of_ne hij _ _
      · exact Function.update_self _ _ _
    exact ⟨p, hl, ⟨reach_of_path hl, hk0, hentry ▸ hs.used⟩, hentry⟩
  obtain ⟨l₀, hl₀⟩ := hs.entryAt
  obtain ⟨l', -, huniq⟩ := h.entry hl₀
  have hi := huniq (hslot i (Or.inl rfl)) rfl
  have hj := huniq (hslot j (Or.inr rfl)) rfl
  exact hij (List.cons.inj (hi.trans hj.symm)).1

/-- A directory that is moved to itself or below itself is not reachable afterwards. -/
theorem entryMoved_below_lost (hlq : Live fs.table q) (hpq : p ≠ q) (hj : j ≠ 0)
    (hfree : ¬ (fs.table q j).used) (hbelow : Below fs.table p i q) :
    ¬ KeptOnce fs (entryMoved fs p q i j) := by
  intro h
  obtain ⟨x, hx, hxq⟩ := hbelow
  obtain ⟨l, hl, -⟩ := h.directory (Reach.child hs.live hx)
  have hmoved := entryMoved_moved hcons hs hlq hpq hj hfree
  have hlost := reach_reparent_below hcons.uniqueParent hs.live hx (hmoved.reparented hx) hxq
    (reach_of_path hl)
  exact hlost.2 Reach.root

/-- **The move syscall on the tree.** -/
theorem entryMoved_keptOnce_iff (hlq : Live fs.table q) (hj : j ≠ 0)
    (hfree : ¬ (fs.table q j).used) :
    KeptOnce fs (entryMoved fs p q i j) ↔ p ≠ q ∧ ¬ Below fs.table p i q := by
  constructor
  · intro h
    have hpq : p ≠ q := by
      rintro rfl
      exact entryMoved_same_twice hs hj hfree h
    exact ⟨hpq, fun hbelow => entryMoved_below_lost hcons hs hlq hpq hj hfree hbelow h⟩
  · rintro ⟨hpq, hbelow⟩
    exact entryMoved_keptOnce hcons hs hlq hpq hj hfree hbelow

end Syscall

end OsyVolume
