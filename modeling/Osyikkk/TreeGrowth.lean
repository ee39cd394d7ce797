import Osyikkk.FileMapProofs
import Osyikkk.NewDirectoryProofs
import Mathlib.Order.Interval.Finset.Nat

/-!
# Trees of files in a growing volume

`subtree` reads what a directory holds as a tree: of a file its name, extension, size and
bytes, of a directory its name, extension and what it holds in turn. `Grown` says that all
that happened to a volume is that entries were added to one directory and to directories
that were not there before. A tree that the directory is not part of stays as it was
(`Grown.subtree_kept`), and an entry that goes to the first unused slot of a directory
without gaps is listed behind the others (`Grown.subtree_extended`).
-/

namespace OsyVolume

open OsyDisk OsyFat32 LinkedChain RootedForest

/-! ## Trees -/

/-- A file, or a directory and what it holds. -/
inductive Node where
  | file (name : EntryName) (ext : EntryExt) (filesize : UInt32) (bytes : List UInt8)
  | directory (name : EntryName) (ext : EntryExt) (below : List Node)

/-- The used slots `1..63`. -/
def usedSlots (t : FAT32DirectoryTable) : List (Fin directoryEntryCount) :=
  (slotsFrom 1).filter fun i => (t i).used

/-- What an entry stands for, when `below` tells what a directory holds. -/
noncomputable def nodeOf (fs : FileSystem) (below : UInt32 → List Node)
    (e : FAT32DirectoryEntry) : Node :=
  if e.attr = attrSubdirectory then .directory e.name e.ext (below e.cluster)
  else .file e.name e.ext e.filesize (chainBytes fs e.cluster)

/-- What the directory at a cluster holds, down to the given depth. -/
noncomputable def subtree (fs : FileSystem) : ℕ → UInt32 → List Node
  | 0, _ => []
  | n + 1, c => (usedSlots (fs.table c)).map fun i => nodeOf fs (subtree fs n) (fs.table c i)

variable {fs fs' fs'' : FileSystem} {t : FAT32DirectoryTable} {c p q r x : UInt32}
  {e : FAT32DirectoryEntry} {i j : Fin directoryEntryCount}

theorem mem_usedSlots : i ∈ usedSlots t ↔ i ≠ 0 ∧ (t i).used := by
  rw [usedSlots, List.mem_filter, mem_slotsFrom_one, decide_eq_true_eq]

theorem usedSlots_ordered (t : FAT32DirectoryTable) : (usedSlots t).Pairwise (· < ·) :=
  (slotsFrom_ordered 1).filter _

/-- Entries that stand for the same, when one is a directory. -/
theorem directory_of_nodeOf {below below' : UInt32 → List Node} {e' : FAT32DirectoryEntry}
    (h : nodeOf fs below e = nodeOf fs' below' e') (ha : e.attr = attrSubdirectory) :
    e'.attr = attrSubdirectory ∧ e'.name = e.name ∧ e'.ext = e.ext ∧
      below e.cluster = below' e'.cluster := by
  rw [nodeOf, if_pos ha] at h
  by_cases ha' : e'.attr = attrSubdirectory
  · rw [nodeOf, if_pos ha'] at h
    obtain ⟨hname, hext, hbelow⟩ := Node.directory.inj h
    exact ⟨ha', hname.symm, hext.symm, hbelow⟩
  · rw [nodeOf, if_neg ha'] at h
    exact absurd h Node.noConfusion

theorem length_subtree (fs : FileSystem) (n : ℕ) (c : UInt32) :
    (subtree fs (n + 1) c).length = (usedSlots (fs.table c)).length := by
  rw [subtree, List.length_map]

/-! ## Growth -/

/-- Entries were added to directory `p` and to directories that were not there before;
    what was in use is as it was. -/
structure Grown (p : UInt32) (fs fs' : FileSystem) : Prop where
  wellFormed : WellFormed fs'
  live : ∀ {q}, Live fs.table q → Live fs'.table q
  others : ∀ {q}, Live fs.table q → q ≠ p → fs'.table q = fs.table q
  slots : ∀ {q i}, UsedSlot fs.table q i → fs'.table q i = fs.table q i
  self : ∀ {q}, Live fs.table q → fs'.table q 0 = fs.table q 0
  chains : ∀ {q i l}, UsedSlot fs.table q i → FatChain fs.fat (fs.table q i).cluster l →
    FatChain fs'.fat (fs.table q i).cluster l
  bytes : ∀ {q i l}, UsedSlot fs.table q i → (fs.table q i).attr ≠ attrSubdirectory →
    FatChain fs.fat (fs.table q i).cluster l →
      ∀ c ∈ l, clusterAt fs'.disk c = clusterAt fs.disk c

theorem Grown.refl (p : UInt32) (h : WellFormed fs) : Grown p fs fs where
  wellFormed := h
  live hq := hq
  others _ _ := rfl
  slots _ := rfl
  self _ := rfl
  chains _ hl := hl
  bytes _ _ _ _ _ := rfl

theorem Grown.usedSlot (h : Grown p fs fs') (hs : UsedSlot fs.table q i) :
    UsedSlot fs'.table q i :=
  ⟨h.live hs.live, hs.slot, h.slots hs ▸ hs.used⟩

/-- Growing on in the same directory, or in one that was not there. -/
theorem Grown.trans (h : Grown p fs fs') (h' : Grown r fs' fs'')
    (hr : r = p ∨ ¬ Live fs.table r) : Grown p fs fs'' := by
  have hne : ∀ {q}, Live fs.table q → q ≠ p → q ≠ r := by
    rintro q hq hqp rfl
    rcases hr with rfl | hr
    · exact hqp rfl
    · exact hr hq
  constructor
  case wellFormed => exact h'.wellFormed
  case live => exact fun hq => h'.live (h.live hq)
  case others =>
    intro q hq hqp
    rw [h'.others (h.live hq) (hne hq hqp), h.others hq hqp]
  case slots =>
    intro q i hs
    rw [h'.slots (h.usedSlot hs), h.slots hs]
  case self =>
    intro q hq
    rw [h'.self (h.live hq), h.self hq]
  case chains =>
    intro q i l hs hl
    have hl' := h'.chains (l := l) (h.usedSlot hs)
    rw [h.slots hs] at hl'
    exact hl' (h.chains hs hl)
  case bytes =>
    intro q i l hs ha hl c hc
    have hb := h'.bytes (l := l) (h.usedSlot hs)
    rw [h.slots hs] at hb
    rw [hb ha (h.chains hs hl) c hc, h.bytes hs ha hl c hc]

/-- A write to a slot `1..63` of a live directory is growth there. -/
theorem Placed.grown {request : FAT32DriverRequest} {l : List UInt32} (hwf : WellFormed fs)
    (h : Placed request fs fs' e l)
    (hins : Inserted fs.table fs'.table fs.fat fs'.fat request.parentClusterNumber
      (writeSlot request fs) e l) (h0 : writeSlot request fs ≠ 0) :
    Grown request.parentClusterNumber fs fs' := by
  have hcons := hwf.consistent
  constructor
  case wellFormed => exact ⟨h.image, hins.consistent hcons⟩
  case live => exact fun hq => (hins.live_iff _).mpr (Or.inl hq)
  case others => exact fun hq hne => hins.others _ hq hne
  case slots => exact fun hs => hins.entry_kept hs
  case self => exact fun hq => hins.self_kept h0 hq
  case chains => exact fun hs hl => hins.chain_kept hcons hs hl
  case bytes =>
    intro q i l' hs ha hl c hc
    obtain ⟨l₀, hl₀, -, h3⟩ := hcons.chain hs
    obtain rfl := chain_unique hl hl₀
    have hlt := fatChain_lt hl hc
    refine h.clusters c (drivePlace_ne hlt (hcons.live_range hins.live).2 ?_)
      (place_ne_fatCluster (Nat.le_of_succ_le (h3 c hc)) hlt) ?_
    · -- a file's cluster is no directory
      rintro rfl
      exact ha (hcons.live_mem_chain hins.live hs hl hc).2.2.1
    · intro f hf
      have hfree := h.fresh f hf
      refine drivePlace_ne hlt (clusterMapGet_lt hfree) ?_
      rintro rfl
      exact hcons.owned_ne_free hs hl hc hfree

/-! ## What is kept -/

theorem Grown.chainBytes_kept (hcons : FsConsistent fs) (h : Grown p fs fs')
    (hs : UsedSlot fs.table q i) (ha : (fs.table q i).attr ≠ attrSubdirectory) :
    chainBytes fs' (fs.table q i).cluster = chainBytes fs (fs.table q i).cluster := by
  obtain ⟨l, hl, -⟩ := hcons.chain hs
  rw [chainBytes_eq hl, chainBytes_eq (h.chains hs hl)]
  refine List.flatMap_congr ?_
  intro c hc
  rw [clusterBytes, clusterBytes, h.bytes hs ha hl c hc]

/-- The directories below one that `p` is not below. -/
theorem Grown.table_kept (h : Grown p fs fs') (hx : Live fs.table x)
    (hp : ¬ Reach (dirEdge fs.table) x p) (hq : Reach (dirEdge fs.table) x q) :
    fs'.table q = fs.table q := by
  refine h.others (reach_trans hx hq) ?_
  rintro rfl
  exact hp hq

theorem Grown.reach_kept (h : Grown p fs fs') (hx : Live fs.table x)
    (hp : ¬ Reach (dirEdge fs.table) x p) (q : UInt32) :
    Reach (dirEdge fs'.table) x q ↔ Reach (dirEdge fs.table) x q := by
  refine (reach_congr ?_ q).symm
  intro d i c hd
  simp only [dirEdge, h.table_kept hx hp hd]

/-- A slot stands for what it stood for, when the directory it may name holds the same. -/
theorem Grown.nodeOf_kept (hcons : FsConsistent fs) (h : Grown p fs fs')
    (hs : UsedSlot fs.table q i) {n : ℕ}
    (hsub : ∀ c, dirEdge fs.table q i c → subtree fs' n c = subtree fs n c) :
    nodeOf fs' (subtree fs' n) (fs.table q i) = nodeOf fs (subtree fs n) (fs.table q i) := by
  by_cases ha : (fs.table q i).attr = attrSubdirectory
  · rw [nodeOf, nodeOf, if_pos ha, if_pos ha, hsub _ ⟨hs.slot, hs.used, ha, rfl⟩]
  · rw [nodeOf, nodeOf, if_neg ha, if_neg ha, h.chainBytes_kept hcons hs ha]

/-- **A tree that the growing directory is not part of stays as it is.** -/
theorem Grown.subtree_kept (hcons : FsConsistent fs) (h : Grown p fs fs') (hx : Live fs.table x)
    (hp : ¬ Reach (dirEdge fs.table) x p) (n : ℕ) : subtree fs' n x = subtree fs n x := by
  induction n generalizing x with
  | zero => rfl
  | succ n ih =>
      rw [subtree, subtree, h.table_kept hx hp Reach.root]
      refine List.map_congr_left ?_
      intro i hi
      obtain ⟨h0, hused⟩ := mem_usedSlots.mp hi
      refine h.nodeOf_kept hcons ⟨hx, h0, hused⟩ ?_
      intro c he
      exact ih (Reach.child hx he) fun hr => hp (reach_trans (Reach.child Reach.root he) hr)

/-! ## Directories without gaps -/

/-- No used slot is behind an unused one. -/
def Packed (t : FAT32DirectoryTable) : Prop := ∀ i j, i < j → (t j).used → (t i).used

theorem Packed.lt_idxEmpty (h : Packed t) (hj : ¬ (t j).used) (hi : (t i).used) :
    i < idxEmpty t := by
  have hun := idxEmpty_unused hj
  rcases lt_trichotomy i (idxEmpty t) with hlt | heq | hgt
  · exact hlt
  · exact absurd (heq ▸ hi) hun
  · exact absurd (h _ _ hgt hi) hun

/-- The slot that `write` fills becomes the last one. -/
theorem Packed.usedSlots_update (h : Packed t) (hj : ¬ (t j).used) (h0 : idxEmpty t ≠ 0)
    (he : e.used) :
    usedSlots (Function.update t (idxEmpty t) e) = usedSlots t ++ [idxEmpty t] := by
  refine List.Pairwise.eq_of_mem_iff (usedSlots_ordered _) ?_ ?_
  · refine List.pairwise_append.mpr ⟨usedSlots_ordered t, List.pairwise_singleton _ _, ?_⟩
    intro i hi k hk
    rw [List.mem_singleton.mp hk]
    exact h.lt_idxEmpty hj (mem_usedSlots.mp hi).2
  · intro i
    rw [List.mem_append, List.mem_singleton, mem_usedSlots, mem_usedSlots]
    by_cases hi : i = idxEmpty t
    · subst hi
      simp only [Function.update_self, he, h0, ne_eq, not_false_eq_true, and_self, or_true]
    · simp only [Function.update_of_ne hi, hi, or_false]

theorem Packed.update (h : Packed t) (he : e.used) :
    Packed (Function.update t (idxEmpty t) e) := by
  intro i k hik hk
  by_cases hi : i = idxEmpty t
  · rw [hi, Function.update_self]
    exact he
  · rw [Function.update_of_ne hi]
    by_cases hkidx : k = idxEmpty t
    · exact used_of_lt_idxEmpty (hkidx ▸ hik)
    · rw [Function.update_of_ne hkidx] at hk
      exact h i k hik hk

/-- **An entry in the first unused slot of a directory without gaps is listed behind the
    others.** -/
theorem Grown.subtree_extended (hcons : FsConsistent fs) (h : Grown c fs fs')
    (hc : Live fs.table c) (hpacked : Packed (fs.table c)) (hj : ¬ (fs.table c j).used)
    (htable : fs'.table c = Function.update (fs.table c) (idxEmpty (fs.table c)) e)
    (he : e.used) (n : ℕ) :
    subtree fs' (n + 1) c = subtree fs (n + 1) c ++ [nodeOf fs' (subtree fs' n) e] := by
  have hun := idxEmpty_unused hj
  have h0 : idxEmpty (fs.table c) ≠ 0 := fun h0 => hun (h0 ▸ hcons.selfUsed hc)
  rw [subtree, htable, hpacked.usedSlots_update hj h0 he, List.map_append, List.map_singleton,
    Function.update_self, subtree]
  refine congrArg (· ++ _) (List.map_congr_left ?_)
  intro i hi
  obtain ⟨hi0, hused⟩ := mem_usedSlots.mp hi
  have hne : i ≠ idxEmpty (fs.table c) := by
    rintro rfl
    exact hun hused
  rw [Function.update_of_ne hne]
  refine h.nodeOf_kept hcons ⟨hc, hi0, hused⟩ ?_
  intro x hx
  exact h.subtree_kept hcons (Reach.child hc hx) (not_reach_back hcons.uniqueParent hc hx) n

/-- A directory that is not full has an unused slot. -/
theorem exists_unused_of_length (h : (usedSlots t).length < (slotsFrom 1).length) :
    ∃ i, i ≠ 0 ∧ ¬ (t i).used := by
  by_contra hall
  refine absurd h (Nat.not_lt.mpr (le_of_eq ?_))
  rw [usedSlots, List.filter_eq_self.mpr]
  intro i hi
  rw [decide_eq_true_eq]
  by_contra hno
  exact hall ⟨i, mem_slotsFrom_one.mp hi, hno⟩

/-- A path has fewer than 510 edges: there are no more cells for directories. -/
theorem path_length_lt (hcons : FsConsistent fs) {l : List (Fin directoryEntryCount)}
    (hx : Live fs.table x) (h : Path (dirEdge fs.table) x l q) : l.length < 510 := by
  obtain ⟨l₀, hl₀⟩ := path_of_reach hx
  obtain ⟨nodes, hlen, hnodup, hmem⟩ := path_nodes hcons.uniqueParent (path_trans hl₀ h)
  have hsub : (nodes.map UInt32.toNat).toFinset ⊆ Finset.Ico 2 clusterMapSize := by
    intro k hk
    obtain ⟨a, ha, rfl⟩ := List.mem_map.mp (List.mem_toFinset.mp hk)
    exact Finset.mem_Ico.mpr (hcons.live_range (hmem a ha).1)
  have hcard := Finset.card_le_card hsub
  rw [List.toFinset_card_of_nodup (hnodup.map fun _ _ => UInt32.toNat_inj.mp), List.length_map,
    hlen, Nat.card_Ico, List.length_append] at hcard
  have hsize : clusterMapSize = 512 := rfl
  omega

end OsyVolume
