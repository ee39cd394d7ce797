import Osyikkk.Fat32CallProofs
import Osyikkk.RootedForest

/-!
# The directory tree and the cells its entries own

A volume is seen as the tables stored at the clusters and a file allocation table. A
directory is live when used slots `1..63` lead to it from cluster 2. `Consistent` says that
the used slots of live directories own disjoint chains and the unused ones are zero; it is the
invariant every defined driver call keeps, whatever code it returns. Where nothing is looked up
that may have been left in an unused slot, `ConsistentWith` asks for less.

The three edits of a volume are inserting an entry (`Inserted`), removing one (`Removed`)
and moving one to another directory (`Moved`). For each of them the directories that are
live afterwards are determined and the invariant is carried over; that the driver calls are
such edits is shown where the calls are treated.
-/

namespace OsyVolume

open OsyDisk OsyFat32 LinkedChain RootedForest

/-- The directory tables stored at the clusters. -/
abbrev Tables := UInt32 → FAT32DirectoryTable

/-- Slot `i` of the table at `d` is a used slot with the directory attribute and names
    cluster `c`. -/
def dirEdge (tbl : Tables) (d : UInt32) (i : Fin directoryEntryCount) (c : UInt32) : Prop :=
  i ≠ 0 ∧ (tbl d i).used ∧ (tbl d i).attr = attrSubdirectory ∧ (tbl d i).cluster = c

/-- The clusters of the directories reachable from the root. -/
abbrev Live (tbl : Tables) (d : UInt32) : Prop := Reach (dirEdge tbl) rootClusterNumber d

/-- A used slot `1..63` of a live directory. -/
structure UsedSlot (tbl : Tables) (d : UInt32) (i : Fin directoryEntryCount) : Prop where
  live : Live tbl d
  slot : i ≠ 0
  used : (tbl d i).used

/-- Used slots of live directories own disjoint chains of the cells `3..511`, slot 0 of a
    live directory is used, an unused slot of `d` holds what `Left d` allows, and cells `0..2`
    are not free. -/
structure ConsistentWith (Left : UInt32 → FAT32DirectoryEntry → Prop) (tbl : Tables)
    (fat : FAT32FileAllocationTable) : Prop where
  reserved : ∀ c : UInt32, c.toNat < 3 → clusterMapGet fat c ≠ some 0
  selfUsed : ∀ {d}, Live tbl d → (tbl d 0).used
  leftover : ∀ {d i}, Live tbl d → ¬ (tbl d i).used → Left d (tbl d i)
  chain : ∀ {d i}, UsedSlot tbl d i →
    ∃ l, FatChain fat (tbl d i).cluster l ∧ l ≠ [] ∧ ∀ c ∈ l, 3 ≤ c.toNat
  disjoint : ∀ {d d' i i' l l' c}, UsedSlot tbl d i → UsedSlot tbl d' i' →
    FatChain fat (tbl d i).cluster l → FatChain fat (tbl d' i').cluster l' →
    c ∈ l → c ∈ l' → d = d' ∧ i = i'

/-- The unused slots are all zero. -/
abbrev Consistent (tbl : Tables) (fat : FAT32FileAllocationTable) : Prop :=
  ConsistentWith (fun _ e => e = FAT32DirectoryEntry.zero) tbl fat

variable {Left : UInt32 → FAT32DirectoryEntry → Prop} {tbl tbl' : Tables}
  {fat fat' : FAT32FileAllocationTable}

theorem Consistent.unusedZero (hcons : Consistent tbl fat) {d : UInt32}
    {i : Fin directoryEntryCount} (hd : Live tbl d) (hno : ¬ (tbl d i).used) :
    tbl d i = FAT32DirectoryEntry.zero := hcons.leftover hd hno

theorem dirEdge_functional (tbl : Tables) : Functional (dirEdge tbl) :=
  fun h h' => h.2.2.2.symm.trans h'.2.2.2

theorem usedSlot_of_dirEdge {d c : UInt32} {i : Fin directoryEntryCount} (hd : Live tbl d)
    (h : dirEdge tbl d i c) : UsedSlot tbl d i := ⟨hd, h.1, h.2.1⟩

/-- A live directory is the root or the first cluster of a used slot. -/
theorem live_cases {d : UInt32} (h : Live tbl d) :
    d = rootClusterNumber ∨ ∃ p i, UsedSlot tbl p i ∧ dirEdge tbl p i d := by
  cases h with
  | root => exact Or.inl rfl
  | child hp he => exact Or.inr ⟨_, _, usedSlot_of_dirEdge hp he, he⟩

theorem zero_not_used : ¬ FAT32DirectoryEntry.zero.used := by decide

/-! ## What consistency gives -/

section Basics

variable (hcons : ConsistentWith Left tbl fat)
include hcons

/-- The first cluster of a used slot is a cell `3..511` that is not free. -/
theorem ConsistentWith.start {d : UInt32} {i : Fin directoryEntryCount} (h : UsedSlot tbl d i) :
    3 ≤ (tbl d i).cluster.toNat ∧ (tbl d i).cluster.toNat < clusterMapSize := by
  obtain ⟨l, hl, hne, h3⟩ := hcons.chain h
  have hmem := chain_start_mem hl hne
  exact ⟨h3 _ hmem, fatChain_lt hl hmem⟩

/-- No cell of an owned chain is free: the cell 0 it would point to is not on the chain. -/
theorem ConsistentWith.owned_ne_free {d c : UInt32} {i : Fin directoryEntryCount}
    {l : List UInt32} (h : UsedSlot tbl d i) (hl : FatChain fat (tbl d i).cluster l)
    (hc : c ∈ l) : clusterMapGet fat c ≠ some 0 := by
  obtain ⟨l', hl', -, h3⟩ := hcons.chain h
  obtain rfl := chain_unique hl hl'
  obtain ⟨b, hb, hnext⟩ := chain_mem_next hl hc
  rw [hb]
  rintro hfree
  obtain rfl := Option.some.inj hfree
  rcases hnext with hstop | hmem
  · exact absurd hstop (by decide)
  · exact absurd (h3 _ hmem) (by decide)

theorem ConsistentWith.uniqueParent : UniqueParent (dirEdge tbl) rootClusterNumber := by
  constructor
  · intro d d' s s' c hd hd' he he'
    have hs := usedSlot_of_dirEdge hd he
    have hs' := usedSlot_of_dirEdge hd' he'
    obtain ⟨l, hl, hne, -⟩ := hcons.chain hs
    have hl' : FatChain fat (tbl d' s').cluster l := by
      rw [he'.2.2.2, ← he.2.2.2]
      exact hl
    have hmem := chain_start_mem hl hne
    exact hcons.disjoint hs hs' hl hl' hmem hmem
  · intro d s hd he
    have hstart := (hcons.start (usedSlot_of_dirEdge hd he)).1
    rw [he.2.2.2] at hstart
    exact absurd hstart (by decide)

theorem ConsistentWith.live_range {d : UInt32} (h : Live tbl d) :
    2 ≤ d.toNat ∧ d.toNat < clusterMapSize := by
  rcases live_cases h with rfl | ⟨p, i, hs, he⟩
  · exact ⟨by decide, by decide⟩
  · have hstart := hcons.start hs
    rw [he.2.2.2] at hstart
    exact ⟨by omega, hstart.2⟩

/-- The cell of a live directory is not free. -/
theorem ConsistentWith.live_ne_free {d : UInt32} (h : Live tbl d) :
    clusterMapGet fat d ≠ some 0 := by
  rcases live_cases h with rfl | ⟨p, i, hs, he⟩
  · exact hcons.reserved _ (by decide)
  · obtain ⟨l, hl, hne, -⟩ := hcons.chain hs
    exact hcons.owned_ne_free hs hl (he.2.2.2 ▸ chain_start_mem hl hne)

/-- A chain that shares a cell with a directory's cluster is that directory's. -/
theorem ConsistentWith.live_mem_chain {d p : UInt32} {i : Fin directoryEntryCount}
    {l : List UInt32} (hd : Live tbl d) (hs : UsedSlot tbl p i)
    (hl : FatChain fat (tbl p i).cluster l) (hmem : d ∈ l) : dirEdge tbl p i d := by
  rcases live_cases hd with rfl | ⟨q, j, hs', he⟩
  · obtain ⟨l', hl', -, h3⟩ := hcons.chain hs
    obtain rfl := chain_unique hl hl'
    exact absurd (h3 _ hmem) (by decide)
  · obtain ⟨l', hl', hne, -⟩ := hcons.chain hs'
    have hd' : d ∈ l' := he.2.2.2 ▸ chain_start_mem hl' hne
    obtain ⟨rfl, rfl⟩ := hcons.disjoint hs hs' hl hl' hmem hd'
    exact he

/-- A chain is unique, so a chain that an edit keeps is the only one afterwards. -/
theorem ConsistentWith.chain_back {d : UInt32} {i : Fin directoryEntryCount} {l : List UInt32}
    (hs : UsedSlot tbl d i)
    (hkeep : ∀ l₀, FatChain fat (tbl d i).cluster l₀ → FatChain fat' (tbl d i).cluster l₀)
    (hl : FatChain fat' (tbl d i).cluster l) : FatChain fat (tbl d i).cluster l := by
  obtain ⟨l₀, hl₀, -⟩ := hcons.chain hs
  rwa [chain_unique hl (hkeep l₀ hl₀)]

end Basics

/-- A slot with a non-zero name is in use. -/
theorem Consistent.used_of_name (hcons : Consistent tbl fat) {d : UInt32}
    {i : Fin directoryEntryCount} (hd : Live tbl d) (hname : (tbl d i).name ≠ fun _ => 0) :
    (tbl d i).used := by
  by_contra hno
  rw [hcons.unusedZero hd hno] at hname
  exact hname rfl


/-- More may be left over. -/
theorem ConsistentWith.mono {Left' : UInt32 → FAT32DirectoryEntry → Prop}
    (hcons : ConsistentWith Left tbl fat) (h : ∀ d e, Left d e → Left' d e) :
    ConsistentWith Left' tbl fat :=
  { hcons with leftover := fun hd hno => h _ _ (hcons.leftover hd hno) }

/-- Tables that agree on live directories have the same live directories. -/
theorem live_congr (h : ∀ d, Live tbl d → tbl' d = tbl d) (d : UInt32) :
    Live tbl' d ↔ Live tbl d := by
  refine (reach_congr ?_ d).symm
  intro d i c hd
  simp only [dirEdge, h d hd]

/-- Consistency looks at live directories and at cells that are not free. -/
theorem ConsistentWith.congr (hcons : ConsistentWith Left tbl fat)
    (htbl : ∀ d, Live tbl d → tbl' d = tbl d)
    (hfat : ∀ c, clusterMapGet fat c ≠ some 0 → clusterMapGet fat' c = clusterMapGet fat c) :
    ConsistentWith Left tbl' fat' := by
  have hlive := live_congr htbl
  have hslot : ∀ {d i}, UsedSlot tbl' d i → UsedSlot tbl d i ∧ tbl' d = tbl d := by
    intro d i h
    have hd := (hlive d).mp h.live
    exact ⟨⟨hd, h.slot, htbl d hd ▸ h.used⟩, htbl d hd⟩
  have hchain : ∀ {d i l}, UsedSlot tbl d i → FatChain fat (tbl d i).cluster l →
      FatChain fat' (tbl d i).cluster l := fun hs hl =>
    chain_frame hl fun c hc => hfat c (hcons.owned_ne_free hs hl hc)
  -- a slot has one chain, so a chain of the new table is the old one
  have hback : ∀ {d i l}, UsedSlot tbl d i → FatChain fat' (tbl d i).cluster l →
      FatChain fat (tbl d i).cluster l := by
    intro d i l hs hl
    exact hcons.chain_back hs (fun _ hl₀ => hchain hs hl₀) hl
  constructor
  case reserved =>
    intro c hc
    rw [hfat c (hcons.reserved c hc)]
    exact hcons.reserved c hc
  case selfUsed =>
    intro d hd
    have hd' := (hlive d).mp hd
    exact htbl d hd' ▸ hcons.selfUsed hd'
  case leftover =>
    intro d i hd hno
    have hd' := (hlive d).mp hd
    rw [htbl d hd'] at hno ⊢
    exact hcons.leftover hd' hno
  case chain =>
    intro d i hs
    obtain ⟨hs, ht⟩ := hslot hs
    obtain ⟨l, hl, hne, h3⟩ := hcons.chain hs
    exact ⟨l, ht ▸ hchain hs hl, hne, h3⟩
  case disjoint =>
    intro d d' i i' l l' c hs hs' hl hl' hc hc'
    obtain ⟨hs, ht⟩ := hslot hs
    obtain ⟨hs', ht'⟩ := hslot hs'
    exact hcons.disjoint hs hs' (hback hs (ht ▸ hl)) (hback hs' (ht' ▸ hl')) hc hc'

/-! ## Inserting an entry -/

/-- Entry `e` went to slot `idx` of the live directory `p` and owns the chain `l`, whose
    cells were free. Slot 0 is where an entry goes that found no unused slot. A new directory
    has no other used slot than slot 0. -/
structure InsertedWith (Left : UInt32 → FAT32DirectoryEntry → Prop) (tbl tbl' : Tables)
    (fat fat' : FAT32FileAllocationTable) (p : UInt32) (idx : Fin directoryEntryCount)
    (e : FAT32DirectoryEntry) (l : List UInt32) : Prop where
  live : Live tbl p
  slot : idx = 0 ∨ ¬ (tbl p idx).used
  entry : tbl' p = Function.update (tbl p) idx e
  used : e.used
  others : ∀ d, Live tbl d → d ≠ p → tbl' d = tbl d
  fresh : ∀ c ∈ l, clusterMapGet fat c = some 0
  chain : FatChain fat' e.cluster l
  nonempty : l ≠ []
  kept : ∀ c, c ∉ l → clusterMapGet fat' c = clusterMapGet fat c
  dirSelf : e.attr = attrSubdirectory → (tbl' e.cluster 0).used
  dirLeft : e.attr = attrSubdirectory →
    ∀ i, i ≠ 0 → ¬ (tbl' e.cluster i).used ∧ Left e.cluster (tbl' e.cluster i)

/-- The other slots of a new directory are all zero. -/
abbrev Inserted (tbl tbl' : Tables) (fat fat' : FAT32FileAllocationTable) (p : UInt32)
    (idx : Fin directoryEntryCount) (e : FAT32DirectoryEntry) (l : List UInt32) : Prop :=
  InsertedWith (fun _ e => e = FAT32DirectoryEntry.zero) tbl tbl' fat fat' p idx e l

section Inserting

variable {p : UInt32} {idx : Fin directoryEntryCount} {e : FAT32DirectoryEntry}
  {l : List UInt32}

theorem Inserted.dirZero (h : Inserted tbl tbl' fat fat' p idx e l)
    (ha : e.attr = attrSubdirectory) (i : Fin directoryEntryCount) (hi : i ≠ 0) :
    tbl' e.cluster i = FAT32DirectoryEntry.zero := (h.dirLeft ha i hi).2

/-- A slot of an old live directory: the entry when it is the new slot, unchanged
    otherwise. -/
theorem InsertedWith.table (h : InsertedWith Left tbl tbl' fat fat' p idx e l) {d : UInt32}
    (hd : Live tbl d) (i : Fin directoryEntryCount) :
    (d = p ∧ i = idx ∧ tbl' d i = e) ∨ (¬ (d = p ∧ i = idx) ∧ tbl' d i = tbl d i) := by
  by_cases hdp : d = p
  · subst hdp
    rw [h.entry]
    by_cases hi : i = idx
    · exact Or.inl ⟨rfl, hi, by rw [hi, Function.update_self]⟩
    · exact Or.inr ⟨fun hh => hi hh.2, Function.update_of_ne hi _ _⟩
  · exact Or.inr ⟨fun hh => hdp hh.1, by rw [h.others d hd hdp]⟩

/-- Slots that were in use keep their entry. -/
theorem InsertedWith.entry_kept (h : InsertedWith Left tbl tbl' fat fat' p idx e l) {d : UInt32}
    {i : Fin directoryEntryCount} (hs : UsedSlot tbl d i) : tbl' d i = tbl d i := by
  rcases h.table hs.live i with ⟨rfl, rfl, -⟩ | ⟨-, hti⟩
  · rcases h.slot with h0 | hun
    · exact absurd h0 hs.slot
    · exact absurd hs.used hun
  · exact hti

/-- An entry in another slot than 0 leaves the self entries alone. -/
theorem InsertedWith.self_kept (h : InsertedWith Left tbl tbl' fat fat' p idx e l) (h0 : idx ≠ 0)
    {d : UInt32} (hd : Live tbl d) : tbl' d 0 = tbl d 0 := by
  rcases h.table hd 0 with ⟨-, hi, -⟩ | ⟨-, hti⟩
  · exact absurd hi.symm h0
  · exact hti

theorem InsertedWith.edge (h : InsertedWith Left tbl tbl' fat fat' p idx e l) (d : UInt32)
    (i : Fin directoryEntryCount) (c : UInt32) (hd : Live tbl d) :
    dirEdge tbl' d i c ↔ dirEdge tbl d i c ∨
      (d = p ∧ i = idx ∧ c = e.cluster ∧ idx ≠ 0 ∧ e.attr = attrSubdirectory) := by
  rcases h.table hd i with ⟨rfl, rfl, hti⟩ | ⟨hne, hti⟩
  · have hold : ¬ dirEdge tbl d i c := by
      rcases h.slot with h0 | hun
      · exact fun he => he.1 h0
      · exact fun he => hun he.2.1
    rw [or_iff_right hold]
    simp only [dirEdge, hti, h.used, true_and]
    constructor
    · rintro ⟨h0, ha, rfl⟩
      exact ⟨rfl, h0, ha⟩
    · rintro ⟨rfl, h0, ha⟩
      exact ⟨h0, ha, rfl⟩
  · simp only [dirEdge, hti]
    constructor
    · exact Or.inl
    · rintro (he | ⟨rfl, rfl, -⟩)
      · exact he
      · exact absurd ⟨rfl, rfl⟩ hne

/-- A directory that went to a slot `1..63` is live, and nothing else changed. -/
theorem InsertedWith.live_iff (h : InsertedWith Left tbl tbl' fat fat' p idx e l) (d : UInt32) :
    Live tbl' d ↔ Live tbl d ∨ (d = e.cluster ∧ idx ≠ 0 ∧ e.attr = attrSubdirectory) := by
  by_cases hdir : idx ≠ 0 ∧ e.attr = attrSubdirectory
  · -- the new directory has no used slot of its own, so it is a leaf
    have hleaf : ∀ i c, ¬ dirEdge tbl' e.cluster i c := by
      intro i c he
      exact (h.dirLeft hdir.2 i he.1).1 he.2.1
    have hedge : ∀ d i c, Live tbl d →
        (dirEdge tbl' d i c ↔ dirEdge tbl d i c ∨ (d = p ∧ i = idx ∧ c = e.cluster)) := by
      intro d i c hd
      simp only [h.edge d i c hd, hdir, ne_eq, not_false_eq_true, and_true]
    simp only [Live, reach_insert_leaf h.live hedge hleaf d, hdir, ne_eq, not_false_eq_true,
      and_true]
  · -- a file, or an entry in slot 0, adds no edge
    have hedge : ∀ d i c, Live tbl d → (dirEdge tbl d i c ↔ dirEdge tbl' d i c) := by
      intro d i c hd
      rw [h.edge d i c hd]
      tauto
    rw [Live, Live, ← reach_congr hedge d]
    tauto

/-- Used slots afterwards: the new one and the old ones. -/
theorem InsertedWith.usedSlot (h : InsertedWith Left tbl tbl' fat fat' p idx e l) {d : UInt32}
    {i : Fin directoryEntryCount} (hs : UsedSlot tbl' d i) :
    (d = p ∧ i = idx ∧ idx ≠ 0 ∧ tbl' d i = e) ∨
      (UsedSlot tbl d i ∧ ¬ (d = p ∧ i = idx) ∧ tbl' d i = tbl d i) := by
  rcases (h.live_iff d).mp hs.live with hd | ⟨rfl, -, ha⟩
  · rcases h.table hd i with ⟨rfl, rfl, hti⟩ | ⟨hne, hti⟩
    · exact Or.inl ⟨rfl, rfl, hs.slot, hti⟩
    · exact Or.inr ⟨⟨hd, hs.slot, hti ▸ hs.used⟩, hne, hti⟩
  · exact absurd hs.used (h.dirLeft ha i hs.slot).1

variable (hcons : ConsistentWith Left tbl fat) (h : InsertedWith Left tbl tbl' fat fat' p idx e l)
include hcons h

/-- Chains that existed before are chains afterwards. -/
theorem InsertedWith.chain_kept {d : UInt32} {i : Fin directoryEntryCount} {l' : List UInt32}
    (hs : UsedSlot tbl d i) (hl : FatChain fat (tbl d i).cluster l') :
    FatChain fat' (tbl d i).cluster l' :=
  chain_frame hl fun c hc =>
    h.kept c fun hmem => hcons.owned_ne_free hs hl hc (h.fresh c hmem)

theorem InsertedWith.chain_old {d : UInt32} {i : Fin directoryEntryCount} {l' : List UInt32}
    (hs : UsedSlot tbl d i) (hl : FatChain fat' (tbl d i).cluster l') :
    FatChain fat (tbl d i).cluster l' :=
  hcons.chain_back hs (fun _ hl₀ => h.chain_kept hcons hs hl₀) hl

theorem InsertedWith.fresh_range {c : UInt32} (hc : c ∈ l) : 3 ≤ c.toNat := by
  by_contra hlt
  exact hcons.reserved c (by omega) (h.fresh c hc)

theorem InsertedWith.consistent : ConsistentWith Left tbl' fat' := by
  have hold : ∀ {d i l' c}, UsedSlot tbl d i → FatChain fat (tbl d i).cluster l' → c ∈ l' →
      c ∉ l := fun hs hl hc hmem => hcons.owned_ne_free hs hl hc (h.fresh _ hmem)
  constructor
  case reserved =>
    intro c hc
    have hnot : c ∉ l := fun hmem => absurd (h.fresh_range hcons hmem) (by omega)
    rw [h.kept c hnot]
    exact hcons.reserved c hc
  case selfUsed =>
    intro d hd
    rcases (h.live_iff d).mp hd with hd | ⟨rfl, -, ha⟩
    · rcases h.table hd 0 with ⟨-, -, hti⟩ | ⟨-, hti⟩
      · exact hti ▸ h.used
      · exact hti ▸ hcons.selfUsed hd
    · exact h.dirSelf ha
  case leftover =>
    intro d i hd hno
    rcases (h.live_iff d).mp hd with hd | ⟨rfl, -, ha⟩
    · rcases h.table hd i with ⟨-, -, hti⟩ | ⟨-, hti⟩
      · rw [hti] at hno
        exact absurd h.used hno
      · rw [hti] at hno ⊢
        exact hcons.leftover hd hno
    · by_cases hi : i = 0
      · exact absurd (hi ▸ h.dirSelf ha) hno
      · exact (h.dirLeft ha i hi).2
  case chain =>
    intro d i hs
    rcases h.usedSlot hs with ⟨-, -, -, hti⟩ | ⟨hs, -, hti⟩
    · exact ⟨l, hti ▸ h.chain, h.nonempty, fun c hc => h.fresh_range hcons hc⟩
    · obtain ⟨l', hl', hne, h3⟩ := hcons.chain hs
      exact ⟨l', hti ▸ h.chain_kept hcons hs hl', hne, h3⟩
  case disjoint =>
    intro d d' i i' l₁ l₂ c hs hs' hl₁ hl₂ hc₁ hc₂
    -- the new chain consists of cells that were free, so it meets no old one
    rcases h.usedSlot hs with ⟨rfl, rfl, -, hti⟩ | ⟨hs, -, hti⟩ <;>
      rcases h.usedSlot hs' with ⟨rfl, rfl, -, hti'⟩ | ⟨hs', -, hti'⟩
    · exact ⟨rfl, rfl⟩
    · obtain rfl := chain_unique (hti ▸ hl₁) h.chain
      exact absurd hc₁ (hold hs' (h.chain_old hcons hs' (hti' ▸ hl₂)) hc₂)
    · obtain rfl := chain_unique (hti' ▸ hl₂) h.chain
      exact absurd hc₂ (hold hs (h.chain_old hcons hs (hti ▸ hl₁)) hc₁)
    · exact hcons.disjoint hs hs' (h.chain_old hcons hs (hti ▸ hl₁))
        (h.chain_old hcons hs' (hti' ▸ hl₂)) hc₁ hc₂

end Inserting

/-! ## Removing an entry -/

/-- The used slot `i` of the live directory `p` was cleared; at most cells of its chain `l`
    changed, and a directory it named had no used slot of its own. -/
structure Removed (tbl tbl' : Tables) (fat fat' : FAT32FileAllocationTable) (p : UInt32)
    (i : Fin directoryEntryCount) (l : List UInt32) : Prop where
  slot : UsedSlot tbl p i
  chain : FatChain fat (tbl p i).cluster l
  entry : tbl' p = Function.update (tbl p) i FAT32DirectoryEntry.zero
  others : ∀ d, Live tbl d → d ≠ p → ¬ dirEdge tbl p i d → tbl' d = tbl d
  empty : ∀ x, dirEdge tbl p i x → TableEmpty (tbl x)
  kept : ∀ c, c ∉ l → clusterMapGet fat' c = clusterMapGet fat c

section Removing

variable {p : UInt32} {i : Fin directoryEntryCount} {l : List UInt32}

theorem Removed.table (h : Removed tbl tbl' fat fat' p i l) {d : UInt32} (hd : Live tbl d)
    (hx : ¬ dirEdge tbl p i d) (j : Fin directoryEntryCount) :
    (d = p ∧ j = i ∧ tbl' d j = FAT32DirectoryEntry.zero) ∨
      (¬ (d = p ∧ j = i) ∧ tbl' d j = tbl d j) := by
  by_cases hdp : d = p
  · subst hdp
    rw [h.entry]
    by_cases hj : j = i
    · exact Or.inl ⟨rfl, hj, by rw [hj, Function.update_self]⟩
    · exact Or.inr ⟨fun hh => hj hh.2, Function.update_of_ne hj _ _⟩
  · exact Or.inr ⟨fun hh => hdp hh.1, by rw [h.others d hd hdp hx]⟩

theorem Removed.edge (h : Removed tbl tbl' fat fat' p i l) (d : UInt32)
    (j : Fin directoryEntryCount) (c : UInt32) (hd : Live tbl d) (hx : ¬ dirEdge tbl p i d) :
    dirEdge tbl' d j c ↔ dirEdge tbl d j c ∧ ¬ (d = p ∧ j = i) := by
  rcases h.table hd hx j with ⟨rfl, rfl, htj⟩ | ⟨hne, htj⟩
  · simp only [dirEdge, htj, and_self, not_true_eq_false, and_false, iff_false]
    exact fun he => zero_not_used he.2.1
  · simp only [dirEdge, htj, hne, not_false_eq_true, and_true]

variable (hcons : Consistent tbl fat) (h : Removed tbl tbl' fat fat' p i l)
include hcons h

/-- Only the directory the slot named is no longer live. -/
theorem Removed.live_iff (d : UInt32) :
    Live tbl' d ↔ Live tbl d ∧ ¬ dirEdge tbl p i d := by
  by_cases hdir : dirEdge tbl p i (tbl p i).cluster
  · -- `delete` refuses a directory with a used slot, so the removed one is a leaf
    have hleaf : ∀ j c, ¬ dirEdge tbl (tbl p i).cluster j c :=
      fun j c he => h.empty _ hdir j he.1 he.2.1
    have hedge : ∀ d j c, Live tbl d → d ≠ (tbl p i).cluster →
        (dirEdge tbl' d j c ↔ dirEdge tbl d j c ∧ ¬ (d = p ∧ j = i)) :=
      fun d j c hd hne => h.edge d j c hd fun he => hne he.2.2.2.symm
    have hiff := reach_remove_leaf hcons.uniqueParent (dirEdge_functional tbl) h.slot.live hdir
      hleaf hedge d
    rw [Live, hiff]
    refine and_congr_right fun _ => not_congr ⟨?_, fun he => he.2.2.2.symm⟩
    rintro rfl
    exact hdir
  · -- the cleared slot named a file and was no edge
    have hno : ∀ d, ¬ dirEdge tbl p i d := by
      intro d he
      exact hdir (he.2.2.2.symm ▸ he)
    have hedge : ∀ d j c, Live tbl d → (dirEdge tbl d j c ↔ dirEdge tbl' d j c) := by
      intro d j c hd
      rw [h.edge d j c hd (hno d)]
      refine ⟨fun he => ⟨he, ?_⟩, And.left⟩
      rintro ⟨rfl, rfl⟩
      exact hno c he
    rw [Live, ← reach_congr hedge d]
    exact ⟨fun hd => ⟨hd, hno d⟩, And.left⟩

theorem Removed.usedSlot_iff {d : UInt32} {j : Fin directoryEntryCount} :
    UsedSlot tbl' d j ↔ UsedSlot tbl d j ∧ ¬ (d = p ∧ j = i) := by
  constructor
  · intro hs
    obtain ⟨hd, hx⟩ := (h.live_iff hcons d).mp hs.live
    rcases h.table hd hx j with ⟨-, -, htj⟩ | ⟨hne, htj⟩
    · exact absurd (htj ▸ hs.used) zero_not_used
    · exact ⟨⟨hd, hs.slot, htj ▸ hs.used⟩, hne⟩
  · rintro ⟨hs, hne⟩
    have hx : ¬ dirEdge tbl p i d := fun he => h.empty d he j hs.slot hs.used
    rcases h.table hs.live hx j with ⟨rfl, rfl, -⟩ | ⟨-, htj⟩
    · exact absurd ⟨rfl, rfl⟩ hne
    · exact ⟨(h.live_iff hcons d).mpr ⟨hs.live, hx⟩, hs.slot, htj ▸ hs.used⟩

/-- The slots that stay in use keep their entry. -/
theorem Removed.entry_kept {d : UInt32} {j : Fin directoryEntryCount}
    (hs : UsedSlot tbl' d j) : tbl' d j = tbl d j := by
  obtain ⟨hd, hx⟩ := (h.live_iff hcons d).mp hs.live
  rcases h.table hd hx j with ⟨-, -, htj⟩ | ⟨-, htj⟩
  · exact absurd (htj ▸ hs.used) zero_not_used
  · exact htj

/-- Slot 0 of a directory that is left is as before. -/
theorem Removed.self_kept {d : UInt32} (hd : Live tbl' d) : tbl' d 0 = tbl d 0 := by
  obtain ⟨hd, hx⟩ := (h.live_iff hcons d).mp hd
  rcases h.table hd hx 0 with ⟨-, h0, -⟩ | ⟨-, ht⟩
  · exact absurd h0.symm h.slot.slot
  · exact ht

/-- The other slots' chains do not meet the removed one. -/
theorem Removed.chain_kept {d : UInt32} {j : Fin directoryEntryCount} {l' : List UInt32}
    (hs : UsedSlot tbl d j) (hne : ¬ (d = p ∧ j = i))
    (hl : FatChain fat (tbl d j).cluster l') : FatChain fat' (tbl d j).cluster l' :=
  chain_frame hl fun c hc =>
    h.kept c fun hmem => hne (hcons.disjoint hs h.slot hl h.chain hc hmem)

theorem Removed.chain_old {d : UInt32} {j : Fin directoryEntryCount} {l' : List UInt32}
    (hs : UsedSlot tbl d j) (hne : ¬ (d = p ∧ j = i))
    (hl : FatChain fat' (tbl d j).cluster l') : FatChain fat (tbl d j).cluster l' :=
  hcons.chain_back hs (fun _ hl₀ => h.chain_kept hcons hs hne hl₀) hl

theorem Removed.consistent : Consistent tbl' fat' := by
  obtain ⟨l₀, hl₀, -, h3⟩ := hcons.chain h.slot
  obtain rfl := chain_unique h.chain hl₀
  constructor
  case reserved =>
    intro c hc
    rw [h.kept c fun hmem => absurd (h3 c hmem) (by omega)]
    exact hcons.reserved c hc
  case selfUsed =>
    intro d hd
    obtain ⟨hd, hx⟩ := (h.live_iff hcons d).mp hd
    rcases h.table hd hx 0 with ⟨-, h0, -⟩ | ⟨-, ht0⟩
    · exact absurd h0.symm h.slot.slot
    · exact ht0 ▸ hcons.selfUsed hd
  case leftover =>
    intro d j hd hno
    obtain ⟨hd, hx⟩ := (h.live_iff hcons d).mp hd
    rcases h.table hd hx j with ⟨-, -, htj⟩ | ⟨-, htj⟩
    · exact htj
    · rw [htj] at hno ⊢
      exact hcons.unusedZero hd hno
  case chain =>
    intro d j hs
    have ht := h.entry_kept hcons hs
    obtain ⟨hs, hne⟩ := (h.usedSlot_iff hcons).mp hs
    obtain ⟨l', hl', hne', h3'⟩ := hcons.chain hs
    exact ⟨l', ht ▸ h.chain_kept hcons hs hne hl', hne', h3'⟩
  case disjoint =>
    intro d d' j j' l₁ l₂ c hs hs' hl₁ hl₂ hc₁ hc₂
    have ht := h.entry_kept hcons hs
    have ht' := h.entry_kept hcons hs'
    obtain ⟨hs, hne⟩ := (h.usedSlot_iff hcons).mp hs
    obtain ⟨hs', hne'⟩ := (h.usedSlot_iff hcons).mp hs'
    exact hcons.disjoint hs hs' (h.chain_old hcons hs hne (ht ▸ hl₁))
      (h.chain_old hcons hs' hne' (ht' ▸ hl₂)) hc₁ hc₂

end Removing

/-! ## Moving an entry -/

/-- The used slot `i` of `p` was cleared and its entry went to the unused slot `j` of
    another live directory `q`. No cell changed. -/
structure Moved (tbl tbl' : Tables) (p q : UInt32) (i j : Fin directoryEntryCount) :
    Prop where
  slot : UsedSlot tbl p i
  live : Live tbl q
  free : ¬ (tbl q j).used
  target : j ≠ 0
  ne : p ≠ q
  source : tbl' p = Function.update (tbl p) i FAT32DirectoryEntry.zero
  dest : tbl' q = Function.update (tbl q) j (tbl p i)
  others : ∀ d, Live tbl d → d ≠ p → d ≠ q → tbl' d = tbl d

/-- The entry in slot `i` of `p` is a directory that `q` is, or is below of. -/
def Below (tbl : Tables) (p : UInt32) (i : Fin directoryEntryCount) (q : UInt32) : Prop :=
  ∃ x, dirEdge tbl p i x ∧ Reach (dirEdge tbl) x q

section Moving

variable {p q : UInt32} {i j : Fin directoryEntryCount}

theorem Moved.table (h : Moved tbl tbl' p q i j) {d : UInt32} (hd : Live tbl d)
    (k : Fin directoryEntryCount) :
    (d = p ∧ k = i ∧ tbl' d k = FAT32DirectoryEntry.zero) ∨
      (d = q ∧ k = j ∧ tbl' d k = tbl p i) ∨
      (¬ (d = p ∧ k = i) ∧ ¬ (d = q ∧ k = j) ∧ tbl' d k = tbl d k) := by
  by_cases hdp : d = p
  · subst hdp
    rw [h.source]
    by_cases hk : k = i
    · exact Or.inl ⟨rfl, hk, by rw [hk, Function.update_self]⟩
    · exact Or.inr (Or.inr ⟨fun hh => hk hh.2, fun hh => h.ne hh.1,
        Function.update_of_ne hk _ _⟩)
  by_cases hdq : d = q
  · subst hdq
    rw [h.dest]
    by_cases hk : k = j
    · exact Or.inr (Or.inl ⟨rfl, hk, by rw [hk, Function.update_self]⟩)
    · exact Or.inr (Or.inr ⟨fun hh => hdp hh.1, fun hh => hk hh.2,
        Function.update_of_ne hk _ _⟩)
  · exact Or.inr (Or.inr ⟨fun hh => hdp hh.1, fun hh => hdq hh.1, by
      rw [h.others d hd hdp hdq]⟩)

/-- The moved slot's edge is the only one that changes its source. -/
theorem Moved.edge (h : Moved tbl tbl' p q i j) (d : UInt32) (k : Fin directoryEntryCount)
    (c : UInt32) (hd : Live tbl d) :
    dirEdge tbl' d k c ↔ (dirEdge tbl d k c ∧ ¬ (d = p ∧ k = i)) ∨
      (d = q ∧ k = j ∧ dirEdge tbl p i c) := by
  rcases h.table hd k with ⟨rfl, rfl, htk⟩ | ⟨rfl, rfl, htk⟩ | ⟨hp, hq, htk⟩
  · have hz : ¬ dirEdge tbl' d k c := fun he => zero_not_used (htk ▸ he.2.1)
    refine iff_of_false hz ?_
    rintro (⟨-, hno⟩ | ⟨hdq, -⟩)
    · exact hno ⟨rfl, rfl⟩
    · exact h.ne hdq
  · have hold : ¬ dirEdge tbl d k c := fun he => h.free he.2.1
    simp only [dirEdge, htk, h.target, h.slot.slot, ne_eq, not_false_eq_true, true_and]
    constructor
    · exact Or.inr
    · rintro (⟨⟨hused, -⟩, -⟩ | he)
      · exact absurd hused h.free
      · exact he
  · simp only [dirEdge, htk, hp, not_false_eq_true, and_true]
    refine ⟨Or.inl, ?_⟩
    rintro (he | ⟨hdq, hkj, -⟩)
    · exact he
    · exact absurd ⟨hdq, hkj⟩ hq

/-- Moving a directory `x` moves the edge to it. -/
theorem Moved.reparented (h : Moved tbl tbl' p q i j) {x : UInt32} (hx : dirEdge tbl p i x) :
    Reparented (dirEdge tbl) (dirEdge tbl') rootClusterNumber p q x i j := by
  intro d k c hd
  rw [h.edge d k c hd]
  refine or_congr_right (and_congr_right fun _ => and_congr_right fun _ => ?_)
  exact ⟨fun he => dirEdge_functional tbl he hx, fun hc => hc ▸ hx⟩

/-- A move that is not below the moved directory keeps the live directories. -/
theorem Moved.live_iff (h : Moved tbl tbl' p q i j) (hbelow : ¬ Below tbl p i q) (d : UInt32) :
    Live tbl' d ↔ Live tbl d := by
  by_cases hdir : dirEdge tbl p i (tbl p i).cluster
  · -- the moved directory hangs below `q` afterwards, which is not below it
    refine reach_reparent ?_ h.slot.live h.live hdir (h.reparented hdir) ?_ d
    · exact dirEdge_functional tbl
    · exact fun hq => hbelow ⟨_, hdir, hq⟩
  · -- a moved file is no edge before or after
    have hno : ∀ c, ¬ dirEdge tbl p i c := fun c he => hdir (he.2.2.2.symm ▸ he)
    refine (reach_congr ?_ d).symm
    intro d k c hd
    rw [h.edge d k c hd]
    refine ⟨fun he => Or.inl ⟨he, ?_⟩, ?_⟩
    · rintro ⟨rfl, rfl⟩
      exact hno c he
    · rintro (⟨he, -⟩ | ⟨-, -, he⟩)
      · exact he
      · exact absurd he (hno c)

/-- Where the entry of a slot is after the move. -/
def movedTo (p q : UInt32) (i j : Fin directoryEntryCount)
    (s : UInt32 × Fin directoryEntryCount) : UInt32 × Fin directoryEntryCount :=
  if s = (p, i) then (q, j) else s

/-- A used slot afterwards holds the entry of a used slot before. -/
theorem Moved.origin (h : Moved tbl tbl' p q i j) (hbelow : ¬ Below tbl p i q) {d : UInt32}
    {k : Fin directoryEntryCount} (hs : UsedSlot tbl' d k) :
    ∃ d₀ k₀, UsedSlot tbl d₀ k₀ ∧ tbl' d k = tbl d₀ k₀ ∧
      (d, k) = movedTo p q i j (d₀, k₀) := by
  have hd := (h.live_iff hbelow d).mp hs.live
  rcases h.table hd k with ⟨-, -, htk⟩ | ⟨rfl, rfl, htk⟩ | ⟨hp, -, htk⟩
  · exact absurd (htk ▸ hs.used) zero_not_used
  · exact ⟨p, i, h.slot, htk, by rw [movedTo, if_pos rfl]⟩
  · refine ⟨d, k, ⟨hd, hs.slot, htk ▸ hs.used⟩, htk, ?_⟩
    rw [movedTo, if_neg fun heq => hp (Prod.mk.inj heq)]

/-- A used slot's entry is in a used slot afterwards. -/
theorem Moved.kept (h : Moved tbl tbl' p q i j) (hbelow : ¬ Below tbl p i q) {d : UInt32}
    {k : Fin directoryEntryCount} (hs : UsedSlot tbl d k) :
    ∃ d' k', UsedSlot tbl' d' k' ∧ tbl' d' k' = tbl d k := by
  by_cases hpi : d = p ∧ k = i
  · obtain ⟨rfl, rfl⟩ := hpi
    have hentry : tbl' q j = tbl d k := by rw [h.dest, Function.update_self]
    exact ⟨q, j, ⟨(h.live_iff hbelow q).mpr h.live, h.target, hentry ▸ hs.used⟩, hentry⟩
  · have hentry : tbl' d k = tbl d k := by
      rcases h.table hs.live k with ⟨hp, hi, -⟩ | ⟨rfl, rfl, -⟩ | ⟨-, -, htk⟩
      · exact absurd ⟨hp, hi⟩ hpi
      · exact absurd hs.used h.free
      · exact htk
    exact ⟨d, k, ⟨(h.live_iff hbelow d).mpr hs.live, hs.slot, hentry ▸ hs.used⟩, hentry⟩

/-- No cell is touched, so the chains stay with their entries. -/
theorem Moved.consistent (hcons : Consistent tbl fat) (h : Moved tbl tbl' p q i j)
    (hbelow : ¬ Below tbl p i q) : Consistent tbl' fat := by
  have hlive := h.live_iff hbelow
  constructor
  case reserved => exact hcons.reserved
  case selfUsed =>
    intro d hd
    have hd₀ := (hlive d).mp hd
    rcases h.table hd₀ 0 with ⟨-, h0, -⟩ | ⟨-, h0, -⟩ | ⟨-, -, ht⟩
    · exact absurd h0.symm h.slot.slot
    · exact absurd h0.symm h.target
    · exact ht ▸ hcons.selfUsed hd₀
  case leftover =>
    intro d k hd hno
    have hd₀ := (hlive d).mp hd
    rcases h.table hd₀ k with ⟨-, -, ht⟩ | ⟨-, -, ht⟩ | ⟨-, -, ht⟩
    · exact ht
    · rw [ht] at hno
      exact absurd h.slot.used hno
    · rw [ht] at hno ⊢
      exact hcons.unusedZero hd₀ hno
  case chain =>
    intro d k hs
    obtain ⟨d₀, k₀, hs₀, ht, -⟩ := h.origin hbelow hs
    rw [ht]
    exact hcons.chain hs₀
  case disjoint =>
    intro d d' k k' l l' c hs hs' hl hl' hc hc'
    obtain ⟨d₀, k₀, hs₀, ht, hto⟩ := h.origin hbelow hs
    obtain ⟨d₁, k₁, hs₁, ht', hto'⟩ := h.origin hbelow hs'
    obtain ⟨rfl, rfl⟩ := hcons.disjoint hs₀ hs₁ (ht ▸ hl) (ht' ▸ hl') hc hc'
    exact Prod.mk.inj (hto.trans hto'.symm)

end Moving

end OsyVolume
