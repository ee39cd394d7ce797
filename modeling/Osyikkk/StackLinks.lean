import Osyikkk.CommandOutcomes

/-!
# Names that lead to clusters

`read_directory` takes the first slot of a table that is a directory with the name
(`NamedAt`). An edit of the volume keeps what a name leads to, unless it takes that slot
away, frees its table, or puts the name in a slot before it. The levels of the directory
stack are linked when every level is what its name leads to in the level below (`Linked`),
and a walk over a path keeps them linked.
-/

namespace OsyVolume

open OsyDisk OsyFat32 LinkedChain RootedForest

/-- The entry is a directory with the name. -/
def IsDirectory (name : EntryName) (e : FAT32DirectoryEntry) : Prop :=
  e.name = name ∧ e.attr = attrSubdirectory

instance (name : EntryName) (e : FAT32DirectoryEntry) : Decidable (IsDirectory name e) :=
  inferInstanceAs (Decidable (_ ∧ _))

/-- Slot `k` is the first one of table `d` with the name of a directory, and it leads to
    `c`. -/
structure NamedAt (tbl : Tables) (d : UInt32) (name : EntryName) (k : Fin directoryEntryCount)
    (c : UInt32) : Prop where
  named : IsDirectory name (tbl d k)
  first : ∀ j, j < k → ¬ IsDirectory name (tbl d j)
  cluster : (tbl d k).cluster = c

variable {tbl tbl' : Tables} {fat fat' : FAT32FileAllocationTable} {d c : UInt32}
  {name : EntryName} {k : Fin directoryEntryCount}

theorem not_isDirectory_zero : ¬ IsDirectory name FAT32DirectoryEntry.zero := by
  rintro ⟨-, hattr⟩
  exact absurd hattr (by decide)

/-- A directory's slot is in use. -/
theorem Consistent.used_of_isDirectory (hcons : Consistent tbl fat) (hd : Live tbl d)
    (h : IsDirectory name (tbl d k)) : (tbl d k).used := by
  by_contra hun
  rw [hcons.unusedZero hd hun] at h
  exact not_isDirectory_zero h

/-- Behind slot 0 a named directory is an edge of the tree. -/
theorem NamedAt.edge (h : NamedAt tbl d name k c) (hcons : Consistent tbl fat)
    (hd : Live tbl d) (hk : k ≠ 0) : dirEdge tbl d k c :=
  ⟨hk, hcons.used_of_isDirectory hd h.named, h.named.2, h.cluster⟩

theorem NamedAt.unique {k' : Fin directoryEntryCount} {c' : UInt32}
    (h : NamedAt tbl d name k c) (h' : NamedAt tbl d name k' c') : c = c' := by
  obtain rfl : k = k' := by
    refine le_antisymm (not_lt.mp fun hlt => ?_) (not_lt.mp fun hlt => ?_)
    · exact h.first k' hlt h'.named
    · exact h'.first k hlt h.named
  exact h.cluster.symm.trans h'.cluster

/-! ## The three edits -/

section Edits

variable {p q : UInt32} {i j : Fin directoryEntryCount} {e : FAT32DirectoryEntry}
  {l : List UInt32} (hcons : Consistent tbl fat) (hd : Live tbl d)
include hcons hd

/-- An inserted entry hides no name when it is behind the slot that is found. -/
theorem NamedAt.inserted (h : NamedAt tbl d name k c)
    (hins : Inserted tbl tbl' fat fat' p i e l) (hi : i ≠ 0)
    (hbehind : d = p → IsDirectory name e → k < i) : NamedAt tbl' d name k c := by
  have hslot : tbl' d k = tbl d k := by
    rcases hins.table hd k with ⟨rfl, rfl, -⟩ | ⟨-, ht⟩
    · rcases hins.slot with h0 | hun
      · exact absurd h0 hi
      · exact absurd (hcons.used_of_isDirectory hd h.named) hun
    · exact ht
  constructor
  case named => exact hslot ▸ h.named
  case cluster => exact hslot ▸ h.cluster
  case first =>
    intro m hm hnamed
    rcases hins.table hd m with ⟨hdp, rfl, ht⟩ | ⟨-, ht⟩
    · exact absurd (hbehind hdp (ht ▸ hnamed)) (lt_asymm hm)
    · exact h.first m hm (ht ▸ hnamed)

/-- Removing an entry keeps every name that leads elsewhere. -/
theorem NamedAt.removed (h : NamedAt tbl d name k c) (hrem : Removed tbl tbl' fat fat' p i l)
    (hdir : ¬ dirEdge tbl p i d) (hentry : ¬ dirEdge tbl p i c) : NamedAt tbl' d name k c := by
  have hslot : tbl' d k = tbl d k := by
    rcases hrem.table hd hdir k with ⟨rfl, rfl, -⟩ | ⟨-, ht⟩
    · exact absurd (h.edge hcons hd hrem.slot.slot) hentry
    · exact ht
  constructor
  case named => exact hslot ▸ h.named
  case cluster => exact hslot ▸ h.cluster
  case first =>
    intro m hm hnamed
    rcases hrem.table hd hdir m with ⟨-, -, ht⟩ | ⟨-, ht⟩
    · exact not_isDirectory_zero (ht ▸ hnamed)
    · exact h.first m hm (ht ▸ hnamed)

/-- So does moving one to a slot behind the one that is found. -/
theorem NamedAt.moved (h : NamedAt tbl d name k c) (hmove : Moved tbl tbl' p q i j)
    (hentry : ¬ dirEdge tbl p i c) (hbehind : d = q → IsDirectory name (tbl p i) → k < j) :
    NamedAt tbl' d name k c := by
  have hslot : tbl' d k = tbl d k := by
    rcases hmove.table hd k with ⟨rfl, rfl, -⟩ | ⟨rfl, rfl, -⟩ | ⟨-, -, ht⟩
    · exact absurd (h.edge hcons hd hmove.slot.slot) hentry
    · exact absurd (hcons.used_of_isDirectory hd h.named) hmove.free
    · exact ht
  constructor
  case named => exact hslot ▸ h.named
  case cluster => exact hslot ▸ h.cluster
  case first =>
    intro m hm hnamed
    rcases hmove.table hd m with ⟨-, -, ht⟩ | ⟨hdq, rfl, ht⟩ | ⟨-, -, ht⟩
    · exact not_isDirectory_zero (ht ▸ hnamed)
    · exact absurd (hbehind hdq (ht ▸ hnamed)) (lt_asymm hm)
    · exact h.first m hm (ht ▸ hnamed)

end Edits

/-! ## Trees with self entries -/

/-- A consistent volume whose directories name themselves in slot 0, with the root's name in
    the root. -/
structure SelfTree (tbl : Tables) (fat : FAT32FileAllocationTable) : Prop where
  consistent : Consistent tbl fat
  self : ∀ {d}, Live tbl d → (tbl d 0).cluster = d
  root : IsDirectory rootName (tbl rootClusterNumber 0)

section Trees

variable (htree : SelfTree tbl fat)
include htree

/-- What a name leads to is live. -/
theorem SelfTree.named_live (hd : Live tbl d) (h : NamedAt tbl d name k c) : Live tbl c := by
  by_cases hk : k = 0
  · rw [← h.cluster, hk, htree.self hd]
    exact hd
  · exact Reach.child hd (h.edge htree.consistent hd hk)

theorem SelfTree.root_named : NamedAt tbl rootClusterNumber rootName 0 rootClusterNumber where
  named := htree.root
  first _ hj := absurd hj (Fin.not_lt_zero _)
  cluster := htree.self Reach.root

/-- Slot 0 of every directory is as good afterwards when it has not changed. -/
theorem SelfTree.step (hcons : Consistent tbl' fat')
    (hself : ∀ d, Live tbl' d → (Live tbl d ∧ tbl' d 0 = tbl d 0) ∨ (tbl' d 0).cluster = d)
    (hroot : tbl' rootClusterNumber 0 = tbl rootClusterNumber 0) : SelfTree tbl' fat' where
  consistent := hcons
  self hd := by
    rcases hself _ hd with ⟨hold, hsame⟩ | hnew
    · exact hsame ▸ htree.self hold
    · exact hnew
  root := hroot ▸ htree.root

variable {p q : UInt32} {i j : Fin directoryEntryCount} {e : FAT32DirectoryEntry}
  {l : List UInt32}

theorem SelfTree.inserted (h : Inserted tbl tbl' fat fat' p i e l) (hi : i ≠ 0)
    (hself : e.attr = attrSubdirectory → (tbl' e.cluster 0).cluster = e.cluster) :
    SelfTree tbl' fat' := by
  refine htree.step (h.consistent htree.consistent) ?_ (h.self_kept hi Reach.root)
  intro d hd
  rcases (h.live_iff d).mp hd with hold | ⟨rfl, -, hattr⟩
  · exact Or.inl ⟨hold, h.self_kept hi hold⟩
  · exact Or.inr (hself hattr)

theorem SelfTree.removed (h : Removed tbl tbl' fat fat' p i l) : SelfTree tbl' fat' := by
  have hcons := htree.consistent
  have hsame : ∀ d, Live tbl d → ¬ dirEdge tbl p i d → tbl' d 0 = tbl d 0 := by
    intro d hd hx
    rcases h.table hd hx 0 with ⟨-, h0, -⟩ | ⟨-, ht⟩
    · exact absurd h0.symm h.slot.slot
    · exact ht
  refine htree.step (h.consistent hcons) ?_
    (hsame _ Reach.root (hcons.uniqueParent.root h.slot.live))
  intro d hd
  obtain ⟨hold, hx⟩ := (h.live_iff hcons d).mp hd
  exact Or.inl ⟨hold, hsame d hold hx⟩

theorem SelfTree.moved (h : Moved tbl tbl' p q i j) (hbelow : ¬ Below tbl p i q) :
    SelfTree tbl' fat := by
  have hsame : ∀ d, Live tbl d → tbl' d 0 = tbl d 0 := by
    intro d hd
    rcases h.table hd 0 with ⟨-, h0, -⟩ | ⟨-, h0, -⟩ | ⟨-, -, ht⟩
    · exact absurd h0.symm h.slot.slot
    · exact absurd h0.symm h.target
    · exact ht
  refine htree.step (h.consistent htree.consistent hbelow) ?_ (hsame _ Reach.root)
  intro d hd
  have hold := (h.live_iff hbelow d).mp hd
  exact Or.inl ⟨hold, hsame d hold⟩

end Trees

/-- The fresh file system is such a tree. -/
theorem fresh_selfTree (disk : Disk) :
    SelfTree (freshFileSystem disk).table (freshFileSystem disk).fat where
  consistent := fresh_consistent disk
  self hd := (fresh_owned disk).self hd
  root := by
    rw [fresh_root]
    have hself := initDirectoryTable_self (fun _ => FAT32DirectoryEntry.zero) rootName
      rootClusterNumber
    exact ⟨hself.2.2.1, hself.2.1⟩

end OsyVolume

namespace OsyShell

open OsyDisk OsyFat32 OsyVolume PartialRun

variable {fs : FileSystem} {tbl tbl' : Tables} {fat : FAT32FileAllocationTable}
  {d c : UInt32} {name : EntryName} {k : Fin directoryEntryCount} {levels : List Level}

/-! ## Lookups -/

theorem findTable_named {t : FAT32DirectoryTable} (h : findTable fs d name = some t) :
    name ≠ (fun _ => 0) ∧ ∃ k c, NamedAt fs.table d name k c ∧ t = fs.table c := by
  rw [findTable] at h
  split_ifs at h with hname
  obtain ⟨k, hk, rfl⟩ := Option.map_eq_some_iff.mp h
  obtain ⟨-, hmatch, hfirst⟩ := (find?_ordered (slotsFrom_ordered 0)).mp hk
  simp only [decide_eq_true_eq] at hmatch hfirst
  refine ⟨hname, k, _, ⟨⟨hmatch.1.symm, hmatch.2⟩, ?_, rfl⟩, rfl⟩
  intro j hj hnamed
  exact hfirst j (mem_slotsFrom_zero j) hj ⟨hnamed.1.symm, hnamed.2⟩

theorem findTable_of_named (hname : name ≠ fun _ => 0) (h : NamedAt fs.table d name k c) :
    findTable fs d name = some (fs.table c) := by
  have hk : ((slotsFrom 0).find? fun i =>
      name = (fs.table d i).name ∧ (fs.table d i).attr = attrSubdirectory) = some k := by
    rw [find?_ordered (slotsFrom_ordered 0)]
    simp only [decide_eq_true_eq]
    refine ⟨mem_slotsFrom_zero k, ⟨h.named.1.symm, h.named.2⟩, ?_⟩
    intro j _ hj hmatch
    exact h.first j hj ⟨hmatch.1.symm, hmatch.2⟩
  rw [findTable, if_neg hname, hk, Option.map_some, h.cluster]

/-- The cluster the shell takes for a name is the one the name leads to. -/
theorem findDirectory_named (htree : SelfTree fs.table fs.fat) (hd : Live fs.table d)
    (h : findDirectory fs d name = some c) :
    name ≠ (fun _ => 0) ∧ ∃ k, NamedAt fs.table d name k c := by
  obtain ⟨t, ht, rfl⟩ := Option.map_eq_some_iff.mp h
  obtain ⟨hname, k, c, hk, rfl⟩ := findTable_named ht
  rw [htree.self (htree.named_live hd hk)]
  exact ⟨hname, k, hk⟩

/-! ## Linked levels -/

/-- The upper level is what its name leads to in the lower one. -/
def Link (tbl : Tables) (top below : Level) : Prop :=
  top.dirName ≠ (fun _ => 0) ∧ ∃ k, NamedAt tbl below.number top.dirName k top.number

/-- The levels begin with the root, and every other one is linked to the one below it. -/
structure Linked (tbl : Tables) (levels : List Level) : Prop where
  bottom : levels.getLast? = some rootLevel
  chain : levels.IsChain (Link tbl)

theorem linked_start (tbl : Tables) : Linked tbl [rootLevel] where
  bottom := rfl
  chain := List.isChain_singleton _

theorem Linked.suffix {levels' : List Level} (h : Linked tbl levels) (hne : levels' ≠ [])
    (hsuffix : levels' <:+ levels) : Linked tbl levels' where
  bottom := by
    obtain ⟨above, rfl⟩ := hsuffix
    rw [← h.bottom, List.getLast?_append_of_ne_nil _ hne]
  chain := h.chain.suffix hsuffix

theorem Linked.tail {top below : Level} {rest : List Level}
    (h : Linked tbl (top :: below :: rest)) : Linked tbl (below :: rest) :=
  h.suffix (List.cons_ne_nil _ _) (List.suffix_cons _ _)

theorem Linked.push {top below : Level} {rest : List Level} (h : Linked tbl (below :: rest))
    (hlink : Link tbl top below) : Linked tbl (top :: below :: rest) where
  bottom := by
    rw [List.getLast?_cons_cons]
    exact h.bottom
  chain := List.isChain_cons_cons.mpr ⟨hlink, h.chain⟩

/-- Links between the levels that are kept keep the levels linked. -/
theorem Linked.mono (h : Linked tbl levels)
    (hkeep : ∀ top ∈ levels, ∀ below ∈ levels, ∀ k,
      NamedAt tbl below.number top.dirName k top.number →
      NamedAt tbl' below.number top.dirName k top.number) : Linked tbl' levels where
  bottom := h.bottom
  chain := by
    refine h.chain.imp_of_mem_imp ?_
    rintro top below htop hbelow ⟨hname, k, hk⟩
    exact ⟨hname, k, hkeep top htop below hbelow k hk⟩

theorem dirName_entered (name : EntryName) (n : UInt32) :
    (Level.entered name n).dirName = name := by
  funext j
  exact dif_pos j.isLt

theorem dirName_rootLevel : rootLevel.dirName = rootName := by decide

/-- The root is found by its name when its slot 0 leads to it. -/
theorem currentTable_start (h : NamedAt fs.table rootClusterNumber rootName 0 rootClusterNumber) :
    currentTable fs [rootLevel] = some (fs.table rootClusterNumber) := by
  rw [currentTable, dirName_rootLevel]
  exact findTable_of_named (by decide) h

section Trees

variable (htree : SelfTree tbl fat)
include htree

/-- Linked levels are live directories. -/
theorem Linked.live (h : Linked tbl levels) : ∀ l ∈ levels, Live tbl l.number := by
  induction levels with
  | nil => exact fun _ hl => absurd hl List.not_mem_nil
  | cons top rest ih =>
      cases rest with
      | nil =>
          intro l hl
          obtain rfl := List.mem_singleton.mp hl
          obtain rfl := Option.some.inj h.bottom
          exact RootedForest.Reach.root
      | cons below rest =>
          have hrest := ih h.tail
          intro l hl
          rcases List.mem_cons.mp hl with rfl | hl
          · obtain ⟨-, k, hk⟩ := (List.isChain_cons_cons.mp h.chain).1
            exact htree.named_live (hrest below List.mem_cons_self) hk
          · exact hrest l hl

theorem Linked.directory_live (h : Linked tbl levels) : Live tbl (directoryNumber levels) := by
  cases levels with
  | nil => exact RootedForest.Reach.root
  | cons top rest => exact h.live htree top List.mem_cons_self

end Trees

section Walks

variable (htree : SelfTree fs.table fs.fat)
include htree

/-- A step of a walk keeps the levels linked. -/
theorem Linked.step {levels' : List Level} {row : List UInt8}
    (h : Linked fs.table levels) (hstep : walkStep fs levels row = some levels') :
    Linked fs.table levels' := by
  rw [walkStep, enter] at hstep
  split_ifs at hstep
  · obtain rfl := Option.some.inj hstep
    rcases levels with _ | ⟨_, _ | ⟨_, _⟩⟩
    · exact h
    · exact h
    · exact h.tail
  · obtain rfl := Option.some.inj hstep
    exact h
  · cases levels with
    | nil => cases hstep
    | cons top rest =>
        obtain ⟨n, hfind, rfl⟩ := Option.map_eq_some_iff.mp hstep
        obtain ⟨hname, k, hk⟩ :=
          findDirectory_named htree (h.live htree top List.mem_cons_self) hfind
        refine h.push ⟨?_, k, ?_⟩
        · rw [dirName_entered]
          exact hname
        · rw [dirName_entered]
          exact hk

/-- **Walks keep the levels linked.** -/
theorem Linked.walk (h : Linked fs.table levels) (rows : List (List UInt8)) :
    Linked fs.table (skipping (walkStep fs) levels rows) := by
  refine skipping_invariant _ ?_ h
  intro levels row levels' h hstep
  exact h.step htree hstep

/-- The table that is looked up by name is the one at the number. -/
theorem Linked.table_found (h : Linked fs.table levels) :
    currentTable fs levels = some (fs.table (directoryNumber levels)) := by
  match levels, h with
  | [], h => exact nomatch h.bottom
  | [top], h =>
      obtain rfl := Option.some.inj h.bottom
      exact currentTable_start htree.root_named
  | top :: below :: rest, h =>
      obtain ⟨hname, k, hk⟩ := (List.isChain_cons_cons.mp h.chain).1
      exact findTable_of_named hname hk

end Walks

end OsyShell
