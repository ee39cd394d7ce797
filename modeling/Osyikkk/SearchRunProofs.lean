import Osyikkk.SearchProofs
import Osyikkk.DirectoryRemovalProofs

/-!
# Searches of reachable volumes

What a volume must satisfy for a search to enter each directory once (`SearchSound`), what a
write must meet so that this is kept (`KeepsSearch`), and a volume on which the names lead a
search astray.
-/

namespace OsyShell

open OsyDisk OsyFat32 OsyVolume PartialRun RootedForest TreeWalk

/-- The number of levels below the root. -/
structure TreeDepth (tbl : Tables) (h : ℕ) : Prop where
  bound : ∀ l d, Path (dirEdge tbl) rootClusterNumber l d → l.length ≤ h
  attained : ∃ l d, Path (dirEdge tbl) rootClusterNumber l d ∧ l.length = h

open Classical in
theorem exists_treeDepth {tbl : Tables} {n : ℕ}
    (hn : ∀ l d, Path (dirEdge tbl) rootClusterNumber l d → l.length ≤ n) :
    ∃ h, TreeDepth tbl h := by
  have hex : ∃ h, ∀ l d, Path (dirEdge tbl) rootClusterNumber l d → l.length ≤ h := ⟨n, hn⟩
  refine ⟨Nat.find hex, Nat.find_spec hex, ?_⟩
  by_contra hnone
  push Not at hnone
  -- no path is that long, so a smaller bound would do
  have hlt : ∀ l d, Path (dirEdge tbl) rootClusterNumber l d → l.length < Nat.find hex :=
    fun l d hp => lt_of_le_of_ne (Nat.find_spec hex l d hp) (hnone l d hp)
  have hpos : 0 < Nat.find hex := hlt [] _ Path.root
  refine Nat.find_min hex (Nat.sub_lt hpos Nat.one_pos) ?_
  intro l d hp
  exact Nat.le_sub_one_of_lt (hlt l d hp)

/-- A search makes one call for each directory, and its calls are nested as deep as the tree
    at most. -/
def SearchesOnce (fs : FileSystem) : Prop :=
  ∃ h, TreeDepth fs.table h ∧
    ∀ (reqTable : List SearchLevel → FAT32DirectoryTable) (name ext : List UInt8),
      ∃ events, whereIs reqTable fs name ext (h + 1) [searchRoot] = some events ∧
        (entered events).Nodup ∧ ∀ d, d ∈ entered events ↔ Live fs.table d

/-- The location of an entry with this attribute. -/
def locationOf (path : List SearchLevel) (attr : UInt8) (name : EntryName) (ext : EntryExt) :
    List UInt8 :=
  if attr ≠ attrArchive then folderText path else fileText path name ext

/-- The volumes on which names lead a search once through the tree. -/
structure SearchSound (tbl : Tables) : Prop where
  kinds : Kinds tbl
  root : IsDirectory rootName (tbl rootClusterNumber 0) ∧
    (tbl rootClusterNumber 0).cluster = rootClusterNumber
  named : ∀ {d i}, UsedSlot tbl d i → (tbl d i).name ≠ fun _ => 0
  apart : ∀ {d i c}, Live tbl d → dirEdge tbl d i c → ¬ IsDirectory (tbl d i).name (tbl d 0)
  twins : ∀ {d i j c c'}, Live tbl d → dirEdge tbl d i c → dirEdge tbl d j c' →
    (tbl d i).name = (tbl d j).name → i = j ∨ ∀ k x, ¬ dirEdge tbl c k x
  fits : ∀ {l d i}, Path (dirEdge tbl) rootClusterNumber l d → UsedSlot tbl d i →
    (locationOf (levelsTo tbl l) (tbl d i).attr (tbl d i).name (tbl d i).ext).length < 256
  shallow : ∀ {l d}, Path (dirEdge tbl) rootClusterNumber l d → l.length < 255

variable {tbl tbl' : Tables} {fat fat' : FAT32FileAllocationTable} {fs : FileSystem}
  {d c p : UInt32} {i j idx : Fin directoryEntryCount} {l : List (Fin directoryEntryCount)}

theorem slotText_location {name ext : List UInt8} {path : List SearchLevel}
    {e : FAT32DirectoryEntry} {str : List UInt8} (h : slotText name ext path e = some str) :
    e.used ∧ str = locationOf path e.attr e.name e.ext := by
  rw [slotText] at h
  split_ifs at h with h1 h2 h3
  · exact ⟨h1.1, (Option.some.inj h).symm.trans (if_pos h2).symm⟩
  · exact ⟨h1.1, (Option.some.inj h).symm.trans (if_neg h2).symm⟩

/-- A location depends on the names of the levels only. -/
theorem locationOf_namesake
    (hname : (tbl (dirAt tbl l) i).name = (tbl (dirAt tbl l) j).name) (attr : UInt8)
    (name : EntryName) (ext : EntryExt) :
    locationOf (levelsTo tbl (i :: l)) attr name ext
      = locationOf (levelsTo tbl (j :: l)) attr name ext := by
  have hbelow : namesBelow (levelsTo tbl (i :: l)) = namesBelow (levelsTo tbl (j :: l)) := by
    rw [levelsTo, levelsTo, namesBelow_cons (levelsTo_ne_nil tbl l),
      namesBelow_cons (levelsTo_ne_nil tbl l), hname]
  rw [locationOf, locationOf, folderText_eq (levelsTo_ne_nil tbl (i :: l)),
    folderText_eq (levelsTo_ne_nil tbl (j :: l)), fileText_eq (levelsTo_ne_nil tbl (i :: l)),
    fileText_eq (levelsTo_ne_nil tbl (j :: l)), hbelow]

/-- Neither directories nor locations that do not fit. -/
def Fruitless (tbl : Tables) (l : List (Fin directoryEntryCount)) (t : FAT32DirectoryTable) :
    Prop :=
  (∀ i, i ≠ 0 → ¬ IsFolder (t i)) ∧ ∀ i, i ≠ 0 → (t i).used →
    (locationOf (levelsTo tbl l) (t i).attr (t i).name (t i).ext).length < 256

theorem SearchSound.fruitless (h : SearchSound tbl)
    (hpath : Path (dirEdge tbl) rootClusterNumber l d)
    (hleaf : ∀ k x, ¬ dirEdge tbl d k x) : Fruitless tbl l (tbl d) := by
  have hlive : Live tbl d := reach_of_path hpath
  refine ⟨?_, fun i hi hused => h.fits hpath ⟨hlive, hi, hused⟩⟩
  intro i hi hfolder
  obtain ⟨hused, hattr⟩ := (h.kinds.folder_iff hlive hi).mp hfolder
  exact hleaf i _ ⟨hi, hused, hattr, rfl⟩

/-- A directory's name leads to a directory of the same parent, when slot 0 of the parent has
    another name. -/
theorem named_sibling (hcons : Consistent tbl fat) (hd : Live tbl d) (he : dirEdge tbl d i c)
    (happart : ¬ IsDirectory (tbl d i).name (tbl d 0)) :
    ∃ k, NamedAt tbl d (tbl d i).name k (tbl d k).cluster ∧
      dirEdge tbl d k (tbl d k).cluster := by
  obtain ⟨k, hk, hmin⟩ := wellFounded_lt.has_min
    {k : Fin directoryEntryCount | IsDirectory (tbl d i).name (tbl d k)} ⟨i, rfl, he.2.2.1⟩
  have hnamed : NamedAt tbl d (tbl d i).name k (tbl d k).cluster :=
    ⟨hk, fun j hj hnamed => hmin j hnamed hj, rfl⟩
  have hk0 : k ≠ 0 := by
    rintro rfl
    exact happart hk
  exact ⟨k, hnamed, hnamed.edge hcons hd hk0⟩

/-- The first slot with a directory's name leads to it or to a leaf. -/
theorem SearchSound.finds (h : SearchSound tbl) (hcons : Consistent tbl fat) :
    FindsDirectories (Fruitless tbl) tbl where
  root := ⟨0, h.root.1, fun j hj => absurd hj (Fin.not_lt_zero j), h.root.2⟩
  child := by
    intro l d i c hpath he
    have hlive : Live tbl d := reach_of_path hpath
    refine ⟨h.named (usedSlot_of_dirEdge hlive he), ?_⟩
    obtain ⟨k, hnamed, hek⟩ := named_sibling hcons hlive he (h.apart hlive he)
    have hk := hnamed.named
    refine ⟨k, _, hnamed, ?_⟩
    rcases h.twins hlive he hek hk.1.symm with rfl | hleaf
    · exact Or.inl he.2.2.2
    · rcases h.twins hlive hek he hk.1 with rfl | hleaf'
      · exact Or.inl he.2.2.2
      · have hx := h.fruitless (Path.child hpath hek) hleaf'
        refine Or.inr ⟨⟨hx.1, ?_⟩, h.fruitless (Path.child hpath he) hleaf⟩
        intro m hm hused
        have hsame : (tbl (dirAt tbl l) k).name = (tbl (dirAt tbl l) i).name := by
          rw [dirAt_path hpath]
          exact hk.1
        have hfits := hx.2 m hm hused
        rwa [locationOf_namesake hsame] at hfits

/-- Where siblings have different names, every directory is found. -/
theorem SearchSound.finds_distinct (h : SearchSound tbl) (hcons : Consistent tbl fat)
    (hdistinct : ∀ {d i j c c'}, Live tbl d → dirEdge tbl d i c → dirEdge tbl d j c' →
      (tbl d i).name = (tbl d j).name → i = j)
    (B : List (Fin directoryEntryCount) → FAT32DirectoryTable → Prop) :
    FindsDirectories B tbl where
  root := ⟨0, h.root.1, fun j hj => absurd hj (Fin.not_lt_zero j), h.root.2⟩
  child := by
    intro l d i c hpath he
    have hlive : Live tbl d := reach_of_path hpath
    refine ⟨h.named (usedSlot_of_dirEdge hlive he), ?_⟩
    obtain ⟨k, hnamed, hek⟩ := named_sibling hcons hlive he (h.apart hlive he)
    obtain rfl := hdistinct hlive he hek hnamed.named.1.symm
    exact ⟨i, _, hnamed, Or.inl he.2.2.2⟩

/-- **On a sound volume a search enters each directory once.** -/
theorem SearchSound.searchesOnce (h : SearchSound fs.table) (hcons : FsConsistent fs) :
    SearchesOnce fs := by
  obtain ⟨n, hdepth⟩ := exists_treeDepth fun l d hp => Nat.le_of_lt (h.shallow (l := l) hp)
  refine ⟨n, hdepth, ?_⟩
  intro reqTable name ext
  obtain ⟨seen, hseen, htables⟩ := (h.finds hcons).seen (fun l t ht => ht.1) reqTable
  have hfits : ∀ l d, Path (dirEdge fs.table) rootClusterNumber l d → ∀ i, i ≠ 0 → ∀ str,
      slotText name ext (levelsTo fs.table l) (seen l d i) = some str → str.length < 256 := by
    intro l d hp i hi str hstr
    obtain ⟨hused, rfl⟩ := slotText_location hstr
    rcases htables l d hp with heq | ⟨ht, -⟩
    · rw [heq] at hused ⊢
      exact h.fits hp ⟨reach_of_path hp, hi, hused⟩
    · exact ht.2 i hi hused
  have hwalk := whereIs_eq_walk (n := n + 1) h.kinds hseen (fun l d hp => h.shallow hp) hfits
    Path.root fun l d hp => by
      rw [List.length_nil, Nat.zero_add]
      exact Nat.lt_succ_of_le (hdepth.bound l d hp)
  have hperm : (entered (searchWalk fs seen name ext (n + 1) [] rootClusterNumber)).Perm _ :=
    entered_walk seen name ext (n + 1)
  refine ⟨_, hwalk, ?_, ?_⟩
  · exact hperm.nodup_iff.mpr (walkedNodes_nodup hcons (n + 1))
  · intro d
    rw [hperm.mem_iff]
    exact mem_walkedNodes fun l d hp => Nat.lt_succ_of_le (hdepth.bound l d hp)

/-! ## Paths and edits -/

/-- A path whose slots keep their entries has the same levels. -/
theorem levels_congr (hpath : Path (dirEdge tbl) rootClusterNumber l d)
    (hkept : ∀ d i c, Live tbl d → dirEdge tbl d i c → tbl' d i = tbl d i) :
    levelsTo tbl' l = levelsTo tbl l ∧ dirAt tbl' l = dirAt tbl l := by
  induction hpath with
  | root => exact ⟨rfl, rfl⟩
  | @child d c i l hp he ih =>
      have hslot := hkept d i c (reach_of_path hp) he
      obtain ⟨hlevels, hat⟩ := ih
      rw [levelsTo, dirAt, levelsTo, dirAt, hlevels, hat, dirAt_path hp, hslot]
      exact ⟨rfl, rfl⟩

section Edits

variable {e : FAT32DirectoryEntry} {chain : List UInt32} (hcons : Consistent tbl fat)
include hcons

omit hcons in
/-- A path afterwards is an old one, or it ends in the new directory. -/
theorem inserted_path (h : Inserted tbl tbl' fat fat' p idx e chain)
    (hpath : Path (dirEdge tbl') rootClusterNumber l d) :
    Path (dirEdge tbl) rootClusterNumber l d ∨
      idx ≠ 0 ∧ e.attr = attrSubdirectory ∧ d = e.cluster ∧
        ∃ l₀, l = idx :: l₀ ∧ Path (dirEdge tbl) rootClusterNumber l₀ p := by
  induction hpath with
  | root => exact Or.inl Path.root
  | @child d c i l hp he ih =>
      rcases ih with hold | ⟨-, hattr, rfl, -⟩
      · rcases (h.edge d i c (reach_of_path hold)).mp he with hedge | ⟨rfl, rfl, hc, h0, hattr⟩
        · exact Or.inl (Path.child hold hedge)
        · exact Or.inr ⟨h0, hattr, hc, l, rfl, hold⟩
      · have hused := he.2.1
        rw [h.dirZero hattr i he.1] at hused
        exact absurd hused zero_not_used

theorem removed_path (h : Removed tbl tbl' fat fat' p i chain)
    (hpath : Path (dirEdge tbl') rootClusterNumber l d) :
    Path (dirEdge tbl) rootClusterNumber l d := by
  induction hpath with
  | root => exact Path.root
  | @child d c j l hp he ih =>
      have hx := ((h.live_iff hcons d).mp (reach_of_path hp)).2
      exact Path.child ih ((h.edge d j c (reach_of_path ih) hx).mp he).1

omit hcons in
theorem inserted_levels (h : Inserted tbl tbl' fat fat' p idx e chain)
    (hpath : Path (dirEdge tbl) rootClusterNumber l d) :
    levelsTo tbl' l = levelsTo tbl l :=
  (levels_congr hpath fun _ _ _ hd he => h.entry_kept (usedSlot_of_dirEdge hd he)).1

theorem removed_levels (h : Removed tbl tbl' fat fat' p i chain)
    (hpath : Path (dirEdge tbl') rootClusterNumber l d) :
    levelsTo tbl' l = levelsTo tbl l :=
  ((levels_congr hpath fun _ _ _ hd he =>
    (h.entry_kept hcons (usedSlot_of_dirEdge hd he)).symm).1).symm

end Edits

/-! ## What a write must meet -/

/-- An entry of `p` that makes no name ambiguous: a directory is not named like the one in
    slot 0 of `p`, and neither like a sibling with directories of its own nor in a `p` that
    has namesakes. Its location has to fit as well. -/
structure StoredApart (tbl : Tables) (p : UInt32) (attr : UInt8) (name : EntryName)
    (ext : EntryExt) : Prop where
  self : attr = attrSubdirectory → ¬ IsDirectory name (tbl p 0)
  twins : attr = attrSubdirectory → ∀ j c, dirEdge tbl p j c → (tbl p j).name = name →
    ∀ k x, ¬ dirEdge tbl c k x
  parent : attr = attrSubdirectory → ∀ q i j c, Live tbl q → dirEdge tbl q i p →
    dirEdge tbl q j c → (tbl q j).name = (tbl q i).name → j = i
  fits : ∀ l, Path (dirEdge tbl) rootClusterNumber l p →
    (locationOf (levelsTo tbl l) attr name ext).length < 256
  shallow : attr = attrSubdirectory → ∀ l, Path (dirEdge tbl) rootClusterNumber l p →
    l.length < 254

/-- In a full table the entry replaces slot 0: this is not the root's, and no directory has
    the name that slot 0 gets. -/
def StoredOverSelf (tbl : Tables) (p : UInt32) (attr : UInt8) (name : EntryName) : Prop :=
  p ≠ rootClusterNumber ∧
    (attr = attrSubdirectory → ∀ i c, dirEdge tbl p i c → (tbl p i).name ≠ name)

section Inserting

variable {e : FAT32DirectoryEntry} {chain : List UInt32} (hcons : Consistent tbl fat)
  (hins : Inserted tbl tbl' fat fat' p idx e chain)
include hins

/-- The new directory has no directories. -/
theorem inserted_leaf (hattr : e.attr = attrSubdirectory) (k : Fin directoryEntryCount)
    (x : UInt32) : ¬ dirEdge tbl' e.cluster k x := by
  intro he
  have hused := he.2.1
  rw [hins.dirZero hattr k he.1] at hused
  exact zero_not_used hused

/-- A directory with an edge afterwards was there before. -/
theorem inserted_parent (hd : Live tbl' d) (he : dirEdge tbl' d i c) : Live tbl d := by
  rcases (hins.live_iff d).mp hd with hold | ⟨rfl, -, hattr⟩
  · exact hold
  · exact absurd he (inserted_leaf hins hattr i c)

theorem inserted_kept (hd : Live tbl d) (he : dirEdge tbl d i c) : tbl' d i = tbl d i :=
  hins.entry_kept (usedSlot_of_dirEdge hd he)

/-- No directory has the name of its parent. -/
theorem SearchSound.apart_inserted (h : SearchSound tbl)
    (happart : idx ≠ 0 → StoredApart tbl p e.attr e.name e.ext)
    (hself : idx = 0 → StoredOverSelf tbl p e.attr e.name) (hd : Live tbl' d)
    (he : dirEdge tbl' d i c) : ¬ IsDirectory (tbl' d i).name (tbl' d 0) := by
  intro hnamed
  have hold := inserted_parent hins hd he
  rcases (hins.edge d i c hold).mp he with hedge | ⟨rfl, rfl, -, h0, hattr⟩
  · rw [inserted_kept hins hold hedge] at hnamed
    rcases hins.table hold 0 with ⟨rfl, h0, ht⟩ | ⟨-, ht⟩
    · rw [ht] at hnamed
      exact (hself h0.symm).2 hnamed.2 i c hedge hnamed.1.symm
    · rw [ht] at hnamed
      exact h.apart hold hedge hnamed
  · rw [hins.self_kept h0 hold, hins.entry, Function.update_self] at hnamed
    exact (happart h0).self hattr hnamed

include hcons

/-- The first of two directories of one name has no directories. -/
theorem SearchSound.twins_inserted {c' : UInt32} (h : SearchSound tbl)
    (happart : idx ≠ 0 → StoredApart tbl p e.attr e.name e.ext) (hd : Live tbl' d)
    (he : dirEdge tbl' d i c) (he' : dirEdge tbl' d j c')
    (hsame : (tbl' d i).name = (tbl' d j).name) : i = j ∨ ∀ k x, ¬ dirEdge tbl' c k x := by
  have hold := inserted_parent hins hd he
  rcases (hins.edge d i c hold).mp he with hedge | ⟨rfl, rfl, rfl, h0, hattr⟩
  · have hc : Live tbl c := Reach.child hold hedge
    rcases (hins.edge d j c' hold).mp he' with hedge' | ⟨rfl, rfl, -, h0, hattr⟩
    · rw [inserted_kept hins hold hedge, inserted_kept hins hold hedge'] at hsame
      rcases h.twins hold hedge hedge' hsame with hij | hleaf
      · exact Or.inl hij
      · by_cases hnew : c = p ∧ idx ≠ 0 ∧ e.attr = attrSubdirectory
        · obtain ⟨rfl, h0, hattr⟩ := hnew
          exact Or.inl ((happart h0).parent hattr d i j c' hold hedge hedge' hsame.symm).symm
        · refine Or.inr fun k x hx => ?_
          rcases (hins.edge c k x hc).mp hx with hx | ⟨hcp, -, -, h0, hattr⟩
          · exact hleaf k x hx
          · exact hnew ⟨hcp, h0, hattr⟩
    · rw [inserted_kept hins hold hedge, hins.entry, Function.update_self] at hsame
      have hleaf := (happart h0).twins hattr i c hedge hsame
      refine Or.inr fun k x hx => ?_
      rcases (hins.edge c k x hc).mp hx with hx | ⟨rfl, -⟩
      · exact hleaf k x hx
      · exact not_reach_back hcons.uniqueParent hold hedge Reach.root
  · exact Or.inr (inserted_leaf hins hattr)

theorem SearchSound.inserted (h : SearchSound tbl) (hname : e.name ≠ fun _ => 0)
    (hkind : e.attr = attrSubdirectory ∨ e.attr = attrArchive)
    (happart : idx ≠ 0 → StoredApart tbl p e.attr e.name e.ext)
    (hself : idx = 0 → StoredOverSelf tbl p e.attr e.name) : SearchSound tbl' := by
  constructor
  case kinds =>
    intro d i hs
    rcases hins.usedSlot hs with ⟨-, -, -, ht⟩ | ⟨hold, -, ht⟩
    · rw [ht]
      exact hkind
    · rw [ht]
      exact h.kinds d i hold
  case root =>
    rcases hins.table Reach.root 0 with ⟨hroot, h0, -⟩ | ⟨-, ht⟩
    · exact absurd hroot.symm (hself h0.symm).1
    · rw [ht]
      exact h.root
  case named =>
    intro d i hs
    rcases hins.usedSlot hs with ⟨-, -, -, ht⟩ | ⟨hold, -, ht⟩
    · rw [ht]
      exact hname
    · rw [ht]
      exact h.named hold
  case apart => exact fun hd he => h.apart_inserted hins happart hself hd he
  case twins =>
    exact fun hd he he' hsame => h.twins_inserted hcons hins happart hd he he' hsame
  case fits =>
    intro l d i hp hs
    rcases inserted_path hins hp with hold | ⟨h0, hattr, rfl, -⟩
    · rw [inserted_levels hins hold]
      rcases hins.usedSlot hs with ⟨rfl, -, h0, ht⟩ | ⟨hs, -, ht⟩
      · rw [ht]
        exact (happart h0).fits l hold
      · rw [ht]
        exact h.fits hold hs
    · have hused := hs.used
      rw [hins.dirZero hattr i hs.slot] at hused
      exact absurd hused zero_not_used
  case shallow =>
    intro l d hp
    rcases inserted_path hins hp with hold | ⟨h0, hattr, -, l₀, rfl, hp₀⟩
    · exact h.shallow hold
    · exact Nat.succ_lt_succ ((happart h0).shallow hattr l₀ hp₀)

end Inserting

theorem SearchSound.removed {chain : List UInt32} (hcons : Consistent tbl fat)
    (hrem : Removed tbl tbl' fat fat' p i chain) (h : SearchSound tbl) : SearchSound tbl' := by
  have hold : ∀ {d j}, UsedSlot tbl' d j → UsedSlot tbl d j :=
    fun hs => ((hrem.usedSlot_iff hcons).mp hs).1
  have hedge : ∀ {d j c}, Live tbl' d → dirEdge tbl' d j c → dirEdge tbl d j c := by
    intro d j c hd he
    have hs := usedSlot_of_dirEdge hd he
    rw [dirEdge, hrem.entry_kept hcons hs] at he
    exact he
  have hlive : ∀ {d}, Live tbl' d → Live tbl d := fun hd => ((hrem.live_iff hcons _).mp hd).1
  constructor
  case kinds =>
    intro d j hs
    rw [hrem.entry_kept hcons hs]
    exact h.kinds d j (hold hs)
  case root =>
    rw [hrem.self_kept hcons Reach.root]
    exact h.root
  case named =>
    intro d j hs
    rw [hrem.entry_kept hcons hs]
    exact h.named (hold hs)
  case apart =>
    intro d j c hd he
    rw [hrem.self_kept hcons hd, hrem.entry_kept hcons (usedSlot_of_dirEdge hd he)]
    exact h.apart (hlive hd) (hedge hd he)
  case twins =>
    intro d j k c c' hd he he' hsame
    rw [hrem.entry_kept hcons (usedSlot_of_dirEdge hd he),
      hrem.entry_kept hcons (usedSlot_of_dirEdge hd he')] at hsame
    rcases h.twins (hlive hd) (hedge hd he) (hedge hd he') hsame with hjk | hleaf
    · exact Or.inl hjk
    · exact Or.inr fun m x hx => hleaf m x (hedge (Reach.child hd he) hx)
  case fits =>
    intro l d j hp hs
    rw [removed_levels hcons hrem hp, hrem.entry_kept hcons hs]
    exact h.fits (removed_path hcons hrem hp) (hold hs)
  case shallow =>
    intro l d hp
    exact h.shallow (removed_path hcons hrem hp)

/-! ## Runs -/

/-- The attribute that `write` stores. -/
def storedAttr (request : FAT32DriverRequest) : UInt8 :=
  if request.bufferSize = 0 then attrSubdirectory else attrArchive

/-- What a write that succeeds must meet. -/
def KeepsSearch (fs : FileSystem) : Call → Prop
  | .write newTable request => (∃ fs', OsyFat32.write newTable request fs = some (0, fs')) →
      (writeSlot request fs ≠ 0 → StoredApart fs.table request.parentClusterNumber
        (storedAttr request) request.name request.ext) ∧
      (writeSlot request fs = 0 → StoredOverSelf fs.table request.parentClusterNumber
        (storedAttr request) request.name)
  | _ => True

/-- The extension of a directory's request is not stored and not printed. -/
theorem StoredApart.directory {name : EntryName} {ext : EntryExt}
    (h : StoredApart tbl p attrSubdirectory name ext) (ext' : EntryExt) :
    StoredApart tbl p attrSubdirectory name ext' :=
  ⟨h.self, h.twins, h.parent, h.fits, h.shallow⟩

/-- Consistency together with what a search needs. -/
def SearchInvariant (fs : FileSystem) : Prop := FsConsistent fs ∧ SearchSound fs.table

theorem searchSound_written {newTable : FAT32DirectoryTable}
    {request : FAT32DriverRequest} {code : Int8} {fs' : FileSystem} (hinv : SearchInvariant fs)
    (hlive : OnLiveDirectory fs (.write newTable request))
    (hkeep : KeepsSearch fs (.write newTable request))
    (hwrite : OsyFat32.write newTable request fs = some (code, fs'))
    (h : WriteOutcome newTable request fs code fs') : SearchSound fs'.table := by
  obtain ⟨hcons, hsound⟩ := hinv
  obtain ⟨hlive, hzero⟩ := hlive
  cases h with
  | refused _ => exact hsound
  | leaked _ _ _ => exact hsound
  | @directory c rest hn hs hfree _ =>
      have hc : c ∈ freeCells fs.fat := hfree ▸ List.mem_cons_self
      have hattr : (directoryEntry request fs c).attr = attrSubdirectory :=
        directoryEntry_attr c hs
      obtain ⟨happart, hself⟩ := hkeep ⟨_, hwrite⟩
      rw [storedAttr, if_pos hs] at happart hself
      refine hsound.inserted hcons (directoryWritten_inserted hcons hlive hc hzero) hn
        (Or.inl hattr) ?_ ?_
      · intro h0
        rw [hattr]
        exact (happart h0).directory _
      · intro h0
        rw [hattr]
        exact hself h0
  | @file c rest hn hs _ _ htake =>
      have hattr : (fileEntry request fs c).attr = attrArchive := fileEntry_attr c hs
      obtain ⟨happart, hself⟩ := hkeep ⟨_, hwrite⟩
      rw [storedAttr, if_neg hs, ← hattr] at happart hself
      exact hsound.inserted hcons (fileWritten_inserted hcons hlive hs htake) hn
        (Or.inr hattr) happart hself

theorem exec_searchInvariant (fs : FileSystem) (k : Call) (fs' : FileSystem)
    (hinv : SearchInvariant fs) (hk : OnLiveDirectory fs k ∧ KeepsSearch fs k)
    (h : exec fs k = some fs') : SearchInvariant fs' := by
  obtain ⟨hlive, hkeep⟩ := hk
  cases k with
  | write newTable request =>
      obtain ⟨⟨code, fs₁⟩, hwrite, rfl⟩ := Option.map_eq_some_iff.mp h
      by_cases hn : request.name = fun _ => 0
      · rw [write_emptyName hn] at hwrite
        obtain ⟨-, rfl⟩ := Prod.mk.inj (Option.some.inj hwrite)
        exact hinv
      · have hout := write_outcome hwrite
        exact ⟨hout.consistent hinv.1 hlive.1 hlive.2,
          searchSound_written hinv hlive hkeep hwrite hout⟩
  | delete request =>
      cases driverCall_outcome hinv.1 hlive h with
      | unchanged => exact hinv
      | delete hn hout =>
          rcases hout.removed hinv.1 hlive hn with rfl | ⟨i, l, freed, -, -, -, hrem⟩
          · exact hinv
          · exact ⟨hrem.consistent hinv.1, hinv.2.removed hinv.1 hrem⟩
  | read request =>
      obtain ⟨-, -, rfl⟩ := Option.map_eq_some_iff.mp h
      exact hinv
  | readDirectory request =>
      obtain rfl := Option.some.inj h
      exact hinv
  | move _ _ _ => exact hlive.elim

theorem fresh_path (disk : Disk)
    (h : Path (dirEdge (freshFileSystem disk).table) rootClusterNumber l d) :
    l = [] ∧ d = rootClusterNumber := by
  cases h with
  | root => exact ⟨rfl, rfl⟩
  | child hp he => exact absurd (usedSlot_of_dirEdge (reach_of_path hp) he) (fresh_no_slot disk)

theorem fresh_searchSound (disk : Disk) : SearchSound (freshFileSystem disk).table := by
  have hnone : ∀ {d i}, ¬ UsedSlot (freshFileSystem disk).table d i := fresh_no_slot disk
  have hedge : ∀ {d i c}, Live (freshFileSystem disk).table d →
      ¬ dirEdge (freshFileSystem disk).table d i c :=
    fun hd he => hnone (usedSlot_of_dirEdge hd he)
  have hroot := (fresh_selfTree disk).root_named
  constructor
  case kinds => exact fun d i hs => absurd hs hnone
  case root => exact ⟨hroot.named, hroot.cluster⟩
  case named => exact fun hs => absurd hs hnone
  case apart => exact fun hd he => absurd he (hedge hd)
  case twins => exact fun hd he => absurd he (hedge hd)
  case fits => exact fun _ hs => absurd hs hnone
  case shallow =>
    intro l d hp
    rw [(fresh_path disk hp).1]
    decide

/-- **Guarded runs leave volumes that a search goes through once.** -/
theorem whereis_searchesOnce (disk : Disk) (calls : List Call) (fs : FileSystem)
    (h : Guarded exec (fun fs k => OnLiveDirectory fs k ∧ KeepsSearch fs k)
      (freshFileSystem disk) calls) (hrun : runCalls (freshFileSystem disk) calls = some fs) :
    SearchesOnce fs := by
  have hinv : SearchInvariant fs := run_invariant exec exec_searchInvariant
    ⟨fresh_consistent disk, fresh_searchSound disk⟩ h hrun
  exact hinv.2.searchesOnce hinv.1

/-- A new directory of the root whose name is not `ROOT` is met. -/
theorem fresh_keepsSearch (name : List UInt8) (hname : (rootRequest name 0).name ≠ rootName) :
    KeepsSearch (freshFileSystem blankDisk) (.write zeroTable (rootRequest name 0)) := by
  have hedge : ∀ {d i c}, Live (freshFileSystem blankDisk).table d →
      ¬ dirEdge (freshFileSystem blankDisk).table d i c :=
    fun hd he => fresh_no_slot blankDisk (usedSlot_of_dirEdge hd he)
  refine fun _ => ⟨fun _ => ?_, fun h0 => ?_⟩
  · constructor
    case self =>
      intro _ hnamed
      exact hname (hnamed.1.symm.trans (fresh_selfTree blankDisk).root_named.named.1)
    case twins => exact fun _ j c he => absurd he (hedge Reach.root)
    case parent => exact fun _ q i j c hq he => absurd he (hedge hq)
    case fits =>
      intro l hp
      rw [(fresh_path blankDisk hp).1]
      show (locationOf [searchRoot] attrSubdirectory _ _).length < 256
      rw [locationOf, if_pos (by decide)]
      decide
    case shallow =>
      intro _ l hp
      rw [(fresh_path blankDisk hp).1]
      decide
  · rw [fresh_writeSlot] at h0
    exact absurd h0 (by decide)

/-- Making one directory is such a run. -/
theorem whereis_searchesOnce_mkdir : SearchesOnce afterMkdir := by
  refine whereis_searchesOnce blankDisk [.write zeroTable (rootRequest [97] 0)] afterMkdir
    ⟨⟨⟨Reach.root, fun _ _ => rfl⟩, fresh_keepsSearch [97] ?_⟩, fun _ _ => trivial⟩ ?_
  · intro h
    exact absurd (congrFun h 0) (by decide)
  · rw [runCalls, run_cons, exec_mkdir, Option.bind_some, run_nil]

/-! ## Names that lead astray -/

/-- A search that ends has room for a call in every directory that it sees. -/
theorem whereIs_descends {reqTable : List SearchLevel → FAT32DirectoryTable}
    {name ext : List UInt8} {n : ℕ} {path : List SearchLevel} {top : SearchLevel}
    {events : List SearchEvent} {code : Int8} {t : FAT32DirectoryTable}
    (h : whereIs reqTable fs name ext n (top :: path) = some events)
    (htable : searchTable reqTable fs (top :: path) top = (code, t)) (hi : i ≠ 0)
    (hfolder : IsFolder (t i)) :
    ∃ m events', n = m + 1 ∧ whereIs reqTable fs name ext m
      ({ number := (t i).cluster, name := (t i).name } :: top :: path) = some events' := by
  cases n with
  | zero => exact absurd h.symm (Option.some_ne_none events)
  | succ m =>
      refine ⟨m, ?_⟩
      by_cases hlen : (top :: path).length < 256
      · simp only [whereIs, if_pos hlen, List.head?_cons, Option.bind_eq_bind, Option.bind_some,
          htable] at h
        obtain ⟨out, hout, -⟩ := Option.bind_eq_some_iff.mp h
        obtain ⟨o, ho⟩ := gather_some hout i (mem_slotsFrom_one.mpr hi)
        rw [searchSlot, if_pos (show (t i).userAttribute = uattrNotEmpty from hfolder.1),
          if_pos hfolder.2] at ho
        obtain ⟨_, _, hsearch⟩ := Option.bind_eq_some_iff.mp ho
        obtain ⟨events', hevents, -⟩ := Option.map_eq_some_iff.mp hsearch
        exact ⟨events', rfl, hevents⟩
      · simp only [whereIs, if_neg hlen, Option.bind_eq_bind, Option.bind_none] at h
        exact absurd h.symm (Option.some_ne_none events)

/-- `ROOT\0\0\0\0` as the name of a request. -/
def rootBytes : List UInt8 := [82, 79, 79, 84]

theorem exec_madeDirectory {name : List UInt8} (hn : (rootRequest name 0).name ≠ fun _ => 0) :
    exec (freshFileSystem blankDisk) (.write zeroTable (rootRequest name 0))
      = some (madeDirectory name) := by
  have hfree : freeCells (freshFileSystem blankDisk).fat
      = 3 :: (List.range' 4 508).map UInt32.ofNat := fresh_freeCells
  have hp : ¬ (rootRequest name 0).parentClusterNumber < 2 := by
    show ¬ (2 : UInt32) < 2
    decide
  rw [exec, write_directory hn hp rfl, writeDirectory_eq hfree (by decide), Option.map_some,
    madeDirectory]

/-- **A directory with the root's name is searched for in the root.** The tree has one level
    below the root, and the calls need two. -/
theorem whereis_entersRootTwice :
    Guarded exec OnLiveDirectory (freshFileSystem blankDisk)
      [.write zeroTable (rootRequest rootBytes 0)] ∧
    runCalls (freshFileSystem blankDisk) [.write zeroTable (rootRequest rootBytes 0)]
      = some (madeDirectory rootBytes) ∧ ¬ SearchesOnce (madeDirectory rootBytes) := by
  have hname : (rootRequest rootBytes 0).name = rootName := by decide
  refine ⟨⟨⟨Reach.root, fun _ _ => rfl⟩, fun _ _ => trivial⟩, ?_, ?_⟩
  · rw [runCalls, run_cons, exec_madeDirectory (hname ▸ rootName_ne), Option.bind_some, run_nil]
  rintro ⟨h, hdepth, hsearch⟩
  have hins := madeDirectory_inserted rootBytes
  have hentry := madeDirectory_entry rootBytes
  -- the root's own slot has the name, so the lookup of the new directory finds the root
  have hself := hins.self_kept (by decide) Reach.root
  have hroot := (fresh_selfTree blankDisk).root_named
  have hnamed : NamedAt (madeDirectory rootBytes).table rootClusterNumber rootName 0
      rootClusterNumber := by
    refine ⟨?_, fun j hj => absurd hj (Fin.not_lt_zero j), ?_⟩
    · rw [hself]
      exact hroot.named
    · rw [hself]
      exact hroot.cluster
  have hfound : ∀ t, readDirectoryTable rootName rootClusterNumber t (madeDirectory rootBytes)
      = (0, (madeDirectory rootBytes).table rootClusterNumber) :=
    fun t => readDirectoryTable_found t (findTable_of_named rootName_ne hnamed)
  have hfolder : IsFolder ((madeDirectory rootBytes).table rootClusterNumber 1) := by
    rw [hentry]
    refine ⟨hins.used, ?_⟩
    rw [directoryEntry_attr 3 rfl]
    decide
  have hchild : ((madeDirectory rootBytes).table rootClusterNumber 1).name = rootName := by
    rw [hentry]
    exact hname
  obtain ⟨events, hevents, -⟩ := hsearch (fun _ => zeroTable) [] []
  obtain ⟨m, events', hm, hevents'⟩ :=
    whereIs_descends hevents (hfound zeroTable) (by decide) hfolder
  rw [hchild] at hevents'
  obtain ⟨m', events'', hm', hevents''⟩ :=
    whereIs_descends hevents' (hfound zeroTable) (by decide) hfolder
  have hpos : m' ≠ 0 := by
    rintro rfl
    exact absurd hevents''.symm (Option.some_ne_none events'')
  obtain ⟨l, d, hp, hlen⟩ := hdepth.attained
  have hone : l.length ≤ 1 := by
    rcases inserted_path hins hp with hold | ⟨-, -, -, l₀, rfl, hold⟩
    · rw [(fresh_path blankDisk hold).1]
      exact Nat.zero_le 1
    · rw [(fresh_path blankDisk hold).1]
      exact Nat.le_refl 1
  omega

end OsyShell
