import Osyikkk.SearchRunProofs
import Osyikkk.FileArgumentProofs

/-!
# What `whereis` lists

A target `name` or `name.ext` (`fileName`) stands for files, and without an extension for
directories as well (`Sought`). A search with a name and an extension shows the entries that
match both, and directories whatever the extension (`Shown`), each once and with the names of
the directories above it. `whereis` is right where the strings it makes of a target show what
the target stands for.
-/

namespace OsyShell

open OsyDisk OsyFat32 OsyVolume PartialRun RootedForest TreeWalk

/-! ## Targets -/

variable {name ext : List UInt8}

/-- The name and the extension that `whereis` searches for. A target of at most eight characters
    is not split at its dot. A longer one is, and a name of less than seven characters is lost
    to the extension. -/
def searched (name ext : List UInt8) : List UInt8 × List UInt8 :=
  if (fileName name ext).length ≤ 8 then (fileName name ext, [])
  else if 7 ≤ name.length then (name, ext) else ([], ext)

theorem IsFileName.zero_notMem (h : IsFileName name ext) : 0 ∉ fileName name ext := by
  rw [fileName]
  split_ifs
  · exact h.namePart.noNul
  · rw [List.mem_append, List.mem_cons, not_or, not_or]
    exact ⟨h.namePart.noNul, by decide, h.extPart.noNul⟩

/-- What is longer than a name has an extension. -/
theorem IsFileName.ext_ne_nil (h : IsFileName name ext) (hlen : ¬ (fileName name ext).length ≤ 8) :
    ext ≠ [] := by
  rintro rfl
  exact hlen ((fileName_nil name).symm ▸ h.namePart.length)

/-- The strings behind the two arguments of `where_is`. -/
theorem whereisTarget_searched (h : IsFileName name ext) :
    cString (whereisTarget (fileName name ext)).1 = (searched name ext).1 ∧
      cString (whereisTarget (fileName name ext)).2 = (searched name ext).2 := by
  rw [whereisTarget, searched, cString_eq_self h.zero_notMem]
  by_cases hlen : (fileName name ext).length ≤ 8
  · rw [if_pos hlen, if_pos hlen]
    refine ⟨?_, rfl⟩
    have hnine := cString_map_charAt h.zero_notMem (Nat.lt_succ_of_le hlen)
    rwa [List.range_succ, List.map_append, List.map_singleton, charAt_of_le hlen,
      cString_append_zeros _ fun c hc => List.mem_singleton.mp hc] at hnine
  · rw [if_neg hlen, if_neg hlen]
    obtain ⟨hname, hext⟩ := parseTarget_strings h
    rw [if_congr (or_iff_right (h.ext_ne_nil hlen)) rfl rfl] at hname
    show cString (parseTarget (charAt (fileName name ext))).name = _ ∧
      cString (parseTarget (charAt (fileName name ext))).extString = _
    rw [hname, hext]
    split_ifs
    · exact ⟨rfl, rfl⟩
    · exact ⟨rfl, rfl⟩

/-! ## Entries -/

/-- The entries that a target stands for. -/
def Sought (name ext : List UInt8) (e : FAT32DirectoryEntry) : Prop :=
  cString (List.ofFn e.name) = name ∧
    (e.attr = attrArchive ∧ cString (List.ofFn e.ext) = ext ∨
      e.attr = attrSubdirectory ∧ ext = [])

/-- The used entries that a search for a name and an extension shows. -/
def Shown (name ext : List UInt8) (e : FAT32DirectoryEntry) : Prop :=
  cString (List.ofFn e.name) = name ∧
    (e.attr = attrArchive → cString (List.ofFn e.ext) = ext)

instance (name ext : List UInt8) (e : FAT32DirectoryEntry) : Decidable (Shown name ext e) :=
  inferInstanceAs (Decidable (_ ∧ (_ → _)))

/-- The location of an entry in a directory below directories of these names. -/
def entryLocation (names : List (List UInt8)) (e : FAT32DirectoryEntry) : List UInt8 :=
  if e.attr ≠ attrArchive then folderLocation names else fileLocation names e.name e.ext

theorem slotText_eq {name ext : List UInt8} {path : List SearchLevel} {e : FAT32DirectoryEntry}
    (hpath : path ≠ []) :
    slotText name ext path e
      = if e.used ∧ Shown (cString name) (cString ext) e then
          some (entryLocation (namesBelow path) e) else none := by
  simp only [slotText, strcmp_eq_zero_iff, entryLocation, folderText_eq hpath,
    fileText_eq hpath]
  by_cases hname : e.used ∧ cString (List.ofFn e.name) = cString name
  · rw [if_pos hname]
    by_cases ha : e.attr = attrArchive
    · rw [if_neg (not_not_intro ha), if_neg (not_not_intro ha)]
      by_cases hext : cString (List.ofFn e.ext) = cString ext
      · rw [if_pos hext, if_pos ⟨hname.1, hname.2, fun _ => hext⟩]
      · rw [if_neg hext, if_neg fun h => hext (h.2.2 ha)]
    · rw [if_pos ha, if_pos ha, if_pos ⟨hname.1, hname.2, fun h => absurd h ha⟩]
  · rw [if_neg hname, if_neg fun h => hname ⟨h.1, h.2.1⟩]

/-- The names of the directories on a path, from the root's child on. -/
def dirNames (tbl : Tables) : List (Fin directoryEntryCount) → List (List UInt8)
  | [] => []
  | i :: l => dirNames tbl l ++ [cString (List.ofFn (tbl (dirAt tbl l) i).name)]

theorem namesBelow_levelsTo (tbl : Tables) (l : List (Fin directoryEntryCount)) :
    namesBelow (levelsTo tbl l) = dirNames tbl l := by
  induction l with
  | nil => rfl
  | cons i l ih => rw [levelsTo, namesBelow_cons (levelsTo_ne_nil tbl l), ih, dirNames]

/-! ## Lengths -/

theorem cString_length_le {n : ℕ} (f : Fin n → UInt8) : (cString (List.ofFn f)).length ≤ n := by
  have hle := (List.takeWhile_prefix (fun b => decide (b ≠ 0)) (l := List.ofFn f)).length_le
  rwa [List.length_ofFn] at hle

theorem dirNames_length (tbl : Tables) (l : List (Fin directoryEntryCount)) :
    ((dirNames tbl l).flatMap fun s => s ++ [slash]).length ≤ 9 * l.length := by
  induction l with
  | nil => exact Nat.le_refl 0
  | cons i l ih =>
      have hname := cString_length_le (tbl (dirAt tbl l) i).name
      rw [dirNames, List.flatMap_append, List.flatMap_singleton, List.length_append,
        List.length_append, List.length_singleton, List.length_cons]
      omega

theorem intercalate_length_le (sep : List UInt8) (names : List (List UInt8)) :
    (sep.intercalate names).length ≤ (names.flatMap fun s => s ++ sep).length := by
  rcases List.eq_nil_or_concat' names with rfl | ⟨front, last, rfl⟩
  · exact Nat.le_refl 0
  · rw [intercalate_concat, List.flatMap_append, List.flatMap_singleton, List.length_append,
      List.length_append, List.length_append]
    omega

/-- Down to twenty levels every location fits. -/
theorem entryLocation_length {tbl : Tables} {l : List (Fin directoryEntryCount)}
    (hl : l.length ≤ 20) (e : FAT32DirectoryEntry) :
    (entryLocation (dirNames tbl l) e).length < 256 := by
  have hnames := dirNames_length tbl l
  have hfolder := intercalate_length_le [slash] (dirNames tbl l)
  have hname := cString_length_le e.name
  have hext := cString_length_le e.ext
  rw [entryLocation]
  split_ifs
  · simp only [folderLocation, List.length_append, show (text "/").length = 1 from rfl,
      show (text " ").length = 1 from rfl]
    omega
  · simp only [fileLocation, List.length_append, show (text "/").length = 1 from rfl,
      show (text " ").length = 1 from rfl, show (text ".").length = 1 from rfl]
    omega

/-! ## What is listed -/

/-- The entry that a location is printed for: the directory that its call is about, and the
    slot. -/
def SearchEvent.entry : SearchEvent → Option (UInt32 × Fin directoryEntryCount)
  | .located path i _ => path.head?.map fun top => (top.number, i)
  | _ => none

/-- The entries that a search lists. -/
def listed (events : List SearchEvent) : List (UInt32 × Fin directoryEntryCount) :=
  events.filterMap SearchEvent.entry

/-- Every entry that the target stands for is listed once and nothing else is, each location
    names the directories down to its entry, and no lookup fails. -/
structure ListsExactly (fs : FileSystem) (name ext : List UInt8) (events : List SearchEvent) :
    Prop where
  once : (listed events).Nodup
  entries : ∀ d i, (d, i) ∈ listed events ↔
    UsedSlot fs.table d i ∧ Sought name ext (fs.table d i)
  locations : ∀ path i str, SearchEvent.located path i str ∈ events →
    ∃ l d, path.head?.map SearchLevel.number = some d ∧
      Path (dirEdge fs.table) rootClusterNumber l d ∧
      str = entryLocation (dirNames fs.table l) (fs.table d i)
  found : SearchEvent.failed ∉ events

variable {fs : FileSystem}
  {seen : List (Fin directoryEntryCount) → UInt32 → FAT32DirectoryTable}
  {l : List (Fin directoryEntryCount)} {d : UInt32} {i : Fin directoryEntryCount}

theorem head?_levelsTo_entry (hpath : Path (dirEdge fs.table) rootClusterNumber l d)
    (i : Fin directoryEntryCount) :
    (levelsTo fs.table l).head?.map (fun top => (top.number, i)) = some (d, i) := by
  have hhead := head?_levelsTo fs.table l
  rw [dirAt_path hpath] at hhead
  obtain ⟨top, htop, rfl⟩ := Option.map_eq_some_iff.mp hhead
  rw [htop]
  rfl

/-- The slot has something to show. -/
def Shows (fs : FileSystem) (name ext : List UInt8) (x : UInt32 × Fin directoryEntryCount) :
    Prop :=
  (fs.table x.1 x.2).used ∧ Shown (cString name) (cString ext) (fs.table x.1 x.2)

instance (fs : FileSystem) (name ext : List UInt8) : DecidablePred (Shows fs name ext) :=
  fun _ => inferInstanceAs (Decidable (_ ∧ _))

/-- The searches whose calls see, in every slot, the location of what the directory itself
    has to show. -/
def SeesShown (fs : FileSystem)
    (seen : List (Fin directoryEntryCount) → UInt32 → FAT32DirectoryTable)
    (name ext : List UInt8) : Prop :=
  ∀ l d, Path (dirEdge fs.table) rootClusterNumber l d → ∀ i, i ≠ 0 →
    slotText name ext (levelsTo fs.table l) (seen l d i)
      = if Shows fs name ext (d, i) then
          some (entryLocation (dirNames fs.table l) (fs.table d i)) else none

theorem product_eq_flatMap {A B : Type} (l : List A) (l' : List B) :
    l ×ˢ l' = l.flatMap fun a => l'.map fun b => (a, b) := rfl

theorem flatMap_if {A B : Type} (l : List A) (f : A → B) (p : B → Prop) [DecidablePred p] :
    (l.flatMap fun a => if p (f a) then [f a] else []) = (l.map f).filter p := by
  induction l with
  | nil => rfl
  | cons a l ih =>
      rw [List.flatMap_cons, List.map_cons, ih]
      by_cases ha : p (f a)
      · rw [if_pos ha]
        exact (List.filter_cons_of_pos (by simpa using ha)).symm
      · rw [if_neg ha]
        exact (List.filter_cons_of_neg (by simpa using ha)).symm

/-- The walk lists, directory by directory, the slots that have something to show. -/
theorem listed_walk (hsees : SeesShown fs seen name ext) (n : ℕ) :
    (listed (searchWalk fs seen name ext n [] rootClusterNumber)).Perm
      ((walkedNodes fs n ×ˢ slotsFrom 1).filter (Shows fs name ext)) := by
  refine ((walk_perm _ _ n [] rootClusterNumber).filterMap SearchEvent.entry).trans ?_
  rw [List.filterMap_flatMap, product_eq_flatMap, List.filter_flatMap, walkedNodes,
    List.flatMap_map]
  refine List.Perm.of_eq (List.flatMap_congr ?_)
  rintro ⟨l, d⟩ hmem
  have hpath := ((mem_preorder_iff Path.root).mp hmem).1
  rw [edge_childOf] at hpath
  have hcall : [SearchEvent.call (levelsTo fs.table l)].filterMap SearchEvent.entry = [] := rfl
  rw [List.filterMap_append, List.filterMap_flatMap, ← flatMap_if, hcall, List.nil_append]
  refine List.flatMap_congr ?_
  intro i hi
  rw [shown, hsees l d hpath i (mem_slotsFrom_one.mp hi)]
  by_cases hshows : Shows fs name ext (d, i)
  · rw [if_pos hshows, if_pos hshows, Option.toList_some, List.map_singleton,
      List.filterMap_cons, SearchEvent.entry, head?_levelsTo_entry hpath]
    rfl
  · rw [if_neg hshows, if_neg hshows]
    rfl

/-- **What a search lists.** -/
theorem listed_spec (hcons : FsConsistent fs) (hsees : SeesShown fs seen name ext) {n : ℕ}
    (hdepth : ∀ l d, Path (dirEdge fs.table) rootClusterNumber l d → l.length < n) :
    (listed (searchWalk fs seen name ext n [] rootClusterNumber)).Nodup ∧
    ∀ d i, (d, i) ∈ listed (searchWalk fs seen name ext n [] rootClusterNumber) ↔
        UsedSlot fs.table d i ∧ Shown (cString name) (cString ext) (fs.table d i) := by
  have hperm := listed_walk hsees n
  constructor
  · refine hperm.nodup_iff.mpr (List.Nodup.filter _ (List.Nodup.product ?_ (slotsFrom_nodup 1)))
    exact walkedNodes_nodup hcons n
  · intro d i
    rw [hperm.mem_iff, List.mem_filter, List.mem_product, mem_walkedNodes hdepth,
      mem_slotsFrom_one, decide_eq_true_eq]
    exact ⟨fun ⟨⟨hd, hi⟩, hused, hshown⟩ => ⟨⟨hd, hi, hused⟩, hshown⟩,
      fun ⟨⟨hd, hi, hused⟩, hshown⟩ => ⟨⟨hd, hi⟩, hused, hshown⟩⟩

/-- A printed location is that of the slot it is printed for. -/
theorem searchWalk_located (hsees : SeesShown fs seen name ext) {n : ℕ}
    {path : List SearchLevel} {str : List UInt8} (hmem : SearchEvent.located path i str
      ∈ searchWalk fs seen name ext n [] rootClusterNumber) :
    ∃ l d, path.head?.map SearchLevel.number = some d ∧
      Path (dirEdge fs.table) rootClusterNumber l d ∧
      str = entryLocation (dirNames fs.table l) (fs.table d i) := by
  obtain ⟨l, d, hpath, hcall | ⟨j, hj, hshown⟩⟩ := mem_searchWalk hmem
  · exact absurd hcall SearchEvent.noConfusion
  · rw [shown, hsees l d hpath j hj] at hshown
    split_ifs at hshown
    · obtain ⟨hpl, hij, hstr⟩ := SearchEvent.located.inj (List.mem_singleton.mp hshown)
      refine ⟨l, d, ?_, hpath, hij ▸ hstr⟩
      rw [hpl, head?_levelsTo, dirAt_path hpath]
    · exact absurd hshown List.not_mem_nil

/-- Every lookup of the walk finds a table. -/
theorem searchWalk_not_failed {n : ℕ} :
    SearchEvent.failed ∉ searchWalk fs seen name ext n [] rootClusterNumber := by
  intro hmem
  obtain ⟨l, d, -, hcall | ⟨j, -, hshown⟩⟩ := mem_searchWalk hmem
  · exact absurd hcall SearchEvent.noConfusion
  · obtain ⟨str, -, hlocated⟩ := List.mem_map.mp hshown
    exact absurd hlocated SearchEvent.noConfusion

/-! ## Searches for a target -/

/-- Neither a directory nor an entry that is shown or stood for. -/
def Barren (name ext : List UInt8) (t : FAT32DirectoryTable) : Prop :=
  ∀ i, i ≠ 0 → (t i).used → (t i).attr = attrArchive ∧
    ¬ Shown (searched name ext).1 (searched name ext).2 (t i) ∧ ¬ Sought name ext (t i)

/-- Where the names lead on, a search for a target lists what its two strings show. -/
theorem search_lists (reqTable : List SearchLevel → FAT32DirectoryTable) {depth : ℕ}
    (hcons : FsConsistent fs) (hkinds : Kinds fs.table)
    (hdepth : ∀ l d, Path (dirEdge fs.table) rootClusterNumber l d → l.length ≤ 20)
    (htarget : IsFileName name ext)
    (hfinds : FindsDirectories (fun _ => Barren name ext) fs.table) (hroom : 20 < depth) :
    ∃ events, whereisSearch reqTable fs depth (fileName name ext) = some events ∧
      (ListsExactly fs name ext events ↔ ∀ d i, UsedSlot fs.table d i →
        (Shown (searched name ext).1 (searched name ext).2 (fs.table d i) ↔
          Sought name ext (fs.table d i))) := by
  obtain ⟨hname, hext⟩ := whereisTarget_searched htarget
  obtain ⟨seen, hseen, htables⟩ := hfinds.seen (fun l t ht i hi hfolder =>
    hfolder.2 (ht i hi hfolder.1).1) reqTable
  have hsees : SeesShown fs seen (whereisTarget (fileName name ext)).1
      (whereisTarget (fileName name ext)).2 := by
    intro l d hpath i hi
    rw [slotText_eq (levelsTo_ne_nil fs.table l), namesBelow_levelsTo]
    rcases htables l d hpath with heq | ⟨ht, hd⟩
    · rw [heq]
      exact if_congr Iff.rfl rfl rfl
    · -- the failed read shows an older table, and neither has the name
      have hnone : ¬ ((seen l d i).used ∧ Shown _ _ (seen l d i)) :=
        fun hs => (ht i hi hs.1).2.1 (hname ▸ hext ▸ hs.2)
      have hnone' : ¬ Shows fs _ _ (d, i) :=
        fun hs => (hd i hi hs.1).2.1 (hname ▸ hext ▸ hs.2)
      rw [if_neg hnone, if_neg hnone']
  have hlt : ∀ l d, Path (dirEdge fs.table) rootClusterNumber l d → l.length < depth :=
    fun l d hp => lt_of_le_of_lt (hdepth l d hp) hroom
  have hfits : ∀ l d, Path (dirEdge fs.table) rootClusterNumber l d → ∀ i, i ≠ 0 → ∀ str,
      slotText (whereisTarget (fileName name ext)).1
        (whereisTarget (fileName name ext)).2 (levelsTo fs.table l) (seen l d i)
          = some str → str.length < 256 := by
    intro l d hpath i hi str hstr
    rw [hsees l d hpath i hi] at hstr
    split_ifs at hstr
    obtain rfl := Option.some.inj hstr
    exact entryLocation_length (hdepth l d hpath) _
  -- with room for every path the search is the walk of the tree
  have hwalk := whereIs_eq_walk hkinds hseen
    (fun l d hp => lt_of_le_of_lt (hdepth l d hp) (by decide)) hfits Path.root
    (fun l d hp => by rw [List.length_nil, Nat.zero_add]; exact hlt l d hp)
  refine ⟨_, hwalk, ?_⟩
  obtain ⟨honce, hentries⟩ := listed_spec hcons hsees hlt
  rw [hname, hext] at hentries
  constructor
  · intro h d i hs
    have hboth := (hentries d i).symm.trans (h.entries d i)
    exact ⟨fun hshown => (hboth.mp ⟨hs, hshown⟩).2, fun hsought => (hboth.mpr ⟨hs, hsought⟩).2⟩
  · intro h
    constructor
    case once => exact honce
    case entries =>
      intro d i
      rw [hentries d i]
      exact and_congr_right (h d i)
    case locations => exact fun _ _ _ hmem => searchWalk_located hsees hmem
    case found => exact searchWalk_not_failed

/-! ## Targets that are split -/

/-- The targets whose strings show what they stand for. One without extension does. With one
    it is only split when it is longer than a name can be. Then directories are shown all the
    same, and a name of less than seven characters is searched for as an empty one. A shorter
    target is taken for a name. -/
def SplitsTarget (tbl : Tables) (name ext : List UInt8) : Prop :=
  ext = [] ∨
    (8 < (fileName name ext).length ∧ 7 ≤ name.length ∧
      ∀ d i c, Live tbl d → dirEdge tbl d i c → cString (List.ofFn (tbl d i).name) ≠ name) ∨
    (8 < (fileName name ext).length ∧ name.length < 7 ∧ ∀ d i, UsedSlot tbl d i →
      ¬ Sought name ext (tbl d i) ∧ ¬ Shown [] ext (tbl d i)) ∨
    ((fileName name ext).length ≤ 8 ∧ ∀ d i, UsedSlot tbl d i →
      ¬ Sought name ext (tbl d i) ∧ ¬ Sought (fileName name ext) [] (tbl d i))

theorem shown_nil_iff {e : FAT32DirectoryEntry}
    (hkind : e.attr = attrSubdirectory ∨ e.attr = attrArchive) :
    Shown name [] e ↔ Sought name [] e := by
  refine and_congr_right fun _ => ⟨?_, ?_⟩
  · intro hext
    rcases hkind with ha | ha
    · exact Or.inr ⟨ha, rfl⟩
    · exact Or.inl ⟨ha, hext ha⟩
  · rintro (⟨-, hext⟩ | ⟨ha, -⟩) harchive
    · exact hext
    · exact absurd (harchive.symm.trans ha) archive_ne_subdirectory

theorem shown_ext_iff {e : FAT32DirectoryEntry} (hext : ext ≠ [])
    (hkind : e.attr = attrSubdirectory ∨ e.attr = attrArchive) :
    (Shown name ext e ↔ Sought name ext e) ↔
      (e.attr = attrSubdirectory → cString (List.ofFn e.name) ≠ name) := by
  rcases hkind with ha | ha
  · have hsought : ¬ Sought name ext e := by
      rintro ⟨-, ⟨harchive, -⟩ | ⟨-, hnil⟩⟩
      · exact archive_ne_subdirectory (harchive.symm.trans ha)
      · exact hext hnil
    rw [iff_false_right hsought]
    constructor
    · intro h _ hname
      exact h ⟨hname, fun harchive => absurd (harchive.symm.trans ha) archive_ne_subdirectory⟩
    · rintro h ⟨hname, -⟩
      exact h ha hname
  · refine iff_of_true (and_congr_right fun _ => ⟨?_, ?_⟩) fun hdir =>
      absurd (ha.symm.trans hdir) archive_ne_subdirectory
    · intro h
      exact Or.inl ⟨ha, h ha⟩
    · rintro (⟨-, h⟩ | ⟨hno, -⟩) _
      · exact h
      · exact absurd (ha.symm.trans hno) archive_ne_subdirectory

/-- What excludes each other agrees where neither holds. -/
theorem agree_iff_neither {p q : Prop} (h : p → ¬ q) : (p ↔ q) ↔ ¬ q ∧ ¬ p :=
  ⟨fun hiff => ⟨fun hq => h (hiff.mpr hq) hq, fun hp => h hp (hiff.mp hp)⟩,
    fun hneither => iff_of_false hneither.2 hneither.1⟩

theorem splitsTarget_iff {tbl : Tables} (hkinds : Kinds tbl) (htarget : IsFileName name ext) :
    (∀ d i, UsedSlot tbl d i → (Shown (searched name ext).1 (searched name ext).2 (tbl d i) ↔
      Sought name ext (tbl d i))) ↔ SplitsTarget tbl name ext := by
  by_cases hnil : ext = []
  · subst hnil
    refine iff_of_true ?_ (Or.inl rfl)
    intro d i hs
    have hlen : (fileName name []).length ≤ 8 := htarget.namePart.length
    rw [searched, if_pos hlen]
    exact shown_nil_iff (hkinds d i hs)
  rw [SplitsTarget, or_iff_right hnil]
  by_cases hlen : (fileName name ext).length ≤ 8
  · have hnot : ¬ 8 < (fileName name ext).length := Nat.not_lt.mpr hlen
    rw [searched, if_pos hlen, or_iff_right fun h => hnot h.1, or_iff_right fun h => hnot h.1,
      and_iff_right hlen]
    refine forall₃_congr fun d i hs => ?_
    rw [shown_nil_iff (hkinds d i hs)]
    -- no entry has both names
    refine agree_iff_neither fun h h' => ?_
    have heq := congrArg List.length (h.1.symm.trans h'.1)
    rw [fileName_cons hnil, List.length_append, List.length_cons] at heq
    omega
  by_cases hkept : 7 ≤ name.length
  · have hnot : ¬ name.length < 7 := Nat.not_lt.mpr hkept
    rw [searched, if_neg hlen, if_pos hkept, or_iff_left fun h => h.elim (fun h => hnot h.2.1)
      fun h => hlen h.1, and_iff_right (Nat.not_le.mp hlen), and_iff_right hkept]
    constructor
    · intro h d i c hd he
      have hs := usedSlot_of_dirEdge hd he
      exact (shown_ext_iff hnil (hkinds d i hs)).mp (h d i hs) he.2.2.1
    · intro h d i hs
      refine (shown_ext_iff hnil (hkinds d i hs)).mpr fun ha => ?_
      exact h d i _ hs.live ⟨hs.slot, hs.used, ha, rfl⟩
  · rw [searched, if_neg hlen, if_neg hkept, or_iff_right fun h => hkept h.2.1,
      or_iff_left fun h => hlen h.1, and_iff_right (Nat.not_le.mp hlen),
      and_iff_right (Nat.not_le.mp hkept)]
    refine forall₃_congr fun d i _ => agree_iff_neither fun h h' => ?_
    exact htarget.nonempty (h'.1.symm.trans h.1)

/-! ## The command -/

/-- The word of the command. -/
def whereisWord : List UInt8 := [119, 104, 101, 114, 101, 105, 115]

/-- A line with a target reaches the search, and `parse_file_cmd` has nothing to say. -/
theorem executeWhereis_line {reqTable : List SearchLevel → FAT32DirectoryTable}
    {locals : Locals} {s : Shell} {events : List SearchEvent} (h : IsFileName name ext)
    (hsearch : whereisSearch reqTable s.fs locals.callDepth (fileName name ext)
      = some events) :
    (tokenize (pathLine whereisWord [fileName name ext])).bind
      (fun cmd => executeWhereis reqTable locals cmd s)
      = some (.finished
          { s with screen := s.screen ++ events.filterMap SearchEvent.display }) := by
  have hword : IsWord whereisWord := ⟨by simp [whereisWord, space, slash], by decide⟩
  have hquiet : (if (cString (fileName name ext)).length ≤ 8 then s
      else s.printParsed (parseTarget (charAt (fileName name ext)))) = s := by
    rw [parseTarget_fileName h]
    exact ite_self _
  have hfirst : (pathTable whereisWord [fileName name ext]).first 3 = some 0 := rfl
  have hrow : (pathTable whereisWord [fileName name ext]).row 2
      = some (fileName name ext) := rfl
  rw [tokenize_pathLine hword (by decide) h.isPath (Nat.le_add_left 1 37), Option.bind_some]
  show executeWhereis reqTable locals (pathTable whereisWord [fileName name ext]) s = _
  rw [executeWhereis, if_neg Nat.one_ne_zero, if_neg (Nat.lt_irrefl 1)]
  simp only [List.length_cons, List.length_nil, Nat.zero_add, Nat.reduceAdd, Option.bind_eq_bind,
    hfirst, Option.bind_some, Nat.reduceSub, or_true, if_true, hrow, hquiet, hsearch]

/-- **`whereis` is right where the target is split right.** -/
theorem whereis_listsExactly_iff {s : Shell} {locals : Locals}
    (reqTable : List SearchLevel → FAT32DirectoryTable)
    (hcons : FsConsistent s.fs) (hkinds : Kinds s.fs.table)
    (hdepth : ∀ l d, Path (dirEdge s.fs.table) rootClusterNumber l d → l.length ≤ 20)
    (htarget : IsFileName name ext)
    (hfinds : FindsDirectories (fun _ => Barren name ext) s.fs.table)
    (hroom : 20 < locals.callDepth) :
    ∃ events,
      whereisSearch reqTable s.fs locals.callDepth (fileName name ext) = some events ∧
      (tokenize (pathLine whereisWord [fileName name ext])).bind
          (fun cmd => executeWhereis reqTable locals cmd s)
        = some (.finished
            { s with screen := s.screen ++ events.filterMap SearchEvent.display }) ∧
      (ListsExactly s.fs name ext events ↔ SplitsTarget s.fs.table name ext) := by
  obtain ⟨events, hsearch, hlists⟩ :=
    search_lists reqTable hcons hkinds hdepth htarget hfinds hroom
  exact ⟨events, hsearch, executeWhereis_line htarget hsearch,
    hlists.trans (splitsTarget_iff hkinds htarget)⟩

/-! ## One directory -/

/-- The empty volume with one directory that is not named like the root. -/
theorem madeDirectory_searchInvariant {name : List UInt8}
    (hn : (rootRequest name 0).name ≠ fun _ => 0)
    (hroot : (rootRequest name 0).name ≠ rootName) : SearchInvariant (madeDirectory name) :=
  exec_searchInvariant _ (.write zeroTable (rootRequest name 0)) _
    ⟨fresh_consistent blankDisk, fresh_searchSound blankDisk⟩
    ⟨⟨Reach.root, fun _ _ => rfl⟩, fresh_keepsSearch name hroot⟩ (exec_madeDirectory hn)

theorem madeDirectory_path {name : List UInt8}
    (h : Path (dirEdge (madeDirectory name).table) rootClusterNumber l d) : l.length ≤ 1 := by
  rcases inserted_path (madeDirectory_inserted name) h with hold | ⟨-, -, -, l₀, rfl, hold⟩
  · rw [(fresh_path blankDisk hold).1]
    exact Nat.zero_le 1
  · rw [(fresh_path blankDisk hold).1]
    exact Nat.le_refl 1

theorem madeDirectory_finds {name : List UInt8}
    (hn : (rootRequest name 0).name ≠ fun _ => 0)
    (hroot : (rootRequest name 0).name ≠ rootName)
    (B : List (Fin directoryEntryCount) → FAT32DirectoryTable → Prop) :
    FindsDirectories B (madeDirectory name).table := by
  obtain ⟨hcons, hsound⟩ := madeDirectory_searchInvariant hn hroot
  have hone := (madeDirectory_state name).2.1
  refine hsound.finds_distinct hcons ?_ B
  intro d i j c c' hd he he' _
  exact (hone d i (usedSlot_of_dirEdge hd he)).2.trans
    (hone d j (usedSlot_of_dirEdge hd he')).2.symm

/-- Enough nested calls for twenty levels. -/
def deepLocals : Locals := { zeroLocals with callDepth := 21 }

/-- A search for the one directory. -/
theorem whereis_listsExactly_mkdir :
    ∃ events,
      whereisSearch (fun _ => zeroTable) (madeDirectory [97]) 21 (fileName [97] [])
        = some events ∧
      (tokenize (pathLine whereisWord [fileName [97] []])).bind
          (fun cmd => executeWhereis (fun _ => zeroTable) deepLocals cmd
            (startShell (madeDirectory [97])))
        = some (.finished
            { startShell (madeDirectory [97]) with
              screen := [] ++ events.filterMap SearchEvent.display }) ∧
      (ListsExactly (madeDirectory [97]) [97] [] events ↔
        SplitsTarget (madeDirectory [97]).table [97] []) := by
  have hroot : (rootRequest [97] 0).name ≠ rootName := by decide
  refine @whereis_listsExactly_iff _ _ (startShell (madeDirectory [97])) deepLocals
    (fun _ => zeroTable) (madeDirectory_state [97]).1
    (madeDirectory_searchInvariant rootName_a hroot).2.kinds
    (fun l d h => (madeDirectory_path h).trans (by decide))
    (by decide)
    (madeDirectory_finds rootName_a hroot _) (by decide)

/-- `abcdefg`. -/
def abcdefg : List UInt8 := [97, 98, 99, 100, 101, 102, 103]

/-- `txt`. -/
def txt : List UInt8 := [116, 120, 116]

/-- **A directory is listed for a target with an extension.** The volume has the directory
    `abcdefg` and no file; `whereis abcdefg.txt` lists the directory. -/
theorem whereis_listsDirectory :
    FsConsistent (madeDirectory abcdefg) ∧
      Kinds (madeDirectory abcdefg).table ∧
      (∀ l d, Path (dirEdge (madeDirectory abcdefg).table) rootClusterNumber l d →
        l.length ≤ 1) ∧
      (∀ d i, UsedSlot (madeDirectory abcdefg).table d i →
        d = rootClusterNumber ∧
          ((madeDirectory abcdefg).table d i).name ≠ rootName) ∧
      IsFileName abcdefg txt ∧
      ∀ reqTable depth, 20 < depth →
        ∃ events, whereisSearch reqTable (madeDirectory abcdefg) depth
            (fileName abcdefg txt) = some events ∧
          ¬ ListsExactly (madeDirectory abcdefg) abcdefg
            txt events := by
  have hn : (rootRequest abcdefg 0).name ≠ fun _ => 0 := by decide
  have hroot : (rootRequest abcdefg 0).name ≠ rootName := by decide
  obtain ⟨hcons, hone, -, hattr, -⟩ := madeDirectory_state abcdefg
  have hkinds := (madeDirectory_searchInvariant hn hroot).2.kinds
  have hins := madeDirectory_inserted abcdefg
  have hentry := madeDirectory_entry abcdefg
  have hname : ((madeDirectory abcdefg).table rootClusterNumber 1).name
      = (rootRequest abcdefg 0).name := by
    rw [hentry]
    rfl
  have htarget : IsFileName abcdefg txt := by decide
  refine ⟨hcons, hkinds, fun l d h => madeDirectory_path h, ?_, htarget, ?_⟩
  · intro d i hs
    obtain ⟨rfl, rfl⟩ := hone d i hs
    refine ⟨rfl, ?_⟩
    rw [hname]
    exact hroot
  · intro reqTable depth hroom
    obtain ⟨events, hsearch, hlists⟩ := search_lists reqTable hcons hkinds
      (fun l d h => (madeDirectory_path h).trans (by decide)) htarget
      (madeDirectory_finds hn hroot _) hroom
    refine ⟨events, hsearch, fun h => ?_⟩
    have hused : UsedSlot (madeDirectory abcdefg).table rootClusterNumber 1 := by
      refine ⟨Reach.root, by decide, ?_⟩
      rw [hentry]
      exact hins.used
    have hiff := hlists.mp h rootClusterNumber 1 hused
    -- shown for its name, but a directory is not sought with an extension
    have hsought := hiff.mp ⟨?_, fun harchive =>
      absurd (harchive.symm.trans hattr) archive_ne_subdirectory⟩
    · rcases hsought.2 with ⟨harchive, -⟩ | ⟨-, hnil⟩
      · exact absurd (harchive.symm.trans hattr) archive_ne_subdirectory
      · exact absurd hnil (by decide)
    · rw [hname]
      decide

end OsyShell
