import Osyikkk.ReadingCommands
import Osyikkk.TreeWalk
import Osyikkk.StackLinks

/-!
# `where_is` walks the tree

The names on the two stacks of a search are those of a path from the root. As long as every
directory is found by its name, or an equally fruitless namesake is, a search is the walk
over the tree of directories: it enters each directory once, and shows what the slots of the
tables it reads contribute.
-/

namespace OsyShell

open OsyDisk OsyFat32 OsyVolume PartialRun RootedForest TreeWalk

/-! ## Locations -/

/-- The names of the levels above the root, from the root on. -/
def namesBelow (path : List SearchLevel) : List (List UInt8) :=
  path.reverse.tail.map fun level => cString (List.ofFn level.name)

/-- The location of a directory: the directories above it, with a slash between two. -/
def folderLocation (names : List (List UInt8)) : List UInt8 :=
  text "/" ++ [slash].intercalate names ++ text " "

/-- The location of a file: the directories above it, and its name and extension. -/
def fileLocation (names : List (List UInt8)) (name : EntryName) (ext : EntryExt) : List UInt8 :=
  text "/" ++ names.flatMap (fun s => s ++ [slash]) ++ cString (List.ofFn name) ++ text "."
    ++ cString (List.ofFn ext) ++ text " "

theorem intercalate_concat (sep a : List UInt8) (l : List (List UInt8)) :
    sep.intercalate (l ++ [a]) = l.flatMap (fun s => s ++ sep) ++ a := by
  induction l with
  | nil => exact List.intercalate_singleton
  | cons b l ih =>
      rw [List.cons_append, List.intercalate_cons_of_ne_nil (List.concat_ne_nil a l), ih,
        List.flatMap_cons]
      simp only [List.append_assoc]

variable {path : List SearchLevel}

theorem namesBelow_cons (hpath : path ≠ []) (level : SearchLevel) :
    namesBelow (level :: path) = namesBelow path ++ [cString (List.ofFn level.name)] := by
  have hne : path.reverse ≠ [] := by rwa [ne_eq, List.reverse_eq_nil_iff]
  rw [namesBelow, List.reverse_cons, List.tail_append_of_ne_nil hne, List.map_append]
  rfl

theorem cString_pathName {j : ℕ} (hj : j + 1 < path.length) :
    (namesBelow path)[j]? = some (cString (pathName path (j + 1))) := by
  have hlt : j + 1 < path.reverse.length := by rwa [List.length_reverse]
  rw [namesBelow, List.getElem?_map, List.getElem?_tail, pathName, List.getElem?_eq_getElem hlt]
  rfl

theorem zero_notMem_rounds (names : List (List UInt8)) (h : ∀ s ∈ names, 0 ∉ s) :
    0 ∉ text "/" ++ names.flatMap fun s => s ++ [slash] := by
  intro hmem
  rcases List.mem_append.mp hmem with hroot | hmem
  · exact absurd hroot (by decide)
  · obtain ⟨s, hs, hmem⟩ := List.mem_flatMap.mp hmem
    rcases List.mem_append.mp hmem with hmem | hslash
    · exact h s hs hmem
    · exact absurd hslash (by decide)

theorem zero_notMem_namesBelow : ∀ s ∈ namesBelow path, 0 ∉ s := by
  intro s hs
  obtain ⟨level, -, rfl⟩ := List.mem_map.mp hs
  exact zero_notMem_cString _

/-- The loop that writes a location, before the last level. -/
theorem fileRounds_eq {n : ℕ} (hn : n < path.length) :
    (List.range (n + 1)).foldl (fileRound path) []
      = text "/" ++ ((namesBelow path).take n).flatMap fun s => s ++ [slash] := by
  induction n with
  | zero => rfl
  | succ n ih =>
      have hslash : cString (text "/") = [slash] := by decide
      have hbefore := zero_notMem_rounds ((namesBelow path).take n) fun s hs =>
        zero_notMem_namesBelow s (List.mem_of_mem_take hs)
      have hname := zero_notMem_cString (pathName path (n + 1))
      rw [List.range_succ, List.foldl_append, ih (Nat.lt_of_succ_lt hn), List.foldl_cons,
        List.foldl_nil, fileRound, if_neg (Nat.succ_ne_zero n), stringCombine, stringCombine,
        cString_eq_self hbefore, hslash, cString_eq_self, List.take_add_one,
        cString_pathName hn, List.flatMap_append, List.append_assoc, List.append_assoc]
      · rw [Option.toList_some, List.flatMap_singleton]
      · rw [List.mem_append]
        exact not_or.mpr ⟨hbefore, hname⟩

/-- Behind a string without a NUL the second one is put. -/
theorem stringCombine_eq {s1 : List UInt8} (h : 0 ∉ s1) (s2 : List UInt8) :
    stringCombine s1 s2 = s1 ++ cString s2 := by
  rw [stringCombine, cString_eq_self h]

theorem zero_notMem_append {s1 s2 : List UInt8} (h1 : 0 ∉ s1) (h2 : 0 ∉ s2) :
    0 ∉ s1 ++ s2 := by
  rw [List.mem_append]
  exact not_or.mpr ⟨h1, h2⟩

/-- **A file's location names the directories down to it.** -/
theorem fileText_eq (hpath : path ≠ []) (name : EntryName) (ext : EntryExt) :
    fileText path name ext = fileLocation (namesBelow path) name ext := by
  obtain ⟨n, hn⟩ : ∃ n, path.length = n + 1 :=
    Nat.exists_eq_succ_of_ne_zero fun h0 => hpath (List.length_eq_zero_iff.mp h0)
  have hall : (namesBelow path).take n = namesBelow path := by
    refine List.take_of_length_le ?_
    rw [namesBelow, List.length_map, List.length_tail, List.length_reverse, hn]
    exact Nat.le_refl n
  have hdirs := zero_notMem_rounds (namesBelow path) zero_notMem_namesBelow
  have hname := zero_notMem_append hdirs (zero_notMem_cString (List.ofFn name))
  have hdot := zero_notMem_append hname (show (0 : UInt8) ∉ text "." by decide)
  have hext := zero_notMem_append hdot (zero_notMem_cString (List.ofFn ext))
  have hcdot : cString (text ".") = text "." := by decide
  have hcblank : cString (text " ") = text " " := by decide
  rw [fileText, hn, fileRounds_eq (hn ▸ Nat.lt_succ_self n), hall]
  simp only [stringCombine_eq hdirs, stringCombine_eq hname, hcdot, stringCombine_eq hdot,
    stringCombine_eq hext, hcblank]
  rfl

/-- **A directory's location names the directories above it.** -/
theorem folderText_eq (hpath : path ≠ []) :
    folderText path = folderLocation (namesBelow path) := by
  obtain ⟨n, hn⟩ : ∃ n, path.length = n + 1 :=
    Nat.exists_eq_succ_of_ne_zero fun h0 => hpath (List.length_eq_zero_iff.mp h0)
  have hlen : (namesBelow path).length = n := by
    rw [namesBelow, List.length_map, List.length_tail, List.length_reverse, hn]
    exact Nat.add_sub_cancel n 1
  have hcblank : cString (text " ") = text " " := by decide
  rw [folderText, hn]
  cases n with
  | zero =>
      rw [List.length_eq_zero_iff.mp hlen]
      rfl
  | succ n =>
      -- before the last level both loops do the same
      have hsame : (List.range (n + 1)).foldl (folderRound path) []
          = (List.range (n + 1)).foldl (fileRound path) [] := by
        refine List.foldl_ext _ _ _ ?_
        intro str j hj
        have hlt : j < path.length - 1 := by
          rw [hn]
          exact List.mem_range.mp hj
        rw [folderRound, fileRound, if_pos hlt]
      have hlast : (namesBelow path).take n ++ [cString (pathName path (n + 1))]
          = namesBelow path := by
        have htake := List.take_of_length_le (Nat.le_of_eq hlen)
        rwa [List.take_add_one, cString_pathName (by omega), Option.toList_some] at htake
      have hjoined := intercalate_concat [slash] (cString (pathName path (n + 1)))
        ((namesBelow path).take n)
      rw [hlast] at hjoined
      have hnot : ¬ n + 1 < path.length - 1 := by omega
      have hdirs := zero_notMem_rounds ((namesBelow path).take n) fun s hs =>
        zero_notMem_namesBelow s (List.mem_of_mem_take hs)
      have hall := zero_notMem_append hdirs (zero_notMem_cString (pathName path (n + 1)))
      rw [List.range_succ, List.foldl_append, hsame, fileRounds_eq (by omega), List.foldl_cons,
        List.foldl_nil, folderRound, if_neg (Nat.succ_ne_zero n), if_neg hnot,
        stringCombine_eq hdirs, stringCombine_eq hall, hcblank, folderLocation, hjoined]
      simp only [List.append_assoc]

/-! ## The levels of a path -/

/-- The directory a slot leads to. -/
def childOf (tbl : Tables) (d : UInt32) (i : Fin directoryEntryCount) : Option UInt32 :=
  if (tbl d i).used ∧ (tbl d i).attr = attrSubdirectory then some (tbl d i).cluster else none

/-- The directory at the end of a path, whose slots are listed from the last one on. -/
def dirAt (tbl : Tables) : List (Fin directoryEntryCount) → UInt32
  | [] => rootClusterNumber
  | i :: l => (tbl (dirAt tbl l) i).cluster

/-- The two stacks of a search that went along a path. -/
def levelsTo (tbl : Tables) : List (Fin directoryEntryCount) → List SearchLevel
  | [] => [searchRoot]
  | i :: l =>
      { number := (tbl (dirAt tbl l) i).cluster, name := (tbl (dirAt tbl l) i).name } ::
        levelsTo tbl l

variable {tbl tbl' : Tables} {fs : FileSystem} {d c : UInt32} {i : Fin directoryEntryCount}
  {l : List (Fin directoryEntryCount)}

theorem edge_childOf (tbl : Tables) : Edge (slotsFrom 1) (childOf tbl) = dirEdge tbl := by
  funext d i c
  refine propext ?_
  rw [Edge, mem_slotsFrom_one, childOf, dirEdge]
  by_cases h : (tbl d i).used ∧ (tbl d i).attr = attrSubdirectory
  · rw [if_pos h, Option.some.injEq]
    constructor
    · rintro ⟨h0, hc⟩
      exact ⟨h0, h.1, h.2, hc⟩
    · rintro ⟨h0, -, -, hc⟩
      exact ⟨h0, hc⟩
  · rw [if_neg h]
    exact iff_of_false (fun hno => Option.some_ne_none c hno.2.symm)
      fun hno => h ⟨hno.2.1, hno.2.2.1⟩

theorem dirAt_path (h : Path (dirEdge tbl) rootClusterNumber l d) : dirAt tbl l = d := by
  induction h with
  | root => rfl
  | child _ he ih =>
      rw [dirAt, ih]
      exact he.2.2.2

theorem length_levelsTo (tbl : Tables) (l : List (Fin directoryEntryCount)) :
    (levelsTo tbl l).length = l.length + 1 := by
  induction l with
  | nil => rfl
  | cons i l ih => rw [levelsTo, List.length_cons, ih, List.length_cons]

theorem levelsTo_ne_nil (tbl : Tables) (l : List (Fin directoryEntryCount)) :
    levelsTo tbl l ≠ [] := by
  cases l <;> exact List.cons_ne_nil _ _

/-- The top level stands for the directory at the end. -/
theorem head?_levelsTo (tbl : Tables) (l : List (Fin directoryEntryCount)) :
    (levelsTo tbl l).head?.map SearchLevel.number = some (dirAt tbl l) := by
  cases l <;> rfl

/-! ## What a slot shows -/

/-- The location that a slot has printed: the slot is used, its name is the one that is
    looked for, and so is the extension of a file. -/
def slotText (name ext : List UInt8) (path : List SearchLevel) (e : FAT32DirectoryEntry) :
    Option (List UInt8) :=
  if e.used ∧ strcmp (List.ofFn e.name) name = 0 then
    if e.attr ≠ attrArchive then some (folderText path)
    else if strcmp (List.ofFn e.ext) ext = 0 then some (fileText path e.name e.ext) else none
  else none

/-- `where_is` goes on in the directory of this entry. -/
def IsFolder (e : FAT32DirectoryEntry) : Prop := e.used ∧ e.attr ≠ attrArchive

instance (e : FAT32DirectoryEntry) : Decidable (IsFolder e) :=
  inferInstanceAs (Decidable (_ ∧ _))

theorem searchSlot_eq {search : List SearchLevel → Option (List SearchEvent)}
    {name ext : List UInt8} {table : FAT32DirectoryTable} {below : List SearchEvent}
    (hfits : ∀ str, slotText name ext path (table i) = some str → str.length < 256)
    (hfolder : IsFolder (table i) →
      search ({ number := (table i).cluster, name := (table i).name } :: path) = some below)
    (hfile : ¬ IsFolder (table i) → below = []) :
    searchSlot search name ext path table i
      = some ((slotText name ext path (table i)).toList.map (SearchEvent.located path i) ++
          below) := by
  have hprint : ∀ str, str.length < 256 →
      printLocation path i str = some [SearchEvent.located path i str] := fun str h => if_pos h
  by_cases hused : (table i).used
  case neg =>
    have hslot : slotText name ext path (table i) = none := if_neg fun h => hused h.1
    rw [searchSlot, if_neg (show ¬ (table i).userAttribute = uattrNotEmpty from hused), hslot,
      hfile fun h => hused h.1]
    rfl
  rw [searchSlot, if_pos (show (table i).userAttribute = uattrNotEmpty from hused)]
  by_cases ha : (table i).attr ≠ attrArchive
  · rw [if_pos ha]
    have hgo := hfolder ⟨hused, ha⟩
    by_cases hname : strcmp (List.ofFn (table i).name) name = 0
    · have hslot : slotText name ext path (table i) = some (folderText path) := by
        rw [slotText, if_pos ⟨hused, hname⟩, if_pos ha]
      rw [if_pos hname, hprint _ (hfits _ hslot), hslot, hgo]
      rfl
    · have hslot : slotText name ext path (table i) = none := if_neg fun h => hname h.2
      rw [if_neg hname, hslot, hgo]
      rfl
  · rw [if_neg ha, hfile fun h => ha h.2]
    by_cases hmatch : strcmp (List.ofFn (table i).name) name = 0 ∧
        strcmp (List.ofFn (table i).ext) ext = 0
    · have hslot : slotText name ext path (table i)
          = some (fileText path (table i).name (table i).ext) := by
        rw [slotText, if_pos ⟨hused, hmatch.1⟩, if_neg ha, if_pos hmatch.2]
      rw [if_pos hmatch, hprint _ (hfits _ hslot), hslot]
      rfl
    · have hslot : slotText name ext path (table i) = none := by
        rw [slotText]
        split_ifs with h1 h2
        · exact absurd ⟨h1.2, h2⟩ hmatch
        · rfl
        · rfl
      rw [if_neg hmatch, hslot]
      rfl

/-! ## The walk -/

/-- The used slots of the tree are directories and files. -/
def Kinds (tbl : Tables) : Prop :=
  ∀ d i, UsedSlot tbl d i → (tbl d i).attr = attrSubdirectory ∨ (tbl d i).attr = attrArchive

theorem Kinds.folder_iff (hkinds : Kinds tbl) (hd : Live tbl d) (hi : i ≠ 0) :
    IsFolder (tbl d i) ↔ (tbl d i).used ∧ (tbl d i).attr = attrSubdirectory := by
  refine and_congr_right fun hused => ?_
  constructor
  · intro ha
    exact (hkinds d i ⟨hd, hi, hused⟩).resolve_right ha
  · intro ha
    rw [ha]
    decide

/-- The same directories stand in the same slots of two tables. -/
def SameFolders (t t' : FAT32DirectoryTable) : Prop :=
  ∀ i, i ≠ 0 → IsFolder (t i) ∨ IsFolder (t' i) → t i = t' i

/-- The call for a path to directory `d` finds the table `seen l d`, which leads on to the
    directories that `d` leads on to. -/
structure Seen (reqTable : List SearchLevel → FAT32DirectoryTable) (fs : FileSystem)
    (seen : List (Fin directoryEntryCount) → UInt32 → FAT32DirectoryTable) : Prop where
  found : ∀ {l d}, Path (dirEdge fs.table) rootClusterNumber l d → ∀ top,
    (levelsTo fs.table l).head? = some top →
      searchTable reqTable fs (levelsTo fs.table l) top = (0, seen l d)
  folders : ∀ {l d}, Path (dirEdge fs.table) rootClusterNumber l d →
    SameFolders (seen l d) (fs.table d)

/-- What slot `i` of the table that is seen shows. -/
def shown (fs : FileSystem)
    (seen : List (Fin directoryEntryCount) → UInt32 → FAT32DirectoryTable)
    (name ext : List UInt8) (l : List (Fin directoryEntryCount)) (d : UInt32)
    (i : Fin directoryEntryCount) : List SearchEvent :=
  (slotText name ext (levelsTo fs.table l) (seen l d i)).toList.map
    (SearchEvent.located (levelsTo fs.table l) i)

/-- The walk that a search is, with room for `n` nested calls. -/
def searchWalk (fs : FileSystem)
    (seen : List (Fin directoryEntryCount) → UInt32 → FAT32DirectoryTable)
    (name ext : List UInt8) (n : ℕ) (l : List (Fin directoryEntryCount)) (d : UInt32) :
    List SearchEvent :=
  walk (slotsFrom 1) (childOf fs.table) (fun l _ => [SearchEvent.call (levelsTo fs.table l)])
    (shown fs seen name ext) n l d

/-- **A search is the walk over the tree.** -/
theorem whereIs_eq_walk {reqTable : List SearchLevel → FAT32DirectoryTable}
    {seen : List (Fin directoryEntryCount) → UInt32 → FAT32DirectoryTable}
    {name ext : List UInt8} (hkinds : Kinds fs.table) (hseen : Seen reqTable fs seen)
    (hshallow : ∀ l d, Path (dirEdge fs.table) rootClusterNumber l d → l.length < 255)
    (hfits : ∀ l d, Path (dirEdge fs.table) rootClusterNumber l d → ∀ i, i ≠ 0 → ∀ str,
      slotText name ext (levelsTo fs.table l) (seen l d i) = some str → str.length < 256)
    {n : ℕ} (hpath : Path (dirEdge fs.table) rootClusterNumber l d)
    (hroom : ∀ l' d', Path (dirEdge fs.table) rootClusterNumber l' d' →
      l'.length < l.length + n) :
    whereIs reqTable fs name ext n (levelsTo fs.table l)
      = some (searchWalk fs seen name ext n l d) := by
  induction n generalizing l d with
  | zero => exact absurd (hroom l d hpath) (Nat.lt_irrefl _)
  | succ n ih =>
      obtain ⟨top, htop⟩ : ∃ top, (levelsTo fs.table l).head? = some top :=
        ⟨_, List.head?_eq_some_head (levelsTo_ne_nil fs.table l)⟩
      have hlen : (levelsTo fs.table l).length < 256 := by
        rw [length_levelsTo]
        exact Nat.succ_lt_succ (hshallow l d hpath)
      have hlive : Live fs.table d := reach_of_path hpath
      -- slot by slot: the folders of the table that is seen are the edges of the tree
      have hslots : gather (searchSlot (whereIs reqTable fs name ext n) name ext
            (levelsTo fs.table l) (seen l d)) (slotsFrom 1)
          = some ((slotsFrom 1).flatMap fun i => shown fs seen name ext l d i ++
              (childOf fs.table d i).elim [] fun b =>
                searchWalk fs seen name ext n (i :: l) b) := by
        refine gather_eq ?_
        intro i hi
        have h0 := mem_slotsFrom_one.mp hi
        have hfolder := hkinds.folder_iff hlive h0
        refine searchSlot_eq (hfits l d hpath i h0) ?_ ?_
        · intro hf
          have hsame := hseen.folders hpath i h0 (Or.inl hf)
          have hchild := hfolder.mp (hsame ▸ hf)
          have hedge : dirEdge fs.table d i (fs.table d i).cluster :=
            ⟨h0, hchild.1, hchild.2, rfl⟩
          have hlevels := ih (Path.child hpath hedge) (by
            intro l' d' h'
            have := hroom l' d' h'
            rw [List.length_cons]
            omega)
          rw [levelsTo, dirAt_path hpath] at hlevels
          rw [hsame, hlevels, childOf, if_pos hchild]
          rfl
        · intro hf
          have hnone : childOf fs.table d i = none := by
            refine if_neg fun hchild => hf ?_
            rw [hseen.folders hpath i h0 (Or.inr (hfolder.mpr hchild))]
            exact hfolder.mpr hchild
          rw [hnone]
          rfl
      simp only [whereIs, if_pos hlen, htop, Option.bind_eq_bind, Option.bind_some,
        hseen.found hpath top htop, hslots, searchWalk, walk]
      rfl

/-! ## Lookups by name -/

/-- A directory's name leads to it from its parent. Where it leads to a namesake instead, `B`
    holds of both tables, at the directory's path. -/
structure FindsDirectories (B : List (Fin directoryEntryCount) → FAT32DirectoryTable → Prop)
    (tbl : Tables) : Prop where
  root : ∃ k, NamedAt tbl rootClusterNumber rootName k rootClusterNumber
  child : ∀ {l d i c}, Path (dirEdge tbl) rootClusterNumber l d → dirEdge tbl d i c →
    (tbl d i).name ≠ (fun _ => 0) ∧ ∃ k x, NamedAt tbl d (tbl d i).name k x ∧
      (x = c ∨ B (i :: l) (tbl x) ∧ B (i :: l) (tbl c))

theorem rootName_ne : rootName ≠ fun _ => 0 := by
  intro h
  exact absurd (congrFun h 0) (by decide)

/-- With lookups that lead on, every call sees a table. -/
theorem FindsDirectories.seen
    {B : List (Fin directoryEntryCount) → FAT32DirectoryTable → Prop}
    (h : FindsDirectories B fs.table) (hB : ∀ l t, B l t → ∀ i, i ≠ 0 → ¬ IsFolder (t i))
    (reqTable : List SearchLevel → FAT32DirectoryTable) :
    ∃ seen, Seen reqTable fs seen ∧
      ∀ l d, Path (dirEdge fs.table) rootClusterNumber l d →
        seen l d = fs.table d ∨ B l (seen l d) ∧ B l (fs.table d) := by
  have hcall : ∀ l d, ∃ t, Path (dirEdge fs.table) rootClusterNumber l d →
      (∀ top, (levelsTo fs.table l).head? = some top →
        searchTable reqTable fs (levelsTo fs.table l) top = (0, t)) ∧
      (t = fs.table d ∨ B l t ∧ B l (fs.table d)) := by
    intro l d
    by_cases hpath : Path (dirEdge fs.table) rootClusterNumber l d
    case neg => exact ⟨fs.table d, fun hp => absurd hp hpath⟩
    cases hpath with
    | root =>
        obtain ⟨k, hk⟩ := h.root
        refine ⟨fs.table rootClusterNumber, fun _ => ⟨?_, Or.inl rfl⟩⟩
        intro top htop
        obtain rfl := Option.some.inj htop
        exact readDirectoryTable_found _ (findTable_of_named rootName_ne hk)
    | @child p c i l hp he =>
        obtain ⟨hname, k, x, hk, hx⟩ := h.child hp he
        refine ⟨fs.table x, fun _ => ⟨?_, ?_⟩⟩
        · intro top htop
          obtain rfl := Option.some.inj htop
          have hlong : ¬ (levelsTo fs.table (i :: l)).length ≤ 1 := by
            rw [length_levelsTo, List.length_cons]
            omega
          have hparent : ((levelsTo fs.table (i :: l))[1]?.map SearchLevel.number).getD
              rootClusterNumber = p := by
            rw [levelsTo, List.getElem?_cons_succ, ← List.head?_eq_getElem?, head?_levelsTo,
              dirAt_path hp]
            rfl
          rw [searchTable, if_neg hlong, hparent, dirAt_path hp]
          exact readDirectoryTable_found _ (findTable_of_named hname hk)
        · rcases hx with rfl | hx
          · exact Or.inl rfl
          · exact Or.inr hx
  choose seen hseen using hcall
  refine ⟨seen, ⟨fun hpath => (hseen _ _ hpath).1, ?_⟩, fun l d hpath => (hseen l d hpath).2⟩
  intro l d hpath i hi hfolder
  rcases (hseen l d hpath).2 with heq | ⟨ht, hd⟩
  · rw [heq]
  · rcases hfolder with hf | hf
    · exact absurd hf (hB _ _ ht i hi)
    · exact absurd hf (hB _ _ hd i hi)

/-! ## The calls -/

/-- The directory that a call is about. -/
def SearchEvent.directory : SearchEvent → Option UInt32
  | .call path => path.head?.map SearchLevel.number
  | _ => none

/-- The directories that a search enters. -/
def entered (events : List SearchEvent) : List UInt32 :=
  events.filterMap SearchEvent.directory

theorem entered_shown
    (seen : List (Fin directoryEntryCount) → UInt32 → FAT32DirectoryTable)
    (name ext : List UInt8) (l : List (Fin directoryEntryCount)) (d : UInt32)
    (i : Fin directoryEntryCount) : entered (shown fs seen name ext l d i) = [] := by
  refine List.filterMap_eq_nil_iff.mpr ?_
  intro event hevent
  obtain ⟨str, -, rfl⟩ := List.mem_map.mp hevent
  rfl

/-- The directories that a walk with room for `n` nested calls gets to. -/
def walkedNodes (fs : FileSystem) (n : ℕ) : List UInt32 :=
  (preorder (slotsFrom 1) (childOf fs.table) n [] rootClusterNumber).map Prod.snd

theorem walkedNodes_nodup (hcons : FsConsistent fs) (n : ℕ) : (walkedNodes fs n).Nodup := by
  refine preorder_nodes_nodup (slotsFrom_nodup 1) ?_
  rw [edge_childOf]
  exact hcons.uniqueParent

/-- With room for every path they are the live directories. -/
theorem mem_walkedNodes {n : ℕ}
    (hdepth : ∀ l d, Path (dirEdge fs.table) rootClusterNumber l d → l.length < n) :
    d ∈ walkedNodes fs n ↔ Live fs.table d := by
  rw [walkedNodes, List.mem_map]
  constructor
  · rintro ⟨⟨l, d⟩, hmem, rfl⟩
    have hp := ((mem_preorder_iff Path.root).mp hmem).1
    rw [edge_childOf] at hp
    exact reach_of_path hp
  · intro hd
    obtain ⟨l, hp⟩ := path_of_reach hd
    refine ⟨(l, d), (mem_preorder_iff Path.root).mpr ⟨?_, List.nil_suffix, ?_⟩, rfl⟩
    · rw [edge_childOf]
      exact hp
    · rw [List.length_nil, Nat.zero_add]
      exact hdepth l d hp

/-- An event of the walk is a call for a path, or a location that a slot of its table shows. -/
theorem mem_searchWalk
    {seen : List (Fin directoryEntryCount) → UInt32 → FAT32DirectoryTable}
    {name ext : List UInt8} {n : ℕ} {event : SearchEvent}
    (h : event ∈ searchWalk fs seen name ext n [] rootClusterNumber) :
    ∃ l d, Path (dirEdge fs.table) rootClusterNumber l d ∧
      (event = .call (levelsTo fs.table l) ∨
        ∃ i, i ≠ 0 ∧ event ∈ shown fs seen name ext l d i) := by
  obtain ⟨⟨l, d⟩, hmem, hevent⟩ :=
    List.mem_flatMap.mp ((walk_perm _ _ n [] rootClusterNumber).mem_iff.mp h)
  have hpath := ((mem_preorder_iff Path.root).mp hmem).1
  rw [edge_childOf] at hpath
  refine ⟨l, d, hpath, ?_⟩
  rcases List.mem_append.mp hevent with hcall | hshown
  · exact Or.inl (List.mem_singleton.mp hcall)
  · obtain ⟨i, hi, hshown⟩ := List.mem_flatMap.mp hshown
    exact Or.inr ⟨i, mem_slotsFrom_one.mp hi, hshown⟩

/-- The walk enters the directories of the tree, in some order. -/
theorem entered_walk
    (seen : List (Fin directoryEntryCount) → UInt32 → FAT32DirectoryTable)
    (name ext : List UInt8) (n : ℕ) :
    (entered (searchWalk fs seen name ext n [] rootClusterNumber)).Perm (walkedNodes fs n) := by
  refine ((walk_perm _ _ n [] rootClusterNumber).filterMap SearchEvent.directory).trans ?_
  rw [List.filterMap_flatMap, walkedNodes, List.map_eq_flatMap]
  refine List.Perm.of_eq (List.flatMap_congr ?_)
  rintro ⟨l, d⟩ hmem
  have hpath := ((mem_preorder_iff Path.root).mp hmem).1
  rw [edge_childOf] at hpath
  rw [List.filterMap_append, List.filterMap_flatMap]
  have hnone : (slotsFrom 1).flatMap
      (fun i => (shown fs seen name ext l d i).filterMap SearchEvent.directory) = [] :=
    List.flatMap_eq_nil_iff.mpr fun i _ => entered_shown seen name ext l d i
  rw [hnone, List.append_nil, List.filterMap_cons, SearchEvent.directory, head?_levelsTo,
    dirAt_path hpath]
  rfl

end OsyShell
