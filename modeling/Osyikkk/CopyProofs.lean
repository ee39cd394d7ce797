import Osyikkk.TreeGrowth
import Osyikkk.SearchProofs

/-!
# Copies of files and directories

`copy_file` and `copy_folder` look up by name what they copy, and `copy_folder` also what it
has just made. On a directory whose entries are intact (`IntactDirectory`) the lookups of
`copy_file` find the file it is to copy; those of `copy_folder` see slot 0 as well, so they
find the right tables when no directory carries the name of its parent (`NoNamesake`).
`Copied` is what a copy leaves: one new entry in the destination that stands for the same
tree as the source, and nothing else changed.
-/

namespace OsyShell

open OsyDisk OsyFat32 OsyVolume LinkedChain RootedForest PartialRun

/-! ## Intact trees -/

/-- Slot 0 of a directory names the directory itself; its entries carry names, are files of
    as many clusters as their size says or directories without an extension, are told apart
    by name and extension, and a directory below carries its entry's name in its slot 0. -/
structure IntactDirectory (fs : FileSystem) (q : UInt32) : Prop where
  self : (fs.table q 0).attr = attrSubdirectory ∧ (fs.table q 0).cluster = q
  named : ∀ {i}, UsedSlot fs.table q i → (fs.table q i).name ≠ fun _ => 0
  distinct : ∀ {i j}, UsedSlot fs.table q i → UsedSlot fs.table q j →
    (fs.table q i).name = (fs.table q j).name → (fs.table q i).ext = (fs.table q j).ext → i = j
  kinds : ∀ {i}, UsedSlot fs.table q i → (fs.table q i).attr = attrSubdirectory ∨
    (fs.table q i).attr = attrArchive
  sized : ∀ {i l}, UsedSlot fs.table q i → (fs.table q i).attr = attrArchive →
    FatChain fs.fat (fs.table q i).cluster l →
      l.length = (fs.table q i).filesize.toNat / clusterSize
  plain : ∀ {i c}, dirEdge fs.table q i c → (fs.table q i).ext = fun _ => 0
  below : ∀ {i c}, dirEdge fs.table q i c → (fs.table c 0).name = (fs.table q i).name

/-- Every directory from `x` down is intact. -/
def IntactTree (fs : FileSystem) (x : UInt32) : Prop :=
  ∀ q, Reach (dirEdge fs.table) x q → IntactDirectory fs q

/-- No directory below `x` carries the name that slot 0 of its parent holds. -/
def NoNamesake (tbl : Tables) (x : UInt32) : Prop :=
  ∀ q, Reach (dirEdge tbl) x q → ∀ i c, dirEdge tbl q i c → (tbl q i).name ≠ (tbl q 0).name

/-- The tree below `x` has less than `n` levels. -/
def Shallow (tbl : Tables) (n : ℕ) (x : UInt32) : Prop :=
  ∀ l q, Path (dirEdge tbl) x l q → l.length < n

/-- The cells an entry takes, when `below` counts those of a directory. -/
def entryCells (below : UInt32 → ℕ) (e : FAT32DirectoryEntry) : ℕ :=
  if e.attr = attrSubdirectory then below e.cluster else e.filesize.toNat / clusterSize

/-- The cells of the directory at a cluster and of what is below it, down to the given
    depth. -/
def treeCells (tbl : Tables) : ℕ → UInt32 → ℕ
  | 0, _ => 0
  | n + 1, c => 1 + ((usedSlots (tbl c)).map fun i => entryCells (treeCells tbl n) (tbl c i)).sum

/-- What a copy of the entry `source` into the directory `dest` leaves: `k` free cells are
    taken, and the first unused slot of `dest` holds an entry that stands for the same tree. -/
structure Copied (fs fs' : FileSystem) (dest : UInt32) (source : FAT32DirectoryEntry)
    (k : ℕ) : Prop where
  grown : Grown dest fs fs'
  entry : ∃ e, e.used ∧ fs'.table dest
      = Function.update (fs.table dest) (idxEmpty (fs.table dest)) e ∧
    ∀ n, nodeOf fs' (subtree fs' n) e = nodeOf fs (subtree fs n) source
  cells : freeCells fs'.fat = (freeCells fs.fat).drop k

variable {locals : Locals} {fs fs' : FileSystem} {s : Shell} {p q c d x : UInt32}
  {i j : Fin directoryEntryCount} {e : FAT32DirectoryEntry} {n : ℕ}

theorem IntactTree.child (h : IntactTree fs x) (he : dirEdge fs.table x i c) :
    IntactTree fs c :=
  fun q hq => h q (reach_trans (Reach.child Reach.root he) hq)

theorem NoNamesake.child {tbl : Tables} (h : NoNamesake tbl x) (he : dirEdge tbl x i c) :
    NoNamesake tbl c :=
  fun q hq => h q (reach_trans (Reach.child Reach.root he) hq)

/-- Names that coincide do so in the directory itself or below one of its entries. -/
theorem noNamesake_of_children {tbl : Tables} (h : ∀ i y, dirEdge tbl x i y →
    (tbl x i).name ≠ (tbl x 0).name ∧ NoNamesake tbl y) : NoNamesake tbl x := by
  intro q hq i c he
  rcases reach_head hq with rfl | ⟨k, y, hy, hyq⟩
  · exact (h i c he).1
  · exact (h k y hy).2 q hyq i c he

theorem Shallow.child {tbl : Tables} (h : Shallow tbl (n + 1) x) (he : dirEdge tbl x i c) :
    Shallow tbl n c := by
  intro l q hl
  have hlen := h _ q (path_trans (Path.child Path.root he) hl)
  rw [List.length_append, List.length_singleton] at hlen
  exact Nat.lt_of_succ_lt_succ hlen

/-- There are not enough cells for a deeper tree. -/
theorem shallow_of_consistent (hcons : FsConsistent fs) (hx : Live fs.table x) :
    Shallow fs.table 510 x :=
  fun _ _ hl => path_length_lt hcons hx hl

section Kept

variable (hcons : FsConsistent fs) (h : Grown d fs fs') (hx : Live fs.table x)
  (hd : ¬ Reach (dirEdge fs.table) x d)
include h hx hd

include hcons in
/-- A tree that does not grow stays intact. -/
theorem IntactTree.kept (hintact : IntactTree fs x) : IntactTree fs' x := by
  intro q hq
  have hq₀ := (h.reach_kept hx hd q).mp hq
  have hq' := hintact q hq₀
  have htable : fs'.table q = fs.table q := h.table_kept hx hd hq₀
  have hlive : Live fs.table q := reach_trans hx hq₀
  have hslot : ∀ {i}, UsedSlot fs'.table q i → UsedSlot fs.table q i :=
    fun hs => ⟨hlive, hs.slot, htable ▸ hs.used⟩
  have hedge : ∀ {i c}, dirEdge fs'.table q i c → dirEdge fs.table q i c := by
    intro i c he
    rwa [dirEdge, htable] at he
  constructor
  case self => exact htable.symm ▸ hq'.self
  case named => exact fun hs => htable.symm ▸ hq'.named (hslot hs)
  case distinct =>
    intro i j hi hj
    rw [htable]
    exact hq'.distinct (hslot hi) (hslot hj)
  case kinds =>
    intro i hs
    rw [htable]
    exact hq'.kinds (hslot hs)
  case sized =>
    intro i l hs ha hl
    rw [htable] at ha hl ⊢
    exact hq'.sized (hslot hs) ha (hcons.chain_back (hslot hs) (fun _ => h.chains (hslot hs)) hl)
  case plain => exact fun he => htable.symm ▸ hq'.plain (hedge he)
  case below =>
    intro i c he
    rw [h.table_kept hx hd (Reach.child hq₀ (hedge he)), htable]
    exact hq'.below (hedge he)

theorem noNamesake_kept : NoNamesake fs'.table x ↔ NoNamesake fs.table x := by
  constructor
  · intro hnames q hq i c he
    have htable := h.table_kept hx hd hq
    have hname := hnames q ((h.reach_kept hx hd q).mpr hq) i c
    rw [dirEdge, htable] at hname
    exact hname he
  · intro hnames q hq i c he
    have hq₀ := (h.reach_kept hx hd q).mp hq
    rw [dirEdge, h.table_kept hx hd hq₀] at he
    rw [h.table_kept hx hd hq₀]
    exact hnames q hq₀ i c he

theorem Shallow.kept (hshallow : Shallow fs.table n x) : Shallow fs'.table n x := by
  intro l q hl
  refine hshallow l q (path_congr ?_ hl)
  intro r k z hr
  simp only [dirEdge, h.table_kept hx hd hr]

theorem treeCells_kept (n : ℕ) : treeCells fs'.table n x = treeCells fs.table n x := by
  induction n generalizing x with
  | zero => rfl
  | succ n ih =>
      rw [treeCells, treeCells, h.table_kept hx hd Reach.root]
      refine congrArg (1 + List.sum ·) (List.map_congr_left ?_)
      intro i hi
      obtain ⟨h0, hused⟩ := mem_usedSlots.mp hi
      by_cases ha : (fs.table x i).attr = attrSubdirectory
      · have he : dirEdge fs.table x i (fs.table x i).cluster := ⟨h0, hused, ha, rfl⟩
        rw [entryCells, entryCells, if_pos ha, if_pos ha]
        exact ih (Reach.child hx he) fun hr => hd (reach_trans (Reach.child Reach.root he) hr)
      · rw [entryCells, entryCells, if_neg ha, if_neg ha]

end Kept

/-! ## Rounds -/

/-- A round of the loop over a slot that holds a directory. -/
theorem copySlot_directory {copyDirectory : EntryName → UInt32 → UInt32 → Shell → Option Shell}
    {t newTable : FAT32DirectoryTable} (hused : (t i).used)
    (hattr : (t i).attr = attrSubdirectory) :
    copySlot locals copyDirectory t newTable s i
      = copyDirectory (t i).name (t 0).cluster (newTable 0).cluster s := by
  have hne : (t i).attr ≠ attrArchive := fun ha => archive_ne_subdirectory (ha.symm.trans hattr)
  have hempty : (t i).userAttribute = uattrNotEmpty := hused
  rw [copySlot, if_pos hempty, if_pos hne]

/-- A round of the loop over a slot that holds a file. -/
theorem copySlot_file {copyDirectory : EntryName → UInt32 → UInt32 → Shell → Option Shell}
    {t newTable : FAT32DirectoryTable} (hused : (t i).used) (hattr : (t i).attr = attrArchive) :
    copySlot locals copyDirectory t newTable s i
      = copyFile locals (t i).name (t i).ext (t i).filesize (t 0).cluster
          (newTable 0).cluster s := by
  have hempty : (t i).userAttribute = uattrNotEmpty := hused
  rw [copySlot, if_pos hempty, if_neg fun hne => hne hattr]

/-- A round over an unused slot does nothing. -/
theorem copySlot_unused {copyDirectory : EntryName → UInt32 → UInt32 → Shell → Option Shell}
    {t newTable : FAT32DirectoryTable} (hused : ¬ (t i).used) :
    copySlot locals copyDirectory t newTable s i = some s :=
  if_neg hused

theorem copySlot_mono {f g : EntryName → UInt32 → UInt32 → Shell → Option Shell}
    (hfg : ∀ {name p d s s'}, f name p d s = some s' → g name p d s = some s')
    {t newTable : FAT32DirectoryTable} {s' : Shell}
    (h : copySlot locals f t newTable s i = some s') :
    copySlot locals g t newTable s i = some s' := by
  rw [copySlot] at h ⊢
  split
  · next hused =>
      rw [if_pos hused] at h
      split
      · next hattr =>
          rw [if_pos hattr] at h
          exact hfg h
      · next hattr =>
          rw [if_neg hattr] at h
          exact h
  · next hused =>
      rw [if_neg hused] at h
      exact h

/-! ## Calls -/

/-- The request of `copy_folder` for the new directory. -/
def folderRequest (t : FAT32DirectoryTable) (name : EntryName) (d : UInt32) :
    FAT32DriverRequest where
  buf := tableToMemory t
  name := name
  ext := fun _ => 0
  parentClusterNumber := d
  bufferSize := 0

/-- **One call**: it reads its source, makes the new directory whatever it has read, and on
    success goes over the slots of the table it has. -/
theorem copyFolder_step {depth : ℕ} {name : EntryName} {s s' : Shell} :
    copyFolder locals (depth + 1) name p d s = some s' ↔
      ∃ found t opened code fs₁, readDirectoryTable name p locals.reqTable s.fs = (found, t) ∧
        opened = (if found ≠ 0 then s.print (text "SHELL ERROR\n") darkGreen else s) ∧
        write locals.newTable (folderRequest t name d) s.fs = some (code, fs₁) ∧
        (if code ≠ 0 then some ({ opened with fs := fs₁ }.print
            (text "cp : Fail to copy folder\n") darkGreen)
          else run (copySlot locals (copyFolder locals depth) t
            (readDirectoryTable name d locals.copiedTable fs₁).2) { opened with fs := fs₁ }
            (slotsFrom 1)) = some s' := by
  rw [copyFolder]
  generalize readDirectoryTable name p locals.reqTable s.fs = result
  obtain ⟨found, t⟩ := result
  have hfs : (if found ≠ 0 then s.print (text "SHELL ERROR\n") darkGreen else s).fs = s.fs := by
    split
    · rfl
    · rfl
  dsimp only
  rw [hfs]
  constructor
  · intro h
    obtain ⟨⟨code, fs₁⟩, hwrite, h⟩ := Option.bind_eq_some_iff.mp h
    exact ⟨found, t, _, code, fs₁, rfl, rfl, hwrite, h⟩
  · rintro ⟨found', t', opened, code, fs₁, hread, rfl, hwrite, h⟩
    obtain ⟨rfl, rfl⟩ := Prod.mk.inj hread
    exact Option.bind_eq_some_iff.mpr ⟨(code, fs₁), hwrite, h⟩

/-- Room for more nested calls does not change what a call does. -/
theorem copyFolder_mono {m depth : ℕ} {name : EntryName} {s s' : Shell} (hm : m ≤ depth)
    (h : copyFolder locals m name p d s = some s') :
    copyFolder locals depth name p d s = some s' := by
  induction m generalizing depth name p d s s' with
  | zero => exact absurd h (Option.some_ne_none s').symm
  | succ m ih =>
      obtain ⟨depth, rfl⟩ : ∃ k, depth = k + 1 := ⟨depth - 1, by omega⟩
      obtain ⟨found, t, opened, code, fs₁, hread, hopened, hwrite, h⟩ := copyFolder_step.mp h
      refine copyFolder_step.mpr ⟨found, t, opened, code, fs₁, hread, hopened, hwrite, ?_⟩
      by_cases hcode : code ≠ 0
      · rw [if_pos hcode] at h ⊢
        exact h
      · rw [if_neg hcode] at h ⊢
        exact run_mono _ (fun _ _ _ hround =>
          copySlot_mono (fun hcall => ih (Nat.le_of_succ_le_succ hm) hcall) hround) h

/-! ## Files -/

/-- The lookup of `read` finds the slot of an intact directory itself. -/
theorem IntactDirectory.firstMatch (hcons : FsConsistent fs) (h : IntactDirectory fs q)
    (hs : UsedSlot fs.table q i) {request : FAT32DriverRequest}
    (hname : request.name = (fs.table q i).name) (hext : request.ext = (fs.table q i).ext) :
    OsyFat32.firstMatch request (fs.table q) = some i := by
  refine firstMatch_unique ⟨hs.slot, hname, hext⟩ ?_
  rintro j ⟨h0, hnamej, hextj⟩
  have hnz : (fs.table q j).name ≠ fun _ => 0 := by
    rw [← hnamej, hname]
    exact h.named hs
  have hj : UsedSlot fs.table q j := ⟨hs.live, h0, hcons.used_of_name hs.live hnz⟩
  exact h.distinct hj hs (hnamej.symm.trans hname) (hextj.symm.trans hext)

/-- A request of `copy_file` for an entry. -/
def fileRequest (buf : Memory) (e : FAT32DirectoryEntry) (d : UInt32) : FAT32DriverRequest where
  buf := buf
  name := e.name
  ext := e.ext
  parentClusterNumber := d
  bufferSize := e.filesize

theorem copyFile_eq {buf : Memory}
    (hread : OsyFat32.read (fileRequest locals.cl e x) s.fs = some (0, buf))
    (hwrite : OsyFat32.write locals.newTable (fileRequest buf e c) s.fs = some (0, fs')) :
    copyFile locals e.name e.ext e.filesize x c s = some { s with fs := fs' } := by
  rw [fileRequest] at hread hwrite
  simp only [copyFile, hread, hwrite, Option.bind_eq_bind, Option.bind_some, ne_eq,
    not_true_eq_false, if_false]

/-- Slot `i` of the directory at `x` is what a request with its fields finds, and its clusters
    are `l`, as many as its size says. -/
structure Readable (fs : FileSystem) (x : UInt32) (i : Fin directoryEntryCount)
    (l : List UInt32) : Prop where
  named : (fs.table x i).name ≠ fun _ => 0
  found : ∀ buf, OsyFat32.firstMatch (fileRequest buf (fs.table x i) x) (fs.table x) = some i
  chain : FatChain fs.fat (fs.table x i).cluster l
  nonempty : l ≠ []
  sized : l.length = (fs.table x i).filesize.toNat / clusterSize

theorem Readable.size_ne_zero {l : List UInt32} (h : Readable fs x i l) :
    (fs.table x i).filesize ≠ 0 := by
  intro h0
  have hlen := h.sized
  rw [h0] at hlen
  exact h.nonempty (List.length_eq_zero_iff.mp hlen)

theorem Readable.clusterCount {l : List UInt32} (h : Readable fs x i l) (buf : Memory)
    (d : UInt32) : clusterCount (fileRequest buf (fs.table x i) d) = l.length := by
  rw [clusterCount_eq, h.sized]
  rfl

theorem IntactDirectory.readable {l : List UInt32} (h : IntactDirectory fs x)
    (hcons : FsConsistent fs) (hs : UsedSlot fs.table x i)
    (ha : (fs.table x i).attr = attrArchive) (hl : FatChain fs.fat (fs.table x i).cluster l)
    (hne : l ≠ []) : Readable fs x i l where
  named := h.named hs
  found _ := h.firstMatch hcons hs rfl rfl
  chain := hl
  nonempty := hne
  sized := h.sized hs ha hl

/-- `copy_file` of a file that is found writes the clusters it has read, when there are as many
    free cells. -/
theorem Readable.stored (locals : Locals) {l : List UInt32} (h : Readable s.fs x i l)
    (hcons : FsConsistent s.fs) (hc : Live s.fs.table c)
    (hcells : l.length ≤ (freeCells s.fs.fat).length) :
    ∃ first rest, (freeCells s.fs.fat).take l.length = first :: rest ∧
      copyFile locals (s.fs.table x i).name (s.fs.table x i).ext (s.fs.table x i).filesize x c s
        = some { s with fs := fileWritten (fileRequest (copyClusters s.fs.disk locals.cl 0 l)
            (s.fs.table x i) c) s.fs first rest } := by
  have hread : OsyFat32.read (fileRequest locals.cl (s.fs.table x i) x) s.fs
      = some (0, copyClusters s.fs.disk locals.cl 0 l) :=
    read_eq h.named h.size_ne_zero (h.found _) h.chain (le_of_eq (h.clusterCount _ _).symm)
  let request := fileRequest (copyClusters s.fs.disk locals.cl 0 l) (s.fs.table x i) c
  have hcount : OsyFat32.clusterCount request = l.length := h.clusterCount _ _
  have hlive : Live s.fs.table request.parentClusterNumber := hc
  have hpos : OsyFat32.clusterCount request ≠ 0 := by
    rw [hcount]
    exact fun h0 => h.nonempty (List.length_eq_zero_iff.mp h0)
  obtain ⟨first, rest, htake, hstored⟩ := writeFile_stored hpos (hcount.symm ▸ hcells)
  have hwrite : OsyFat32.write locals.newTable request s.fs
      = some (0, fileWritten request s.fs first rest) :=
    (write_file h.named (live_not_reserved hcons hlive) h.size_ne_zero).trans hstored
  exact ⟨first, rest, hcount ▸ htake, copyFile_eq hread hwrite⟩

/-- **`copy_file` copies a file that is found into a directory with an unused slot.** -/
theorem Readable.copied (locals : Locals) {l : List UInt32} (h : Readable s.fs x i l)
    (hwf : WellFormed s.fs) (ha : (s.fs.table x i).attr = attrArchive) (hc : Live s.fs.table c)
    (hroom : ¬ (s.fs.table c j).used) (hcells : l.length ≤ (freeCells s.fs.fat).length) :
    ∃ fs', copyFile locals (s.fs.table x i).name (s.fs.table x i).ext
        (s.fs.table x i).filesize x c s = some { s with fs := fs' } ∧
      Copied s.fs fs' c (s.fs.table x i) l.length := by
  have hcons := hwf.consistent
  obtain ⟨first, rest, htake, hrun⟩ := h.stored locals hcons hc hcells
  refine ⟨_, hrun, ?_⟩
  let copy := fileRequest (copyClusters s.fs.disk locals.cl 0 l) (s.fs.table x i) c
  have hplaced : Placed copy s.fs (fileWritten copy s.fs first rest)
      (fileEntry copy s.fs first) (first :: rest) :=
    fileWritten_placed (parent_place hcons hc) htake
  have hins : Inserted s.fs.table _ s.fs.fat _ copy.parentClusterNumber _ _ (first :: rest) :=
    fileWritten_inserted hcons hc h.size_ne_zero htake
  constructor
  case grown => exact hplaced.grown hwf hins (writeSlot_ne_zero hcons hc hroom)
  case cells => exact freeCells_linkCells htake
  case entry =>
    refine ⟨fileEntry copy s.fs first, hplaced.used, hplaced.table, ?_⟩
    have hattr : (fileEntry copy s.fs first).attr ≠ attrSubdirectory :=
      fileEntry_notDirectory first h.size_ne_zero
    have hattrx : (s.fs.table x i).attr ≠ attrSubdirectory :=
      fun hdir => archive_ne_subdirectory (ha.symm.trans hdir)
    have hlenc : (first :: rest).length = l.length := by
      rw [← htake, List.length_take]
      exact Nat.min_eq_left hcells
    -- the new chain holds what was read
    have hbytes : chainBytes (fileWritten copy s.fs first rest)
        (fileEntry copy s.fs first).cluster = chainBytes s.fs (s.fs.table x i).cluster := by
      rw [chainBytes_eq hins.chain, chainBytes_eq h.chain, flatMap_buffer copy.buf, hlenc]
      · exact copyClusters_bytes s.fs.disk locals.cl l
      · intro m hm
        exact fileWritten_data hcons hc htake hm
    intro n
    rw [nodeOf, nodeOf, if_neg hattr, if_neg hattrx, hbytes]
    rfl

/-- The files of an intact directory. -/
theorem copyFile_copied (hwf : WellFormed s.fs) (hx : IntactDirectory s.fs x)
    (hs : UsedSlot s.fs.table x i) (ha : (s.fs.table x i).attr = attrArchive)
    (hc : Live s.fs.table c) (hroom : ¬ (s.fs.table c j).used)
    (hcells : (s.fs.table x i).filesize.toNat / clusterSize ≤ (freeCells s.fs.fat).length) :
    ∃ fs', copyFile locals (s.fs.table x i).name (s.fs.table x i).ext
        (s.fs.table x i).filesize x c s = some { s with fs := fs' } ∧
      Copied s.fs fs' c (s.fs.table x i) ((s.fs.table x i).filesize.toNat / clusterSize) := by
  obtain ⟨l, hl, hne, -⟩ := hwf.consistent.chain hs
  have hread := hx.readable hwf.consistent hs ha hl hne
  rw [← hread.sized] at hcells ⊢
  exact hread.copied locals hwf ha hc hroom hcells

end OsyShell
