import Osyikkk.CopyProofs
import Osyikkk.NameProofs

/-!
# The recursion of `copy_folder`

A call makes an empty directory in the destination (`makeFolder`), looks it up again, and
copies entry after entry of the source into it. `CopyLoop` is what holds after some of the
slots: the new directory has no gaps and stands for the entries that are done, and nothing
but it has grown. `copyFolder_copied` is the induction over the depth of the source.
-/

namespace OsyShell

open OsyDisk OsyFat32 OsyVolume LinkedChain RootedForest PartialRun

variable {locals : Locals} {fs fs' : FileSystem} {s : Shell} {p q c d x y : UInt32}
  {i j : Fin directoryEntryCount} {e : FAT32DirectoryEntry} {n : ℕ} {name : EntryName}
  {done : List (Fin directoryEntryCount)}

/-! ## The new directory -/

/-- An empty directory was made at the cluster `c`, which was no directory before, and its
    entry went to the first unused slot of `d`. -/
structure FolderMade (fs fs' : FileSystem) (d : UInt32) (name : EntryName) (c : UInt32) :
    Prop where
  grown : Grown d fs fs'
  entry : ∃ e, e.used ∧ IsDirectory name e ∧ e.ext = (fun _ => 0) ∧ e.cluster = c ∧
    fs'.table d = Function.update (fs.table d) (idxEmpty (fs.table d)) e
  fresh : ¬ Live fs.table c
  live : Live fs'.table c
  self : IsDirectory name (fs'.table c 0) ∧ (fs'.table c 0).cluster = c
  empty : ∀ i, i ≠ 0 → fs'.table c i = FAT32DirectoryEntry.zero
  found : (∀ i, ¬ IsDirectory name (fs.table d i)) → ∃ k, NamedAt fs'.table d name k c
  cells : freeCells fs'.fat = (freeCells fs.fat).drop 1
  first : (freeCells fs.fat).head? = some c

theorem directoryWritten_made
    (hzero : ∀ i, i ≠ 0 → locals.newTable i = FAT32DirectoryEntry.zero) (hwf : WellFormed fs)
    (hd : Live fs.table d) (hroom : ¬ (fs.table d j).used) {rest : List UInt32}
    (hfree : freeCells fs.fat = c :: rest) (t : FAT32DirectoryTable) :
    FolderMade fs (directoryWritten locals.newTable (folderRequest t name d) fs c) d name c := by
  have hcons := hwf.consistent
  have hmem : c ∈ freeCells fs.fat := by
    rw [hfree]
    exact List.mem_cons_self
  let request := folderRequest t name d
  have hplaced : Placed request fs (directoryWritten locals.newTable request fs c)
      (directoryEntry request fs c) [c] :=
    directoryWritten_placed (parent_place hcons hd) hmem
  have hins : Inserted fs.table (directoryWritten locals.newTable request fs c).table fs.fat
      (directoryWritten locals.newTable request fs c).fat d (writeSlot request fs)
      (directoryEntry request fs c) [c] := directoryWritten_inserted hcons hd hmem hzero
  have h0 : writeSlot request fs ≠ 0 := writeSlot_ne_zero hcons hd hroom
  have htable : (directoryWritten locals.newTable request fs c).table c
      = initDirectoryTable locals.newTable name c := directoryWritten_table hcons hd hmem
  constructor
  case grown => exact hplaced.grown hwf hins h0
  case entry =>
    exact ⟨directoryEntry request fs c, hplaced.used,
      ⟨rfl, directoryEntry_attr c rfl⟩, directoryEntry_ext hcons hd h0 c,
      directoryEntry_cluster c, hplaced.table⟩
  case fresh => exact fun hc => hcons.live_ne_free hc (mem_freeCells.mp hmem).2
  case live =>
    refine (hins.live_iff c).mpr (Or.inr ⟨?_, h0, directoryEntry_attr c rfl⟩)
    rw [directoryEntry_cluster]
  case self =>
    obtain ⟨-, ha, hn, hc⟩ := initDirectoryTable_self locals.newTable name c
    rw [htable]
    exact ⟨⟨hn, ha⟩, hc⟩
  case empty =>
    intro i hi
    rw [htable, initDirectoryTable_ne _ _ _ hi]
    exact hzero i hi
  case found =>
    intro hno
    have hnamed : NamedAt (directoryWritten locals.newTable request fs c).table
        request.parentClusterNumber request.name (writeSlot request fs) c :=
      directoryWritten_named_new rfl (fun i _ => hno i) (hno 0)
    exact ⟨_, hnamed⟩
  case cells =>
    have htake : (freeCells fs.fat).take 1 = c :: [] := by
      rw [hfree]
      rfl
    rw [directoryWritten_fat]
    exact freeCells_linkCells htake
  case first =>
    rw [hfree]
    rfl

/-- **With two free cells and an unused slot `write` makes the directory.** -/
theorem makeFolder (hzero : ∀ i, i ≠ 0 → locals.newTable i = FAT32DirectoryEntry.zero)
    (hwf : WellFormed fs) (hd : Live fs.table d) (hname : name ≠ fun _ => 0)
    (hroom : ¬ (fs.table d j).used) (hcells : 1 < (freeCells fs.fat).length)
    (t : FAT32DirectoryTable) :
    ∃ fs' c, OsyFat32.write locals.newTable (folderRequest t name d) fs = some (0, fs') ∧
      FolderMade fs fs' d name c := by
  obtain ⟨c, c₂, rest, hfree⟩ : ∃ c c₂ rest, freeCells fs.fat = c :: c₂ :: rest := by
    cases hl : freeCells fs.fat with
    | nil =>
        rw [hl] at hcells
        exact absurd hcells (Nat.not_lt_zero 1)
    | cons c l =>
        cases l with
        | nil =>
            rw [hl] at hcells
            exact absurd hcells (Nat.lt_irrefl 1)
        | cons c₂ rest => exact ⟨c, c₂, rest, rfl⟩
  refine ⟨_, c, ?_, directoryWritten_made hzero hwf hd hroom hfree t⟩
  refine (write_directory hname (live_not_reserved hwf.consistent hd) rfl).trans ?_
  rw [writeDirectory_eq hfree (first_cell_ne hfree)]

/-! ## The loop -/

/-- The state in which the loop of `copy_folder` begins: `c` is the empty copy of `x`, and
    there are more free cells than the entries of `x` take. -/
structure LoopStart (fs : FileSystem) (n : ℕ) (x c : UInt32) : Prop where
  wellFormed : WellFormed fs
  source : Live fs.table x
  intact : IntactTree fs x
  shallow : Shallow fs.table (n + 1) x
  dest : Live fs.table c
  apart : ¬ Reach (dirEdge fs.table) x c
  name : (fs.table c 0).name = (fs.table x 0).name
  empty : ∀ i, i ≠ 0 → fs.table c i = FAT32DirectoryEntry.zero
  cells : ((usedSlots (fs.table x)).map fun i =>
    entryCells (treeCells fs.table n) (fs.table x i)).sum < (freeCells fs.fat).length

/-- What holds after the slots `done`, when the loop began in `fs`. -/
structure CopyLoop (fs : FileSystem) (n : ℕ) (x c : UInt32)
    (done : List (Fin directoryEntryCount)) (fs' : FileSystem) : Prop where
  grown : Grown c fs fs'
  packed : Packed (fs'.table c)
  tree : ∀ m, subtree fs' (m + 1) c = (done.filter fun i => (fs.table x i).used).map fun i =>
    nodeOf fs (subtree fs m) (fs.table x i)
  cells : freeCells fs'.fat = (freeCells fs.fat).drop
    ((done.filter fun i => (fs.table x i).used).map fun i =>
      entryCells (treeCells fs.table n) (fs.table x i)).sum

theorem CopyLoop.start (h : LoopStart fs n x c) : CopyLoop fs n x c [] fs := by
  constructor
  case grown => exact Grown.refl c h.wellFormed
  case packed =>
    intro i j hij hj
    have hj0 : j ≠ 0 := fun h0 => Fin.not_lt_zero i (h0 ▸ hij)
    rw [h.empty j hj0] at hj
    exact absurd hj zero_not_used
  case tree =>
    intro m
    have hnone : usedSlots (fs.table c) = [] := by
      refine List.eq_nil_iff_forall_not_mem.mpr ?_
      intro i hi
      obtain ⟨h0, hused⟩ := mem_usedSlots.mp hi
      rw [h.empty i h0] at hused
      exact zero_not_used hused
    rw [subtree, hnone]
    rfl
  case cells => rfl

theorem filter_used_concat (t : FAT32DirectoryTable) (done : List (Fin directoryEntryCount))
    (hi : (t i).used) : (done ++ [i]).filter (fun i => (t i).used)
      = done.filter (fun i => (t i).used) ++ [i] := by
  simp only [List.filter_append, List.filter_cons, hi, decide_true, if_true, List.filter_nil]

theorem CopyLoop.skipped (h : CopyLoop fs n x c done fs') (hi : ¬ (fs.table x i).used) :
    CopyLoop fs n x c (done ++ [i]) fs' := by
  have hsame : (done ++ [i]).filter (fun i => (fs.table x i).used)
      = done.filter fun i => (fs.table x i).used := by
    simp only [List.filter_append, List.filter_cons, hi, decide_false, Bool.false_eq_true,
      if_false, List.filter_nil, List.append_nil]
  constructor
  case grown => exact h.grown
  case packed => exact h.packed
  case tree =>
    intro m
    rw [hsame]
    exact h.tree m
  case cells =>
    rw [hsame]
    exact h.cells

section Loop

variable (hstart : LoopStart fs n x c)
include hstart

/-- The slots of the source are not touched. -/
theorem CopyLoop.source_kept (h : CopyLoop fs n x c done fs') : fs'.table x = fs.table x :=
  h.grown.table_kept hstart.source hstart.apart Reach.root

/-- A slot of the source stands for the same tree all along. -/
theorem CopyLoop.node_kept (h : CopyLoop fs n x c done fs') (hi : i ≠ 0)
    (hused : (fs.table x i).used) (m : ℕ) :
    nodeOf fs' (subtree fs' m) (fs.table x i) = nodeOf fs (subtree fs m) (fs.table x i) := by
  refine h.grown.nodeOf_kept hstart.wellFormed.consistent ⟨hstart.source, hi, hused⟩ ?_
  intro y hy
  refine h.grown.subtree_kept hstart.wellFormed.consistent (Reach.child hstart.source hy) ?_ m
  exact fun hr => hstart.apart (reach_trans (Reach.child Reach.root hy) hr)

/-- **One more entry was copied.** -/
theorem CopyLoop.extended {fs'' : FileSystem} (h : CopyLoop fs n x c done fs') (hi : i ≠ 0)
    (hused : (fs.table x i).used) (hroom : ¬ (fs'.table c j).used)
    (hcopied : Copied fs' fs'' c (fs.table x i)
      (entryCells (treeCells fs.table n) (fs.table x i))) :
    CopyLoop fs n x c (done ++ [i]) fs'' := by
  obtain ⟨e, he, htable, hnode⟩ := hcopied.entry
  have hcons' := h.grown.wellFormed.consistent
  constructor
  case grown => exact h.grown.trans hcopied.grown (Or.inl rfl)
  case packed =>
    rw [htable]
    exact h.packed.update he
  case tree =>
    intro m
    rw [hcopied.grown.subtree_extended hcons' (h.grown.live hstart.dest) h.packed hroom htable
      he m, h.tree m, hnode m, h.node_kept hstart hi hused m, filter_used_concat _ _ hused,
      List.map_append, List.map_singleton]
  case cells =>
    rw [hcopied.cells, h.cells, List.drop_drop, filter_used_concat _ _ hused, List.map_append,
      List.sum_append, List.map_singleton, List.sum_singleton]

/-- The cells of the next entry are there. -/
theorem CopyLoop.room_cells (h : CopyLoop fs n x c done fs') (hused : (fs.table x i).used)
    (hfront : done ++ [i] <+: slotsFrom 1) :
    entryCells (treeCells fs.table n) (fs.table x i) < (freeCells fs'.fat).length := by
  obtain ⟨rest, hrest⟩ := hfront
  have htotal := hstart.cells
  rw [usedSlots, ← hrest, List.filter_append, filter_used_concat _ _ hused, List.map_append,
    List.map_append, List.sum_append, List.sum_append, List.map_singleton,
    List.sum_singleton] at htotal
  rw [h.cells, List.length_drop]
  omega

omit hstart in
/-- The copy is not full. -/
theorem CopyLoop.room_slot (h : CopyLoop fs n x c done fs')
    (hfront : done ++ [i] <+: slotsFrom 1) : ∃ j, j ≠ 0 ∧ ¬ (fs'.table c j).used := by
  refine exists_unused_of_length ?_
  have hlen := length_subtree fs' 0 c
  rw [h.tree 0, List.length_map] at hlen
  rw [← hlen]
  have hdone := List.length_filter_le (fun i => decide (fs.table x i).used) done
  have hall := hfront.length_le
  rw [List.length_append, List.length_singleton] at hall
  omega

/-- No directory of the copy has the name of the next one. -/
theorem CopyLoop.fresh (h : CopyLoop fs n x c done fs') (hfront : done ++ [i] <+: slotsFrom 1)
    (he : dirEdge fs.table x i y) (hj : j ≠ 0) :
    ¬ IsDirectory (fs.table x i).name (fs'.table c j) := by
  intro hdir
  have hx := hstart.intact x Reach.root
  have hused := h.grown.wellFormed.consistent.used_of_isDirectory (h.grown.live hstart.dest) hdir
  have hmem : nodeOf fs' (subtree fs' 0) (fs'.table c j) ∈ subtree fs' 1 c :=
    List.mem_map_of_mem (mem_usedSlots.mpr ⟨hj, hused⟩)
  rw [h.tree 0] at hmem
  obtain ⟨k, hk, hnode⟩ := List.mem_map.mp hmem
  obtain ⟨hkdone, hkused⟩ := List.mem_filter.mp hk
  obtain ⟨hattr, hname, -⟩ := directory_of_nodeOf hnode.symm hdir.2
  have hslots : k ∈ slotsFrom 1 ∧ (done ++ [i]).Nodup :=
    ⟨hfront.subset (List.mem_append_left _ hkdone), (slotsFrom_nodup 1).sublist hfront.sublist⟩
  have hek : dirEdge fs.table x k (fs.table x k).cluster :=
    ⟨mem_slotsFrom_one.mp hslots.1, of_decide_eq_true hkused, hattr, rfl⟩
  have hki : k = i := by
    refine hx.distinct (usedSlot_of_dirEdge hstart.source hek)
      (usedSlot_of_dirEdge hstart.source he) (hname.trans hdir.1) ?_
    rw [hx.plain hek, hx.plain he]
  exact (List.nodup_append.mp hslots.2).2.2 k hkdone i (List.mem_singleton_self i) hki

end Loop

/-! ## The recursion -/

/-- The directory `x` in slot `i` of `p` is the only one of its name there and the root of
    an intact tree; the directory `d` is outside this tree, has an unused slot and no
    directory of that name; and there are more free cells than the tree takes, which is read
    down to the depth `n`. -/
structure FolderInput (fs : FileSystem) (n : ℕ) (p : UInt32) (i : Fin directoryEntryCount)
    (x d : UInt32) : Prop where
  wellFormed : WellFormed fs
  source : Live fs.table p
  edge : dirEdge fs.table p i x
  unique : ∀ j, j ≠ 0 → IsDirectory (fs.table p i).name (fs.table p j) → j = i
  named : (fs.table p i).name ≠ fun _ => 0
  plain : (fs.table p i).ext = fun _ => 0
  self : (fs.table x 0).name = (fs.table p i).name
  intact : IntactTree fs x
  dest : Live fs.table d
  apart : ¬ Reach (dirEdge fs.table) x d
  room : ∃ j, ¬ (fs.table d j).used
  fresh : ∀ j, j ≠ 0 → ¬ IsDirectory (fs.table p i).name (fs.table d j)
  cells : treeCells fs.table n x < (freeCells fs.fat).length

/-- The lookups of a copy, which see slot 0, find what they are for: neither the directory
    of the source nor any directory below carries the name of what is looked up in it, and
    the destination does only when there is nothing to copy into the new directory. -/
structure NamesApart (tbl : Tables) (p : UInt32) (i : Fin directoryEntryCount)
    (x d : UInt32) : Prop where
  source : ¬ IsDirectory (tbl p i).name (tbl p 0)
  below : NoNamesake tbl x
  dest : ¬ IsDirectory (tbl p i).name (tbl d 0) ∨ usedSlots (tbl x) = []

/-- With room for `depth` nested calls `copy_folder` copies every tree of less than `n`
    levels. -/
def CopiesFolders (locals : Locals) (depth n : ℕ) : Prop :=
  ∀ (s : Shell) (p x d : UInt32) (i : Fin directoryEntryCount),
    FolderInput s.fs n p i x d → Shallow s.fs.table n x → NamesApart s.fs.table p i x d →
    ∃ fs', copyFolder locals depth (s.fs.table p i).name p d s = some { s with fs := fs' } ∧
      Copied s.fs fs' d (s.fs.table p i) (treeCells s.fs.table n x)

/-- Unless slot 0 has the name, the lookup finds the directory. -/
theorem FolderInput.found (h : FolderInput fs n p i x d)
    (hself : ¬ IsDirectory (fs.table p i).name (fs.table p 0)) :
    NamedAt fs.table p (fs.table p i).name i x := by
  constructor
  case named => exact ⟨rfl, h.edge.2.2.1⟩
  case cluster => exact h.edge.2.2.2
  case first =>
    intro j hj hdir
    by_cases hj0 : j = 0
    · exact hself (hj0 ▸ hdir)
    · exact absurd (h.unique j hj0 hdir) (ne_of_lt hj)

section Steps

variable (hstart : LoopStart fs n x c) (h : CopyLoop fs n x c done fs')
  (hfront : done ++ [i] <+: slotsFrom 1)
include hstart h hfront

/-- The next directory of the source can be copied. -/
theorem CopyLoop.input (he : dirEdge fs.table x i y) : FolderInput fs' n x i y c := by
  have hcons := hstart.wellFormed.consistent
  have hx := hstart.intact x Reach.root
  have htable := h.source_kept hstart
  have hy : Live fs.table y := Reach.child hstart.source he
  have hxy : Reach (dirEdge fs.table) x y := Reach.child Reach.root he
  have hapart : ¬ Reach (dirEdge fs.table) y c := fun hr => hstart.apart (reach_trans hxy hr)
  have hs := usedSlot_of_dirEdge hstart.source he
  constructor
  case wellFormed => exact h.grown.wellFormed
  case source => exact h.grown.live hstart.source
  case edge =>
    rw [dirEdge, htable]
    exact he
  case unique =>
    intro j hj hdir
    rw [htable] at hdir
    have hused := hcons.used_of_isDirectory hstart.source hdir
    refine hx.distinct ⟨hstart.source, hj, hused⟩ hs hdir.1 ?_
    rw [hx.plain he, hx.plain ⟨hj, hused, hdir.2, rfl⟩]
  case named =>
    rw [htable]
    exact hx.named hs
  case plain =>
    rw [htable]
    exact hx.plain he
  case self =>
    rw [htable, h.grown.table_kept hstart.source hstart.apart hxy]
    exact hx.below he
  case intact => exact (hstart.intact.child he).kept hcons h.grown hy hapart
  case dest => exact h.grown.live hstart.dest
  case apart => exact fun hr => hapart ((h.grown.reach_kept hy hapart c).mp hr)
  case room =>
    obtain ⟨j, -, hj⟩ := h.room_slot hfront
    exact ⟨j, hj⟩
  case fresh =>
    intro j hj
    rw [htable]
    exact h.fresh hstart hfront he hj
  case cells =>
    have hcells := h.room_cells hstart he.2.1 hfront
    rw [entryCells, if_pos he.2.2.1, he.2.2.2] at hcells
    rw [treeCells_kept h.grown hy hapart]
    exact hcells

omit hfront in
theorem CopyLoop.shallow (he : dirEdge fs.table x i y) : Shallow fs'.table n y :=
  (hstart.shallow.child he).kept h.grown (Reach.child hstart.source he)
    fun hr => hstart.apart (reach_trans (Reach.child Reach.root he) hr)

omit hfront in
/-- Its lookups find what they are for when no names coincide from here on. -/
theorem CopyLoop.namesApart (he : dirEdge fs.table x i y)
    (hname : (fs.table x i).name ≠ (fs.table x 0).name) (hbelow : NoNamesake fs.table y) :
    NamesApart fs'.table x i y c := by
  have htable := h.source_kept hstart
  have hy : Live fs.table y := Reach.child hstart.source he
  have hapart : ¬ Reach (dirEdge fs.table) y c :=
    fun hr => hstart.apart (reach_trans (Reach.child Reach.root he) hr)
  constructor
  case source =>
    rw [htable]
    exact fun hdir => hname hdir.1.symm
  case below => exact (noNamesake_kept h.grown hy hapart).mpr hbelow
  case dest =>
    left
    rw [htable, h.grown.self hstart.dest]
    exact fun hdir => hname (hdir.1.symm.trans hstart.name)

/-- **A round of the loop copies its entry.** -/
theorem CopyLoop.round {depth : ℕ} (hcopies : CopiesFolders locals depth n)
    {newTable : FAT32DirectoryTable}
    (hnew : (fs.table x i).used → (newTable 0).cluster = c)
    (hapart : ∀ y, dirEdge fs.table x i y →
      (fs.table x i).name ≠ (fs.table x 0).name ∧ NoNamesake fs.table y) :
    ∃ fs'', copySlot locals (copyFolder locals depth) (fs.table x) newTable
        { s with fs := fs' } i = some { s with fs := fs'' } ∧
      CopyLoop fs n x c (done ++ [i]) fs'' := by
  have hi : i ≠ 0 :=
    mem_slotsFrom_one.mp (hfront.subset (List.mem_append_right _ (List.mem_singleton_self i)))
  have hx := hstart.intact x Reach.root
  have htable := h.source_kept hstart
  by_cases hused : (fs.table x i).used
  · have hs : UsedSlot fs.table x i := ⟨hstart.source, hi, hused⟩
    have hfree := h.room_cells hstart hused hfront
    obtain ⟨j, -, hroom⟩ := h.room_slot hfront
    rcases hx.kinds hs with hattr | hattr
    · have he : dirEdge fs.table x i (fs.table x i).cluster := ⟨hi, hused, hattr, rfl⟩
      obtain ⟨hname, hbelow⟩ := hapart _ he
      have hcopied := hcopies { s with fs := fs' } x _ c i (h.input hstart hfront he)
        (h.shallow hstart he) (h.namesApart hstart he hname hbelow)
      rw [htable] at hcopied
      obtain ⟨fs'', hrun, hdone⟩ := hcopied
      refine ⟨fs'', ?_, h.extended hstart hi hused hroom ?_⟩
      · rw [copySlot_directory hused hattr, hx.self.2, hnew hused, hrun]
      · rw [entryCells, if_pos hattr]
        have hy : Live fs.table (fs.table x i).cluster := Reach.child hstart.source he
        rwa [treeCells_kept h.grown hy
          fun hr => hstart.apart (reach_trans (Reach.child Reach.root he) hr)] at hdone
    · have hattr' : (fs.table x i).attr ≠ attrSubdirectory :=
        fun hdir => archive_ne_subdirectory (hattr.symm.trans hdir)
      rw [entryCells, if_neg hattr'] at hfree
      have hx' := hstart.intact.kept hstart.wellFormed.consistent h.grown hstart.source
        hstart.apart x Reach.root
      have hs' : UsedSlot fs'.table x i := h.grown.usedSlot hs
      have hcopied : ∃ fs'', copyFile locals (fs'.table x i).name (fs'.table x i).ext
          (fs'.table x i).filesize x c { s with fs := fs' } = some { s with fs := fs'' } ∧
          Copied fs' fs'' c (fs'.table x i) ((fs'.table x i).filesize.toNat / clusterSize) := by
        refine copyFile_copied (s := { s with fs := fs' }) h.grown.wellFormed hx' hs' ?_
          (h.grown.live hstart.dest) hroom ?_
        · exact htable.symm ▸ hattr
        · exact htable.symm ▸ le_of_lt hfree
      rw [htable] at hcopied
      obtain ⟨fs'', hrun, hdone⟩ := hcopied
      refine ⟨fs'', ?_, h.extended hstart hi hused hroom ?_⟩
      · rw [copySlot_file hused hattr, hx.self.2, hnew hused, hrun]
      · rw [entryCells, if_neg hattr']
        exact hdone
  · exact ⟨fs', copySlot_unused hused, h.skipped hused⟩

end Steps

/-- **The loop over the slots in front copies their entries.** -/
theorem CopyLoop.run {depth : ℕ} (hstart : LoopStart fs n x c)
    (hcopies : CopiesFolders locals depth n) {newTable : FAT32DirectoryTable}
    {ks : List (Fin directoryEntryCount)} (hks : ks <+: slotsFrom 1)
    (hnew : ∀ i, i ≠ 0 → (fs.table x i).used → (newTable 0).cluster = c)
    (hapart : ∀ i ∈ ks, ∀ y, dirEdge fs.table x i y →
      (fs.table x i).name ≠ (fs.table x 0).name ∧ NoNamesake fs.table y) :
    ∃ fs', PartialRun.run (copySlot locals (copyFolder locals depth) (fs.table x) newTable)
        { s with fs := fs } ks = some { s with fs := fs' } ∧ CopyLoop fs n x c ks fs' := by
  obtain ⟨s', hrun, fs', rfl, hdone⟩ := run_loop
    (copySlot locals (copyFolder locals depth) (fs.table x) newTable)
    (fun done s' => ∃ fs', s' = { s with fs := fs' } ∧ CopyLoop fs n x c done fs')
    (by
      rintro done i _ hfront ⟨fs₁, rfl, hloop⟩
      have hmem : i ∈ ks :=
        hfront.subset (List.mem_append_right _ (List.mem_singleton_self i))
      have hi : i ≠ 0 := mem_slotsFrom_one.mp (hks.subset hmem)
      obtain ⟨fs₂, hround, hnext⟩ := hloop.round (s := s) hstart (hfront.trans hks) hcopies
        (hnew i hi) (hapart i hmem)
      exact ⟨_, hround, fs₂, rfl, hnext⟩)
    ⟨fs, rfl, CopyLoop.start hstart⟩
  exact ⟨fs', hrun, hdone⟩

/-! ## The call -/

/-- What is left of a call when the source is read and the directory is made. -/
theorem copyFolder_succ {depth : ℕ} {t : FAT32DirectoryTable}
    (hread : readDirectoryTable name p locals.reqTable s.fs = (0, t))
    (hwrite : OsyFat32.write locals.newTable (folderRequest t name d) s.fs = some (0, fs')) :
    copyFolder locals (depth + 1) name p d s
      = run (copySlot locals (copyFolder locals depth) t
          (readDirectoryTable name d locals.copiedTable fs').2) { s with fs := fs' }
          (slotsFrom 1) := by
  rw [folderRequest] at hwrite
  simp only [copyFolder, hread, hwrite, Option.bind_eq_bind, Option.bind_some, ne_eq,
    not_true_eq_false, if_false]

section Call

variable (hin : FolderInput fs (n + 1) p i x d)
  (hmade : FolderMade fs fs' d (fs.table p i).name c)
include hin hmade

/-- The loop begins with the new directory. -/
theorem FolderInput.loopStart (hshallow : Shallow fs.table (n + 1) x) :
    LoopStart fs' n x c := by
  have hcons := hin.wellFormed.consistent
  have hgrown := hmade.grown
  have hx : Live fs.table x := Reach.child hin.source hin.edge
  constructor
  case wellFormed => exact hgrown.wellFormed
  case source => exact hgrown.live hx
  case intact => exact hin.intact.kept hcons hgrown hx hin.apart
  case shallow => exact hshallow.kept hgrown hx hin.apart
  case dest => exact hmade.live
  case apart =>
    intro hr
    exact hmade.fresh (reach_trans hx ((hgrown.reach_kept hx hin.apart c).mp hr))
  case name => rw [hmade.self.1.1, hgrown.table_kept hx hin.apart Reach.root, hin.self]
  case empty => exact hmade.empty
  case cells =>
    have hcells := hin.cells
    rw [← treeCells_kept hgrown hx hin.apart, treeCells] at hcells
    rw [hmade.cells, List.length_drop]
    omega

/-- **When the loop is through, the entry of the new directory stands for the source.** -/
theorem FolderInput.copied {fs'' : FileSystem}
    (hdone : CopyLoop fs' n x c (slotsFrom 1) fs'') :
    Copied fs fs'' d (fs.table p i) (treeCells fs.table (n + 1) x) := by
  have hcons := hin.wellFormed.consistent
  have hx : Live fs.table x := Reach.child hin.source hin.edge
  obtain ⟨e, he, hdir, hext, hcluster, htable⟩ := hmade.entry
  have hdc : d ≠ c := fun hdc => hmade.fresh (hdc ▸ hin.dest)
  constructor
  case grown => exact hmade.grown.trans hdone.grown (Or.inr hmade.fresh)
  case entry =>
    refine ⟨e, he, ?_, ?_⟩
    · rw [hdone.grown.others (hmade.grown.live hin.dest) hdc, htable]
    · intro m
      have hsub : subtree fs'' m c = subtree fs m x := by
        rw [← hmade.grown.subtree_kept hcons hx hin.apart m]
        cases m with
        | zero => rfl
        | succ m => exact hdone.tree m
      rw [nodeOf, nodeOf, if_pos hdir.2, if_pos hin.edge.2.2.1, hdir.1, hext, hin.plain,
        hcluster, hin.edge.2.2.2, hsub]
  case cells =>
    rw [hdone.cells, hmade.cells, List.drop_drop, ← treeCells_kept hmade.grown hx hin.apart]
    rfl

/-- A lookup in the destination finds the new directory, unless slot 0 has its name. -/
theorem FolderInput.newTable (hself : ¬ IsDirectory (fs.table p i).name (fs.table d 0))
    (t : FAT32DirectoryTable) :
    readDirectoryTable (fs.table p i).name d t fs' = (0, fs'.table c) := by
  have hno : ∀ k, ¬ IsDirectory (fs.table p i).name (fs.table d k) := by
    intro k
    by_cases hk : k = 0
    · rw [hk]
      exact hself
    · exact hin.fresh k hk
  obtain ⟨k, hk⟩ := hmade.found hno
  exact readDirectoryTable_found t (findTable_of_named hin.named hk)

/-- The loop is given the new directory, unless it has nothing to do. -/
theorem FolderInput.newDest (hname : NamesApart fs.table p i x d) (t : FAT32DirectoryTable)
    (hi : j ≠ 0) (hused : (fs'.table x j).used) :
    ((readDirectoryTable (fs.table p i).name d t fs').2 0).cluster = c := by
  have hx : Live fs.table x := Reach.child hin.source hin.edge
  rw [hmade.grown.table_kept hx hin.apart Reach.root] at hused
  rcases hname.dest with hself | hnone
  · rw [hin.newTable hmade hself]
    exact hmade.self.2
  · have hmem : j ∈ usedSlots (fs.table x) := mem_usedSlots.mpr ⟨hi, hused⟩
    rw [hnone] at hmem
    exact absurd hmem List.not_mem_nil

end Call

/-- **A call begins with an empty directory and goes over the slots of the table it has
    read.** -/
theorem FolderInput.begins (hzero : ∀ i, i ≠ 0 → locals.newTable i = FAT32DirectoryEntry.zero)
    (hin : FolderInput s.fs (n + 1) p i x d) {t : FAT32DirectoryTable}
    (hread : readDirectoryTable (s.fs.table p i).name p locals.reqTable s.fs = (0, t)) :
    ∃ fs' c, FolderMade s.fs fs' d (s.fs.table p i).name c ∧ ∀ depth,
      copyFolder locals (depth + 1) (s.fs.table p i).name p d s
        = run (copySlot locals (copyFolder locals depth) t
            (readDirectoryTable (s.fs.table p i).name d locals.copiedTable fs').2)
            { s with fs := fs' } (slotsFrom 1) := by
  obtain ⟨j, hj⟩ := hin.room
  have htwo : 1 < (freeCells s.fs.fat).length := by
    have hcells := hin.cells
    rw [treeCells] at hcells
    omega
  obtain ⟨fs', c, hwrite, hmade⟩ := makeFolder hzero hin.wellFormed hin.dest hin.named hj htwo t
  exact ⟨fs', c, hmade, fun depth => copyFolder_succ hread hwrite⟩

/-- **`copy_folder` reproduces the tree.** -/
theorem copyFolder_copied (hzero : ∀ i, i ≠ 0 → locals.newTable i = FAT32DirectoryEntry.zero)
    {depth : ℕ} (hn : n ≤ depth) : CopiesFolders locals depth n := by
  induction n generalizing depth with
  | zero =>
      intro s p x d i _ hshallow
      exact absurd (hshallow [] x Path.root) (Nat.not_lt_zero _)
  | succ n ih =>
      obtain ⟨depth, rfl⟩ : ∃ k, depth = k + 1 := ⟨depth - 1, by omega⟩
      intro s p x d i hin hshallow hname
      obtain ⟨fs', c, hmade, hcall⟩ := hin.begins hzero (readDirectoryTable_found _
        (findTable_of_named hin.named (hin.found hname.source)))
      have hx : Live s.fs.table x := Reach.child hin.source hin.edge
      have hreq : fs'.table x = s.fs.table x :=
        hmade.grown.table_kept hx hin.apart Reach.root
      have hnames : NoNamesake fs'.table x :=
        (noNamesake_kept hmade.grown hx hin.apart).mpr hname.below
      obtain ⟨fs'', hrun, hdone⟩ := CopyLoop.run (s := s) (hin.loopStart hmade hshallow)
        (ih (Nat.le_of_succ_le_succ hn)) List.prefix_rfl
        (fun j hj hused => hin.newDest hmade hname locals.copiedTable hj hused)
        (fun k _ y he => ⟨hnames x Reach.root k y he, hnames.child he⟩)
      refine ⟨fs'', ?_, hin.copied hmade hdone⟩
      rw [hcall, ← hreq, hrun]

end OsyShell
