import Osyikkk.CopyNamesakeProofs

/-!
# When `copy_folder` reproduces a tree

`copyFolder_copied` says which names must not coincide for a copy to succeed, and the loops of
the module before say that each of them must not. The two together are exact
(`copyFolder_reproduces_iff`).
-/

namespace OsyShell

open OsyDisk OsyFat32 OsyVolume LinkedChain RootedForest PartialRun

variable {locals : Locals} {fs fs' : FileSystem} {s s' : Shell} {p q c d x δ : UInt32}
  {i j : Fin directoryEntryCount} {n depth : ℕ} {name : EntryName} {t : FAT32DirectoryTable}

/-! ## The condition -/

/-- A copy leaves free cells, and slot 0 of every directory. -/
theorem Copied.not_lost {e : FAT32DirectoryEntry} {k : ℕ} (h : Copied fs fs' d e k)
    (hk : k < (freeCells fs.fat).length) (hq : Live fs.table q)
    (hself : (fs.table q 0).cluster = q) : ¬ Lost fs' q := by
  rintro (hnil | ⟨-, hne⟩)
  · have hlen := congrArg List.length (h.cells.symm.trans hnil)
    rw [List.length_drop, List.length_nil] at hlen
    omega
  · rw [h.grown.self hq] at hne
    exact hne hself

/-- A copy fills one slot of the destination. -/
theorem Copied.not_spilled {e : FAT32DirectoryEntry} {k : ℕ} (h : Copied fs fs' d e k)
    (hk : k < (freeCells fs.fat).length) (hd : Live fs.table d)
    (hself : (fs.table d 0).cluster = d) : ¬ Spilled fs fs' d := by
  rintro (⟨j, -, hne, hun, hused⟩ | hlost)
  · obtain ⟨e', -, htable, -⟩ := h.entry
    rw [htable, Function.update_of_ne hne] at hused
    exact hun hused
  · exact h.not_lost hk hd hself hlost

/-- From some depth of nested calls on, `copy_folder` ends, and always in the same state,
    which is a copy of the directory in slot `i` of `p` into the directory `d`. -/
def Reproduces (locals : Locals) (s : Shell) (p : UInt32) (i : Fin directoryEntryCount)
    (d : UInt32) : Prop :=
  ∃ n s', (∀ depth, n ≤ depth →
      copyFolder locals depth (s.fs.table p i).name p d s = some s') ∧
    Copied s.fs s'.fs d (s.fs.table p i) (treeCells s.fs.table 512 (s.fs.table p i).cluster)

/-- **`copy_folder` reproduces the tree exactly when the names its lookups are for are told
    apart.** -/
theorem copyFolder_reproduces_iff
    (hzero : ∀ i, i ≠ 0 → locals.newTable i = FAT32DirectoryEntry.zero)
    (hin : FolderInput s.fs 512 p i x d) (hp : (s.fs.table p 0).cluster = p)
    (hd : (s.fs.table d 0).cluster = d) :
    Reproduces locals s p i d ↔ NamesApart s.fs.table p i x d := by
  have hcons := hin.wellFormed.consistent
  have hx : Live s.fs.table x := Reach.child hin.source hin.edge
  have hshallow : Shallow s.fs.table 512 x := by
    intro l q hl
    have hlen := shallow_of_consistent hcons hx l q hl
    omega
  rw [Reproduces, hin.edge.2.2.2]
  constructor
  · rintro ⟨n, s', hruns, hcopied⟩
    obtain ⟨depth, hdepth⟩ : ∃ depth, max n 512 = depth + 1 := ⟨max n 512 - 1, by omega⟩
    have h := hruns _ (le_max_left n 512)
    rw [hdepth] at h
    have hlost : ∀ {q}, Live s.fs.table q → (s.fs.table q 0).cluster = q → ¬ Lost s'.fs q :=
      fun hq hself => hcopied.not_lost hin.cells hq hself
    have hsource : ¬ IsDirectory (s.fs.table p i).name (s.fs.table p 0) := fun hsource =>
      hlost hin.source hp (copyFolder_source_lost hzero hin hp hd hsource h)
    by_cases hdest : IsDirectory (s.fs.table p i).name (s.fs.table d 0)
    · have hnone : usedSlots (s.fs.table x) = [] := by
        by_contra hsome
        exact hcopied.not_spilled hin.cells hin.dest hd
          (copyFolder_spilled hzero hin hshallow hd hsource hdest hsome h)
      refine ⟨hsource, noNamesake_of_children ?_, Or.inr hnone⟩
      intro k y he
      have hmem : k ∈ usedSlots (s.fs.table x) := mem_usedSlots.mpr ⟨he.1, he.2.1⟩
      rw [hnone] at hmem
      exact absurd hmem List.not_mem_nil
    · refine ⟨hsource, ?_, Or.inl hdest⟩
      by_contra hbelow
      obtain ⟨q, hq, hlostq⟩ :=
        copyFolder_lost hzero (by omega) hin hshallow hsource hdest hbelow h
      exact hlost (reach_trans hx hq) (hin.intact q hq).self.2 hlostq
  · intro hname
    obtain ⟨fs', hrun, hcopied⟩ :=
      copyFolder_copied hzero (le_refl 512) s p x d i hin hshallow hname
    exact ⟨512, { s with fs := fs' }, fun depth hdepth => copyFolder_mono hdepth hrun, hcopied⟩

/-! ## Two directories in the root -/

/-- Slot `i` of the root is an empty directory at the cluster `c`. -/
structure EmptyDirectory (fs : FileSystem) (i : Fin directoryEntryCount) (name : EntryName)
    (c : UInt32) : Prop where
  edge : dirEdge fs.table rootClusterNumber i c
  entry : (fs.table rootClusterNumber i).name = name ∧
    (fs.table rootClusterNumber i).ext = fun _ => 0
  self : IsDirectory name (fs.table c 0) ∧ (fs.table c 0).cluster = c
  empty : TableEmpty (fs.table c)

theorem EmptyDirectory.reach {c : UInt32} (h : EmptyDirectory fs i name c)
    (hq : Reach (dirEdge fs.table) c q) : q = c := by
  rcases reach_head hq with rfl | ⟨k, y, he, -⟩
  · rfl
  · exact absurd he.2.1 (h.empty k he.1)

theorem EmptyDirectory.live {c : UInt32} (h : EmptyDirectory fs i name c) :
    Live fs.table c :=
  Reach.child Reach.root h.edge

theorem EmptyDirectory.usedSlots {c : UInt32} (h : EmptyDirectory fs i name c) :
    OsyVolume.usedSlots (fs.table c) = [] := by
  refine List.eq_nil_iff_forall_not_mem.mpr ?_
  intro k hk
  obtain ⟨h0, hused⟩ := mem_usedSlots.mp hk
  exact h.empty k h0 hused

/-- A directory just made is empty. -/
theorem FolderMade.emptyDirectory {c : UInt32} (h : FolderMade fs fs' rootClusterNumber name c)
    (h0 : idxEmpty (fs.table rootClusterNumber) ≠ 0) :
    EmptyDirectory fs' (idxEmpty (fs.table rootClusterNumber)) name c := by
  obtain ⟨e, hused, hdir, hext, hc, htable⟩ := h.entry
  have hslot : fs'.table rootClusterNumber (idxEmpty (fs.table rootClusterNumber)) = e := by
    rw [htable, Function.update_self]
  constructor
  case edge =>
    rw [dirEdge, hslot]
    exact ⟨h0, hused, hdir.2, hc⟩
  case entry =>
    rw [hslot]
    exact ⟨hdir.1, hext⟩
  case self => exact h.self
  case empty =>
    intro k hk
    rw [h.empty k hk]
    exact zero_not_used

/-- It is one of the used slots afterwards, and the only new one. -/
theorem FolderMade.usedSlot {c : UInt32} {k : Fin directoryEntryCount}
    (h : FolderMade fs fs' d name c) (hk : (fs'.table d k).used) :
    k = idxEmpty (fs.table d) ∨ (fs.table d k).used := by
  obtain ⟨e, -, -, -, -, htable⟩ := h.entry
  by_cases hidx : k = idxEmpty (fs.table d)
  · exact Or.inl hidx
  · rw [htable, Function.update_of_ne hidx] at hk
    exact Or.inr hk

/-- An empty directory of the root stays empty when the root grows. -/
theorem EmptyDirectory.kept {c : UInt32} (hcons : FsConsistent fs)
    (hgrown : Grown rootClusterNumber fs fs') (h : EmptyDirectory fs i name c) :
    EmptyDirectory fs' i name c := by
  have hslot := hgrown.slots (usedSlot_of_dirEdge Reach.root h.edge)
  have hne : c ≠ rootClusterNumber := by
    rintro rfl
    exact hcons.uniqueParent.root Reach.root h.edge
  have htable := hgrown.others h.live hne
  constructor
  case edge =>
    rw [dirEdge, hslot]
    exact h.edge
  case entry =>
    rw [hslot]
    exact h.entry
  case self =>
    rw [htable]
    exact h.self
  case empty =>
    rw [htable]
    exact h.empty

/-- One of two empty directories can be copied into the other one. -/
theorem EmptyDirectory.input {nameD : EntryName} (hwf : WellFormed fs)
    (h : EmptyDirectory fs i name x) (hd : EmptyDirectory fs j nameD d)
    (hslots : ∀ k, k ≠ 0 → (fs.table rootClusterNumber k).used → k = i ∨ k = j)
    (hname : name ≠ fun _ => 0) (hne : nameD ≠ name) (hdx : d ≠ x)
    (hcells : 1 < (freeCells fs.fat).length) :
    FolderInput fs (n + 1) rootClusterNumber i x d := by
  have hcons := hwf.consistent
  have hnone : ∀ k, k ≠ 0 → ∀ name, ¬ IsDirectory name (fs.table d k) := by
    intro k hk name hdir
    exact hd.empty k hk (hcons.used_of_isDirectory hd.live hdir)
  constructor
  case wellFormed => exact hwf
  case source => exact Reach.root
  case edge => exact h.edge
  case unique =>
    intro k hk hdir
    rcases hslots k hk (hcons.used_of_isDirectory Reach.root hdir) with rfl | rfl
    · rfl
    · rw [h.entry.1] at hdir
      exact absurd (hd.entry.1.symm.trans hdir.1) hne
  case named => exact h.entry.1.symm ▸ hname
  case plain => exact h.entry.2
  case self => rw [h.entry.1, h.self.1.1]
  case intact =>
    intro q hq
    obtain rfl := h.reach hq
    have hunused : ∀ {k}, ¬ UsedSlot fs.table q k := fun hs => h.empty _ hs.slot hs.used
    constructor
    case self => exact ⟨h.self.1.2, h.self.2⟩
    case named => exact fun hs => absurd hs hunused
    case distinct => exact fun hs => absurd hs hunused
    case kinds => exact fun hs => absurd hs hunused
    case sized => exact fun hs => absurd hs hunused
    case plain => exact fun he => absurd he.2.1 (h.empty _ he.1)
    case below => exact fun he => absurd he.2.1 (h.empty _ he.1)
  case dest => exact hd.live
  case apart => exact fun hr => hdx (h.reach hr)
  case room => exact ⟨1, hd.empty 1 (by decide)⟩
  case fresh => exact fun k hk => hnone k hk _
  case cells =>
    rw [treeCells, h.usedSlots]
    exact hcells

/-- `a\0\0\0\0\0\0\0`. -/
def nameA : EntryName := fun j => [97].getD j 0

/-- The requests that make `ROOT` and `a` in the root. -/
def twoFolders : List Call :=
  [rootName, nameA].map fun name =>
    .write zeroTable (folderRequest zeroTable name rootClusterNumber)

/-- The volume they leave. -/
structure TwoFolders (fs : FileSystem) : Prop where
  wellFormed : WellFormed fs
  root : IsDirectory rootName (fs.table rootClusterNumber 0) ∧
    (fs.table rootClusterNumber 0).cluster = rootClusterNumber
  first : EmptyDirectory fs 1 rootName 3
  second : EmptyDirectory fs 2 nameA 4
  slots : ∀ k, k ≠ 0 → (fs.table rootClusterNumber k).used → k = 1 ∨ k = 2
  cells : 1 < (freeCells fs.fat).length

theorem nameA_ne : nameA ≠ fun _ => 0 := by
  intro h
  exact absurd (congrFun h 0) (by decide)

theorem exec_folder {t : FAT32DirectoryTable} {fs' : FileSystem}
    (h : OsyFat32.write zeroLocals.newTable (folderRequest t name d) fs = some (0, fs')) :
    exec fs (.write zeroTable (folderRequest t name d)) = some fs' :=
  Option.map_eq_some_iff.mpr ⟨_, h, rfl⟩

/-- The first directory of a fresh disk: slot 1 of the root, and cluster 3. -/
structure FirstFolder (fs : FileSystem) (name : EntryName) : Prop where
  made : FolderMade (freshFileSystem blankDisk) fs rootClusterNumber name 3
  folder : EmptyDirectory fs 1 name 3
  slots : ∀ k, k ≠ 0 → (fs.table rootClusterNumber k).used → k = 1
  root : NamedAt fs.table rootClusterNumber rootName 0 rootClusterNumber

theorem firstFolder_made (hname : name ≠ fun _ => 0) : ∃ fs,
    OsyFat32.write zeroLocals.newTable (folderRequest zeroTable name rootClusterNumber)
      (freshFileSystem blankDisk) = some (0, fs) ∧ FirstFolder fs name := by
  have hzero : ∀ i, i ≠ 0 → zeroLocals.newTable i = FAT32DirectoryEntry.zero := fun _ _ => rfl
  have hcells : 1 < (freeCells (freshFileSystem blankDisk).fat).length := by
    rw [fresh_freeCells_length]
    decide
  have hroom := fresh_unused blankDisk (show 1 ≠ 0 by decide)
  obtain ⟨fs, c, hwrite, hmade⟩ :=
    makeFolder hzero (fresh_wellFormed blankDisk) Reach.root hname hroom hcells zeroTable
  obtain rfl : 3 = c := Option.some.inj (fresh_headCell.symm.trans hmade.first)
  have hidx := fresh_idxEmpty blankDisk
  refine ⟨fs, hwrite, hmade, ?_, ?_, ?_⟩
  · have hfolder := hmade.emptyDirectory (by rw [hidx]; decide)
    rwa [hidx] at hfolder
  · intro k hk hused
    rcases hmade.usedSlot hused with heq | hold
    · exact heq.trans hidx
    · exact absurd hold (fresh_unused blankDisk hk)
  · have hroot := (fresh_selfTree blankDisk).root_named
    refine ⟨?_, fun j hj => absurd hj (Fin.not_lt_zero _), ?_⟩
    · rw [hmade.grown.self Reach.root]
      exact hroot.named
    · rw [hmade.grown.self Reach.root]
      exact hroot.cluster

theorem twoFolders_made : ∃ fs, runCalls (freshFileSystem blankDisk) twoFolders = some fs ∧
    TwoFolders fs := by
  have hzero : ∀ i, i ≠ 0 → zeroLocals.newTable i = FAT32DirectoryEntry.zero := fun _ _ => rfl
  -- `ROOT` goes to slot 1
  obtain ⟨fs₁, hwrite₁, hmade₁, hfirst, hslots₁, hroot₁⟩ := firstFolder_made rootName_ne
  have hlen₁ : (freeCells fs₁.fat).length = 508 := by
    rw [hmade₁.cells, List.length_drop, fresh_freeCells_length]
  have hcons₁ := hmade₁.grown.wellFormed.consistent
  -- `a` goes to slot 2
  have hroom : ¬ (fs₁.table rootClusterNumber 2).used := fun hused =>
    absurd (hslots₁ 2 (by decide) hused) (by decide)
  obtain ⟨fs₂, c₂, hwrite₂, hmade₂⟩ := makeFolder hzero hmade₁.grown.wellFormed
    Reach.root nameA_ne hroom (by rw [hlen₁]; decide) zeroTable
  have hhead : (freeCells fs₁.fat).head? = some 4 := by
    rw [hmade₁.cells, fresh_freeCells]
    decide
  obtain rfl : 4 = c₂ := Option.some.inj (hhead.symm.trans hmade₂.first)
  have hidx₂ : idxEmpty (fs₁.table rootClusterNumber) = 2 := by
    refine idxEmpty_eq hroom ?_
    intro j hj
    have hval : j.val < 2 := hj
    rcases Nat.lt_succ_iff_lt_or_eq.mp hval with h0 | h1
    · obtain rfl : j = 0 := Fin.ext (Nat.lt_one_iff.mp h0)
      exact hcons₁.selfUsed Reach.root
    · obtain rfl : j = 1 := Fin.ext h1
      exact hfirst.edge.2.1
  have hsecond := hmade₂.emptyDirectory (by rw [hidx₂]; decide)
  rw [hidx₂] at hsecond
  refine ⟨fs₂, ?_, ?_⟩
  · rw [runCalls, twoFolders, List.map_cons, List.map_cons, List.map_nil, run_cons,
      exec_folder hwrite₁, Option.bind_some, run_cons, exec_folder hwrite₂, Option.bind_some,
      run_nil]
  · constructor
    case wellFormed => exact hmade₂.grown.wellFormed
    case root =>
      rw [hmade₂.grown.self Reach.root]
      exact ⟨hroot₁.named, hroot₁.cluster⟩
    case first => exact hfirst.kept hcons₁ hmade₂.grown
    case second => exact hsecond
    case slots =>
      intro k hk hused
      rcases hmade₂.usedSlot hused with hidx | hold
      · exact Or.inr (hidx.trans hidx₂)
      · exact Or.inl (hslots₁ k hk hold)
    case cells =>
      rw [hmade₂.cells, List.length_drop, hlen₁]
      decide

/-- **A directory with the root's name is not copied into its neighbour.** The lookup finds
    the root in place of it. -/
theorem rootNamesake_notReproduced : ∃ fs,
    runCalls (freshFileSystem blankDisk) twoFolders = some fs ∧
      FolderInput fs 512 rootClusterNumber 1 3 4 ∧
      ¬ Reproduces zeroLocals (startShell fs) rootClusterNumber 1 4 := by
  obtain ⟨fs, hrun, h⟩ := twoFolders_made
  have hin : FolderInput fs 512 rootClusterNumber 1 3 4 :=
    h.first.input h.wellFormed h.second h.slots rootName_ne (by decide) (by decide) h.cells
  refine ⟨fs, hrun, hin, ?_⟩
  rintro ⟨n, s', hruns, hcopied⟩
  have hcall := hruns (n + 1) (Nat.le_succ n)
  have hsource : IsDirectory (fs.table rootClusterNumber 1).name
      (fs.table rootClusterNumber 0) := by
    rw [h.first.entry.1]
    exact h.root.1
  refine hcopied.not_lost ?_ Reach.root h.root.2
    (copyFolder_source_lost (s := startShell fs) (fun _ _ => rfl) hin h.root.2 h.second.self.2
      hsource hcall)
  rw [startShell, h.first.edge.2.2.2]
  exact hin.cells

/-- `a` is copied into the directory with the root's name. -/
theorem copyFolder_reproduces_a : ∃ fs,
    runCalls (freshFileSystem blankDisk) twoFolders = some fs ∧
      Reproduces zeroLocals (startShell fs) rootClusterNumber 2 3 := by
  obtain ⟨fs, hrun, h⟩ := twoFolders_made
  have hin : FolderInput fs 512 rootClusterNumber 2 4 3 :=
    h.second.input h.wellFormed h.first (fun k hk hused => (h.slots k hk hused).symm) nameA_ne
      (by decide) (by decide) h.cells
  refine ⟨fs, hrun, ?_⟩
  refine (copyFolder_reproduces_iff (s := startShell fs) (fun _ _ => rfl) hin h.root.2
    h.first.self.2).mpr ?_
  have hne : nameA ≠ rootName := by decide
  constructor
  case source =>
    show ¬ IsDirectory (fs.table rootClusterNumber 2).name (fs.table rootClusterNumber 0)
    rw [h.second.entry.1]
    exact fun hdir => hne (hdir.1.symm.trans h.root.1.1)
  case below =>
    refine noNamesake_of_children ?_
    intro k y he
    exact absurd he.2.1 (h.second.empty k he.1)
  case dest =>
    left
    show ¬ IsDirectory (fs.table rootClusterNumber 2).name (fs.table 3 0)
    rw [h.second.entry.1]
    exact fun hdir => hne (hdir.1.symm.trans h.first.self.1.1)

end OsyShell
