import Osyikkk.KernelBoot

/-!
# Booting and the files on the disk

The boot writes go to clusters 15 and 16, whatever these hold. As long as no file owns
either of them (`FilesApart`) a boot keeps every entry and every file: a parent that is no
live directory is touched where nothing is reachable. Both stay unowned, because free cells
are taken from the bottom up, so a file under the live directory 16 gets cells above it.

The shell is the first thing on the disk, in the cells from 3 on. From 13 clusters on it
owns cell 15, and two boots cannot both leave that cluster as it was
(`booting_keepsDisk_iff`).
-/

namespace OsyBoot

open OsyDisk OsyFat32 OsyVolume OsyInserter LinkedChain RootedForest

variable {request : FAT32DriverRequest} {newTable : FAT32DirectoryTable}
  {fs fs' fs'' : FileSystem} {e : FAT32DirectoryEntry} {l : List UInt32} {code : Int8}

/-! ## Cells -/

/-- The free cells are the last ones. -/
def CellsPacked (fat : FAT32FileAllocationTable) : Prop :=
  ∀ c d : UInt32, c.toNat ≤ d.toNat → d.toNat < clusterMapSize →
    clusterMapGet fat c = some 0 → clusterMapGet fat d = some 0

/-- Taking the first free cells leaves the last ones. -/
theorem CellsPacked.taken {fat fat' : FAT32FileAllocationTable} (h : CellsPacked fat)
    (hreserved : ∀ c : UInt32, c.toNat < 3 → clusterMapGet fat c ≠ some 0)
    (hl : l <+: freeCells fat) (hkept : ∀ c, c ∉ l → clusterMapGet fat' c = clusterMapGet fat c)
    (hclaimed : ∀ c ∈ l, clusterMapGet fat' c ≠ some 0) : CellsPacked fat' := by
  intro c d hcd hd hc
  have hcl : c ∉ l := fun hmem => hclaimed c hmem hc
  rw [hkept c hcl] at hc
  rw [hkept d ?_]
  · exact h c d hcd hd hc
  intro hdl
  -- `c` is behind the taken cells, so `d` is not one of them
  obtain ⟨rest, hrest⟩ := hl
  have hfree : c ∈ freeCells fat := by
    refine mem_freeCells.mpr ⟨?_, hc⟩
    by_contra hlow
    exact hreserved c (by omega) hc
  have hordered := freeCells_ordered fat
  rw [← hrest] at hfree hordered
  have hlt := (List.pairwise_append.mp hordered).2.2 d hdl c
    ((List.mem_append.mp hfree).resolve_left hcl)
  omega

/-! ## What a boot keeps of the tree -/

/-- The file allocation table a later boot will find. -/
abbrev imageFat (fs : FileSystem) : FAT32FileAllocationTable := readFat fs.disk fatClusterNumber

/-- What may be left in an unused slot: in the root nothing, and in a folder that a boot has
    made whatever its local table held. -/
def BootLeft (d : UInt32) (e : FAT32DirectoryEntry) : Prop :=
  d = rootClusterNumber → e = FAT32DirectoryEntry.zero

/-- The state between two driver calls of a boot. The table in memory may have taken a cell
    more than its image: a folder that meets cell 511 first. -/
structure BootSound (fs : FileSystem) : Prop where
  consistent : ConsistentWith BootLeft fs.table (imageFat fs)
  ahead : ∀ c, clusterMapGet (imageFat fs) c ≠ some 0 →
    clusterMapGet fs.fat c = clusterMapGet (imageFat fs) c
  packed : CellsPacked fs.fat
  imagePacked : CellsPacked (imageFat fs)
  signed : ¬ isEmptyStorage fs.disk

theorem BootSound.memory (h : BootSound fs) : ConsistentWith BootLeft fs.table fs.fat :=
  h.consistent.congr (fun _ _ => rfl) h.ahead

theorem BootSound.chain (h : BootSound fs) {d : UInt32} {i : Fin directoryEntryCount}
    (hs : UsedSlot fs.table d i) (hl : FatChain (imageFat fs) (fs.table d i).cluster l) :
    FatChain fs.fat (fs.table d i).cluster l :=
  chain_frame hl fun _ hc => h.ahead _ (h.consistent.owned_ne_free hs hl hc)

/-- Mounting the disk starts with the image. -/
theorem BootSound.mount (h : BootSound fs) :
    (mountImage fs.disk).disk = fs.disk ∧ (mountImage fs.disk).fat = imageFat fs ∧
      BootSound (mountImage fs.disk) := by
  have hmount : mountImage fs.disk
      = { driverState :=
            { fatTable := imageFat fs
              dirTableBuf := readTable fs.disk rootClusterNumber }
          disk := fs.disk } := by
    rw [mountImage, initializeFilesystemFat32]
    exact if_neg h.signed
  rw [hmount]
  exact ⟨rfl, rfl, h.consistent, fun _ _ => rfl, h.imagePacked, h.imagePacked, h.signed⟩

/-- Every entry stays in its slot, with its chain. -/
structure EntriesKept (fs fs' : FileSystem) : Prop where
  slots : ∀ {d i}, UsedSlot fs.table d i →
    UsedSlot fs'.table d i ∧ fs'.table d i = fs.table d i
  chains : ∀ {d i l}, UsedSlot fs.table d i → FatChain (imageFat fs) (fs.table d i).cluster l →
    FatChain (imageFat fs') (fs.table d i).cluster l

theorem EntriesKept.refl (fs : FileSystem) : EntriesKept fs fs :=
  ⟨fun hs => ⟨hs, rfl⟩, fun _ hl => hl⟩

theorem EntriesKept.trans (h : EntriesKept fs fs') (h' : EntriesKept fs' fs'') :
    EntriesKept fs fs'' where
  slots hs := by
    obtain ⟨hs', he⟩ := h.slots hs
    obtain ⟨hs'', he'⟩ := h'.slots hs'
    exact ⟨hs'', he'.trans he⟩
  chains hs hl := by
    obtain ⟨hs', he⟩ := h.slots hs
    have hl' := h.chains hs hl
    rw [← he] at hl' ⊢
    exact h'.chains hs' hl'

theorem EntriesKept.of_disk (h : fs'.disk = fs.disk) : EntriesKept fs fs' where
  slots hs := by
    rw [table_congr h]
    exact ⟨hs, rfl⟩
  chains hs hl := by
    rw [imageFat, h]
    exact hl

/-- No file owns the cluster. -/
def Unowned (fs : FileSystem) (c : UInt32) : Prop :=
  ∀ {d i l}, UsedSlot fs.table d i → (fs.table d i).attr = attrArchive →
    FatChain (imageFat fs) (fs.table d i).cluster l → c ∉ l

/-- No file owns one of the clusters the boot takes for directories. -/
def FilesApart (fs : FileSystem) : Prop := Unowned fs 0xF ∧ Unowned fs 0x10

theorem BootSound.unowned_root (h : BootSound fs) : Unowned fs rootClusterNumber := by
  intro d i l hs _ hl hmem
  obtain ⟨l', hl', -, h3⟩ := h.consistent.chain hs
  obtain rfl := chain_unique hl hl'
  exact absurd (h3 _ hmem) (by decide)

/-- The clusters of every file are left alone. -/
structure FilesKept (fs fs' : FileSystem) : Prop where
  clusters : ∀ {d i l}, UsedSlot fs.table d i → (fs.table d i).attr = attrArchive →
    FatChain (imageFat fs) (fs.table d i).cluster l →
    ∀ c ∈ l, clusterAt fs'.disk c = clusterAt fs.disk c

theorem FilesKept.of_disk (h : fs'.disk = fs.disk) : FilesKept fs fs' where
  clusters _ _ _ _ _ := by rw [h]

theorem FilesKept.trans (h : FilesKept fs fs') (hent : EntriesKept fs fs')
    (h' : FilesKept fs' fs'') : FilesKept fs fs'' where
  clusters hs ha hl c hc := by
    obtain ⟨hs', he⟩ := hent.slots hs
    have hl' := hent.chains hs hl
    rw [← he] at ha hl'
    exact (h'.clusters hs' ha hl' c hc).trans (h.clusters hs (he ▸ ha) hl c hc)

/-! ## One call -/

section Placed

variable (hsound : BootSound fs) (hp : 2 ≤ request.parentClusterNumber.toNat)
  (hlt : request.parentClusterNumber.toNat < clusterMapSize)
  (h : Placed request fs fs' e l)

/-- A cell that is in use keeps its value. -/
theorem placed_fat (h : Placed request fs fs' e l) {c : UInt32}
    (hc : clusterMapGet fs.fat c ≠ some 0) :
    clusterMapGet fs'.fat c = clusterMapGet fs.fat c :=
  h.kept c fun hmem => hc (h.fresh c hmem)

include hsound h

include hlt in
/-- A parent that is no live directory is written where nothing is reachable. -/
theorem stray_tables (hdead : ¬ Live fs.table request.parentClusterNumber) {d : UInt32}
    (hd : Live fs.table d) : fs'.table d = fs.table d := by
  have hcons := hsound.memory
  have hd2 := hcons.live_range hd
  refine readTable_congr (h.clusters d (drivePlace_ne hd2.2 hlt ?_)
    (place_ne_fatCluster hd2.1 hd2.2) fun c hc => place_ne_of_free hcons hd (h.fresh c hc))
  rintro rfl
  exact hdead hd

/-- The chain of an old entry is kept. -/
theorem placed_chain {d : UInt32} {i : Fin directoryEntryCount} {q : List UInt32}
    (hs : UsedSlot fs.table d i) (hl : FatChain (imageFat fs) (fs.table d i).cluster q) :
    FatChain (imageFat fs') (fs.table d i).cluster q := by
  have hmem := hsound.chain hs hl
  rw [imageFat, h.image]
  exact chain_frame hmem fun c hc => placed_fat h (hsound.memory.owned_ne_free hs hmem hc)

variable (hins : Live fs.table request.parentClusterNumber →
  InsertedWith BootLeft fs.table fs'.table fs.fat fs'.fat request.parentClusterNumber
    (writeSlot request fs) e l)
include hlt hins

theorem placed_entriesKept : EntriesKept fs fs' where
  slots {d i} hs := by
    by_cases hlive : Live fs.table request.parentClusterNumber
    · have hi := hins hlive
      have he := hi.entry_kept hs
      exact ⟨⟨(hi.live_iff d).mpr (Or.inl hs.live), hs.slot, he ▸ hs.used⟩, he⟩
    · have htables : ∀ d, Live fs.table d → fs'.table d = fs.table d :=
        fun d hd => stray_tables hsound hlt h hlive hd
      have he := congrFun (htables d hs.live) i
      exact ⟨⟨(live_congr htables d).mpr hs.live, hs.slot, he ▸ hs.used⟩, he⟩
  chains hs hl := placed_chain hsound h hs hl

include hp in
theorem placed_bootSound (hfirst : l <+: freeCells fs.fat) : BootSound fs' := by
  have hcons := hsound.memory
  have himage : imageFat fs' = fs'.fat := h.image
  have hpacked : CellsPacked fs'.fat :=
    hsound.packed.taken hcons.reserved hfirst h.kept h.claimed
  constructor
  case consistent =>
    rw [himage]
    by_cases hlive : Live fs.table request.parentClusterNumber
    · exact (hins hlive).consistent hcons
    · -- a parent that no directory owns: the tables and their cells stay
      refine hcons.congr ?_ fun c hc => placed_fat h hc
      intro d hd
      exact stray_tables hsound hlt h hlive hd
  case ahead =>
    intro c _
    rw [himage]
  case packed => exact hpacked
  case imagePacked => exact himage ▸ hpacked
  case signed =>
    refine mt (isEmptyStorage_congr (h.clusters bootSector (place_ne_boot hp hlt) (by decide)
      fun c hc => ?_)).mp hsound.signed
    have hfree := h.fresh c hc
    have h2 : 2 ≤ c.toNat := by
      by_contra hlow
      exact hcons.reserved c (by omega) hfree
    exact place_ne_boot h2 (clusterMapGet_lt hfree)

omit hins in
/-- If no file owns the parent, no file's cluster is written. -/
theorem placed_filesKept (hunowned : Unowned fs request.parentClusterNumber) :
    FilesKept fs fs' := by
  constructor
  intro d i q hs ha hl c hc
  obtain ⟨q', hq', -, h3⟩ := hsound.consistent.chain hs
  obtain rfl := chain_unique hl hq'
  have hclt := fatChain_lt hl hc
  refine h.clusters c (drivePlace_ne hclt hlt ?_)
    (place_ne_fatCluster (Nat.le_of_succ_le (h3 c hc)) hclt) ?_
  · rintro rfl
    exact hunowned hs ha hl hc
  · intro d hd
    refine drivePlace_ne hclt (clusterMapGet_lt (h.fresh d hd)) ?_
    rintro rfl
    exact hsound.memory.owned_ne_free hs (hsound.chain hs hl) hc (h.fresh _ hd)

/-- A cluster no file owns is unowned until a file of a live directory takes it. -/
theorem placed_unowned {c : UInt32} (hunowned : Unowned fs c)
    (hnew : Live fs.table request.parentClusterNumber → e.attr = attrArchive → c ∉ l) :
    Unowned fs' c := by
  intro d i q hs ha hq
  have hold : ∀ {d i}, UsedSlot fs.table d i → fs'.table d i = fs.table d i →
      (fs'.table d i).attr = attrArchive → FatChain (imageFat fs') (fs'.table d i).cluster q →
      c ∉ q := by
    intro d i hs he ha hq
    rw [he] at ha hq
    obtain ⟨q', hq', -⟩ := hsound.consistent.chain hs
    obtain rfl := chain_unique (placed_chain hsound h hs hq') hq
    exact hunowned hs ha hq'
  by_cases hlive : Live fs.table request.parentClusterNumber
  · rcases (hins hlive).usedSlot hs with ⟨-, -, -, he⟩ | ⟨hs₀, -, he⟩
    · rw [he] at ha hq
      rw [imageFat, h.image] at hq
      obtain rfl := chain_unique h.chain hq
      exact hnew hlive ha
    · exact hold hs₀ he ha hq
  · have htables : ∀ d, Live fs.table d → fs'.table d = fs.table d :=
      fun d hd => stray_tables hsound hlt h hlive hd
    have hd := (live_congr htables d).mp hs.live
    have he := congrFun (htables d hd) i
    exact hold ⟨hd, hs.slot, he ▸ hs.used⟩ he ha hq

end Placed

/-- A call of a boot: a read of the root, or a write into the root, cluster 15 or 16, of a
    folder, or of a file in cluster 16. -/
def BootCall : Call → Prop
  | .write newTable request =>
      (request.parentClusterNumber = rootClusterNumber ∨ request.parentClusterNumber = 0xF ∨
        request.parentClusterNumber = 0x10) ∧
      clusterSize ∣ request.bufferSize.toNat ∧
      (∀ i, i ≠ 0 → ¬ (newTable i).used) ∧
      (request.bufferSize ≠ 0 → request.parentClusterNumber = 0x10)
  | .read request => request.parentClusterNumber = rootClusterNumber
  | _ => False

theorem bootCalls_bootCall (m : BootMemory) : ∀ k ∈ bootCalls m, BootCall k := by
  intro k hk
  simp only [bootCalls, List.mem_cons, List.not_mem_nil, or_false] at hk
  rcases hk with rfl | rfl | rfl | rfl | rfl | rfl
  · exact rfl
  · exact ⟨Or.inl rfl, Nat.dvd_zero _, m.ikanaide_unused, fun h => absurd rfl h⟩
  · exact ⟨Or.inl rfl, Nat.dvd_zero _, m.kano1_unused, fun h => absurd rfl h⟩
  · exact ⟨Or.inr (Or.inl rfl), Nat.dvd_zero _, m.kano2_unused, fun h => absurd rfl h⟩
  · exact ⟨Or.inr (Or.inr rfl), by decide, fun _ _ => zero_not_used, fun _ => rfl⟩
  · exact rfl

/-- What a call of a boot keeps. -/
structure CallKeeps (fs fs' : FileSystem) : Prop where
  sound : BootSound fs'
  entries : EntriesKept fs fs'
  apart : FilesApart fs → FilesApart fs'
  files : FilesApart fs → FilesKept fs fs'

theorem CallKeeps.refl (h : BootSound fs) : CallKeeps fs fs :=
  ⟨h, .refl fs, id, fun _ => .of_disk rfl⟩

theorem CallKeeps.trans (h : CallKeeps fs fs') (h' : CallKeeps fs' fs'') : CallKeeps fs fs'' where
  sound := h'.sound
  entries := h.entries.trans h'.entries
  apart ha := h'.apart (h.apart ha)
  files ha := (h.files ha).trans h.entries (h'.files (h.apart ha))

/-- A folder that is refused with cell 511 changes the table in memory only. -/
theorem leaked_keeps (hsound : BootSound fs) {c : UInt32} {rest : List UInt32}
    (hfree : freeCells fs.fat = c :: rest) :
    CallKeeps fs (fs.store (setCell fs.fat c fat32FatEndOfFile) fs.disk) := by
  have hcell := (mem_freeCells.mp (hfree ▸ List.mem_cons_self : c ∈ freeCells fs.fat)).2
  have hunowned : ∀ d, Unowned fs d →
      Unowned (fs.store (setCell fs.fat c fat32FatEndOfFile) fs.disk) d := fun _ h => h
  constructor
  case sound =>
    refine ⟨hsound.consistent, ?_, ?_, hsound.imagePacked, hsound.signed⟩
    · intro d hd
      have hahead := hsound.ahead d hd
      rw [store_fat, clusterMapGet_setCell_ne]
      · exact hahead
      rintro rfl
      rw [hahead] at hcell
      exact hd hcell
    · have hfirst : [c] <+: freeCells fs.fat := by
        rw [hfree]
        exact List.prefix_append [c] rest
      refine hsound.packed.taken hsound.memory.reserved hfirst ?_ ?_
      · intro d hd
        exact clusterMapGet_setCell_ne _ _ fun h => hd (h ▸ List.mem_singleton_self c)
      · intro d hd
        rw [List.mem_singleton.mp hd, store_fat,
          clusterMapGet_setCell_self _ _ (clusterMapGet_lt hcell)]
        decide
  case entries => exact .of_disk rfl
  case apart => exact fun h => ⟨hunowned _ h.1, hunowned _ h.2⟩
  case files => exact fun _ => .of_disk rfl

/-- A write that stored an entry: a folder, or a file in cluster 16. -/
theorem placed_keeps (hsound : BootSound fs) (hk : BootCall (.write newTable request))
    (h : Placed request fs fs' e l)
    (hins : Live fs.table request.parentClusterNumber →
      InsertedWith BootLeft fs.table fs'.table fs.fat fs'.fat request.parentClusterNumber
        (writeSlot request fs) e l)
    (hfirst : l <+: freeCells fs.fat) (hkind : e.attr = attrArchive → request.bufferSize ≠ 0) :
    CallKeeps fs fs' := by
  obtain ⟨hparent, -, -, hfile⟩ := hk
  have hrange : 2 ≤ request.parentClusterNumber.toNat ∧
      request.parentClusterNumber.toNat < clusterMapSize := by
    rcases hparent with hp | hp | hp <;> rw [hp] <;> decide
  -- under a live cluster 16 all free cells are above it
  have hnew : ∀ c : UInt32, c.toNat ≤ 16 → Live fs.table request.parentClusterNumber →
      e.attr = attrArchive → c ∉ l := by
    intro c hc hlive ha hmem
    have hp := hfile (hkind ha)
    rw [hp] at hlive
    exact hsound.memory.live_ne_free hlive
      (hsound.packed c 0x10 hc (by decide) (h.fresh c hmem))
  constructor
  case sound => exact placed_bootSound hsound hrange.1 hrange.2 h hins hfirst
  case entries => exact placed_entriesKept hsound hrange.2 h hins
  case apart =>
    intro hapart
    exact ⟨placed_unowned hsound hrange.2 h hins hapart.1 (hnew 0xF (by decide)),
      placed_unowned hsound hrange.2 h hins hapart.2 (hnew 0x10 (by decide))⟩
  case files =>
    intro hapart
    refine placed_filesKept hsound hrange.2 h ?_
    rcases hparent with hp | hp | hp <;> rw [hp]
    · exact hsound.unowned_root
    · exact hapart.1
    · exact hapart.2

theorem directory_keeps (hsound : BootSound fs) (hk : BootCall (.write newTable request))
    (hs : request.bufferSize = 0) {c : UInt32} {rest : List UInt32}
    (hfree : freeCells fs.fat = c :: rest) :
    CallKeeps fs (directoryWritten newTable request fs c) := by
  have hc : c ∈ freeCells fs.fat := hfree ▸ List.mem_cons_self
  have hp : drivePlace request.parentClusterNumber ≠ drivePlace fatClusterNumber := by
    rcases hk.1 with hp | hp | hp <;> rw [hp] <;> decide
  refine placed_keeps hsound hk (directoryWritten_placed hp hc) ?_ ?_ ?_
  · intro hlive
    refine directoryWritten_insertedWith hsound.memory hlive hc ?_
    intro i hi
    refine ⟨hk.2.2.1 i hi, ?_⟩
    -- the root is no free cell
    rintro rfl
    exact absurd (mem_freeCells.mp hc).2 (hsound.memory.reserved _ (by decide))
  · rw [hfree]
    exact List.prefix_append [c] rest
  · intro ha
    rw [directoryEntry_attr c hs] at ha
    exact absurd ha (by decide)

theorem file_keeps (hsound : BootSound fs) (hk : BootCall (.write newTable request))
    (hs : request.bufferSize ≠ 0) {k : ℕ} {c : UInt32} {rest : List UInt32}
    (htake : (freeCells fs.fat).take k = c :: rest) :
    CallKeeps fs (fileWritten request fs c rest) := by
  have hp : drivePlace request.parentClusterNumber ≠ drivePlace fatClusterNumber := by
    rcases hk.1 with hp | hp | hp <;> rw [hp] <;> decide
  refine placed_keeps hsound hk (fileWritten_placed hp htake) ?_ ?_ fun _ => hs
  · intro hlive
    exact fileWritten_inserted hsound.memory hlive hs htake
  · rw [← htake]
    exact List.take_prefix k _

/-- **Every driver call of a boot has an outcome and keeps the disk.** -/
theorem exec_boot {k : Call} (hsound : BootSound fs) (hk : BootCall k) :
    ∃ fs', exec fs k = some fs' ∧ CallKeeps fs fs' := by
  cases k with
  | write newTable request =>
      have hsize : request.bufferSize = 0 ∨ clusterCount request ≠ 0 :=
        or_iff_not_imp_left.mpr fun hs => clusterCount_ne_zero hs hk.2.1
      obtain ⟨code, fs', h, hout⟩ := write_total newTable fs hsize
      refine ⟨fs', by rw [exec, h, Option.map_some], ?_⟩
      cases hout with
      | refused _ => exact .refl hsound
      | leaked _ hfree _ => exact leaked_keeps hsound hfree
      | directory _ hs hfree _ => exact directory_keeps hsound hk hs hfree
      | file _ hs _ _ htake => exact file_keeps hsound hk hs htake
  | read request =>
      have hlive : Live fs.table request.parentClusterNumber := by
        rw [show request.parentClusterNumber = rootClusterNumber from hk]
        exact Reach.root
      obtain ⟨result, hread⟩ := read_outcome hsound.memory hlive fun i hname => by
        by_contra hno
        rw [hsound.memory.leftover hlive hno hk] at hname
        exact hname rfl
      exact ⟨fs, by rw [exec, hread, Option.map_some], .refl hsound⟩
  | delete _ => exact hk.elim
  | readDirectory _ => exact hk.elim
  | move _ _ _ => exact hk.elim

/-- **The driver calls of a boot have an outcome and keep the disk.** -/
theorem boot_keeps (hsound : BootSound fs) (m : BootMemory) :
    ∃ fs', runCalls fs (bootCalls m) = some fs' ∧ CallKeeps fs fs' := by
  have hguard : PartialRun.Guarded exec (fun _ k => BootCall k) fs (bootCalls m) :=
    PartialRun.guarded_of_forall exec (fun _ k hk => bootCalls_bootCall m k hk) fs
  refine PartialRun.run_total exec ?_ (CallKeeps.refl hsound) hguard
  intro s k hinv hk
  obtain ⟨s', hexec, hkeeps⟩ := exec_boot hinv.sound hk
  exact ⟨s', hexec, hinv.trans hkeeps⟩

/-! ## Reading what was there -/

/-- The directories by the names on the way to them, the last one first. -/
inductive NamedPath (tbl : Tables) : List EntryName → UInt32 → Prop where
  | root : NamedPath tbl [] rootClusterNumber
  | child {d c : UInt32} {i : Fin directoryEntryCount} {names : List EntryName} :
      NamedPath tbl names d → dirEdge tbl d i c → NamedPath tbl ((tbl d i).name :: names) c

/-- The file of an entry is reachable from the root under the names. -/
def FileAt (fs : FileSystem) (names : List EntryName) (e : FAT32DirectoryEntry) : Prop :=
  ∃ d i, NamedPath fs.table names d ∧ i ≠ 0 ∧ (fs.table d i).used ∧ fs.table d i = e ∧
    e.attr = attrArchive

/-- Every file reachable on one disk is reachable on the other, with the same bytes. -/
def KeepsFiles (disk disk' : Disk) : Prop :=
  ∀ names e, FileAt (mountImage disk) names e → FileAt (mountImage disk') names e ∧
    chainBytes (mountImage disk') e.cluster = chainBytes (mountImage disk) e.cluster

/-- The kernel reads the bytes under `shell`. -/
def ReadsShell (disk : Disk) (bytes : List UInt8) : Prop :=
  ∀ r : FAT32DriverRequest, keyOf r = keyOf (shellRequest r.buf) → r.bufferSize ≠ 0 →
    bytes.length ≤ r.bufferSize.toNat →
    ∃ buf, OsyFat32.read r (mountImage disk) = some (0, buf) ∧
      (List.range bytes.length).map buf = bytes

/-- After any number of boots the shell is read as it was inserted, and one boot more keeps
    every file. -/
def NeverDamages (disk : Disk) (bytes : List UInt8) : Prop :=
  ∀ boots : List BootMemory, ∃ disk', PartialRun.run kernelSetup disk boots = some disk' ∧
    ReadsShell disk' bytes ∧
    ∀ m, ∃ disk'', kernelSetup disk' m = some disk'' ∧ KeepsFiles disk' disk''

/-- Mounting the disk keeps what is on it. -/
theorem mount_keeps (hsound : BootSound fs) : CallKeeps fs (mountImage fs.disk) := by
  obtain ⟨hdisk, -, hmount⟩ := hsound.mount
  have hunowned : ∀ c, Unowned fs c → Unowned (mountImage fs.disk) c := by
    intro c h d i l hs ha hl
    rw [table_congr hdisk] at hs ha hl
    rw [imageFat, hdisk] at hl
    exact h hs ha hl
  exact ⟨hmount, .of_disk hdisk, fun h => ⟨hunowned _ h.1, hunowned _ h.2⟩,
    fun _ => .of_disk hdisk⟩

/-- **A boot keeps the disk.** -/
theorem kernelSetup_keeps (hsound : BootSound fs) (m : BootMemory) :
    ∃ fs', kernelSetup fs.disk m = some fs'.disk ∧ CallKeeps fs fs' := by
  have hmount := mount_keeps hsound
  obtain ⟨fs', hrun, hkeeps⟩ := boot_keeps hmount.sound m
  exact ⟨fs', by rw [kernelSetup, hrun, Option.map_some], hmount.trans hkeeps⟩

theorem NamedPath.live {tbl : Tables} {names : List EntryName} {d : UInt32}
    (h : NamedPath tbl names d) : Live tbl d := by
  induction h with
  | root => exact Reach.root
  | child _ he ih => exact Reach.child ih he

theorem EntriesKept.namedPath (h : EntriesKept fs fs') {names : List EntryName} {d : UInt32}
    (hpath : NamedPath fs.table names d) : NamedPath fs'.table names d := by
  induction hpath with
  | root => exact NamedPath.root
  | child hd he ih =>
      have hentry := (h.slots (usedSlot_of_dirEdge hd.live he)).2
      rw [← hentry]
      refine NamedPath.child ih ?_
      rw [dirEdge, hentry]
      exact he

theorem CallKeeps.keepsFiles (hsound : BootSound fs) (h : CallKeeps fs fs')
    (hapart : FilesApart fs) : KeepsFiles fs.disk fs'.disk := by
  obtain ⟨hdisk, hfat, -⟩ := hsound.mount
  obtain ⟨hdisk', hfat', -⟩ := h.sound.mount
  rintro names e ⟨d, i, hpath, h0, hused, he, ha⟩
  have htable' := table_congr hdisk'
  rw [table_congr hdisk] at hpath hused he
  have hs : UsedSlot fs.table d i := ⟨hpath.live, h0, hused⟩
  obtain ⟨hs', he'⟩ := h.entries.slots hs
  refine ⟨⟨d, i, ?_, h0, ?_, ?_, ha⟩, ?_⟩
  · rw [htable']
    exact h.entries.namedPath hpath
  · rw [htable']
    exact hs'.used
  · rw [htable', he', he]
  · obtain ⟨l, hl, -⟩ := hsound.consistent.chain hs
    have hl' := h.entries.chains hs hl
    rw [he] at hl hl'
    rw [chainBytes_eq (hfat'.symm ▸ hl'), chainBytes_eq (hfat.symm ▸ hl), hdisk, hdisk']
    refine List.flatMap_congr ?_
    intro c hc
    rw [clusterBytes, clusterBytes,
      (h.files hapart).clusters hs (he.symm ▸ ha) (he.symm ▸ hl) c hc]

/-! ## The shell -/

/-- The shell is the file in slot 1 of the root, with the chain. -/
structure ShellChain (fs : FileSystem) (l : List UInt32) : Prop where
  slot : UsedSlot fs.table rootClusterNumber 1
  file : (fs.table rootClusterNumber 1).attr = attrArchive
  named : (fs.table rootClusterNumber 1).name = shellName
  noExt : (fs.table rootClusterNumber 1).ext = fun _ => 0
  chain : FatChain (imageFat fs) (fs.table rootClusterNumber 1).cluster l

theorem ShellChain.kept (h : ShellChain fs l) (hk : EntriesKept fs fs') : ShellChain fs' l := by
  obtain ⟨hs, he⟩ := hk.slots h.slot
  exact ⟨hs, he ▸ h.file, he ▸ h.named, he ▸ h.noExt, he ▸ hk.chains h.slot h.chain⟩

theorem shellName_ne : shellName ≠ fun _ => 0 := by
  intro h
  have h0 : (115 : UInt8) = 0 := congrFun h 0
  exact absurd h0 (by decide)

/-- A kernel that boots reads the clusters of the chain. -/
theorem ShellChain.read (hsound : BootSound fs) (h : ShellChain fs l) {r : FAT32DriverRequest}
    (hkey : keyOf r = keyOf (shellRequest r.buf)) (hs : r.bufferSize ≠ 0)
    (hle : clusterSize * l.length ≤ r.bufferSize.toNat) :
    OsyFat32.read r (mountImage fs.disk) = some (0, copyClusters fs.disk r.buf 0 l) := by
  obtain ⟨hdisk, hfat, -⟩ := hsound.mount
  obtain ⟨hparent, hne⟩ := Prod.mk.inj hkey
  obtain ⟨hname, hext⟩ := Prod.mk.inj hne
  have hp : r.parentClusterNumber = rootClusterNumber := hparent
  have hn : r.name = shellName := hname
  have hx : r.ext = fun _ => 0 := hext
  have hcount : l.length ≤ clusterCount r := by
    rw [clusterCount_eq]
    simp only [clusterSize] at hle
    omega
  have hfound : firstMatch r ((mountImage fs.disk).table r.parentClusterNumber) = some 1 := by
    rw [hp, table_congr hdisk]
    refine firstMatch_eq_some_iff.mpr
      ⟨⟨by decide, hn.trans h.named.symm, hx.trans h.noExt.symm⟩, ?_⟩
    -- slot 1 is the first one the lookup visits
    intro j hj hmatch
    exact hmatch.1 (Fin.ext (Nat.lt_one_iff.mp hj))
  have hchain : FatChain (mountImage fs.disk).fat
      ((mountImage fs.disk).table r.parentClusterNumber 1).cluster l := by
    rw [hp, table_congr hdisk, hfat]
    exact h.chain
  rw [read_eq (hn ▸ shellName_ne) hs hfound hchain hcount, hdisk]

theorem ShellChain.readsShell_iff (hsound : BootSound fs) (h : ShellChain fs l)
    {bytes : List UInt8} (hlen : bytes.length = clusterSize * l.length) :
    ReadsShell fs.disk bytes ↔ l.flatMap (clusterBytes fs.disk) = bytes := by
  constructor
  · intro hread
    have hcells := fatChain_length_le h.chain
    have hsize : (shellRequest fun _ => 0).bufferSize.toNat = clusterSize * clusterMapSize := by
      decide
    have hle : clusterSize * l.length ≤ (shellRequest fun _ => 0).bufferSize.toNat := by
      rw [hsize]
      exact Nat.mul_le_mul_left _ hcells
    obtain ⟨buf, hbuf, hbytes⟩ := hread (shellRequest fun _ => 0) rfl (by decide) (hlen ▸ hle)
    rw [h.read hsound rfl (by decide) hle] at hbuf
    obtain ⟨-, rfl⟩ := Prod.mk.inj (Option.some.inj hbuf)
    rw [hlen, copyClusters_bytes] at hbytes
    exact hbytes
  · rintro rfl r hkey hs hle
    rw [length_flatMap_clusterBytes] at hle
    refine ⟨_, h.read hsound hkey hs hle, ?_⟩
    rw [length_flatMap_clusterBytes, copyClusters_bytes]

/-- **While no file owns clusters 15 and 16 no boot does any harm.** -/
theorem neverDamages_of_apart (hsound : BootSound fs) (hapart : FilesApart fs)
    (hshell : ShellChain fs l) :
    NeverDamages fs.disk (l.flatMap (clusterBytes fs.disk)) := by
  have hlen := length_flatMap_clusterBytes fs.disk l
  let Inv : Disk → Prop := fun disk => ∃ s, s.disk = disk ∧ BootSound s ∧ FilesApart s ∧
    ShellChain s l ∧ l.flatMap (clusterBytes disk) = l.flatMap (clusterBytes fs.disk)
  have hstep : ∀ disk m, Inv disk → True →
      ∃ disk', kernelSetup disk m = some disk' ∧ Inv disk' := by
    rintro _ m ⟨s, rfl, hs, ha, hsh, hbytes⟩ -
    obtain ⟨s', hboot, hkeeps⟩ := kernelSetup_keeps hs m
    refine ⟨s'.disk, hboot, s', rfl, hkeeps.sound, hkeeps.apart ha, hsh.kept hkeeps.entries, ?_⟩
    rw [← hbytes]
    refine List.flatMap_congr ?_
    intro c hc
    rw [clusterBytes, clusterBytes, (hkeeps.files ha).clusters hsh.slot hsh.file hsh.chain c hc]
  intro boots
  have hguard : PartialRun.Guarded kernelSetup (fun _ _ => True) fs.disk boots :=
    PartialRun.guarded_of_forall kernelSetup (fun _ _ _ => trivial) fs.disk
  have hinv : Inv fs.disk := ⟨fs, rfl, hsound, hapart, hshell, rfl⟩
  obtain ⟨disk', hrun, s, rfl, hs, ha, hsh, hbytes⟩ :=
    PartialRun.run_total kernelSetup hstep hinv hguard
  refine ⟨s.disk, hrun, (hsh.readsShell_iff hs hlen).mpr hbytes, ?_⟩
  intro m
  obtain ⟨s', hboot, hkeeps⟩ := kernelSetup_keeps hs m
  exact ⟨s'.disk, hboot, hkeeps.keepsFiles hs ha⟩

/-! ## The cells a boot takes -/

/-- The last cells from `b` on are free. -/
def FreeFrom (fs : FileSystem) (b : ℕ) : Prop :=
  freeCells fs.fat = (List.range' b (clusterMapSize - b)).map UInt32.ofNat

theorem FreeFrom.take {b : ℕ} (h : FreeFrom fs b) {n : ℕ} (hn : b + n ≤ clusterMapSize) :
    (freeCells fs.fat).take n = (List.range' b n).map UInt32.ofNat := by
  rw [h, ← List.map_take, List.take_range'_of_length_ge (by omega)]

/-- Linking the first `n` of them leaves the others. -/
theorem FreeFrom.linked {b n : ℕ} (h : FreeFrom fs b) {c : UInt32} {rest : List UInt32}
    (htake : (freeCells fs.fat).take n = c :: rest)
    (hfat : fs'.fat = linkCells fs.fat (c :: rest)) : FreeFrom fs' (b + n) := by
  rw [FreeFrom, hfat, freeCells_linkCells htake, h, ← List.map_drop, List.drop_range',
    Nat.mul_one, Nat.sub_sub]

/-- The cells from `b` on are above cluster 15. -/
theorem above_of_mem {b n : ℕ} (h16 : 16 ≤ b) (hn : b + n ≤ clusterMapSize) :
    ∀ c ∈ (List.range' b n).map UInt32.ofNat, 16 ≤ c.toNat := by
  intro c hc
  obtain ⟨k, hk, rfl⟩ := List.mem_map.mp hc
  have hk := List.mem_range'_1.mp hk
  rw [ofNat_toNat_of_lt (by omega)]
  omega

/-- A folder takes one cell. -/
theorem exec_directory (newTable : FAT32DirectoryTable) (request : FAT32DriverRequest) {b : ℕ}
    (h : FreeFrom fs b) (hb : b < 511) (hn : request.name ≠ fun _ => 0)
    (hp : 2 ≤ request.parentClusterNumber.toNat)
    (hlt : request.parentClusterNumber.toNat < clusterMapSize) (hs : request.bufferSize = 0) :
    ∃ fs', exec fs (.write newTable request) = some fs' ∧ FreeFrom fs' (b + 1) ∧
      Placed request fs fs' (directoryEntry request fs (UInt32.ofNat b))
        ((List.range' b 1).map UInt32.ofNat) := by
  have htake := h.take (show b + 1 ≤ clusterMapSize by simp only [clusterMapSize]; omega)
  have hfree : ∃ rest, freeCells fs.fat = UInt32.ofNat b :: rest := by
    rw [h, show clusterMapSize - b = 510 - b + 1 + 1 by simp only [clusterMapSize]; omega,
      List.range'_succ]
    exact ⟨_, rfl⟩
  obtain ⟨rest, hfree⟩ := hfree
  have hne : (UInt32.ofNat b).toNat ≠ 511 := by
    rw [ofNat_toNat_of_lt (by simp only [clusterMapSize]; omega)]
    omega
  have hreserved : ¬ request.parentClusterNumber < 2 := by
    rw [UInt32.lt_iff_toNat_lt]
    exact Nat.not_lt.mpr hp
  refine ⟨directoryWritten newTable request fs (UInt32.ofNat b), ?_, h.linked htake rfl,
    directoryWritten_placed (place_ne_fatCluster hp hlt) (hfree ▸ List.mem_cons_self)⟩
  rw [exec, write_directory hn hreserved hs, writeDirectory_eq hfree hne, Option.map_some]

/-- The file of the boot takes five. -/
theorem exec_daijoubu (newTable : FAT32DirectoryTable) {b : ℕ} (h : FreeFrom fs b)
    (hb : b + 5 ≤ 511) :
    ∃ fs' e, exec fs (.write newTable daijoubuRequest) = some fs' ∧ FreeFrom fs' (b + 5) ∧
      Placed daijoubuRequest fs fs' e ((List.range' b 5).map UInt32.ofNat) := by
  have htake := h.take (show b + 5 ≤ clusterMapSize by simp only [clusterMapSize]; omega)
  have hcount : clusterCount daijoubuRequest = 5 := by decide
  have hlen : clusterCount daijoubuRequest ≤ (freeCells fs.fat).length := by
    rw [h, List.length_map, List.length_range', hcount]
    simp only [clusterMapSize]
    omega
  have hcells : (freeCells fs.fat).take (clusterCount daijoubuRequest)
      = UInt32.ofNat b :: (List.range' (b + 1) 4).map UInt32.ofNat := by
    rw [hcount, htake]
    rfl
  have hwrite := writeFile_eq (by rw [hcount]; decide) hlen hcells
  refine ⟨_, _, ?_, h.linked htake rfl, fileWritten_placed (by decide) hcells⟩
  rw [exec, write_file (by decide) (by decide) (by decide), hwrite, Option.map_some]

/-- The table of cluster 15 is kept by a write into another cluster that takes cells above
    it. -/
theorem placed_cluster15 (h : Placed request fs fs' e l)
    (hp : drivePlace 0xF ≠ drivePlace request.parentClusterNumber)
    (hl : ∀ c ∈ l, 16 ≤ c.toNat) : fs'.table 0xF = fs.table 0xF := by
  refine readTable_congr (h.clusters 0xF hp (by decide) ?_)
  intro c hc
  refine drivePlace_ne (by decide) (clusterMapGet_lt (h.fresh c hc)) ?_
  rintro rfl
  exact absurd (hl _ hc) (by decide)

/-- **A boot with free cells from `b` on stores cell `b + 2` in the table of cluster 15.** -/
theorem boot_cluster15 (hsound : BootSound fs) (m : BootMemory) {b : ℕ} (h : FreeFrom fs b)
    (h16 : 16 ≤ b) (hb : b + 8 ≤ 511) :
    ∃ fs' e, runCalls fs (bootCalls m) = some fs' ∧ CallKeeps fs fs' ∧ ImageInSync fs' ∧
      FreeFrom fs' (b + 8) ∧
      fs'.table 0xF = Function.update (fs.table 0xF) (idxEmpty (fs.table 0xF)) e ∧
      e.cluster = UInt32.ofNat (b + 2) := by
  obtain ⟨fs', hrun, hkeeps⟩ := boot_keeps hsound m
  have hread : exec fs (.read ikanaideRequest) = some fs := by
    rw [exec, read_zeroSize (by decide) rfl, Option.map_some]
  obtain ⟨fs₁, hexec₁, hfree₁, hplaced₁⟩ := exec_directory m.ikanaide ikanaideRequest h
    (by omega) (by decide) (by decide) (by decide) rfl
  obtain ⟨fs₂, hexec₂, hfree₂, hplaced₂⟩ := exec_directory m.kano1 kano1Request hfree₁
    (by omega) (by decide) (by decide) (by decide) rfl
  obtain ⟨fs₃, hexec₃, hfree₃, hplaced₃⟩ := exec_directory m.kano2 kano2Request hfree₂
    (by omega) (by decide) (by decide) (by decide) rfl
  obtain ⟨fs₄, e₄, hexec₄, hfree₄, hplaced₄⟩ := exec_daijoubu zeroTable hfree₃ (by omega)
  -- the last call reads the shell
  have hfs : fs₄ = fs' := by
    rw [runCalls, bootCalls, PartialRun.run_cons, hread, Option.bind_some, PartialRun.run_cons,
      hexec₁, Option.bind_some, PartialRun.run_cons, hexec₂, Option.bind_some,
      PartialRun.run_cons, hexec₃, Option.bind_some, PartialRun.run_cons, hexec₄,
      Option.bind_some, PartialRun.run_cons] at hrun
    obtain ⟨s, hs, hrun⟩ := Option.bind_eq_some_iff.mp hrun
    obtain ⟨result, -, rfl⟩ := Option.map_eq_some_iff.mp hs
    exact Option.some.inj hrun
  subst hfs
  refine ⟨fs₄, directoryEntry kano2Request fs₂ (UInt32.ofNat (b + 2)), hrun, hkeeps,
    hplaced₄.image, hfree₄, ?_, directoryEntry_cluster _⟩
  have habove : ∀ {b' n : ℕ}, 16 ≤ b' → b' + n ≤ 511 →
      ∀ c ∈ (List.range' b' n).map UInt32.ofNat, 16 ≤ c.toNat := by
    intro b' n h16 hn
    exact above_of_mem h16 (by simp only [clusterMapSize]; omega)
  have h15 : fs₃.table 0xF = Function.update (fs₂.table 0xF) (idxEmpty (fs₂.table 0xF))
      (directoryEntry kano2Request fs₂ (UInt32.ofNat (b + 2))) := hplaced₃.table
  rw [placed_cluster15 hplaced₄ (by decide) (habove (by omega) (by omega)), h15,
    placed_cluster15 hplaced₂ (by decide) (habove (by omega) (by omega)),
    placed_cluster15 hplaced₁ (by decide) (habove h16 (by omega))]

/-! ## The inserted shell -/

theorem fresh_freeFrom (disk : Disk) : FreeFrom (freshFileSystem disk) 3 := fresh_freeCells

theorem fresh_bootSound (disk : Disk) : BootSound (freshFileSystem disk) := by
  have himage : imageFat (freshFileSystem disk) = (freshFileSystem disk).fat :=
    fresh_imageInSync disk
  have hpacked : CellsPacked (freshFileSystem disk).fat := by
    intro c d hcd hd hc
    have h3 : 3 ≤ c.toNat := by
      by_contra hlow
      exact fresh_cell_reserved disk (Nat.not_le.mp hlow) hc
    exact fresh_cell_free disk (h3.trans hcd) hd
  constructor
  case consistent => exact himage ▸ (fresh_consistent disk).mono fun _ _ he _ => he
  case ahead => exact fun _ _ => by rw [himage]
  case packed => exact hpacked
  case imagePacked => exact himage ▸ hpacked
  case signed => exact fresh_not_empty disk

/-- The cells of a shell of `n` clusters. -/
def shellCells (n : ℕ) : List UInt32 := (List.range' 3 n).map UInt32.ofNat

theorem mem_shellCells {n : ℕ} (hn : 3 + n ≤ clusterMapSize) {c : UInt32} :
    c ∈ shellCells n ↔ 3 ≤ c.toNat ∧ c.toNat < 3 + n := by
  constructor
  · intro hc
    obtain ⟨j, hj, rfl⟩ := List.mem_map.mp hc
    have hj := List.mem_range'_1.mp hj
    rw [ofNat_toNat_of_lt (by omega)]
    omega
  · intro hc
    exact List.mem_map.mpr ⟨c.toNat, List.mem_range'_1.mpr hc, UInt32.ofNat_toNat⟩

/-- What the inserter leaves of a shell of `n` clusters on an empty image. -/
structure ShellInserted (fs : FileSystem) (n : ℕ) (bytes : List UInt8) : Prop where
  sound : BootSound fs
  image : ImageInSync fs
  free : FreeFrom fs (3 + n)
  shell : ShellChain fs (shellCells n)
  bytes : (shellCells n).flatMap (clusterBytes fs.disk) = bytes
  apart : n ≤ 12 → FilesApart fs

/-- A run that reports success stored the file in the first cells. -/
theorem inserted_file {image disk : Disk} (hempty : isEmptyStorage image) {k : InserterRun}
    (hs : k.request.bufferSize ≠ 0) (hmain : k.main image = some (0, disk)) :
    ∃ c rest, (freeCells (freshFileSystem image).fat).take (clusterCount k.request) = c :: rest ∧
      clusterCount k.request ≤ (freeCells (freshFileSystem image).fat).length ∧
      (fileWritten k.request (freshFileSystem image) c rest).disk = disk := by
  rw [← mountImage_empty hempty]
  have hok : ¬ k.Refused (mountImage image) := by
    intro hrefused
    obtain ⟨code, fs', hwrite, hcode, -⟩ := hrefused.write
    have hresult := (InserterRun.main_eq hwrite).symm.trans hmain
    exact hcode (Prod.mk.inj (Option.some.inj hresult)).1
  obtain ⟨fs', hwrite, hins⟩ := InserterRun.inserts_of_not_refused hok
  have hresult := (InserterRun.main_eq hwrite).symm.trans hmain
  have hdisk : fs'.disk = disk := (Prod.mk.inj (Option.some.inj hresult)).2
  cases hins with
  | directory h0 _ => exact absurd h0 hs
  | @file c rest _ hle htake => exact ⟨c, rest, htake, hle, hdisk⟩

/-- The rounded size of a shell of 1 to 480 clusters. -/
theorem shell_sized (k : InserterRun) (hpos : 1 ≤ clustersFor k.contents.length)
    (hmax : clustersFor k.contents.length ≤ 480) :
    k.request.bufferSize.toNat = clusterSize * clustersFor k.contents.length ∧
      k.request.bufferSize ≠ 0 ∧ clusterCount k.request = clustersFor k.contents.length := by
  have hsize := k.request_size_eq (by simp only [clusterSize]; omega)
  refine ⟨hsize, ?_, ?_⟩
  · intro h0
    rw [h0] at hsize
    simp only [clusterSize, UInt32.toNat_zero] at hsize
    omega
  · rw [clusterCount_eq, hsize, Nat.mul_div_cancel_left _ (by decide)]

section Inserted

variable {image : Disk} {k : InserterRun} {c : UInt32} {rest : List UInt32}
  (hs : k.request.bufferSize ≠ 0)
  (htake : (freeCells (freshFileSystem image).fat).take (clusterCount k.request) = c :: rest)
include hs htake

/-- The first file of an image is in slot 1 of the root. -/
theorem inserted_shellChain (hname : k.name = shellName) :
    ShellChain (fileWritten k.request (freshFileSystem image) c rest) (c :: rest) := by
  have hplaced := fileWritten_placed k.request_place htake
  have hins := fileWritten_inserted (fresh_consistent image)
    (show Live _ k.request.parentClusterNumber from Reach.root) hs htake
  have hslot : (fileWritten k.request (freshFileSystem image) c rest).table rootClusterNumber 1
      = fileEntry k.request (freshFileSystem image) c := by
    rw [placed_root k.request_parent hplaced, fresh_idxEmpty, Function.update_self]
  constructor
  case slot =>
    refine ⟨(hins.live_iff rootClusterNumber).mpr (Or.inl Reach.root), by decide, ?_⟩
    rw [hslot]
    exact hplaced.used
  case file =>
    rw [hslot]
    exact fileEntry_attr c hs
  case named =>
    rw [hslot]
    exact hname
  case noExt =>
    rw [hslot]
    rfl
  case chain =>
    rw [hslot, imageFat, hplaced.image]
    exact hplaced.chain

/-- No file owns a cluster behind those of the first one. -/
theorem inserted_unowned {q : UInt32} (hq : q ∉ c :: rest) :
    Unowned (fileWritten k.request (freshFileSystem image) c rest) q := by
  have hlt : k.request.parentClusterNumber.toNat < clusterMapSize := by
    rw [InserterRun.request_parent]
    decide
  have hunowned : Unowned (freshFileSystem image) q := by
    intro d i l hslot
    exact absurd hslot (fresh_no_slot image)
  intro d i l
  exact placed_unowned (fresh_bootSound image) hlt (fileWritten_placed k.request_place htake)
    (fun hlive => fileWritten_inserted (fresh_bootSound image).memory hlive hs htake) hunowned
    fun _ _ => hq

end Inserted

theorem shell_inserted {image disk : Disk} (hempty : isEmptyStorage image) {k : InserterRun}
    (hname : k.name = shellName) (hpos : 1 ≤ clustersFor k.contents.length)
    (hmax : clustersFor k.contents.length ≤ 480) (hmain : k.main image = some (0, disk)) :
    ∃ fs, fs.disk = disk ∧
      ShellInserted fs (clustersFor k.contents.length) (bufferBytes k.request) := by
  obtain ⟨hsize, hs, hcount⟩ := shell_sized k hpos hmax
  obtain ⟨c, rest, htake, hle, hdisk⟩ := inserted_file hempty hs hmain
  have hcells : c :: rest = shellCells (clustersFor k.contents.length) := by
    rw [← htake, hcount]
    exact (fresh_freeFrom image).take (by simp only [clusterMapSize]; omega)
  have hplaced := fileWritten_placed k.request_place htake
  refine ⟨_, hdisk, ?_⟩
  constructor
  case sound =>
    refine placed_bootSound (fresh_bootSound image) (by rw [InserterRun.request_parent]; decide)
      (by rw [InserterRun.request_parent]; decide) hplaced ?_ ?_
    · intro hlive
      exact fileWritten_inserted (fresh_bootSound image).memory hlive hs htake
    · rw [← htake]
      exact List.take_prefix _ _
  case image => exact hplaced.image
  case free =>
    have hnext : FreeFrom (fileWritten k.request (freshFileSystem image) c rest)
        (3 + clusterCount k.request) := (fresh_freeFrom image).linked htake rfl
    rwa [hcount] at hnext
  case shell => exact hcells ▸ inserted_shellChain hs htake hname
  case bytes =>
    have hbytes := InserterRun.file_chainBytes (fresh_rootSound image) htake
    rw [chainBytes_eq hplaced.chain, hcells] at hbytes
    rw [hbytes, shellCells, List.length_map, List.length_range', bufferBytes, hsize]
  case apart =>
    -- by `hn` the clusters of the shell end below 0xF
    intro hn
    have habove : ∀ q : UInt32, 15 ≤ q.toNat → q ∉ c :: rest := by
      intro q hq hmem
      rw [hcells, mem_shellCells (by simp only [clusterMapSize]; omega)] at hmem
      omega
    exact ⟨inserted_unowned hs htake (habove 0xF (by decide)),
      inserted_unowned hs htake (habove 0x10 (by decide))⟩

/-! ## Two boots -/

/-- A boot that finds zeros everywhere. -/
def zeroMemory : BootMemory where
  ikanaide := zeroTable
  kano1 := zeroTable
  kano2 := zeroTable
  user := fun _ => 0
  ikanaide_unused _ _ := zero_not_used
  kano1_unused _ _ := zero_not_used
  kano2_unused _ _ := zero_not_used

/-- Clusters that hold the same bytes together hold the same each. -/
theorem clusterAt_of_flatMap {disk disk' : Disk}
    (h : l.flatMap (clusterBytes disk) = l.flatMap (clusterBytes disk')) {c : UInt32}
    (hc : c ∈ l) : clusterAt disk c = clusterAt disk' c := by
  induction l with
  | nil => exact nomatch hc
  | cons d rest ih =>
      rw [List.flatMap_cons, List.flatMap_cons] at h
      have hlen : (clusterBytes disk d).length = (clusterBytes disk' d).length := by
        rw [clusterBytes, clusterBytes, List.length_ofFn, List.length_ofFn]
      obtain ⟨hhead, htail⟩ := List.append_inj h hlen
      rcases List.mem_cons.mp hc with rfl | hc
      · exact List.ofFn_injective hhead
      · exact ih htail hc

theorem shell_boot {b : ℕ} (hsound : BootSound fs) (himage : ImageInSync fs) (h : FreeFrom fs b)
    (h16 : 16 ≤ b) (hb : b + 8 ≤ 511) (hshell : ShellChain fs l) (m : BootMemory) :
    ∃ fs' e, kernelSetup fs.disk m = some fs'.disk ∧ BootSound fs' ∧ ImageInSync fs' ∧
      FreeFrom fs' (b + 8) ∧ ShellChain fs' l ∧
      fs'.table 0xF = Function.update (fs.table 0xF) (idxEmpty (fs.table 0xF)) e ∧
      e.cluster = UInt32.ofNat (b + 2) := by
  obtain ⟨hdisk, hfat, -⟩ := hsound.mount
  have hmount := mount_keeps hsound
  have hfree : FreeFrom (mountImage fs.disk) b := by
    rw [FreeFrom, hfat, imageFat, himage]
    exact h
  obtain ⟨fs', e, hrun, hkeeps, himage', hfree', htable, hcluster⟩ :=
    boot_cluster15 hmount.sound m hfree h16 hb
  refine ⟨fs', e, by rw [kernelSetup, hrun, Option.map_some], hkeeps.sound, himage', hfree',
    (hshell.kept hmount.entries).kept hkeeps.entries, ?_, hcluster⟩
  rw [htable, table_congr hdisk]

/-- From 13 clusters on the shell owns cluster 15, and the entries of two boots differ. -/
theorem damages_of_thirteen {n : ℕ} {bytes : List UInt8} (h : ShellInserted fs n bytes)
    (h13 : 13 ≤ n) (hmax : n ≤ 480) (m : BootMemory) : ¬ NeverDamages fs.disk bytes := by
  intro hnever
  have hlen : bytes.length = clusterSize * (shellCells n).length := by
    rw [← h.bytes, length_flatMap_clusterBytes]
  have h15 : (0xF : UInt32) ∈ shellCells n := by
    refine (mem_shellCells (by simp only [clusterMapSize]; omega)).mpr ⟨by decide, ?_⟩
    show 15 < 3 + n
    omega
  obtain ⟨fs₁, e₁, hboot₁, hsound₁, himage₁, hfree₁, hshell₁, htable₁, hcluster₁⟩ :=
    shell_boot h.sound h.image h.free (by omega) (by omega) h.shell m
  obtain ⟨fs₂, e₂, hboot₂, hsound₂, -, -, hshell₂, htable₂, hcluster₂⟩ :=
    shell_boot hsound₁ himage₁ hfree₁ (by omega) (by omega) hshell₁ m
  -- after both boots the shell is read as it was inserted, so cluster 15 is what it was
  have hread₁ : ReadsShell fs₁.disk bytes := by
    obtain ⟨disk, hrun, hread, -⟩ := hnever [m]
    rw [PartialRun.run_cons, hboot₁] at hrun
    obtain rfl := Option.some.inj hrun
    exact hread
  have hread₂ : ReadsShell fs₂.disk bytes := by
    obtain ⟨disk, hrun, hread, -⟩ := hnever [m, m]
    rw [PartialRun.run_cons, hboot₁, Option.bind_some, PartialRun.run_cons, hboot₂] at hrun
    obtain rfl := Option.some.inj hrun
    exact hread
  have hbytes₁ := (hshell₁.readsShell_iff hsound₁ hlen).mp hread₁
  have hbytes₂ := (hshell₂.readsShell_iff hsound₂ hlen).mp hread₂
  have hkept₁ : fs₁.table 0xF = fs.table 0xF :=
    readTable_congr (clusterAt_of_flatMap (hbytes₁.trans h.bytes.symm) h15)
  have hkept₂ : fs₂.table 0xF = fs.table 0xF :=
    readTable_congr (clusterAt_of_flatMap (hbytes₂.trans h.bytes.symm) h15)
  rw [hkept₁] at htable₁ htable₂
  rw [hkept₂] at htable₂
  have he₁ := congrFun htable₁ (idxEmpty (fs.table 0xF))
  have he₂ := congrFun htable₂ (idxEmpty (fs.table 0xF))
  rw [Function.update_self] at he₁ he₂
  have hcell : UInt32.ofNat (3 + n + 2) = UInt32.ofNat (3 + n + 8 + 2) := by
    rw [← hcluster₁, ← hcluster₂, ← he₁, ← he₂]
  have hnat := congrArg UInt32.toNat hcell
  rw [ofNat_toNat_of_lt (by simp only [clusterMapSize]; omega),
    ofNat_toNat_of_lt (by simp only [clusterMapSize]; omega)] at hnat
  omega

/-- **Booting never damages the disk exactly when the shell has at most 12 clusters.** -/
theorem booting_keepsDisk_iff {image disk : Disk} (hempty : isEmptyStorage image)
    (k : InserterRun) (hname : k.name = shellName)
    (hpos : 1 ≤ clustersFor k.contents.length) (hmax : clustersFor k.contents.length ≤ 480)
    (hmain : k.main image = some (0, disk)) :
    NeverDamages disk (bufferBytes k.request) ↔ clustersFor k.contents.length ≤ 12 := by
  obtain ⟨fs, rfl, h⟩ := shell_inserted hempty hname hpos hmax hmain
  constructor
  · intro hnever
    by_contra hmany
    exact damages_of_thirteen h (Nat.not_le.mp hmany) hmax zeroMemory hnever
  · intro hfew
    rw [← h.bytes]
    exact neverDamages_of_apart h.sound (h.apart hfew) h.shell

/-- A run of the inserter for a file `shell`. -/
def shellRun (contents : List UInt8) : InserterRun where
  argv1 := [115, 104, 101, 108, 108]
  contents := contents
  fileBuffer := fun _ => 0
  newTable := zeroTable

theorem shellRun_name (contents : List UInt8) : (shellRun contents).name = shellName := by
  show scanWord [115, 104, 101, 108, 108] = shellName
  decide

/-- On an empty image there is room for a shell of 480 clusters. -/
theorem shellRun_inserted (contents : List UInt8)
    (hpos : 1 ≤ clustersFor contents.length) (hmax : clustersFor contents.length ≤ 480) :
    ∃ disk, (shellRun contents).main blankDisk = some (0, disk) := by
  obtain ⟨-, hs, hcount⟩ := shell_sized (shellRun contents) hpos hmax
  have hok : ¬ (shellRun contents).Refused (mountImage blankDisk) := by
    rw [mountImage_empty blankDisk_empty]
    rintro (hn | hfew | ⟨h0, -⟩)
    · exact shellName_ne ((shellRun_name contents).symm.trans hn)
    · rcases hfew with ⟨h0, -⟩ | ⟨-, hlt⟩
      · exact hs h0
      · rw [hcount, fresh_freeCells_length] at hlt
        exact absurd hlt (by rw [show (shellRun contents).contents = contents from rfl]; omega)
    · exact hs h0
  obtain ⟨fs', hwrite, -⟩ := InserterRun.inserts_of_not_refused hok
  exact ⟨fs'.disk, InserterRun.main_eq hwrite⟩

/-- A shell of one cluster. -/
theorem booting_keepsDisk_oneCluster :
    ∃ disk, (shellRun (List.replicate 2048 65)).main blankDisk = some (0, disk) ∧
      NeverDamages disk (bufferBytes (shellRun (List.replicate 2048 65)).request) := by
  have hone : clustersFor (shellRun (List.replicate 2048 65)).contents.length = 1 := by
    rw [shellRun, List.length_replicate]
    decide
  obtain ⟨disk, hmain⟩ := shellRun_inserted (List.replicate 2048 65) hone.ge
    (hone.le.trans (by decide))
  exact ⟨disk, hmain, (booting_keepsDisk_iff blankDisk_empty _ (shellRun_name _) hone.ge
    (hone.le.trans (by decide)) hmain).mpr (hone.le.trans (by decide))⟩

/-- A shell of 13 clusters is damaged. -/
theorem booting_damages_thirteen :
    ∃ disk, isEmptyStorage blankDisk ∧
      (shellRun (List.replicate 26624 65)).main blankDisk = some (0, disk) ∧
      clustersFor (shellRun (List.replicate 26624 65)).contents.length = 13 ∧
      ¬ NeverDamages disk (bufferBytes (shellRun (List.replicate 26624 65)).request) := by
  have hmany : clustersFor (shellRun (List.replicate 26624 65)).contents.length = 13 := by
    rw [shellRun, List.length_replicate]
    decide
  obtain ⟨disk, hmain⟩ := shellRun_inserted (List.replicate 26624 65)
    (le_trans (by decide) hmany.ge) (hmany.le.trans (by decide))
  obtain ⟨fs, rfl, h⟩ := shell_inserted blankDisk_empty (shellRun_name _)
    (le_trans (by decide) hmany.ge) (hmany.le.trans (by decide)) hmain
  exact ⟨fs.disk, blankDisk_empty, hmain, hmany,
    damages_of_thirteen h hmany.ge (hmany.le.trans (by decide)) zeroMemory⟩

end OsyBoot
