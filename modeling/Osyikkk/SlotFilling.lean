import Osyikkk.TreeGrowth
import Osyikkk.MoveConservation

/-!
# Volumes whose slots are filled

Whatever calls of `write` do, one after another, they claim cells and fill slots: used slots
`1..63` stay, and slot 0 changes only in a full directory (`Filled`). So some things that have
gone wrong do not come right again: no cell is free, or slot 0 of a directory leads elsewhere
(`Lost`); and a directory in which a lookup finds the directory itself, or which is full,
stays one (`Catches`).
-/

namespace OsyVolume

open OsyDisk OsyFat32 LinkedChain RootedForest

/-! ## Filled slots -/

/-- A cell of the table that is not free. -/
def Claimed (fs : FileSystem) (q : UInt32) : Prop :=
  2 ≤ q.toNat ∧ q.toNat < clusterMapSize ∧ clusterMapGet fs.fat q ≠ some 0

/-- Cells were claimed and slots filled: the used slots of a directory stay, but slot 0 of a
    full one may be replaced by an entry of another cluster. -/
structure Filled (fs fs' : FileSystem) : Prop where
  claimed : ∀ {q}, Claimed fs q → Claimed fs' q
  slots : ∀ {q k}, Claimed fs q → k ≠ 0 → (fs.table q k).used → fs'.table q k = fs.table q k
  self : ∀ {q}, Claimed fs q → (fs.table q 0).used → fs'.table q 0 = fs.table q 0 ∨
    (∀ k, (fs'.table q k).used) ∧ (fs'.table q 0).cluster ≠ q

variable {fs fs' fs'' : FileSystem} {request : FAT32DriverRequest}
  {newTable : FAT32DirectoryTable} {code : Int8} {c q : UInt32} {rest : List UInt32}
  {k : Fin directoryEntryCount}

theorem Filled.refl (fs : FileSystem) : Filled fs fs where
  claimed hq := hq
  slots _ _ _ := rfl
  self _ _ := Or.inl rfl

/-- Full directories stay full. -/
theorem Filled.full (h : Filled fs fs') (hq : Claimed fs q) (hfull : ∀ k, (fs.table q k).used)
    (k : Fin directoryEntryCount) : (fs'.table q k).used := by
  by_cases hk : k = 0
  · subst hk
    rcases h.self hq (hfull 0) with hsame | ⟨hall, -⟩
    · rw [hsame]
      exact hfull 0
    · exact hall 0
  · rw [h.slots hq hk (hfull k)]
    exact hfull k

theorem Filled.trans (h : Filled fs fs') (h' : Filled fs' fs'') : Filled fs fs'' := by
  constructor
  case claimed => exact fun hq => h'.claimed (h.claimed hq)
  case slots =>
    intro q k hq hk hused
    have hsame := h.slots hq hk hused
    rw [← hsame] at hused
    rw [h'.slots (h.claimed hq) hk hused, hsame]
  case self =>
    intro q hq hused
    rcases h.self hq hused with hsame | ⟨hfull, hne⟩
    · rw [← hsame] at hused ⊢
      exact h'.self (h.claimed hq) hused
    · right
      refine ⟨h'.full (h.claimed hq) hfull, ?_⟩
      rcases h'.self (h.claimed hq) (hfull 0) with hsame | ⟨-, hne'⟩
      · rw [hsame]
        exact hne
      · exact hne'

/-- Where no cell is free, none will be. -/
theorem Filled.exhausted (h : Filled fs fs') (hnil : freeCells fs.fat = []) :
    freeCells fs'.fat = [] := by
  refine List.eq_nil_iff_forall_not_mem.mpr ?_
  intro c hc
  obtain ⟨h2, hfree⟩ := mem_freeCells.mp hc
  by_cases hold : clusterMapGet fs.fat c = some 0
  · have hmem := mem_freeCells.mpr ⟨h2, hold⟩
    rw [hnil] at hmem
    exact List.not_mem_nil hmem
  · exact (h.claimed ⟨h2, clusterMapGet_lt hfree, hold⟩).2.2 hfree

/-- An edit that puts at most one entry of another cluster where `write` puts it. -/
theorem filled_of_edit (hclaimed : ∀ q, Claimed fs q → Claimed fs' q)
    (htable : ∀ q, Claimed fs q → fs'.table q = fs.table q ∨
      ∃ e : FAT32DirectoryEntry, e.used ∧ e.cluster ≠ q ∧
        fs'.table q = Function.update (fs.table q) (idxEmpty (fs.table q)) e) :
    Filled fs fs' := by
  constructor
  case claimed => exact fun hq => hclaimed _ hq
  case slots =>
    intro q k hq hk hused
    rcases htable q hq with hsame | ⟨e, -, -, hedit⟩
    · rw [hsame]
    · rw [hedit, Function.update_of_ne]
      rintro rfl
      rcases idxEmpty_spec (fs.table q) with hun | ⟨h0, -⟩
      · exact hun hused
      · exact hk h0
  case self =>
    intro q hq hused
    rcases htable q hq with hsame | ⟨e, he, hne, hedit⟩
    · rw [hsame]
      exact Or.inl rfl
    · by_cases h0 : (0 : Fin directoryEntryCount) = idxEmpty (fs.table q)
      · right
        have hfull : ∀ k, (fs.table q k).used := by
          rcases idxEmpty_spec (fs.table q) with hun | ⟨-, hall⟩
          · exact absurd (h0 ▸ hused) hun
          · exact hall
        refine ⟨?_, ?_⟩
        · intro k
          rw [hedit]
          by_cases hk : k = idxEmpty (fs.table q)
          · rw [hk, Function.update_self]
            exact he
          · rw [Function.update_of_ne hk]
            exact hfull k
        · rw [hedit, h0, Function.update_self]
          exact hne
      · rw [hedit, Function.update_of_ne h0]
        exact Or.inl rfl

/-- A claimed cluster's table after a write, whose parent may be any place of the drive. -/
theorem table_after_write {e : FAT32DirectoryEntry}
    (htable : fs'.table request.parentClusterNumber = Function.update
      (fs.table request.parentClusterNumber) (writeSlot request fs) e)
    (he : e.used) (hne : e.cluster ≠ q)
    (hother : drivePlace q ≠ drivePlace request.parentClusterNumber →
      clusterAt fs'.disk q = clusterAt fs.disk q) :
    fs'.table q = fs.table q ∨ ∃ e : FAT32DirectoryEntry, e.used ∧ e.cluster ≠ q ∧
      fs'.table q = Function.update (fs.table q) (idxEmpty (fs.table q)) e := by
  by_cases hp : drivePlace q = drivePlace request.parentClusterNumber
  · right
    refine ⟨e, he, hne, ?_⟩
    rw [table_of_place fs' hp, htable, table_of_place fs hp]
  · exact Or.inl (readTable_congr (hother hp))

theorem Claimed.ne_free (hq : Claimed fs q) (hc : clusterMapGet fs.fat c = some 0) : q ≠ c := by
  rintro rfl
  exact hq.2.2 hc

theorem claimed_of_live (hcons : FsConsistent fs) (hq : Live fs.table q) : Claimed fs q :=
  ⟨(hcons.live_range hq).1, (hcons.live_range hq).2, hcons.live_ne_free hq⟩

theorem claimed_of_kept (hkept : clusterMapGet fs'.fat q = clusterMapGet fs.fat q)
    (hq : Claimed fs q) : Claimed fs' q :=
  ⟨hq.1, hq.2.1, hkept ▸ hq.2.2⟩

theorem directoryWritten_filled (hc : c ∈ freeCells fs.fat) :
    Filled fs (directoryWritten newTable request fs c) := by
  obtain ⟨-, hfree⟩ := mem_freeCells.mp hc
  refine filled_of_edit ?_ ?_
  · intro q hq
    exact claimed_of_kept (clusterMapGet_setCell_ne _ _ (hq.ne_free hfree)) hq
  · intro q hq
    refine table_after_write (flush_table_parent _ _ _ _) rfl ?_ ?_
    · rw [directoryEntry_cluster]
      exact (hq.ne_free hfree).symm
    · intro hp
      exact directoryWritten_clusterAt hp (place_ne_fatCluster hq.1 hq.2.1)
        (drivePlace_ne hq.2.1 (clusterMapGet_lt hfree) (hq.ne_free hfree))

theorem fileWritten_filled {n : ℕ} (htake : (freeCells fs.fat).take n = c :: rest) :
    Filled fs (fileWritten request fs c rest) := by
  have hfree : ∀ d ∈ c :: rest, clusterMapGet fs.fat d = some 0 :=
    fun d hd => (taken_free htake hd).2
  refine filled_of_edit ?_ ?_
  · intro q hq
    refine claimed_of_kept (linkCells_get_notMem _ ?_) hq
    exact fun hmem => hq.ne_free (hfree q hmem) rfl
  · intro q hq
    refine table_after_write (flush_table_parent _ _ _ _) rfl ?_ ?_
    · rw [fileEntry_cluster]
      exact (hq.ne_free (hfree c List.mem_cons_self)).symm
    · intro hp
      refine fileWritten_clusterAt hp (place_ne_fatCluster hq.1 hq.2.1) ?_
      intro d hd
      exact drivePlace_ne hq.2.1 (clusterMapGet_lt (hfree d hd)) (hq.ne_free (hfree d hd))

/-- **Every write only fills.** -/
theorem write_filled (h : OsyFat32.write newTable request fs = some (code, fs')) :
    Filled fs fs' := by
  cases write_outcome h with
  | refused _ => exact Filled.refl fs
  | @leaked c rest _ hfree _ =>
      have hc : c ∈ freeCells fs.fat := hfree ▸ List.mem_cons_self
      refine filled_of_edit ?_ fun q _ => Or.inl rfl
      intro q hq
      exact claimed_of_kept (clusterMapGet_setCell_ne _ _
        (hq.ne_free (mem_freeCells.mp hc).2)) hq
  | directory _ _ hfree _ => exact directoryWritten_filled (hfree ▸ List.mem_cons_self)
  | file _ _ _ _ htake => exact fileWritten_filled htake

/-- A request for a directory is carried out, or there is no free cell afterwards. -/
theorem write_directory_cases (hname : request.name ≠ fun _ => 0)
    (hp : 2 ≤ request.parentClusterNumber.toNat) (hs : request.bufferSize = 0)
    (h : OsyFat32.write newTable request fs = some (code, fs')) :
    code ≠ 0 ∧ freeCells fs'.fat = [] ∨
      code = 0 ∧ ∃ c ∈ freeCells fs.fat, fs' = directoryWritten newTable request fs c := by
  have hp' : ¬ request.parentClusterNumber < 2 := by
    rw [UInt32.lt_iff_toNat_lt]
    exact Nat.not_lt.mpr hp
  rw [write_directory hname hp' hs] at h
  cases hfree : freeCells fs.fat with
  | nil =>
      rw [writeDirectory_full hfree] at h
      obtain ⟨rfl, rfl⟩ := Prod.mk.inj (Option.some.inj h)
      exact Or.inl ⟨by decide, hfree⟩
  | cons c rest =>
      by_cases hc : c.toNat = 511
      · rw [writeDirectory_lastCell hfree hc] at h
        obtain ⟨rfl, rfl⟩ := Prod.mk.inj (Option.some.inj h)
        refine Or.inl ⟨by decide, ?_⟩
        -- no cell is behind the last one of the table
        have hrest : rest = [] := by
          cases rest with
          | nil => rfl
          | cons c₂ rest => exact absurd hc (first_cell_ne hfree)
        subst hrest
        have htake : (freeCells fs.fat).take 1 = c :: [] := by
          rw [hfree]
          rfl
        have hleft := freeCells_linkCells htake
        rw [hfree] at hleft
        exact hleft
      · rw [writeDirectory_eq hfree hc] at h
        obtain ⟨rfl, rfl⟩ := Prod.mk.inj (Option.some.inj h)
        exact Or.inr ⟨rfl, c, List.mem_cons_self, rfl⟩

/-! ## What goes wrong for good -/

/-- No cell is free, or the used slot 0 of the directory leads to another one. -/
def Lost (fs : FileSystem) (q : UInt32) : Prop :=
  freeCells fs.fat = [] ∨ (fs.table q 0).used ∧ (fs.table q 0).cluster ≠ q

/-- Slot 0 of the directory names the directory itself. -/
structure SelfNamed (fs : FileSystem) (q : UInt32) (name : EntryName) : Prop where
  used : (fs.table q 0).used
  named : IsDirectory name (fs.table q 0)
  cluster : (fs.table q 0).cluster = q

theorem SelfNamed.namedAt {name : EntryName} (h : SelfNamed fs q name) :
    NamedAt fs.table q name 0 q where
  named := h.named
  cluster := h.cluster
  first j hj := absurd hj (Fin.not_lt_zero j)

theorem Filled.lost (h : Filled fs fs') (hq : Claimed fs q) (hlost : Lost fs q) :
    Lost fs' q := by
  rcases hlost with hnil | ⟨hused, hne⟩
  · exact Or.inl (h.exhausted hnil)
  · right
    rcases h.self hq hused with hsame | ⟨hfull, hne'⟩
    · rw [hsame]
      exact ⟨hused, hne⟩
    · exact ⟨hfull 0, hne'⟩

/-- A slot 0 that is replaced is one of a full directory. -/
theorem Filled.selfNamed {name : EntryName} (h : Filled fs fs') (hq : Claimed fs q)
    (hself : SelfNamed fs q name) :
    SelfNamed fs' q name ∨ (∀ k, (fs'.table q k).used) ∧ (fs'.table q 0).cluster ≠ q := by
  rcases h.self hq hself.used with hsame | hfull
  · left
    constructor
    case used => exact hsame.symm ▸ hself.used
    case named => exact hsame.symm ▸ hself.named
    case cluster => exact hsame.symm ▸ hself.cluster
  · exact Or.inr hfull

/-- The lookup of `name` in the directory does not lead out of it, or it is full: a
    directory made in it takes slot 0. -/
structure Catches (fs : FileSystem) (name : EntryName) (δ : UInt32) : Prop where
  claimed : Claimed fs δ
  self : SelfNamed fs δ name ∨ ∀ k, (fs.table δ k).used

theorem Filled.catches {name : EntryName} {δ : UInt32} (h : Filled fs fs')
    (hδ : Catches fs name δ) : Catches fs' name δ := by
  constructor
  case claimed => exact h.claimed hδ.claimed
  case self =>
    rcases hδ.self with hself | hfull
    · exact (h.selfNamed hδ.claimed hself).imp_right fun hfull => hfull.1
    · exact Or.inr (h.full hδ.claimed hfull)

/-- Slot `i` of the directory `q` is a directory of the name that `q` itself carries, and it
    is to be copied to a directory that catches the name. -/
structure Loops (fs : FileSystem) (q : UInt32) (i : Fin directoryEntryCount) (name : EntryName)
    (δ : UInt32) : Prop where
  claimed : Claimed fs q
  self : SelfNamed fs q name
  slot : i ≠ 0
  used : (fs.table q i).used
  named : IsDirectory name (fs.table q i)
  dest : Catches fs name δ

theorem Filled.loops {name : EntryName} {i : Fin directoryEntryCount} {δ : UInt32}
    (h : Filled fs fs') (hq : Loops fs q i name δ) : Loops fs' q i name δ ∨ Lost fs' q := by
  rcases h.selfNamed hq.claimed hq.self with hself | ⟨hfull, hne⟩
  · left
    have hsame := h.slots hq.claimed hq.slot hq.used
    constructor
    case claimed => exact h.claimed hq.claimed
    case self => exact hself
    case slot => exact hq.slot
    case used => exact hsame.symm ▸ hq.used
    case named => exact hsame.symm ▸ hq.named
    case dest => exact h.catches hq.dest
  · exact Or.inr (Or.inr ⟨hfull 0, hne⟩)

end OsyVolume
