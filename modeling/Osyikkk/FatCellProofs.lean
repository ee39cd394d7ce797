import Osyikkk.Fat32Driver
import Osyikkk.LinkedChain
import Mathlib.Data.Fintype.Card

/-!
# What the loops over the file allocation table compute

The comparisons are decided by the bytes they compare. The two cell searches of `write`
return the free cells in ascending order (`claimLoop_eq`, `scanLoop_eq`), and the linking
loop makes a chain of the cells it is given (`linkLoop_eq`, `linkCells_chain`).
-/

namespace OsyFat32

open OsyDisk LinkedChain

/-! ## Comparing -/

theorem memcmp_eq_zero {s1 s2 : List UInt8} (hlen : s1.length = s2.length) :
    memcmp s1 s2 = 0 ↔ s1 = s2 := by
  induction s1 generalizing s2 with
  | nil =>
      obtain rfl : s2 = [] := List.length_eq_zero_iff.mp hlen.symm
      simp [memcmp]
  | cons a s1 ih =>
      cases s2 with
      | nil => exact absurd hlen (by simp)
      | cons b s2 =>
          have hrest := ih (Nat.succ_inj.mp hlen)
          rw [memcmp]
          simp only [gt_iff_lt, UInt8.lt_iff_toNat_lt, List.cons.injEq, ← UInt8.toNat_inj]
          rcases Nat.lt_trichotomy a.toNat b.toNat with hab | hab | hab
          · have hne : a.toNat ≠ b.toNat := Nat.ne_of_lt hab
            simp [hab, hne]
          · simp [hab, hrest]
          · have hne : a.toNat ≠ b.toNat := Nat.ne_of_gt hab
            have hnot : ¬ a.toNat < b.toNat := Nat.lt_asymm hab
            simp [hab, hnot, hne]

@[simp] theorem sameName_iff {request : FAT32DriverRequest} {e : FAT32DirectoryEntry} :
    request.sameName e ↔ request.name = e.name := by
  rw [FAT32DriverRequest.sameName, memcmp_eq_zero (by simp), List.ofFn_inj]

@[simp] theorem sameExt_iff {request : FAT32DriverRequest} {e : FAT32DirectoryEntry} :
    request.sameExt e ↔ request.ext = e.ext := by
  rw [FAT32DriverRequest.sameExt, memcmp_eq_zero (by simp), List.ofFn_inj]

@[simp] theorem emptyName_iff {request : FAT32DriverRequest} :
    request.emptyName ↔ request.name = fun _ => 0 := by
  have hzero : List.replicate 8 (0 : UInt8) = List.ofFn fun _ : Fin 8 => 0 := by decide
  rw [FAT32DriverRequest.emptyName, memcmp_eq_zero (by simp), hzero, List.ofFn_inj]

theorem mem_slotsFrom_zero (i : Fin directoryEntryCount) : i ∈ slotsFrom 0 :=
  List.mem_finRange i

theorem slotsFrom_nodup (start : ℕ) : (slotsFrom start).Nodup :=
  (List.nodup_finRange _).sublist (List.drop_sublist _ _)

theorem mem_slotsFrom_one {i : Fin directoryEntryCount} : i ∈ slotsFrom 1 ↔ i ≠ 0 := by
  have h : slotsFrom 0 = 0 :: slotsFrom 1 := by decide
  have hnodup := slotsFrom_nodup 0
  have hmem := mem_slotsFrom_zero i
  rw [h] at hmem hnodup
  constructor
  · rintro hi rfl
    exact (List.nodup_cons.mp hnodup).1 hi
  · intro hi
    exact (List.mem_cons.mp hmem).resolve_left hi

/-! ## Single cells -/

/-- The table after a store to an existing cell. -/
def setCell (fat : FAT32FileAllocationTable) (cluster value : UInt32) :
    FAT32FileAllocationTable :=
  fun i => if (i : ℕ) = cluster.toNat then value else fat i

theorem clusterMapGet_lt {fat : FAT32FileAllocationTable} {c v : UInt32}
    (h : clusterMapGet fat c = some v) : c.toNat < clusterMapSize := by
  unfold clusterMapGet at h
  split at h
  · assumption
  · exact nomatch h

theorem clusterMapGet_of_lt (fat : FAT32FileAllocationTable) {c : UInt32}
    (h : c.toNat < clusterMapSize) : clusterMapGet fat c = some (fat ⟨c.toNat, h⟩) :=
  dif_pos h

theorem clusterMapGet_eq_none {fat : FAT32FileAllocationTable} {c : UInt32} :
    clusterMapGet fat c = none ↔ clusterMapSize ≤ c.toNat := by
  unfold clusterMapGet
  split <;> simp <;> omega

theorem clusterMapSet_eq (fat : FAT32FileAllocationTable) {c : UInt32} (v : UInt32)
    (h : c.toNat < clusterMapSize) : clusterMapSet fat c v = some (setCell fat c v) := by
  rw [clusterMapSet, dif_pos h]
  congr 1
  funext i
  simp only [Function.update_apply, setCell, Fin.ext_iff]

theorem clusterMapGet_setCell_self (fat : FAT32FileAllocationTable) {c : UInt32}
    (v : UInt32) (h : c.toNat < clusterMapSize) :
    clusterMapGet (setCell fat c v) c = some v := by
  rw [clusterMapGet_of_lt _ h, setCell, if_pos rfl]

theorem clusterMapGet_setCell_ne (fat : FAT32FileAllocationTable) {c c' : UInt32}
    (v : UInt32) (h : c' ≠ c) : clusterMapGet (setCell fat c v) c' = clusterMapGet fat c' := by
  unfold clusterMapGet
  split
  · next hlt =>
      have hne : c'.toNat ≠ c.toNat := fun heq => h (UInt32.toNat_inj.mp heq)
      rw [setCell, if_neg hne]
  · rfl

/-- `FAT32_FAT_END_OF_FILE` is not the number of a cell. -/
theorem clusterMapGet_endOfFile (fat : FAT32FileAllocationTable) :
    clusterMapGet fat fat32FatEndOfFile = none :=
  clusterMapGet_eq_none.mpr (by decide)

theorem ne_endOfFile_of_get {fat : FAT32FileAllocationTable} {c v : UInt32}
    (h : clusterMapGet fat c = some v) : c ≠ fat32FatEndOfFile := by
  rintro rfl
  rw [clusterMapGet_endOfFile] at h
  exact nomatch h

/-! ## Searching free cells -/

/-- The free cells among `n` cells from `i` on. -/
def freeCellsFrom (fat : FAT32FileAllocationTable) (i n : ℕ) : List UInt32 :=
  ((List.range' i n).map UInt32.ofNat).filter fun c => clusterMapGet fat c = some 0

/-- The free cells of `2..511`, in ascending order. -/
def freeCells (fat : FAT32FileAllocationTable) : List UInt32 :=
  freeCellsFrom fat 2 (clusterMapSize - 2)

theorem ofNat_toNat_of_lt {i : ℕ} (h : i < clusterMapSize) : (UInt32.ofNat i).toNat = i := by
  simp only [UInt32.toNat_ofNat', clusterMapSize] at h ⊢
  omega

theorem mem_freeCells {fat : FAT32FileAllocationTable} {c : UInt32} :
    c ∈ freeCells fat ↔ 2 ≤ c.toNat ∧ clusterMapGet fat c = some 0 := by
  simp only [freeCells, freeCellsFrom, List.mem_filter, List.mem_map, List.mem_range'_1,
    decide_eq_true_eq]
  constructor
  · rintro ⟨⟨i, ⟨hi2, hi⟩, rfl⟩, hfree⟩
    rw [ofNat_toNat_of_lt (by simp only [clusterMapSize] at hi ⊢; omega)]
    exact ⟨hi2, hfree⟩
  · rintro ⟨h2, hfree⟩
    have hlt := clusterMapGet_lt hfree
    refine ⟨⟨c.toNat, ⟨h2, ?_⟩, UInt32.ofNat_toNat⟩, hfree⟩
    simp only [clusterMapSize] at hlt ⊢
    omega

theorem freeCells_ordered (fat : FAT32FileAllocationTable) :
    (freeCells fat).Pairwise fun c d => c.toNat < d.toNat := by
  refine List.Pairwise.filter _ (List.pairwise_map.mpr ?_)
  refine List.Pairwise.imp_of_mem ?_ List.pairwise_lt_range'
  intro i j hi hj hlt
  have hi' := (List.mem_range'_1.mp hi).2
  have hj' := (List.mem_range'_1.mp hj).2
  simp only [clusterMapSize] at hi' hj'
  rwa [ofNat_toNat_of_lt (by simp only [clusterMapSize]; omega),
    ofNat_toNat_of_lt (by simp only [clusterMapSize]; omega)]

theorem freeCells_nodup (fat : FAT32FileAllocationTable) : (freeCells fat).Nodup := by
  refine (freeCells_ordered fat).imp ?_
  rintro c d hlt rfl
  exact absurd hlt (lt_irrefl _)

theorem freeCellsFrom_succ (fat : FAT32FileAllocationTable) {i : ℕ} (n : ℕ)
    (h : i < clusterMapSize) :
    freeCellsFrom fat i (n + 1)
      = if fat ⟨i, h⟩ = fat32FatEmptyEntry then
          UInt32.ofNat i :: freeCellsFrom fat (i + 1) n
        else freeCellsFrom fat (i + 1) n := by
  have hi := ofNat_toNat_of_lt h
  have hget : clusterMapGet fat (UInt32.ofNat i) = some (fat ⟨i, h⟩) := by
    rw [clusterMapGet_of_lt _ (hi.symm ▸ h)]
    simp only [hi]
  simp only [freeCellsFrom, List.range'_succ, List.map_cons, List.filter_cons, hget,
    Option.some.injEq, decide_eq_true_eq, fat32FatEmptyEntry]

/-- The directory search claims the first free cell; without one it ends at 512. -/
theorem claimLoop_eq (fat : FAT32FileAllocationTable) (n i : ℕ)
    (h : i + n = clusterMapSize) :
    claimLoop fat n i = match freeCellsFrom fat i n with
      | [] => (fat, clusterMapSize)
      | c :: _ => (setCell fat c fat32FatEndOfFile, c.toNat + 1) := by
  induction n generalizing i with
  | zero =>
      obtain rfl : i = clusterMapSize := h
      rfl
  | succ n ih =>
      have hi : i < clusterMapSize := by omega
      rw [claimLoop, dif_pos hi, freeCellsFrom_succ fat n hi]
      by_cases hfree : fat ⟨i, hi⟩ = fat32FatEmptyEntry
      · simp only [if_pos hfree, ofNat_toNat_of_lt hi]
        congr 1
        funext k
        simp only [Function.update_apply, setCell, Fin.ext_iff, ofNat_toNat_of_lt hi]
      · rw [if_neg hfree, if_neg hfree]
        exact ih (i + 1) (by omega)

/-- The file search collects the first free cells, at most as many as it needs. -/
theorem scanLoop_eq (fat : FAT32FileAllocationTable) (n j need : ℕ)
    (h : j + n = clusterMapSize) :
    scanLoop fat n j need = (freeCellsFrom fat j n).take need := by
  induction n generalizing j need with
  | zero => simp [scanLoop, freeCellsFrom]
  | succ n ih =>
      have hj : j < clusterMapSize := by omega
      cases need with
      | zero => simp [scanLoop]
      | succ need =>
          rw [scanLoop, dif_pos hj, freeCellsFrom_succ fat n hj]
          split
          · rw [List.take_succ_cons, ih (j + 1) need (by omega)]
          · exact ih (j + 1) (need + 1) (by omega)

/-! ## Linking -/

/-- The table after the cells of a list were linked and closed. -/
def linkCells : FAT32FileAllocationTable → List UInt32 → FAT32FileAllocationTable
  | fat, [] => fat
  | fat, [c] => setCell fat c fat32FatEndOfFile
  | fat, c :: d :: rest => linkCells (setCell fat c d) (d :: rest)

theorem linkCells_get_notMem (fat : FAT32FileAllocationTable) {l : List UInt32} {c : UInt32}
    (hc : c ∉ l) : clusterMapGet (linkCells fat l) c = clusterMapGet fat c := by
  induction l generalizing fat with
  | nil => rfl
  | cons d rest ih =>
      have hcd : c ≠ d := fun h => hc (h ▸ List.mem_cons_self)
      have hrest : c ∉ rest := fun h => hc (List.mem_cons_of_mem _ h)
      cases rest with
      | nil => exact clusterMapGet_setCell_ne fat _ hcd
      | cons e rest =>
          rw [linkCells, ih _ hrest, clusterMapGet_setCell_ne fat _ hcd]

theorem linkCells_linked (fat : FAT32FileAllocationTable) {l : List UInt32}
    (hlt : ∀ c ∈ l, c.toNat < clusterMapSize) (hnodup : l.Nodup) :
    Linked (clusterMapGet (linkCells fat l)) fat32FatEndOfFile l := by
  induction l generalizing fat with
  | nil => trivial
  | cons c rest ih =>
      have hc := hlt c List.mem_cons_self
      have hrest : ∀ d ∈ rest, d.toNat < clusterMapSize :=
        fun d hd => hlt d (List.mem_cons_of_mem _ hd)
      obtain ⟨hnot, hnodup⟩ := List.nodup_cons.mp hnodup
      cases rest with
      | nil => exact clusterMapGet_setCell_self fat _ hc
      | cons d rest =>
          refine ⟨?_, ih (setCell fat c d) hrest hnodup⟩
          rw [linkCells, linkCells_get_notMem _ hnot, clusterMapGet_setCell_self fat d hc]

/-- Linked cells form the chain of the first of them. -/
theorem linkCells_chain (fat : FAT32FileAllocationTable) {c : UInt32} {rest : List UInt32}
    (hlt : ∀ d ∈ c :: rest, d.toNat < clusterMapSize) (hnodup : (c :: rest).Nodup) :
    Chain (clusterMapGet (linkCells fat (c :: rest))) fat32FatEndOfFile c (c :: rest) := by
  refine chain_of_linked (fun d hd => ?_) (linkCells_linked fat hlt hnodup)
  rintro rfl
  exact absurd (hlt _ hd) (by decide)

/-- The linking loop and the store behind it, over the cells that are left. -/
theorem linkLoop_suffix (pre suf : List UInt32) (hsuf : suf ≠ [])
    (hlt : ∀ c ∈ suf, c.toNat < clusterMapSize) (fat : FAT32FileAllocationTable) :
    (do let fat ← linkLoop (pre ++ suf) (suf.length - 1) pre.length fat
        let last ← (pre ++ suf)[pre.length + suf.length - 1]?
        clusterMapSet fat last fat32FatEndOfFile)
      = some (linkCells fat suf) := by
  induction suf generalizing pre fat with
  | nil => exact absurd rfl hsuf
  | cons c rest ih =>
      have hc := hlt c List.mem_cons_self
      cases rest with
      | nil =>
          simp only [List.length_cons, List.length_nil, Nat.zero_add, Nat.sub_self, linkLoop,
            Nat.add_sub_cancel]
          simp [clusterMapSet_eq fat _ hc, linkCells]
      | cons d rest =>
          have hstep := ih (pre ++ [c]) (List.cons_ne_nil _ _)
            (fun e he => hlt e (List.mem_cons_of_mem _ he)) (setCell fat c d)
          have hget : (pre ++ c :: d :: rest)[pre.length]? = some c := by simp
          have hget' : (pre ++ c :: d :: rest)[pre.length + 1]? = some d := by simp
          simp only [List.length_cons, List.length_append, List.length_nil, Nat.zero_add,
            List.append_assoc, List.cons_append, List.nil_append, Nat.add_sub_cancel]
            at hstep ⊢
          simp only [linkLoop, hget, hget', clusterMapSet_eq fat _ hc, Option.bind_eq_bind,
            Option.bind_some, linkCells]
          rw [← hstep]
          congr 1
          funext fat'
          congr 2
          omega

/-- The linking loop over all claimed cells. -/
theorem linkLoop_eq {l : List UInt32} (hl : l ≠ [])
    (hlt : ∀ c ∈ l, c.toNat < clusterMapSize) (fat : FAT32FileAllocationTable) :
    (do let fat ← linkLoop l (l.length - 1) 0 fat
        let last ← l[l.length - 1]?
        clusterMapSet fat last fat32FatEndOfFile)
      = some (linkCells fat l) := by
  simpa using linkLoop_suffix [] l hl hlt fat

/-! ## Cells a file takes -/

section Taking

variable {fat : FAT32FileAllocationTable} {k : ℕ} {c d : UInt32} {l rest : List UInt32}

/-- The first free cells are free. -/
theorem taken_free (htake : (freeCells fat).take k = l) (hd : d ∈ l) :
    2 ≤ d.toNat ∧ clusterMapGet fat d = some 0 :=
  mem_freeCells.mp (List.mem_of_mem_take (htake ▸ hd))

theorem taken_nodup (htake : (freeCells fat).take k = l) : l.Nodup :=
  htake ▸ (freeCells_nodup fat).sublist (List.take_sublist k _)

/-- Linking takes the linked cells, and no others, from the free ones. -/
theorem linkCells_free_iff (htake : (freeCells fat).take k = c :: rest) :
    clusterMapGet (linkCells fat (c :: rest)) d = some 0 ↔
      clusterMapGet fat d = some 0 ∧ d ∉ c :: rest := by
  by_cases hd : d ∈ c :: rest
  · refine iff_of_false ?_ fun h => h.2 hd
    intro hzero
    have hchain := linkCells_chain fat
      (fun e he => clusterMapGet_lt (taken_free htake he).2) (taken_nodup htake)
    -- a linked cell points to a linked cell or ends the file
    obtain ⟨b, hb, hnext⟩ := chain_mem_next hchain hd
    obtain rfl := Option.some.inj (hb.symm.trans hzero)
    rcases hnext with hstop | hin
    · exact absurd hstop (by decide)
    · exact absurd (taken_free htake hin).1 (by decide)
  · rw [linkCells_get_notMem fat hd, and_iff_left hd]

/-- With two free cells the first one is not the last cell of the table. -/
theorem first_cell_ne {c₁ c₂ : UInt32} {rest : List UInt32}
    (h : freeCells fat = c₁ :: c₂ :: rest) : c₁.toNat ≠ 511 := by
  have hord := freeCells_ordered fat
  rw [h] at hord
  have hlt := (List.pairwise_cons.mp hord).1 c₂ List.mem_cons_self
  have hmem : c₂ ∈ freeCells fat := by
    rw [h]
    exact List.mem_cons_of_mem _ List.mem_cons_self
  have hmax := clusterMapGet_lt (mem_freeCells.mp hmem).2
  have hsize : clusterMapSize = 512 := rfl
  omega

/-- Linking the first free cells leaves the free cells behind them. -/
theorem freeCells_linkCells (htake : (freeCells fat).take k = c :: rest) :
    freeCells (linkCells fat (c :: rest)) = (freeCells fat).drop k := by
  have hfilter : freeCells (linkCells fat (c :: rest))
      = (freeCells fat).filter fun d => decide (d ∉ c :: rest) := by
    simp only [freeCells, freeCellsFrom, List.filter_filter, linkCells_free_iff htake]
    congr 1
    funext d
    rw [Bool.decide_and, Bool.and_comm]
  have hsplit : freeCells fat = (c :: rest) ++ (freeCells fat).drop k := by
    rw [← htake, List.take_append_drop]
  have hdisjoint : ∀ d ∈ (freeCells fat).drop k, d ∉ c :: rest := by
    have hall := freeCells_nodup fat
    rw [hsplit] at hall
    exact fun d hd hin => (List.nodup_append.mp hall).2.2 d hin d hd rfl
  have hnone : (c :: rest).filter (fun d => decide (d ∉ c :: rest)) = [] :=
    List.filter_eq_nil_iff.mpr fun d hd => by simp only [hd, not_true_eq_false, decide_false,
      Bool.false_eq_true, not_false_eq_true]
  have hall : ((freeCells fat).drop k).filter (fun d => decide (d ∉ c :: rest))
      = (freeCells fat).drop k :=
    List.filter_eq_self.mpr fun d hd => decide_eq_true (hdisjoint d hd)
  rw [hfilter, hsplit, List.filter_append, hnone, List.nil_append, ← hsplit, hall]

end Taking

end OsyFat32
