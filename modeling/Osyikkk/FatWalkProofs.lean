import Osyikkk.FatCellProofs
import Mathlib.Data.List.Perm.Subperm

/-!
# What the chain walks compute

The two walks of `read` follow the chain of a start cell (`countLoop_eq`, `copyLoop_eq`);
with their bound of 513 rounds they are undefined exactly when there is no chain to follow
(`countLoop_eq_none_iff`). The `do … while` of `delete` empties a chain of at least two
cells (`deleteLoop_eq`) and leaves the table on a chain of one (`deleteLoop_single`).
-/

namespace OsyFat32

open OsyDisk LinkedChain

/-- The chain of cells that starts at `cluster`. -/
abbrev FatChain (fat : FAT32FileAllocationTable) (cluster : UInt32) (l : List UInt32) : Prop :=
  Chain (clusterMapGet fat) fat32FatEndOfFile cluster l

theorem fatChain_lt {fat : FAT32FileAllocationTable} {a c : UInt32} {l : List UInt32}
    (h : FatChain fat a l) (hc : c ∈ l) : c.toNat < clusterMapSize := by
  obtain ⟨b, hb, -⟩ := chain_mem_next h hc
  exact clusterMapGet_lt hb

/-- A chain has at most one place for each cell of the table. -/
theorem fatChain_length_le {fat : FAT32FileAllocationTable} {a : UInt32} {l : List UInt32}
    (h : FatChain fat a l) : l.length ≤ clusterMapSize := by
  have hnodup : (l.map UInt32.toNat).Nodup :=
    (chain_nodup h).map fun _ _ hab => UInt32.toNat_inj.mp hab
  have hsub : l.map UInt32.toNat ⊆ List.range clusterMapSize := by
    intro k hk
    obtain ⟨c, hc, rfl⟩ := List.mem_map.mp hk
    exact List.mem_range.mpr (fatChain_lt h hc)
  have hlen := (List.subperm_of_subset hnodup hsub).length_le
  rwa [List.length_map, List.length_range] at hlen

/-! ## The walks of `read` -/

theorem countLoop_eq {fat : FAT32FileAllocationTable} {c : UInt32} {l : List UInt32}
    (h : FatChain fat c l) {n : ℕ} (hn : l.length < n) (count : UInt32) :
    countLoop fat n c count = some (count + UInt32.ofNat l.length) := by
  induction h generalizing n count with
  | nil =>
      obtain ⟨n, rfl⟩ := Nat.exists_eq_succ_of_ne_zero (Nat.ne_of_gt hn)
      simp [countLoop]
  | @cons a b l hne hb hrest ih =>
      obtain ⟨n, rfl⟩ := Nat.exists_eq_succ_of_ne_zero (by omega : n ≠ 0)
      have hlen : l.length < n := by simpa using hn
      rw [countLoop, if_neg hne, hb, Option.bind_some, ih hlen]
      simp only [List.length_cons, UInt32.ofNat_add]
      congr 1
      rw [UInt32.add_assoc, UInt32.add_comm 1]
      rfl

theorem chain_of_countLoop {fat : FAT32FileAllocationTable} {n : ℕ} {c count m : UInt32}
    (h : countLoop fat n c count = some m) : ∃ l, FatChain fat c l := by
  induction n generalizing c count with
  | zero => exact nomatch h
  | succ n ih =>
      rw [countLoop] at h
      split at h
      · next heq => exact ⟨[], heq ▸ Chain.nil⟩
      · next hne =>
          obtain ⟨b, hb, hrest⟩ := Option.bind_eq_some_iff.mp h
          obtain ⟨l, hl⟩ := ih hrest
          exact ⟨c :: l, Chain.cons hne hb hl⟩

/-- The counting walk has an outcome exactly when its start has a chain. -/
theorem countLoop_eq_none_iff {fat : FAT32FileAllocationTable} {c : UInt32} :
    countLoop fat (clusterMapSize + 1) c 0 = none ↔ ¬ ∃ l, FatChain fat c l := by
  constructor
  · rintro hnone ⟨l, hl⟩
    rw [countLoop_eq hl (Nat.lt_succ_of_le (fatChain_length_le hl))] at hnone
    exact nomatch hnone
  · intro hno
    cases hcount : countLoop fat (clusterMapSize + 1) c 0 with
    | none => rfl
    | some m => exact absurd (chain_of_countLoop hcount) hno

/-- The buffer after the clusters of a list were copied to places `j`, `j + 1`, …. -/
def copyClusters (disk : Disk) : Memory → ℕ → List UInt32 → Memory
  | buf, _, [] => buf
  | buf, j, c :: rest => copyClusters disk (readClusterInto disk buf j c) (j + 1) rest

theorem copyLoop_eq {fat : FAT32FileAllocationTable} (disk : Disk) {c : UInt32}
    {l : List UInt32} (h : FatChain fat c l) {n : ℕ} (hn : l.length < n) (j : ℕ)
    (buf : Memory) : copyLoop fat disk n c j buf = some (copyClusters disk buf j l) := by
  induction h generalizing n j buf with
  | nil =>
      obtain ⟨n, rfl⟩ := Nat.exists_eq_succ_of_ne_zero (Nat.ne_of_gt hn)
      simp [copyLoop, copyClusters]
  | cons hne hb _ ih =>
      obtain ⟨n, rfl⟩ := Nat.exists_eq_succ_of_ne_zero (by omega : n ≠ 0)
      rw [copyLoop, if_neg hne, hb, Option.bind_some, ih (by simpa using hn)]
      rfl

theorem readClusterInto_inside (disk : Disk) (buf : Memory) (j : ℕ) (c : UInt32)
    (r : Fin clusterSize) :
    readClusterInto disk buf j c (clusterSize * j + r) = clusterAt disk c r := by
  rw [readClusterInto, if_neg (by omega), readClusters_one, Nat.add_sub_cancel_left,
    dif_pos r.isLt]

theorem readClusterInto_outside (disk : Disk) (buf : Memory) {j k : ℕ} (c : UInt32)
    (hk : k < clusterSize * j ∨ clusterSize * (j + 1) ≤ k) :
    readClusterInto disk buf j c k = buf k := by
  rw [readClusterInto]
  split
  · rfl
  · next hlow =>
      have hhigh : ¬ k - clusterSize * j < clusterSize := by
        simp only [clusterSize] at hk hlow ⊢
        omega
      rw [readClusters_one, dif_neg hhigh, Memory.offset, Nat.add_sub_cancel' (by omega)]

/-- Nothing outside the copied places changes. -/
theorem copyClusters_outside (disk : Disk) (buf : Memory) {j k : ℕ} {l : List UInt32}
    (hk : k < clusterSize * j ∨ clusterSize * (j + l.length) ≤ k) :
    copyClusters disk buf j l k = buf k := by
  induction l generalizing buf j with
  | nil => rfl
  | cons c rest ih =>
      simp only [List.length_cons, clusterSize] at hk
      rw [copyClusters, ih _ (by simp only [clusterSize]; omega),
        readClusterInto_outside disk buf c (by simp only [clusterSize]; omega)]

/-- Place `j + i` holds the `i`-th cluster of the list. -/
theorem copyClusters_inside (disk : Disk) (buf : Memory) (j : ℕ) {l : List UInt32} {i : ℕ}
    (hi : i < l.length) (r : Fin clusterSize) :
    copyClusters disk buf j l (clusterSize * (j + i) + r) = clusterAt disk l[i] r := by
  induction l generalizing buf j i with
  | nil => exact absurd hi (Nat.not_lt_zero _)
  | cons c rest ih =>
      have hr := r.isLt
      cases i with
      | zero =>
          rw [copyClusters, copyClusters_outside disk _
            (Or.inl (by simp only [clusterSize] at hr ⊢; omega))]
          exact readClusterInto_inside disk buf j c r
      | succ i =>
          have hplace : j + (i + 1) = j + 1 + i := by omega
          rw [copyClusters, hplace, ih _ _ (Nat.lt_of_succ_lt_succ hi)]
          rfl

/-! ## Storing the contents of a file -/

theorem clusterAt_dataLoop_notMem (buf : Memory) (i : ℕ) {l : List UInt32} {c : UInt32}
    (disk : Disk) (hc : ∀ d ∈ l, drivePlace c ≠ drivePlace d) :
    clusterAt (dataLoop buf i l disk) c = clusterAt disk c := by
  induction l generalizing i disk with
  | nil => rfl
  | cons d rest ih =>
      rw [dataLoop, ih _ _ fun e he => hc e (List.mem_cons_of_mem _ he),
        clusterAt_writeClusters_ne _ _ (hc d List.mem_cons_self)]

/-- The `m`-th cluster of the list holds the `m`-th cluster of the buffer. -/
theorem clusterAt_dataLoop (buf : Memory) (i : ℕ) {l : List UInt32} (disk : Disk)
    (hlt : ∀ c ∈ l, c.toNat < 512) (hnodup : l.Nodup) {m : ℕ} (hm : m < l.length) :
    clusterAt (dataLoop buf i l disk) l[m] = (buf.offset (clusterSize * (i + m))).toCluster := by
  induction l generalizing i disk m with
  | nil => exact absurd hm (Nat.not_lt_zero _)
  | cons c rest ih =>
      obtain ⟨hnot, hnodup⟩ := List.nodup_cons.mp hnodup
      have hrest : ∀ d ∈ rest, d.toNat < 512 := fun d hd => hlt d (List.mem_cons_of_mem _ hd)
      cases m with
      | zero =>
          have hplace : ∀ d ∈ rest, drivePlace c ≠ drivePlace d := fun d hd =>
            drivePlace_ne (hlt c List.mem_cons_self) (hrest d hd) fun h => hnot (h ▸ hd)
          rw [dataLoop]
          exact (clusterAt_dataLoop_notMem _ _ _ hplace).trans
            (clusterAt_writeClusters_self _ _ _)
      | succ m =>
          have hplace : i + (m + 1) = i + 1 + m := by omega
          rw [dataLoop, hplace]
          exact ih (i + 1) _ hrest hnodup (Nat.lt_of_succ_lt_succ hm)

/-! ## Freeing -/

/-- The table after the cells of a list were emptied. -/
def freeChain (fat : FAT32FileAllocationTable) (l : List UInt32) : FAT32FileAllocationTable :=
  l.foldl (fun fat c => setCell fat c fat32FatEmptyEntry) fat

/-- The disk after the clusters of a list were filled with zeros. -/
def zeroChain (disk : Disk) (l : List UInt32) : Disk :=
  l.foldl (fun disk c => writeClusters disk (fun _ => 0) c 1) disk

theorem freeChain_get_notMem (fat : FAT32FileAllocationTable) {l : List UInt32} {c : UInt32}
    (hc : c ∉ l) : clusterMapGet (freeChain fat l) c = clusterMapGet fat c := by
  induction l generalizing fat with
  | nil => rfl
  | cons d rest ih =>
      have hcd : c ≠ d := fun h => hc (h ▸ List.mem_cons_self)
      have hrest := ih (setCell fat d fat32FatEmptyEntry)
        fun h => hc (List.mem_cons_of_mem _ h)
      exact hrest.trans (clusterMapGet_setCell_ne fat _ hcd)

theorem freeChain_get_mem (fat : FAT32FileAllocationTable) {l : List UInt32} {c : UInt32}
    (hc : c ∈ l) (hlt : c.toNat < clusterMapSize) :
    clusterMapGet (freeChain fat l) c = some 0 := by
  induction l generalizing fat with
  | nil => exact nomatch hc
  | cons d rest ih =>
      by_cases hrest : c ∈ rest
      · exact ih (setCell fat d fat32FatEmptyEntry) hrest
      · obtain rfl : c = d := (List.mem_cons.mp hc).resolve_right hrest
        exact (freeChain_get_notMem _ hrest).trans (clusterMapGet_setCell_self fat _ hlt)

theorem clusterAt_zeroChain_notMem (disk : Disk) {l : List UInt32} {c : UInt32}
    (hc : ∀ d ∈ l, drivePlace c ≠ drivePlace d) :
    clusterAt (zeroChain disk l) c = clusterAt disk c := by
  induction l generalizing disk with
  | nil => rfl
  | cons d rest ih =>
      have hrest := ih (writeClusters disk (fun _ => 0) d 1)
        fun e he => hc e (List.mem_cons_of_mem _ he)
      exact hrest.trans (clusterAt_writeClusters_ne _ _ (hc d List.mem_cons_self))

/-- On a chain of at least two cells the loop empties all cells but the last, which it
    returns. The chain behind the current cell is untouched by the stores so far. -/
theorem deleteLoop_eq {fat : FAT32FileAllocationTable} {disk : Disk} {c last : UInt32}
    {l : List UInt32} (h : FatChain fat c (l ++ [last])) (hl : l ≠ []) {n : ℕ}
    (hn : l.length ≤ n) :
    deleteLoop n fat disk c = some (freeChain fat l, zeroChain disk l, last) := by
  induction l generalizing c fat disk n with
  | nil => exact absurd rfl hl
  | cons a rest ih =>
      obtain ⟨n, rfl⟩ := Nat.exists_eq_succ_of_ne_zero
        (by simp only [List.length_cons] at hn; omega : n ≠ 0)
      obtain ⟨hnot, -⟩ := List.nodup_cons.mp (chain_nodup h)
      obtain ⟨rfl, hne, b, hb, hrest⟩ := chain_cons_iff.mp h
      have hc := clusterMapGet_lt hb
      have hframe : FatChain (setCell fat c fat32FatEmptyEntry) b (rest ++ [last]) :=
        chain_frame hrest fun d hd =>
          clusterMapGet_setCell_ne fat _ fun h => hnot (h ▸ hd)
      simp only [deleteLoop, hb, clusterMapSet_eq fat _ hc, Option.bind_eq_bind,
        Option.bind_some]
      cases rest with
      | nil =>
          obtain ⟨rfl, -, e, he, htail⟩ := chain_cons_iff.mp hframe
          obtain rfl : e = fat32FatEndOfFile := chain_nil_iff.mp htail
          simp [he, freeChain, zeroChain]
      | cons d rest =>
          obtain ⟨rfl, -, e, he, htail⟩ := chain_cons_iff.mp hframe
          have hbehind : e ≠ fat32FatEndOfFile := by
            rintro rfl
            exact absurd (chain_stop htail) (by simp)
          have hlen : (b :: rest).length ≤ n := by simpa using hn
          have hrec : deleteLoop n (setCell fat c fat32FatEmptyEntry)
              (writeClusters disk (fun _ => 0) c 1) b = _ :=
            ih hframe (List.cons_ne_nil _ _) hlen
          simp only [he, Option.bind_some, if_pos hbehind, hrec]
          rfl

/-- On a chain of one cell the loop looks behind the end of the table. -/
theorem deleteLoop_single {fat : FAT32FileAllocationTable} (disk : Disk) {c : UInt32}
    (h : FatChain fat c [c]) (n : ℕ) : deleteLoop n fat disk c = none := by
  cases n with
  | zero => rfl
  | succ n =>
      cases h with
      | cons hne hb hrest =>
          cases hrest
          simp [deleteLoop, hb, clusterMapSet_eq fat _ (clusterMapGet_lt hb),
            clusterMapGet_endOfFile]

end OsyFat32
