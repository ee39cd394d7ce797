import Osyikkk.OrderedCopy
import Mathlib.Algebra.Group.Nat.Defs
import Mathlib.Data.List.Range
import Mathlib.Data.Nat.Notation

/-!
# Copying memory, from `stdmem.c`

A memory is a function from addresses. The loop of `memcpy` goes upward byte after byte, so
it copies what the source held before also when the destination lies below the source and
the two overlap. `memmove` looks at the order of the two addresses and goes upward or
downward, so that it does so for every overlap.
-/

namespace OsyMemory

open OrderedCopy

variable {α : Type*}

/-- The loop of `memcpy`, with `n` bytes left from index `i` on. -/
def copyUp (dest src : ℕ) : ℕ → ℕ → (ℕ → α) → ℕ → α
  | 0, _, mem => mem
  | n + 1, i, mem => copyUp dest src n (i + 1) (Function.update mem (dest + i) (mem (src + i)))

/-- `memcpy`. -/
def memcpy (dest src n : ℕ) (mem : ℕ → UInt8) : ℕ → UInt8 := copyUp dest src n 0 mem

/-- The bytes of the 32-bit address space. -/
abbrev ByteMemory := UInt32 → UInt8

/-- The first loop of `memmove`, with `n` bytes left from index `i` on. -/
def moveUp (dstbuf srcbuf : UInt32) : ℕ → UInt32 → ByteMemory → ByteMemory
  | 0, _, mem => mem
  | n + 1, i, mem =>
      moveUp dstbuf srcbuf n (i + 1) (Function.update mem (dstbuf + i) (mem (srcbuf + i)))

/-- The second loop of `memmove`, from index `i - 1` down. -/
def moveDown (dstbuf srcbuf : UInt32) : ℕ → ByteMemory → ByteMemory
  | 0, mem => mem
  | i + 1, mem =>
      moveDown dstbuf srcbuf i
        (Function.update mem (dstbuf + UInt32.ofNat i) (mem (srcbuf + UInt32.ofNat i)))

/-- `memmove`: the pointer it returns and the memory it leaves. -/
def memmove (dest src n : UInt32) (mem : ByteMemory) : UInt32 × ByteMemory :=
  if dest < src then (dest, moveUp dest src n.toNat 0 mem)
  else (dest, moveDown dest src n.toNat mem)

/-! ## `memcpy` -/

/-- The loop is a copy in increasing order. -/
theorem copyUp_eq_copyInOrder (dest src n i : ℕ) (mem : ℕ → α) :
    copyUp dest src n i mem = copyInOrder (dest + ·) (src + ·) (List.range' i n) mem := by
  induction n generalizing i mem with
  | zero => rfl
  | succ n ih => rw [copyUp, ih, List.range'_succ, copyInOrder]

/-- `memcpy` to a lower address: nothing is overwritten before it is copied. -/
theorem memcpy_down {dest src : ℕ} (h : dest ≤ src) (n : ℕ) (mem : ℕ → UInt8) :
    memcpy dest src n mem = fun a =>
      if dest ≤ a ∧ a < dest + n then mem (a - dest + src) else mem a := by
  funext a
  rw [memcpy, copyUp_eq_copyInOrder, ← List.range_eq_range']
  by_cases hin : dest ≤ a ∧ a < dest + n
  · have hread : ReadsFirst (dest + ·) (src + ·) (List.range n) := by
      refine List.pairwise_lt_range.imp fun {i j} hij => ?_
      show dest + i ≠ src + j
      omega
    have hdest : (List.range n).Pairwise fun i j => dest + i ≠ dest + j := by
      refine List.pairwise_lt_range.imp fun {i j} hij => ?_
      omega
    have hi : a - dest ∈ List.range n := List.mem_range.mpr (by omega)
    have hcell : dest + (a - dest) = a := by omega
    have hcopied := copyInOrder_copied mem hread hdest hi
    simp only [hcell] at hcopied
    rw [if_pos hin, hcopied, Nat.add_comm]
  · have hout : ∀ i ∈ List.range n, dest + i ≠ a := by
      intro i hi
      have hlt := List.mem_range.mp hi
      omega
    rw [if_neg hin, copyInOrder_outside mem hout]

/-! ## `memmove` -/

variable {dest src n : UInt32}

/-- An address inside a range that does not wrap. -/
theorem toNat_add_ofNat {base : UInt32} {i : ℕ} (h : base.toNat + i < 2 ^ 32) :
    (base + UInt32.ofNat i).toNat = base.toNat + i := by
  rw [UInt32.toNat_add, UInt32.toNat_ofNat', Nat.add_mod_mod, Nat.mod_eq_of_lt h]

theorem moveUp_eq_copyInOrder (dest src : UInt32) (n i : ℕ) (mem : ByteMemory) :
    moveUp dest src n (UInt32.ofNat i) mem
      = copyInOrder (dest + UInt32.ofNat ·) (src + UInt32.ofNat ·) (List.range' i n) mem := by
  induction n generalizing i mem with
  | zero => rfl
  | succ n ih =>
      have hnext : UInt32.ofNat i + 1 = UInt32.ofNat (i + 1) := (UInt32.ofNat_add i 1).symm
      rw [moveUp, hnext, ih, List.range'_succ, copyInOrder]

theorem moveDown_eq_copyInOrder (dest src : UInt32) (n : ℕ) (mem : ByteMemory) :
    moveDown dest src n mem
      = copyInOrder (dest + UInt32.ofNat ·) (src + UInt32.ofNat ·) (List.range n).reverse mem := by
  induction n generalizing mem with
  | zero => rfl
  | succ n ih =>
      rw [moveDown, ih, List.range_succ, List.reverse_append, List.reverse_singleton,
        List.singleton_append, copyInOrder]

/-- The order in which `memmove` copies. -/
def moveOrder (dest src : UInt32) (n : ℕ) : List ℕ :=
  if dest < src then List.range n else (List.range n).reverse

theorem mem_moveOrder {i k : ℕ} : i ∈ moveOrder dest src k ↔ i < k := by
  rw [moveOrder]
  split_ifs
  · exact List.mem_range
  · exact List.mem_reverse.trans List.mem_range

theorem memmove_eq_copyInOrder (mem : ByteMemory) :
    (memmove dest src n mem).2
      = copyInOrder (dest + UInt32.ofNat ·) (src + UInt32.ofNat ·) (moveOrder dest src n.toNat)
          mem := by
  rw [memmove, moveOrder]
  split_ifs
  · rw [List.range_eq_range']
    exact moveUp_eq_copyInOrder dest src n.toNat 0 mem
  · exact moveDown_eq_copyInOrder dest src n.toNat mem

/-- Upward from a source above the destination, downward from one below or at it. -/
theorem moveOrder_readsFirst (hdest : dest.toNat + n.toNat ≤ 2 ^ 32)
    (hsrc : src.toNat + n.toNat ≤ 2 ^ 32) :
    ReadsFirst (dest + UInt32.ofNat ·) (src + UInt32.ofNat ·) (moveOrder dest src n.toNat) := by
  have hapart : ∀ {i j : ℕ}, i < n.toNat → j < n.toNat →
      dest.toNat + i ≠ src.toNat + j → dest + UInt32.ofNat i ≠ src + UInt32.ofNat j := by
    intro i j hi hj hne heq
    have hnat := congrArg UInt32.toNat heq
    rw [toNat_add_ofNat (by omega), toNat_add_ofNat (by omega)] at hnat
    exact hne hnat
  rw [ReadsFirst, moveOrder]
  split_ifs with hlt
  · -- what is read later lies above what has been written
    have hbelow := UInt32.lt_iff_toNat_lt.mp hlt
    refine List.pairwise_lt_range.imp_of_mem fun {i j} hi hj hij => ?_
    exact hapart (List.mem_range.mp hi) (List.mem_range.mp hj) (by omega)
  · -- going down, below it
    have habove := UInt32.le_iff_toNat_le.mp (UInt32.not_lt.mp hlt)
    refine List.pairwise_reverse.mpr (List.pairwise_lt_range.imp_of_mem fun {i j} hi hj hij => ?_)
    exact hapart (List.mem_range.mp hj) (List.mem_range.mp hi) (by omega)

/-- Every byte is written once. -/
theorem moveOrder_injective (hdest : dest.toNat + n.toNat ≤ 2 ^ 32) :
    (moveOrder dest src n.toNat).Pairwise fun i j =>
      dest + UInt32.ofNat i ≠ dest + UInt32.ofNat j := by
  have hapart : ∀ {i j : ℕ}, i < n.toNat → j < n.toNat → i ≠ j →
      dest + UInt32.ofNat i ≠ dest + UInt32.ofNat j := by
    intro i j hi hj hne heq
    have hnat := congrArg UInt32.toNat heq
    rw [toNat_add_ofNat (by omega), toNat_add_ofNat (by omega)] at hnat
    exact hne (Nat.add_left_cancel hnat)
  rw [moveOrder]
  split_ifs
  · refine List.pairwise_lt_range.imp_of_mem fun {i j} hi hj hij => ?_
    exact hapart (List.mem_range.mp hi) (List.mem_range.mp hj) hij.ne
  · refine List.pairwise_reverse.mpr (List.pairwise_lt_range.imp_of_mem fun {i j} hi hj hij => ?_)
    exact hapart (List.mem_range.mp hj) (List.mem_range.mp hi) hij.ne'

/-- **Overlapping moves are safe.** -/
theorem memmove_moves (dest src n : UInt32) (mem : ByteMemory)
    (hdest : dest.toNat + n.toNat ≤ 2 ^ 32) (hsrc : src.toNat + n.toNat ≤ 2 ^ 32) :
    (memmove dest src n mem).1 = dest ∧
      (∀ i, i < n → (memmove dest src n mem).2 (dest + i) = mem (src + i)) ∧
      ∀ a, ¬ (dest.toNat ≤ a.toNat ∧ a.toNat < dest.toNat + n.toNat) →
        (memmove dest src n mem).2 a = mem a := by
  refine ⟨?_, ?_, ?_⟩
  · rw [memmove]
    split_ifs <;> rfl
  · intro i hi
    have hin : i.toNat ∈ moveOrder dest src n.toNat :=
      mem_moveOrder.mpr (UInt32.lt_iff_toNat_lt.mp hi)
    have hcopied := copyInOrder_copied mem (moveOrder_readsFirst hdest hsrc)
      (moveOrder_injective hdest) hin
    simp only [UInt32.ofNat_toNat] at hcopied
    rw [memmove_eq_copyInOrder, hcopied]
  · intro a ha
    rw [memmove_eq_copyInOrder]
    refine copyInOrder_outside mem fun i hi heq => ha ?_
    have hlt := mem_moveOrder.mp hi
    rw [← heq, toNat_add_ofNat (by omega)]
    omega

/-- Three bytes move up by one, over their own place. -/
theorem memmove_moves_up :
    (memmove 2 1 3 UInt32.toUInt8).1 = 2 ∧
      (∀ i, i < 3 → (memmove 2 1 3 UInt32.toUInt8).2 (2 + i) = UInt32.toUInt8 (1 + i)) ∧
      ∀ a : UInt32, ¬ ((2 : UInt32).toNat ≤ a.toNat ∧
          a.toNat < (2 : UInt32).toNat + (3 : UInt32).toNat) →
        (memmove 2 1 3 UInt32.toUInt8).2 a = UInt32.toUInt8 a :=
  memmove_moves 2 1 3 UInt32.toUInt8 (by decide) (by decide)

end OsyMemory
