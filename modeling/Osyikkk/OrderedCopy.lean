import Mathlib.Data.List.Pairwise
import Mathlib.Logic.Function.Basic

/-!
# Copying cell after cell

A copy goes over indices in some order and copies one cell for each, in a memory where the
cells it reads and those it writes may overlap. It leaves what the source held before
whenever no cell is read after it was written (`ReadsFirst`), whatever the order is.
-/

namespace OrderedCopy

variable {ι A α : Type*} [DecidableEq A]

/-- The cell `src i` is copied to `dest i`, index after index. -/
def copyInOrder (dest src : ι → A) : List ι → (A → α) → A → α
  | [], mem => mem
  | i :: order, mem => copyInOrder dest src order (Function.update mem (dest i) (mem (src i)))

/-- No cell is read after it was written. -/
def ReadsFirst (dest src : ι → A) (order : List ι) : Prop :=
  order.Pairwise fun i j => dest i ≠ src j

variable {dest src : ι → A} {order : List ι} {a : A}

/-- The cells that are not written stay. -/
theorem copyInOrder_outside (mem : A → α) (h : ∀ i ∈ order, dest i ≠ a) :
    copyInOrder dest src order mem a = mem a := by
  induction order generalizing mem with
  | nil => rfl
  | cons i order ih =>
      have hrest : ∀ j ∈ order, dest j ≠ a := fun j hj => h j (List.mem_cons_of_mem _ hj)
      have hne : a ≠ dest i := (h i List.mem_cons_self).symm
      rw [copyInOrder, ih _ hrest, Function.update_of_ne hne]

/-- Every cell that is written gets what its source held before the copy. -/
theorem copyInOrder_copied (mem : A → α) (hread : ReadsFirst dest src order)
    (hdest : order.Pairwise fun i j => dest i ≠ dest j) {i : ι} (hi : i ∈ order) :
    copyInOrder dest src order mem (dest i) = mem (src i) := by
  induction order generalizing mem with
  | nil => exact absurd hi List.not_mem_nil
  | cons j order ih =>
      obtain ⟨hread₁, hread₂⟩ := List.pairwise_cons.mp hread
      obtain ⟨hdest₁, hdest₂⟩ := List.pairwise_cons.mp hdest
      rw [copyInOrder]
      rcases List.mem_cons.mp hi with rfl | hi
      · have hlater : ∀ k ∈ order, dest k ≠ dest i := fun k hk => (hdest₁ k hk).symm
        rw [copyInOrder_outside _ hlater, Function.update_self]
      · -- the source of a later index has not been written yet
        rw [ih _ hread₂ hdest₂ hi, Function.update_of_ne (hread₁ i hi).symm]

end OrderedCopy
