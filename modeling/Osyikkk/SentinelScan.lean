import Mathlib.Data.Nat.Notation
import Mathlib.Order.Basic

/-!
# Loops that advance an index to a sentinel

A loop tests the cell that is some places ahead of its index and advances the index while the
test holds; its body reads the cell at the index. No bound is checked: the loop ends when a
cell fails the test (`scan_ends`), and reads no cell behind the first one that does
(`Scanned.below`).
-/

namespace SentinelScan

variable {α : Type*}

/-- The loop from `index` on, for at most `n` tests: where it ends, and the cells it has
    read. -/
def scan (cell : ℕ → α) (ahead : ℕ) (goesOn : α → Bool) : ℕ → ℕ → Option (ℕ × List ℕ)
  | 0, _ => none
  | n + 1, index =>
      if goesOn (cell (index + ahead)) then
        (scan cell ahead goesOn n (index + 1)).map fun r =>
          (r.1, (index + ahead) :: index :: r.2)
      else some (index, [index + ahead])

variable {cell : ℕ → α} {ahead n index last bound : ℕ} {goesOn : α → Bool} {reads : List ℕ}

/-- What a scan that ended has read. -/
structure Scanned (cell : ℕ → α) (ahead : ℕ) (goesOn : α → Bool) (index last : ℕ)
    (reads : List ℕ) : Prop where
  le : index ≤ last
  stops : goesOn (cell (last + ahead)) = false
  first : ∀ i, index ≤ i → i < last → goesOn (cell (i + ahead)) = true
  reads : ∀ i, i ∈ reads ↔
    (index ≤ i ∧ i < last) ∨ (index + ahead ≤ i ∧ i ≤ last + ahead)

theorem scan_some (h : scan cell ahead goesOn n index = some (last, reads)) :
    Scanned cell ahead goesOn index last reads := by
  induction n generalizing index reads with
  | zero => exact absurd h.symm (Option.some_ne_none _)
  | succ n ih =>
      rw [scan] at h
      by_cases hgo : goesOn (cell (index + ahead)) = true
      · rw [if_pos hgo] at h
        obtain ⟨r, hr, heq⟩ := Option.map_eq_some_iff.mp h
        obtain ⟨rfl, rfl⟩ := Prod.mk.inj heq
        have hrest := ih hr
        have hle := hrest.le
        refine ⟨by omega, hrest.stops, ?_, ?_⟩
        · intro i hlow hhigh
          by_cases hi : i = index
          · rw [hi]
            exact hgo
          · exact hrest.first i (by omega) hhigh
        · intro i
          rw [List.mem_cons, List.mem_cons, hrest.reads]
          omega
      · rw [if_neg hgo] at h
        obtain ⟨rfl, rfl⟩ := Prod.mk.inj (Option.some.inj h)
        refine ⟨Nat.le_refl _, Bool.eq_false_iff.mpr hgo, ?_, ?_⟩
        · exact fun i hlow hhigh => absurd hlow (Nat.not_le.mpr hhigh)
        · intro i
          rw [List.mem_singleton]
          omega

/-- A cell that fails the test ends the scan. -/
theorem scan_ends {m : ℕ} (hle : index ≤ m) (hstop : goesOn (cell (m + ahead)) = false)
    (hn : m < index + n) :
    ∃ last reads, last ≤ m ∧ scan cell ahead goesOn n index = some (last, reads) := by
  induction n generalizing index with
  | zero => exact absurd hn (Nat.not_lt.mpr hle)
  | succ n ih =>
      rw [scan]
      by_cases hgo : goesOn (cell (index + ahead)) = true
      · have hne : index ≠ m := by
          rintro rfl
          exact absurd (hgo.symm.trans hstop) (by decide)
        obtain ⟨last, reads, hlast, hscan⟩ := ih (show index + 1 ≤ m by omega) (by omega)
        rw [if_pos hgo, hscan]
        exact ⟨last, _, hlast, rfl⟩
      · rw [if_neg hgo]
        exact ⟨index, _, hle, rfl⟩

/-- The cells a scan reads are below those ahead of its end. -/
theorem Scanned.below (h : Scanned cell ahead goesOn index last reads)
    (hbound : last + ahead < bound) : ∀ i ∈ reads, i < bound := by
  intro i hi
  have hcases := (h.reads i).mp hi
  omega

end SentinelScan
