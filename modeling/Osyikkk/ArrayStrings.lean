import Mathlib.Data.List.GetD
import Mathlib.Logic.Function.Basic

/-!
# Strings in arrays of bounded size

A memory of arrays, each with a size, in which an access behind the end of an array has no
outcome. A string is the cells of an array before its first zero. Copying a string cell by
cell from one array to another, from a given place on, succeeds exactly when it fits
(`copyString_fits`, `copyString_overflows`); copied to where it is, it changes nothing
(`copyString_inPlace`).
-/

namespace ArrayStrings

/-! ## Strings -/

section Strings

variable {β α : Type*} {size : β → ℕ} {mem mem' : β → ℕ → α} {b : β} {i : ℕ}

/-- `b[i]`, inside the array. -/
def load (size : β → ℕ) (mem : β → ℕ → α) (b : β) (i : ℕ) : Option α :=
  if i < size b then some (mem b i) else none

theorem load_of_lt (h : i < size b) : load size mem b i = some (mem b i) := if_pos h

variable [Zero α] {str : List α}

/-- The array holds the string, with its zero. -/
structure HoldsString (size : β → ℕ) (mem : β → ℕ → α) (b : β) (str : List α) : Prop where
  fits : str.length < size b
  cells : ∀ i, i ≤ str.length → mem b i = str.getD i 0
  nonzero : 0 ∉ str

/-- Only the array of the string counts. -/
theorem HoldsString.congr (h : HoldsString size mem b str) (hsame : mem' b = mem b) :
    HoldsString size mem' b str where
  fits := h.fits
  cells i hi := (congrFun hsame i).trans (h.cells i hi)
  nonzero := h.nonzero

/-- A loop over the string with as many rounds as the array has cells, and one more, ends. -/
theorem HoldsString.rounds (h : HoldsString size mem b str) : str.length < 0 + (size b + 1) := by
  have hfits := h.fits
  omega

theorem HoldsString.load_end (h : HoldsString size mem b str) :
    load size mem b str.length = some 0 := by
  rw [load_of_lt h.fits, h.cells _ (Nat.le_refl _), List.getD_eq_default _ _ (Nat.le_refl _)]

theorem HoldsString.load_cell (h : HoldsString size mem b str) (hi : i < str.length) :
    load size mem b i = some str[i] := by
  rw [load_of_lt (Nat.lt_trans hi h.fits), h.cells _ (Nat.le_of_lt hi),
    List.getD_eq_getElem _ _ hi]

theorem HoldsString.cell_ne_zero (h : HoldsString size mem b str) (hi : i < str.length) :
    str[i] ≠ 0 := fun h0 => h.nonzero (h0 ▸ List.getElem_mem hi)

end Strings

/-! ## Copies -/

variable {β α : Type*} [DecidableEq β]

/-- `b[i] = c`, inside the array. -/
def store (size : β → ℕ) (b : β) (i : ℕ) (c : α) (mem : β → ℕ → α) : Option (β → ℕ → α) :=
  if i < size b then some (Function.update mem b (Function.update (mem b) i c)) else none

variable [DecidableEq α] [Zero α]

/-- The string of `src` from cell `i` on is copied to `dest` from cell `start + i` on, in at most
    `n` rounds. The index of its end is given back. -/
def copyString (size : β → ℕ) (src dest : β) (start : ℕ) :
    ℕ → ℕ → (β → ℕ → α) → Option (ℕ × (β → ℕ → α))
  | 0, _, _ => none
  | n + 1, i, mem =>
      (load size mem src i).bind fun c =>
        if c = 0 then some (i, mem)
        else (store size dest (start + i) c mem).bind (copyString size src dest start n (i + 1))

variable {size : β → ℕ} {mem mem' : β → ℕ → α} {src dest b : β} {str : List α} {start n i : ℕ}

/-- A round of the copy. -/
theorem copyString_round (h : HoldsString size mem src str) (hi : i < str.length) :
    copyString size src dest start (n + 1) i mem
      = (store size dest (start + i) str[i] mem).bind
          (copyString size src dest start n (i + 1)) := by
  rw [copyString, h.load_cell hi, Option.bind_some, if_neg (h.cell_ne_zero hi)]

theorem copyString_end (h : HoldsString size mem src str) :
    copyString size src dest start (n + 1) str.length mem = some (str.length, mem) := by
  rw [copyString, h.load_end, Option.bind_some, if_pos rfl]

/-- The destination of a copy of the cells `i` to `last - 1`. -/
structure CopiedTo (mem : β → ℕ → α) (dest : β) (start i : ℕ) (str : List α)
    (mem' : β → ℕ → α) : Prop where
  others : ∀ b, b ≠ dest → mem' b = mem b
  cells : ∀ k, mem' dest k =
    if start + i ≤ k ∧ k < start + str.length then str.getD (k - start) 0 else mem dest k

/-- A string that fits is copied. -/
theorem copyString_fits (start : ℕ) (h : HoldsString size mem src str) (hne : src ≠ dest)
    (hi : i ≤ str.length) (hn : str.length < i + n) (hfits : start + str.length ≤ size dest) :
    ∃ mem', copyString size src dest start n i mem = some (str.length, mem') ∧
      CopiedTo mem dest start i str mem' := by
  induction n generalizing i mem with
  | zero => exact absurd hn (Nat.not_lt.mpr hi)
  | succ n ih =>
      rcases Nat.lt_or_eq_of_le hi with hlt | rfl
      · have hstore : store size dest (start + i) str[i] mem = some
            (Function.update mem dest (Function.update (mem dest) (start + i) str[i])) :=
          if_pos (by omega)
        have hsrc : HoldsString size (Function.update mem dest
            (Function.update (mem dest) (start + i) str[i])) src str :=
          h.congr (Function.update_of_ne hne _ _)
        obtain ⟨mem', hcopy, hothers, hcells⟩ := ih hsrc hlt (by omega)
        rw [copyString_round h hlt, hstore, Option.bind_some]
        refine ⟨mem', hcopy, fun b hb => ?_, fun k => ?_⟩
        · rw [hothers b hb, Function.update_of_ne hb]
        · rw [hcells, Function.update_self]
          -- the cell of this round, or one of the later ones
          by_cases hk : k = start + i
          · subst hk
            rw [if_neg (by omega), if_pos (by omega), Function.update_self, Nat.add_sub_cancel_left,
              List.getD_eq_getElem _ _ hlt]
          · rw [Function.update_of_ne hk]
            exact if_congr (by omega) rfl rfl
      · rw [copyString_end h]
        exact ⟨mem, rfl, fun _ _ => rfl, fun k => (if_neg (by omega)).symm⟩

/-- One that does not fit leaves the destination. -/
theorem copyString_overflows (h : HoldsString size mem src str) (hne : src ≠ dest)
    (hi : i < str.length) (hstart : start + i ≤ size dest)
    (hover : size dest < start + str.length) :
    copyString size src dest start n i mem = none := by
  induction n generalizing i mem with
  | zero => rfl
  | succ n ih =>
      rw [copyString_round h hi]
      by_cases hin : start + i < size dest
      · have hstore : store size dest (start + i) str[i] mem = some
            (Function.update mem dest (Function.update (mem dest) (start + i) str[i])) :=
          if_pos hin
        have hsrc : HoldsString size (Function.update mem dest
            (Function.update (mem dest) (start + i) str[i])) src str :=
          h.congr (Function.update_of_ne hne _ _)
        rw [hstore, Option.bind_some]
        exact ih hsrc (by omega) (by omega)
      · rw [show store size dest (start + i) str[i] mem = none from if_neg hin]
        rfl

/-- Every cell of the string is written with what it holds. -/
theorem copyString_inPlace (h : HoldsString size mem b str) (hi : i ≤ str.length)
    (hn : str.length < i + n) :
    copyString size b b 0 n i mem = some (str.length, mem) := by
  induction n generalizing i with
  | zero => exact absurd hn (Nat.not_lt.mpr hi)
  | succ n ih =>
      rcases Nat.lt_or_eq_of_le hi with hlt | rfl
      · have hcell : str[i] = mem b i := by
          rw [h.cells i hi, List.getD_eq_getElem _ _ hlt]
        -- the cell gets what it holds
        have hstore : store size b (0 + i) str[i] mem = some mem := by
          rw [store, Nat.zero_add, if_pos (Nat.lt_trans hlt h.fits), hcell, Function.update_eq_self,
            Function.update_eq_self]
        rw [copyString_round h hlt, hstore, Option.bind_some]
        exact ih hlt (by omega)
      · exact copyString_end h

end ArrayStrings
