import Mathlib.Logic.Function.Basic
import Mathlib.Data.List.Basic

/-!
# Text on a page and in a window

A page has rows of `cols` places and no last row. A window shows `rows` of its rows and is
moved down lazily: a stroke at the place behind the window moves it by one row first. What is
typed into the window is what is typed on the page, seen from the row the window has come to
(`typeIn_shows`). The places of the characters are `placed`; no place is used twice, so each
of them keeps its character (`typeset_placed`).
-/

namespace TextWindow

/-- A stroke is a character, or the way to the start of the next row. -/
inductive Stroke (β : Type*) where
  | char (b : β)
  | newline

variable {α β : Type*}

/-- The place behind a stroke. -/
def advance (cols : ℕ) : Stroke β → ℕ → ℕ
  | .char _, o => o + 1
  | .newline, o => (o / cols + 1) * cols

/-- What a stroke leaves on a page. -/
def strike (glyph : β → α) : Stroke β → (ℕ → α) → ℕ → ℕ → α
  | .char b, page, o => Function.update page o (glyph b)
  | .newline, page, _ => page

/-- Strokes on a page, from a place on: the page and the place behind them. -/
def typeset (cols : ℕ) (glyph : β → α) : List (Stroke β) → (ℕ → α) → ℕ → (ℕ → α) × ℕ
  | [], page, o => (page, o)
  | s :: rest, page, o =>
      typeset cols glyph rest (strike glyph s page o) (advance cols s o)

/-- The characters of the strokes with their places. -/
def placed (cols : ℕ) : List (Stroke β) → ℕ → List (ℕ × β)
  | [], _ => []
  | .char b :: rest, o => (o, b) :: placed cols rest (o + 1)
  | .newline :: rest, o => placed cols rest ((o / cols + 1) * cols)

/-- The window one row further down. -/
def scroll (rows cols : ℕ) (blank : α) (cells : ℕ → α) : ℕ → α := fun i =>
  if i < rows * cols then if i + cols < rows * cols then cells (i + cols) else blank
  else cells i

/-- The scrolling in front of a stroke. -/
def makeRoom (rows cols : ℕ) (blank : α) (cells : ℕ → α) (o : ℕ) : (ℕ → α) × ℕ :=
  if rows * cols ≤ o then (scroll rows cols blank cells, o - cols) else (cells, o)

/-- Strokes in the window. -/
def typeIn (rows cols : ℕ) (blank : α) (glyph : β → α) :
    List (Stroke β) → (ℕ → α) → ℕ → (ℕ → α) × ℕ
  | [], cells, o => (cells, o)
  | s :: rest, cells, o =>
      typeIn rows cols blank glyph rest
        (strike glyph s (makeRoom rows cols blank cells o).1 (makeRoom rows cols blank cells o).2)
        (advance cols s (makeRoom rows cols blank cells o).2)

/-- How often the window scrolls. -/
def scrolls (rows cols : ℕ) : List (Stroke β) → ℕ → ℕ
  | [], _ => 0
  | s :: rest, o =>
      if rows * cols ≤ o then scrolls rows cols rest (advance cols s (o - cols)) + 1
      else scrolls rows cols rest (advance cols s o)

/-! ## Places -/

variable {cols rows k o : ℕ} {glyph : β → α} {blank : α} {page cells : ℕ → α}

theorem lt_advance (hc : 0 < cols) (s : Stroke β) (o : ℕ) : o < advance cols s o := by
  cases s with
  | char b => exact Nat.lt_succ_self o
  | newline =>
      show o < (o / cols + 1) * cols
      rw [Nat.mul_comm]
      exact Nat.lt_mul_div_succ o hc

/-- A stroke does not depend on the row it starts in. -/
theorem advance_add (hc : 0 < cols) (s : Stroke β) (o k : ℕ) :
    advance cols s (o + k * cols) = advance cols s o + k * cols := by
  cases s with
  | char b => exact Nat.add_right_comm o (k * cols) 1
  | newline =>
      show ((o + k * cols) / cols + 1) * cols = (o / cols + 1) * cols + k * cols
      rw [Nat.add_mul_div_right _ _ hc, ← Nat.add_mul, Nat.add_right_comm]

/-- From inside the window a stroke leads at most behind it. -/
theorem advance_le (s : Stroke β) (h : o < rows * cols) :
    advance cols s o ≤ rows * cols := by
  cases s with
  | char b => exact h
  | newline => exact Nat.mul_le_mul_right cols (Nat.div_lt_of_lt_mul (Nat.mul_comm _ _ ▸ h))

theorem le_of_mem_placed (hc : 0 < cols) {strokes : List (Stroke β)} {p : ℕ × β}
    (h : p ∈ placed cols strokes o) : o ≤ p.1 := by
  induction strokes generalizing o with
  | nil => exact absurd h List.not_mem_nil
  | cons s rest ih =>
      cases s with
      | char b =>
          rcases List.mem_cons.mp h with rfl | h
          · exact Nat.le_refl o
          · exact Nat.le_trans (Nat.le_succ o) (ih h)
      | newline =>
          exact Nat.le_trans (Nat.le_of_lt (lt_advance hc (Stroke.newline : Stroke β) o)) (ih h)

theorem le_typeset (hc : 0 < cols) (strokes : List (Stroke β)) :
    o ≤ (typeset cols glyph strokes page o).2 := by
  induction strokes generalizing page o with
  | nil => exact Nat.le_refl o
  | cons s rest ih => exact Nat.le_trans (Nat.le_of_lt (lt_advance hc s o)) ih

/-- The characters stand in front of the place behind the text. -/
theorem placed_lt (glyph : β → α) (page : ℕ → α) (hc : 0 < cols) {strokes : List (Stroke β)}
    {p : ℕ × β} (h : p ∈ placed cols strokes o) :
    p.1 < (typeset cols glyph strokes page o).2 := by
  induction strokes generalizing page o with
  | nil => exact absurd h List.not_mem_nil
  | cons s rest ih =>
      cases s with
      | char b =>
          rcases List.mem_cons.mp h with rfl | h
          · exact Nat.lt_of_lt_of_le (Nat.lt_succ_self o) (le_typeset hc rest)
          · exact ih _ h
      | newline => exact ih _ h

/-- A place without a character keeps what it had. -/
theorem typeset_other {strokes : List (Stroke β)} {i : ℕ}
    (h : ∀ b, (i, b) ∉ placed cols strokes o) :
    (typeset cols glyph strokes page o).1 i = page i := by
  induction strokes generalizing page o with
  | nil => rfl
  | cons s rest ih =>
      cases s with
      | char b =>
          have hne : i ≠ o := by
            rintro rfl
            exact h b List.mem_cons_self
          refine (ih fun c hc => h c (List.mem_cons_of_mem _ hc)).trans ?_
          exact Function.update_of_ne hne _ _
      | newline => exact ih h

/-- A place with a character holds it. -/
theorem typeset_placed (hc : 0 < cols) {strokes : List (Stroke β)} {i : ℕ} {b : β}
    (h : (i, b) ∈ placed cols strokes o) :
    (typeset cols glyph strokes page o).1 i = glyph b := by
  induction strokes generalizing page o with
  | nil => exact absurd h List.not_mem_nil
  | cons s rest ih =>
      cases s with
      | char c =>
          rcases List.mem_cons.mp h with heq | h
          · obtain ⟨rfl, rfl⟩ := Prod.mk.inj heq
            have hlater : ∀ c, (i, c) ∉ placed cols rest (i + 1) := by
              intro c hmem
              exact absurd (le_of_mem_placed hc hmem) (Nat.not_succ_le_self i)
            exact (typeset_other hlater).trans (Function.update_self _ _ _)
          · exact ih h
      | newline => exact ih h

/-! ## The window shows the page -/

/-- The window is a view of the page, `k` rows down. -/
def Shows (rows cols k : ℕ) (page cells : ℕ → α) : Prop :=
  ∀ i < rows * cols, cells i = page (i + k * cols)

/-- Nothing was typed behind the window. -/
def BlankBehind (rows cols k : ℕ) (blank : α) (page : ℕ → α) : Prop :=
  ∀ i, (rows + k) * cols ≤ i → page i = blank

theorem scroll_shows (hblank : BlankBehind rows cols k blank page)
    (h : Shows rows cols k page cells) :
    Shows rows cols (k + 1) page (scroll rows cols blank cells) := by
  intro i hi
  rw [scroll, if_pos hi, Nat.add_mul, Nat.one_mul]
  by_cases hin : i + cols < rows * cols
  · rw [if_pos hin, h _ hin, Nat.add_right_comm, Nat.add_assoc]
  · rw [if_neg hin, hblank]
    rw [Nat.add_mul]
    omega

theorem BlankBehind.mono (h : BlankBehind rows cols k blank page) {k' : ℕ} (hk : k ≤ k') :
    BlankBehind rows cols k' blank page :=
  fun i hi => h i (Nat.le_trans (Nat.mul_le_mul_right cols (Nat.add_le_add_left hk rows)) hi)

/-- A stroke in the window is one on the page. -/
theorem strike_shows (glyph : β → α) (s : Stroke β) (hblank : BlankBehind rows cols k blank page)
    (h : Shows rows cols k page cells) (ho : o < rows * cols) :
    Shows rows cols k (strike glyph s page (o + k * cols)) (strike glyph s cells o) ∧
      BlankBehind rows cols k blank (strike glyph s page (o + k * cols)) := by
  cases s with
  | newline => exact ⟨h, hblank⟩
  | char b =>
      constructor
      · intro i hi
        show Function.update cells o (glyph b) i
          = Function.update page (o + k * cols) (glyph b) (i + k * cols)
        by_cases hio : i = o
        · rw [hio, Function.update_self, Function.update_self]
        · have hshift : i + k * cols ≠ o + k * cols := fun heq => hio (Nat.add_right_cancel heq)
          rw [Function.update_of_ne hio, Function.update_of_ne hshift, h i hi]
      · intro i hi
        have hne : i ≠ o + k * cols := by
          rw [Nat.add_mul] at hi
          omega
        exact (Function.update_of_ne hne _ _).trans (hblank i hi)

/-- **What is typed into the window is what is typed on the page**, seen from the row that
    the window has come to. -/
theorem typeIn_shows (glyph : β → α) (hr : 0 < rows) (hc : 0 < cols)
    (strokes : List (Stroke β)) (hblank : BlankBehind rows cols k blank page)
    (h : Shows rows cols k page cells) (ho : o ≤ rows * cols) :
    Shows rows cols (k + scrolls rows cols strokes o)
        (typeset cols glyph strokes page (o + k * cols)).1
        (typeIn rows cols blank glyph strokes cells o).1 ∧
      (typeset cols glyph strokes page (o + k * cols)).2
        = (typeIn rows cols blank glyph strokes cells o).2
          + (k + scrolls rows cols strokes o) * cols ∧
      (typeIn rows cols blank glyph strokes cells o).2 ≤ rows * cols := by
  induction strokes generalizing k page cells o with
  | nil => exact ⟨h, rfl, ho⟩
  | cons s rest ih =>
      rw [typeset, typeIn, scrolls, makeRoom]
      by_cases hfull : rows * cols ≤ o
      · -- the place behind the window becomes the start of its last row
        obtain rfl : o = rows * cols := Nat.le_antisymm ho hfull
        have hrow : cols ≤ rows * cols := Nat.le_mul_of_pos_left cols hr
        have hplace : rows * cols - cols + (k + 1) * cols = rows * cols + k * cols := by
          rw [Nat.add_mul, Nat.one_mul]
          omega
        have hin : rows * cols - cols < rows * cols := by omega
        obtain ⟨hshows, hbehind⟩ := strike_shows glyph s
          (hblank.mono (Nat.le_succ k)) (scroll_shows hblank h) hin
        have hnext := ih hbehind hshows (advance_le s hin)
        rw [← advance_add hc, hplace] at hnext
        rw [if_pos hfull, if_pos hfull, Nat.add_comm (scrolls rows cols rest _) 1,
          ← Nat.add_assoc]
        exact hnext
      · have hin := Nat.not_le.mp hfull
        obtain ⟨hshows, hbehind⟩ := strike_shows glyph s hblank h hin
        have hnext := ih hbehind hshows (advance_le s hin)
        rw [← advance_add hc] at hnext
        rw [if_neg hfull, if_neg hfull]
        exact hnext

end TextWindow
