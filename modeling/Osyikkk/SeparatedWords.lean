import Mathlib.Data.List.Basic
import Mathlib.Data.List.DropRight
import Mathlib.Data.List.TakeWhile

/-!
# Texts as words behind each other

The words of a text are its runs without a separator, and a word may again be split into
parts at a mark. Both ends of a row of parts can be empty, when the mark stands there; what is
left of the row when such an end is swallowed is at most the row.
-/

namespace SeparatedWords

variable {α : Type*} {sep : α → Bool}

/-! ## Words -/

/-- The runs of a text without a separator. -/
def words (sep : α → Bool) (text : List α) : List (List α) :=
  (text.splitOnP sep).filter fun w => !w.isEmpty

/-- A run without a separator. -/
structure IsRun (sep : α → Bool) (w : List α) : Prop where
  nonempty : w ≠ []
  inside : ∀ a ∈ w, sep a = false

/-- A text that neither begins nor ends with a separator. -/
structure Trimmed (sep : α → Bool) (text : List α) : Prop where
  first : ∀ a ∈ text.head?, sep a = false
  last : ∀ a ∈ text.getLast?, sep a = false

instance (sep : α → Bool) (text : List α) : Decidable (Trimmed sep text) :=
  decidable_of_iff ((text.head?.all fun a => !sep a) = true ∧
    (text.getLast?.all fun a => !sep a) = true) <| by
      simp only [Option.all_eq_true, Bool.not_eq_true']
      exact ⟨fun h => ⟨h.1, h.2⟩, fun h => ⟨h.first, h.last⟩⟩

theorem words_nil : words sep [] = [] := by
  simp [words]

theorem words_run {w : List α} (h : IsRun sep w) : words sep w = [w] := by
  simp [words, List.splitOnP_eq_singleton h.inside, h.nonempty]

theorem words_sep {s : α} (hs : sep s = true) (text : List α) :
    words sep (s :: text) = words sep text := by
  have hsplit := List.splitOnP_append_cons (p := sep) [] text hs
  simp only [List.nil_append, List.splitOnP_nil] at hsplit
  rw [words, hsplit]
  rfl

theorem words_gap {gap : List α} (hgap : ∀ s ∈ gap, sep s = true) (text : List α) :
    words sep (gap ++ text) = words sep text := by
  induction gap with
  | nil => rfl
  | cons s gap ih =>
      rw [List.cons_append, words_sep (hgap s List.mem_cons_self),
        ih fun a ha => hgap a (List.mem_cons_of_mem _ ha)]

/-- A word in front of a text. -/
theorem words_cons {w gap : List α} (h : IsRun sep w) (hne : gap ≠ [])
    (hgap : ∀ s ∈ gap, sep s = true) (text : List α) :
    words sep (w ++ gap ++ text) = w :: words sep text := by
  obtain ⟨s, gap, rfl⟩ := List.exists_cons_of_ne_nil hne
  have hs := hgap s List.mem_cons_self
  have hrest := words_gap (fun a ha => hgap a (List.mem_cons_of_mem _ ha)) text
  have hword : (w.splitOnP sep) = [w] := List.splitOnP_eq_singleton h.inside
  rw [List.append_assoc, List.cons_append, words, List.splitOnP_append_cons w _ hs, hword,
    List.filter_append, ← hrest, words]
  simp [h.nonempty]

/-- A text that begins with a word goes on with a separator, or ends. -/
theorem exists_run {a : α} (ha : sep a = false) (text : List α) :
    ∃ w tail, a :: text = w ++ tail ∧ IsRun sep w ∧ ∀ s ∈ tail.head?, sep s = true := by
  refine ⟨(a :: text).takeWhile fun b => !sep b, (a :: text).dropWhile fun b => !sep b,
    List.takeWhile_append_dropWhile.symm, ⟨?_, ?_⟩, ?_⟩
  · rw [List.takeWhile_cons_of_pos (by simp [ha])]
    exact List.cons_ne_nil _ _
  · intro b hb
    simpa using List.mem_takeWhile_imp hb
  · intro s hs
    have hne : (a :: text).dropWhile (fun b => !sep b) ≠ [] := by
      intro hnil
      rw [hnil] at hs
      exact absurd hs.symm (Option.some_ne_none s)
    have hhead := List.head_dropWhile_not (fun b => !sep b) hne
    rw [List.head?_eq_some_head hne] at hs
    rw [← Option.some.inj hs]
    simpa using hhead

/-- Separators in front of a text that does not end with one. -/
theorem exists_gap {tail : List α} (hne : tail ≠ []) (hfirst : ∀ s ∈ tail.head?, sep s = true)
    (hlast : ∀ b ∈ tail.getLast?, sep b = false) :
    ∃ gap rest, tail = gap ++ rest ∧ gap ≠ [] ∧ (∀ s ∈ gap, sep s = true) ∧ rest ≠ [] ∧
      Trimmed sep rest := by
  have hsplit : tail.takeWhile sep ++ tail.dropWhile sep = tail :=
    List.takeWhile_append_dropWhile
  have hgap : ∀ s ∈ tail.takeWhile sep, sep s = true := fun s hs => List.mem_takeWhile_imp hs
  have hrest : tail.dropWhile sep ≠ [] := by
    intro hnil
    rw [hnil, List.append_nil] at hsplit
    have hall : ∀ s ∈ tail, sep s = true := fun s hs => hgap s (by rw [hsplit]; exact hs)
    have hno := hlast _ (List.getLast?_eq_getLast_of_ne_nil hne)
    rw [hall _ (List.getLast_mem hne)] at hno
    exact absurd hno (by decide)
  refine ⟨_, _, hsplit.symm, ?_, hgap, hrest, ?_, ?_⟩
  · obtain ⟨s, tail, rfl⟩ := List.exists_cons_of_ne_nil hne
    rw [List.takeWhile_cons_of_pos (hfirst s rfl)]
    exact List.cons_ne_nil _ _
  · intro b hb
    have hhead := List.head_dropWhile_not sep hrest
    rw [List.head?_eq_some_head hrest] at hb
    rw [← Option.some.inj hb]
    exact hhead
  · intro b hb
    refine hlast b ?_
    rw [← hsplit, List.getLast?_append_of_ne_nil _ hrest]
    exact hb

/-- A trimmed text is empty, a word, or a word and a gap in front of a trimmed text. -/
theorem Trimmed.cases {text : List α} (h : Trimmed sep text) :
    text = [] ∨ IsRun sep text ∨
      ∃ w gap rest, text = w ++ gap ++ rest ∧ IsRun sep w ∧ gap ≠ [] ∧
        (∀ s ∈ gap, sep s = true) ∧ rest ≠ [] ∧ Trimmed sep rest := by
  cases text with
  | nil => exact Or.inl rfl
  | cons a text =>
      refine Or.inr ?_
      obtain ⟨w, tail, hsplit, hw, hfirst⟩ := exists_run (h.first a rfl) text
      by_cases htail : tail = []
      · rw [htail, List.append_nil] at hsplit
        exact Or.inl (hsplit ▸ hw)
      have hlast : ∀ b ∈ tail.getLast?, sep b = false := by
        intro b hb
        refine h.last b ?_
        rw [hsplit, List.getLast?_append_of_ne_nil _ htail]
        exact hb
      obtain ⟨gap, rest, rfl, hne, hgap, hrest, htrim⟩ := exists_gap htail hfirst hlast
      exact Or.inr ⟨w, gap, rest, by rw [hsplit, List.append_assoc], hw, hne, hgap, hrest, htrim⟩

/-- Induction on the words of a trimmed text. -/
theorem Trimmed.induction {motive : List α → Prop} (nil : motive [])
    (word : ∀ w, IsRun sep w → motive w)
    (more : ∀ w gap rest, IsRun sep w → gap ≠ [] → (∀ s ∈ gap, sep s = true) → rest ≠ [] →
      Trimmed sep rest → motive rest → motive (w ++ gap ++ rest)) :
    ∀ {text : List α}, Trimmed sep text → motive text := by
  intro text
  induction hn : text.length using Nat.strong_induction_on generalizing text with
  | _ n ih =>
      intro h
      rcases h.cases with rfl | hw | ⟨w, gap, rest, rfl, hw, hne, hgap, hrest, htrim⟩
      · exact nil
      · exact word text hw
      · refine more w gap rest hw hne hgap hrest htrim (ih rest.length ?_ rfl htrim)
        have hpos := List.length_pos_iff.mpr hne
        rw [← hn, List.length_append, List.length_append]
        omega

/-- The words are runs, of characters of the text. -/
theorem Trimmed.mem_words {text w : List α} (h : Trimmed sep text) (hw : w ∈ words sep text) :
    IsRun sep w ∧ w ⊆ text := by
  refine Trimmed.induction (motive := fun text => w ∈ words sep text → IsRun sep w ∧ w ⊆ text)
    ?_ ?_ ?_ h hw
  · intro hmem
    rw [words_nil] at hmem
    exact absurd hmem List.not_mem_nil
  · intro v hv hmem
    rw [words_run hv, List.mem_singleton] at hmem
    subst hmem
    exact ⟨hv, List.Subset.refl _⟩
  · intro v gap rest hv hne hgap _ _ ih hmem
    rw [words_cons hv hne hgap, List.mem_cons] at hmem
    rcases hmem with rfl | hmem
    · exact ⟨hv, fun a ha => List.mem_append_left _ (List.mem_append_left _ ha)⟩
    · exact ⟨(ih hmem).1, fun a ha => List.mem_append_right _ ((ih hmem).2 ha)⟩

/-- A text that is not empty has a word. -/
theorem Trimmed.words_ne_nil {text : List α} (h : Trimmed sep text) (hne : text ≠ []) :
    words sep text ≠ [] := by
  rcases h.cases with rfl | hw | ⟨w, gap, rest, rfl, hw, hgap, hseps, -, -⟩
  · exact absurd rfl hne
  · rw [words_run hw]
    exact List.cons_ne_nil _ _
  · rw [words_cons hw hgap hseps]
    exact List.cons_ne_nil _ _

/-! ## Stripping -/

/-- A text without the separators at its ends. -/
def strip (sep : α → Bool) (text : List α) : List α := (text.dropWhile sep).rdropWhile sep

theorem dropWhile_eq_self_of_head {text : List α} (h : ∀ a ∈ text.head?, sep a = false) :
    text.dropWhile sep = text := by
  cases text with
  | nil => rfl
  | cons a text =>
      have ha := h a rfl
      exact List.dropWhile_cons_of_neg (by rw [ha]; exact Bool.false_ne_true)

/-- Stripping takes a gap from the end of a trimmed text, and no more. -/
theorem strip_append_gap {text gap : List α} (h : Trimmed sep text) (hne : text ≠ [])
    (hgap : ∀ s ∈ gap, sep s = true) : strip sep (text ++ gap) = text := by
  have hhead : ∀ a ∈ (text ++ gap).head?, sep a = false := by
    rw [List.head?_append_of_ne_nil _ hne]
    exact h.first
  rw [strip, dropWhile_eq_self_of_head hhead]
  induction gap using List.reverseRecOn with
  | nil =>
      rw [List.append_nil, List.rdropWhile_eq_self_iff]
      intro hl
      have hlast := h.last _ (List.getLast?_eq_getLast_of_ne_nil hl)
      rw [hlast]
      exact Bool.false_ne_true
  | append_singleton gap s ih =>
      have hs : sep s = true := hgap s (List.mem_append_right _ List.mem_cons_self)
      have hrest : ∀ a ∈ gap, sep a = true := fun a ha => hgap a (List.mem_append_left _ ha)
      rw [← List.append_assoc, List.rdropWhile_concat_pos sep _ s hs]
      refine ih hrest ?_
      rw [List.head?_append_of_ne_nil _ hne]
      exact h.first

/-- A text that does not begin with a separator is stripped already when it does not end with
    one either. -/
theorem strip_eq_self_iff {text : List α} (hfirst : ∀ a ∈ text.head?, sep a = false) :
    strip sep text = text ↔ ∀ a ∈ text.getLast?, sep a = false := by
  rw [strip, dropWhile_eq_self_of_head hfirst, List.rdropWhile_eq_self_iff]
  constructor
  · intro h a ha
    have hne : text ≠ [] := fun hnil => absurd ha (by rw [hnil]; exact Option.not_mem_none a)
    rw [List.getLast?_eq_getLast_of_ne_nil hne] at ha
    rw [← Option.some.inj ha]
    exact Bool.eq_false_iff.mpr (h hne)
  · intro h hne
    rw [h _ (List.getLast?_eq_getLast_of_ne_nil hne)]
    exact Bool.false_ne_true

/-! ## Swallowed ends -/

variable {ps : List (List α)} {pss : List (List (List α))} {later last : Bool} {b : List α}

/-- A row of parts without an empty first one. -/
def dropEmptyHead : List (List α) → List (List α)
  | [] :: ps => ps
  | ps => ps

/-- A row of parts without an empty last one. -/
def dropEmptyLast : List (List α) → List (List α)
  | [] => []
  | [[]] => []
  | [a :: w] => [a :: w]
  | w :: w' :: ps => w :: dropEmptyLast (w' :: ps)

/-- The parts of a word without an empty first one behind a gap, and without an empty last one
    at the end of the text. -/
def swallow (later last : Bool) (ps : List (List α)) : List (List α) :=
  if last then dropEmptyLast (if later then dropEmptyHead ps else ps)
  else if later then dropEmptyHead ps else ps

/-- What is left of the parts of a text, with a row `b` between two words. -/
def swallowed (b : List α) : Bool → List (List (List α)) → List (List α)
  | _, [] => []
  | later, [ps] => swallow later true ps
  | later, ps :: ps' :: pss => swallow later false ps ++ b :: swallowed b true (ps' :: pss)

theorem dropEmptyLast_snoc (ps : List (List α)) (w : List α) :
    dropEmptyLast (ps ++ [w]) = if w = [] then ps else ps ++ [w] := by
  induction ps with
  | nil => cases w <;> rfl
  | cons v ps ih =>
      have hcons : dropEmptyLast (v :: (ps ++ [w])) = v :: dropEmptyLast (ps ++ [w]) := by
        cases v <;> cases ps <;> rfl
      rw [List.cons_append, hcons, ih]
      split <;> rfl

theorem dropEmptyHead_sublist (ps : List (List α)) : (dropEmptyHead ps).Sublist ps := by
  match ps with
  | [] => exact List.Sublist.refl _
  | [] :: ps => exact List.sublist_cons_self _ _
  | (a :: w) :: ps => exact List.Sublist.refl _

theorem dropEmptyLast_sublist (ps : List (List α)) : (dropEmptyLast ps).Sublist ps := by
  rcases List.eq_nil_or_concat' ps with rfl | ⟨init, w, rfl⟩
  · exact List.Sublist.refl _
  · rw [dropEmptyLast_snoc]
    split
    · exact List.sublist_append_left _ _
    · exact List.Sublist.refl _

theorem swallow_sublist (later last : Bool) (ps : List (List α)) :
    (swallow later last ps).Sublist ps := by
  have hhead : (if later then dropEmptyHead ps else ps).Sublist ps := by
    split
    · exact dropEmptyHead_sublist ps
    · exact List.Sublist.refl _
  rw [swallow]
  split
  · exact (dropEmptyLast_sublist _).trans hhead
  · exact hhead

theorem dropEmptyHead_eq_iff : dropEmptyHead ps = ps ↔ ps.head? ≠ some [] := by
  match ps with
  | [] => simp [dropEmptyHead]
  | [] :: ps =>
      have hne : ps ≠ [] :: ps := fun h => absurd (congrArg List.length h) (by simp)
      simp [dropEmptyHead, hne]
  | (a :: w) :: ps => simp [dropEmptyHead]

theorem dropEmptyLast_eq_iff : dropEmptyLast ps = ps ↔ ps.getLast? ≠ some [] := by
  rcases List.eq_nil_or_concat' ps with rfl | ⟨init, w, rfl⟩
  · simp [dropEmptyLast]
  · rw [dropEmptyLast_snoc]
    by_cases hw : w = []
    · have hne : init ≠ init ++ [w] := fun h => absurd (congrArg List.length h) (by simp)
      simp [hw]
    · simp [hw]

theorem swallow_eq_iff : swallow later last ps = ps ↔
    (later = true → ps.head? ≠ some []) ∧ (last = true → ps.getLast? ≠ some []) := by
  cases later <;> cases last <;>
    simp only [swallow, if_true, Bool.false_eq_true, if_false, false_imp_iff, true_imp_iff,
      true_and, and_true, dropEmptyHead_eq_iff, dropEmptyLast_eq_iff]
  -- both ends: nothing that is swallowed at the first comes back at the last
  constructor
  · intro h
    have hlen := (dropEmptyLast_sublist (dropEmptyHead ps)).length_le
    have hhead := (dropEmptyHead_sublist ps).eq_of_length_le
      ((congrArg List.length h).symm.le.trans hlen)
    rw [hhead] at h
    exact ⟨dropEmptyHead_eq_iff.mp hhead, dropEmptyLast_eq_iff.mp h⟩
  · rintro ⟨hhead, hlast⟩
    rw [dropEmptyHead_eq_iff.mpr hhead, dropEmptyLast_eq_iff.mpr hlast]

theorem swallowed_sublist (b : List α) (later : Bool) (pss : List (List (List α))) :
    (swallowed b later pss).Sublist ([b].intercalate pss) := by
  induction pss generalizing later with
  | nil => exact List.Sublist.refl _
  | cons ps pss ih =>
      cases pss with
      | nil =>
          rw [List.intercalate_singleton]
          exact swallow_sublist later true ps
      | cons ps' pss =>
          rw [List.intercalate_cons_cons, List.append_assoc]
          exact (swallow_sublist later false ps).append ((ih true).cons_cons b)

/-- A row that is left is a part or the row between two words. -/
theorem mem_swallowed {r : List α} (h : r ∈ swallowed b later pss) :
    r = b ∨ ∃ ps ∈ pss, r ∈ ps := by
  induction pss generalizing later with
  | nil => exact absurd h List.not_mem_nil
  | cons ps pss ih =>
      cases pss with
      | nil => exact Or.inr ⟨ps, List.mem_cons_self, (swallow_sublist later true ps).subset h⟩
      | cons ps' pss =>
          rw [swallowed, List.mem_append, List.mem_cons] at h
          rcases h with h | h | h
          · exact Or.inr ⟨ps, List.mem_cons_self, (swallow_sublist later false ps).subset h⟩
          · exact Or.inl h
          · rcases ih h with hb | ⟨qs, hqs, hr⟩
            · exact Or.inl hb
            · exact Or.inr ⟨qs, List.mem_cons_of_mem _ hqs, hr⟩

/-- Nothing is swallowed as long as the ends that would be are not empty. -/
theorem swallowed_eq_iff (b : List α) (later : Bool) (pss : List (List (List α))) :
    swallowed b later pss = [b].intercalate pss ↔
      (∀ ps ∈ (if later then pss else pss.tail), ps.head? ≠ some []) ∧
        ∀ ps ∈ pss.getLast?, ps.getLast? ≠ some [] := by
  induction pss generalizing later with
  | nil => simp [swallowed, List.intercalate_nil]
  | cons ps pss ih =>
      cases pss with
      | nil =>
          rw [List.intercalate_singleton, swallowed, swallow_eq_iff]
          cases later <;> simp
      | cons ps' pss =>
          have hparts : swallowed b later (ps :: ps' :: pss) = [b].intercalate (ps :: ps' :: pss) ↔
              swallow later false ps = ps ∧
                swallowed b true (ps' :: pss) = [b].intercalate (ps' :: pss) := by
            rw [List.intercalate_cons_cons, List.append_assoc, swallowed]
            constructor
            · intro h
              have hps := (swallow_sublist later false ps).length_le
              have hpss := (swallowed_sublist b true (ps' :: pss)).length_le
              have hlen := congrArg List.length h
              simp only [List.length_append, List.length_cons, List.length_nil] at hlen
              have hsame := List.append_inj h (by omega)
              exact ⟨hsame.1, (List.cons.inj hsame.2).2⟩
            · rintro ⟨hps, hpss⟩
              rw [hps, hpss]
              rfl
          rw [hparts, ih, swallow_eq_iff, List.getLast?_cons_cons]
          cases later <;> simp [and_assoc]

/-- The parts that are not empty. -/
def inhabited (ps : List (List α)) : List (List α) := ps.filter fun w => !w.isEmpty

theorem inhabited_append (ps qs : List (List α)) :
    inhabited (ps ++ qs) = inhabited ps ++ inhabited qs := List.filter_append ..

theorem inhabited_cons {w : List α} (hw : w ≠ []) : inhabited (w :: ps) = w :: inhabited ps :=
  List.filter_cons_of_pos (by simp [hw])

theorem inhabited_nil_cons : inhabited ([] :: ps) = inhabited ps :=
  List.filter_cons_of_neg (by simp)

theorem inhabited_eq_self_iff : inhabited ps = ps ↔ [] ∉ ps := by
  rw [inhabited, List.filter_eq_self]
  constructor
  · intro h hmem
    exact absurd (h [] hmem) (by simp)
  · intro h w hw
    have hne : w ≠ [] := by
      rintro rfl
      exact h hw
    simp [hne]

theorem inhabited_dropEmptyHead (ps : List (List α)) :
    inhabited (dropEmptyHead ps) = inhabited ps := by
  match ps with
  | [] => rfl
  | [] :: ps => exact inhabited_nil_cons.symm
  | (a :: w) :: ps => rfl

theorem inhabited_dropEmptyLast (ps : List (List α)) :
    inhabited (dropEmptyLast ps) = inhabited ps := by
  rcases List.eq_nil_or_concat' ps with rfl | ⟨init, w, rfl⟩
  · rfl
  · rw [dropEmptyLast_snoc]
    split
    · next hw =>
        rw [inhabited_append, hw, inhabited_nil_cons]
        exact (List.append_nil _).symm
    · rfl

theorem inhabited_swallow (later last : Bool) (ps : List (List α)) :
    inhabited (swallow later last ps) = inhabited ps := by
  cases later <;> cases last <;>
    simp only [swallow, if_true, Bool.false_eq_true, if_false, inhabited_dropEmptyLast,
      inhabited_dropEmptyHead]

theorem inhabited_swallowed (hb : b ≠ []) (later : Bool) (pss : List (List (List α))) :
    inhabited (swallowed b later pss) = [b].intercalate (pss.map inhabited) := by
  induction pss generalizing later with
  | nil => rfl
  | cons ps pss ih =>
      cases pss with
      | nil =>
          rw [List.map_singleton, List.intercalate_singleton]
          exact inhabited_swallow later true ps
      | cons ps' pss =>
          rw [swallowed, inhabited_append, inhabited_cons hb, ih true, inhabited_swallow,
            List.map_cons, List.map_cons, List.map_cons, List.intercalate_cons_cons,
            List.append_assoc]
          rfl

/-- What is left of one word has no empty part. -/
theorem nil_notMem_swallow (hne : ps ≠ [[]]) : [] ∉ swallow later last ps ↔
    (later = false → ps.head? ≠ some []) ∧ [] ∉ ps.tail.dropLast ∧
      (last = false → ps.getLast? ≠ some []) := by
  match ps with
  | [] => cases later <;> cases last <;> simp [swallow, dropEmptyHead, dropEmptyLast]
  | [w] =>
      have hw : w ≠ [] := fun h => hne (by rw [h])
      obtain ⟨a, w, rfl⟩ := List.exists_cons_of_ne_nil hw
      cases later <;> cases last <;> simp [swallow, dropEmptyHead, dropEmptyLast]
  | w :: w' :: ps =>
      obtain ⟨init, v, hv⟩ : ∃ init v, w' :: ps = init ++ [v] :=
        ⟨_, _, (List.dropLast_append_getLast (List.cons_ne_nil w' ps)).symm⟩
      rw [hv]
      have hlast : (w :: (init ++ [v])).getLast? = some v := by
        rw [← List.cons_append, List.getLast?_concat]
      have hdrop : dropEmptyLast (w :: (init ++ [v]))
          = if v = [] then w :: init else w :: init ++ [v] := by
        rw [← List.cons_append, dropEmptyLast_snoc]
      rw [hlast, List.tail_cons, List.dropLast_concat, List.head?_cons]
      cases w <;> cases later <;> cases last <;> cases v <;>
        simp [swallow, dropEmptyHead, hdrop, dropEmptyLast_snoc]

/-- No empty part is left as long as only the ends that are swallowed are empty. -/
theorem swallowed_eq_inhabited_iff (hb : b ≠ []) (later : Bool) (hpss : [[]] ∉ pss) :
    swallowed b later pss = [b].intercalate (pss.map inhabited) ↔
      (∀ ps ∈ (if later then none else pss.head?), ps.head? ≠ some []) ∧
        (∀ ps ∈ pss, [] ∉ ps.tail.dropLast) ∧
        ∀ ps ∈ pss.dropLast, ps.getLast? ≠ some [] := by
  rw [← inhabited_swallowed hb later, eq_comm, inhabited_eq_self_iff]
  induction pss generalizing later with
  | nil => cases later <;> simp [swallowed]
  | cons ps pss ih =>
      have hps : ps ≠ [[]] := fun h => hpss (h ▸ List.mem_cons_self)
      cases pss with
      | nil =>
          rw [swallowed, nil_notMem_swallow hps]
          cases later <;> simp
      | cons ps' pss =>
          rw [swallowed, List.mem_append, not_or, List.mem_cons, not_or, nil_notMem_swallow hps,
            ih true fun h => hpss (List.mem_cons_of_mem _ h), List.dropLast_cons_cons]
          cases later <;> simp [hb.symm, and_assoc, and_left_comm, and_comm]

end SeparatedWords
