import Osyikkk.RootedForest
import Mathlib.Data.List.Basic
import Mathlib.Data.List.Nodup
import Mathlib.Data.List.Perm.Basic
import Mathlib.Data.List.Infix

/-!
# Walks over trees of slots

A node has slots, in order, and `child` says which of them lead to another node. `preorder`
lists the nodes below a node, each with the slots that lead to it; `walk` is the recursion
that enters a node and then, slot after slot, visits the slot and walks the child behind it.
The number of nested calls is bounded by the first argument.

* the listed nodes are those that a path leads to (`mem_preorder_iff`), each path once
  (`preorder_nodup`), so with unique parents each node once (`preorder_nodes_nodup`);
* up to order a walk is what every listed node contributes (`walk_perm`).
-/

namespace TreeWalk

open RootedForest

variable {N S B : Type} (slots : List S) (child : N → S → Option N)

/-- The edges of the tree. -/
def Edge (a : N) (s : S) (b : N) : Prop := s ∈ slots ∧ child a s = some b

/-- A node with the slots that lead to it, last one first, and the nodes below it. -/
def preorder : ℕ → List S → N → List (List S × N)
  | 0, _, _ => []
  | n + 1, l, a => (l, a) :: slots.flatMap fun s =>
      (child a s).elim [] fun b => preorder n (s :: l) b

/-- The outputs of entering a node and of its slots, each slot's before the child behind
    it. -/
def walk (enter : List S → N → List B) (visit : List S → N → S → List B) :
    ℕ → List S → N → List B
  | 0, _, _ => []
  | n + 1, l, a => enter l a ++ slots.flatMap fun s =>
      visit l a s ++ (child a s).elim [] fun b => walk enter visit n (s :: l) b

variable {slots} {child} {r a x : N} {l l' : List S} {n : ℕ}

theorem edge_functional : Functional (Edge slots child) := by
  intro d s c c' h h'
  exact Option.some.inj (h.2.symm.trans h'.2)

theorem mem_preorder_succ {p : List S × N} :
    p ∈ preorder slots child (n + 1) l a ↔ p = (l, a) ∨
      ∃ s b, Edge slots child a s b ∧ p ∈ preorder slots child n (s :: l) b := by
  rw [preorder, List.mem_cons, List.mem_flatMap]
  refine or_congr Iff.rfl ⟨?_, ?_⟩
  · rintro ⟨s, hs, hp⟩
    cases hchild : child a s with
    | none =>
        rw [hchild] at hp
        exact absurd hp List.not_mem_nil
    | some b =>
        rw [hchild] at hp
        exact ⟨s, b, ⟨hs, hchild⟩, hp⟩
  · rintro ⟨s, b, ⟨hs, hchild⟩, hp⟩
    refine ⟨s, hs, ?_⟩
    rw [hchild]
    exact hp

/-- What is listed below a node is behind the slots that lead to it. -/
theorem suffix_of_mem {p : List S × N} (h : p ∈ preorder slots child n l a) : l <:+ p.1 := by
  induction n generalizing l a with
  | zero => exact absurd h List.not_mem_nil
  | succ n ih =>
      rcases mem_preorder_succ.mp h with rfl | ⟨s, b, -, hp⟩
      · exact List.suffix_rfl
      · exact (List.suffix_cons s l).trans (ih hp)

/-- A path is cut at any place. -/
theorem path_append {E : N → S → N → Prop} (h : Path E r (l' ++ l) x) :
    ∃ b, Path E r l b ∧ Path E b l' x := by
  induction l' generalizing x with
  | nil => exact ⟨x, h, Path.root⟩
  | cons s l' ih =>
      cases h with
      | child hp he =>
          obtain ⟨b, hb, hb'⟩ := ih hp
          exact ⟨b, hb, Path.child hb' he⟩

/-- The slots determine the node. -/
theorem path_functional {E : N → S → N → Prop} (hf : Functional E) (h : Path E r l a)
    (h' : Path E r l x) : a = x := by
  induction h generalizing x with
  | root =>
      cases h'
      rfl
  | child _ he ih =>
      cases h' with
      | child hp' he' =>
          obtain rfl := ih hp'
          exact hf he he'

/-- **The listed nodes are those that a path over the start leads to.** -/
theorem mem_preorder_iff (ha : Path (Edge slots child) r l a) :
    (l', x) ∈ preorder slots child n l a ↔
      Path (Edge slots child) r l' x ∧ l <:+ l' ∧ l'.length < l.length + n := by
  have hf : Functional (Edge slots child) := edge_functional
  induction n generalizing l a l' with
  | zero =>
      refine iff_of_false List.not_mem_nil ?_
      rintro ⟨-, hsuffix, hlt⟩
      exact absurd hsuffix.length_le (Nat.not_le.mpr hlt)
  | succ n ih =>
      rw [mem_preorder_succ]
      constructor
      · rintro (heq | ⟨s, b, he, hp⟩)
        · obtain ⟨rfl, rfl⟩ := Prod.mk.inj heq
          exact ⟨ha, List.suffix_rfl, by omega⟩
        · obtain ⟨hpath, hsuffix, hlt⟩ := (ih (Path.child ha he)).mp hp
          rw [List.length_cons] at hlt
          exact ⟨hpath, (List.suffix_cons s l).trans hsuffix, by omega⟩
      · rintro ⟨hpath, ⟨front, rfl⟩, hlt⟩
        rcases List.eq_nil_or_concat' front with rfl | ⟨front, s, rfl⟩
        · rw [List.nil_append] at hpath ⊢
          exact Or.inl (Prod.ext rfl (path_functional @hf hpath ha))
        · -- the slot behind the start leads to the child that lists the node
          rw [List.append_assoc, List.singleton_append] at hpath ⊢
          obtain ⟨b, hb, -⟩ := path_append hpath
          cases hb with
          | child hp he =>
              obtain rfl := path_functional @hf hp ha
              refine Or.inr ⟨s, b, he, (ih (Path.child ha he)).mpr
                ⟨hpath, List.suffix_append _ _, ?_⟩⟩
              simp only [List.length_append, List.length_cons, List.length_nil] at hlt ⊢
              omega

/-- Every path is listed once. -/
theorem preorder_nodup (hslots : slots.Nodup) : (preorder slots child n l a).Nodup := by
  induction n generalizing l a with
  | zero => exact List.nodup_nil
  | succ n ih =>
      rw [preorder, List.nodup_cons, List.nodup_flatMap]
      have hbelow : ∀ s p, p ∈ (child a s).elim [] (fun b => preorder slots child n (s :: l) b) →
          s :: l <:+ p.1 := by
        intro s p hp
        cases hchild : child a s with
        | none =>
            rw [hchild] at hp
            exact absurd hp List.not_mem_nil
        | some b =>
            rw [hchild] at hp
            exact suffix_of_mem hp
      refine ⟨?_, ?_, ?_⟩
      · intro hmem
        obtain ⟨s, -, hp⟩ := List.mem_flatMap.mp hmem
        have hlen : (s :: l).length ≤ l.length := (hbelow s _ hp).length_le
        rw [List.length_cons] at hlen
        exact Nat.not_succ_le_self l.length hlen
      · intro s _
        cases child a s with
        | none => exact List.nodup_nil
        | some b => exact ih
      · -- the slot that leads on is read off the path
        refine hslots.imp ?_
        intro s s' hne p hp hp'
        have heq := List.IsSuffix.eq_of_length_le
          (List.suffix_of_suffix_length_le (hbelow s p hp) (hbelow s' p hp') le_rfl) le_rfl
        exact hne (List.cons.inj heq).1

/-- **With unique parents every node is listed once.** -/
theorem preorder_nodes_nodup (hslots : slots.Nodup)
    (hu : UniqueParent (Edge slots child) r) :
    ((preorder slots child n [] r).map Prod.snd).Nodup := by
  refine (preorder_nodup hslots).map_on ?_
  rintro ⟨l, a⟩ h ⟨l', a'⟩ h' heq
  have hl := ((mem_preorder_iff Path.root).mp h).1
  have hl' := ((mem_preorder_iff Path.root).mp h').1
  obtain rfl : a = a' := heq
  rw [path_unique hu hl hl']

/-- **Up to order a walk is what the listed nodes contribute.** -/
theorem walk_perm (enter : List S → N → List B) (visit : List S → N → S → List B) (n : ℕ)
    (l : List S) (a : N) :
    (walk slots child enter visit n l a).Perm
      ((preorder slots child n l a).flatMap fun p =>
        enter p.1 p.2 ++ slots.flatMap (visit p.1 p.2)) := by
  induction n generalizing l a with
  | zero => exact List.Perm.refl _
  | succ n ih =>
      rw [walk, preorder, List.flatMap_cons, List.append_assoc, List.flatMap_assoc]
      refine List.Perm.append_left _ ?_
      refine (List.flatMap_append_perm _ _ _).symm.trans (List.Perm.append_left _ ?_)
      refine List.Perm.flatMap_left _ ?_
      intro s _
      cases child a s with
      | none => exact List.Perm.refl _
      | some b => exact ih (s :: l) b

end TreeWalk
