import Mathlib.Tactic.Tauto
import Mathlib.Data.List.Nodup

/-!
# Directory trees as labelled graphs

`E d s c` is an edge: slot `s` of node `d` leads to node `c`. A node is live when it is
reachable from a root. The rules follow reachability through the four edits a hierarchical
store makes: an edit of unreachable nodes, adding a leaf, removing a leaf, and moving one
edge to another source node. In a graph whose reachable nodes have at most one incoming edge
(`UniqueParent`) every node is reached by exactly one path, and moving an edge below its own
target loses the whole subtree (`reach_reparent_below`).
-/

namespace RootedForest

variable {N S : Type}

/-- The nodes that edges lead to from `r`. -/
inductive Reach (E : N → S → N → Prop) (r : N) : N → Prop where
  | root : Reach E r r
  | child {d c : N} {s : S} : Reach E r d → E d s c → Reach E r c

/-- `Path E r l c`: the slots of `l`, last one first, lead from `r` to `c`. -/
inductive Path (E : N → S → N → Prop) (r : N) : List S → N → Prop where
  | root : Path E r [] r
  | child {d c : N} {s : S} {l : List S} : Path E r l d → E d s c → Path E r (s :: l) c

/-- Distinct slots of reachable nodes lead to distinct nodes, and none leads to the root. -/
structure UniqueParent (E : N → S → N → Prop) (r : N) : Prop where
  parent : ∀ {d d' : N} {s s' : S} {c : N}, Reach E r d → Reach E r d' →
    E d s c → E d' s' c → d = d' ∧ s = s'
  root : ∀ {d : N} {s : S}, Reach E r d → ¬ E d s r

/-- A slot leads to one node. -/
def Functional (E : N → S → N → Prop) : Prop :=
  ∀ {d : N} {s : S} {c c' : N}, E d s c → E d s c' → c = c'

variable {E E' : N → S → N → Prop} {r : N}

theorem reach_trans {a b c : N} (hab : Reach E a b) (hbc : Reach E b c) : Reach E a c := by
  induction hbc with
  | root => exact hab
  | child _ he ih => exact Reach.child ih he

/-- What is reached is the start, or below one of its edges. -/
theorem reach_head {c : N} (h : Reach E r c) :
    c = r ∨ ∃ s d, E r s d ∧ Reach E d c := by
  induction h with
  | root => exact Or.inl rfl
  | child _ he ih =>
      right
      rcases ih with rfl | ⟨s, d, hd, hdc⟩
      · exact ⟨_, _, he, Reach.root⟩
      · exact ⟨s, d, hd, Reach.child hdc he⟩

/-- A set with the root that edges do not leave holds every reachable node. -/
theorem reach_closed (P : N → Prop) (hr : P r) (h : ∀ d s c, P d → E d s c → P c) {c : N}
    (hc : Reach E r c) : P c := by
  induction hc with
  | root => exact hr
  | child _ he ih => exact h _ _ _ ih he

theorem reach_of_path {l : List S} {c : N} (h : Path E r l c) : Reach E r c := by
  induction h with
  | root => exact Reach.root
  | child _ he ih => exact Reach.child ih he

theorem path_of_reach {c : N} (h : Reach E r c) : ∃ l, Path E r l c := by
  induction h with
  | root => exact ⟨[], Path.root⟩
  | child _ he ih =>
      obtain ⟨l, hl⟩ := ih
      exact ⟨_ :: l, Path.child hl he⟩

/-- With unique parents a node is reached by one path. -/
theorem path_unique (hu : UniqueParent E r) {l l' : List S} {c : N} (h : Path E r l c)
    (h' : Path E r l' c) : l = l' := by
  induction h generalizing l' with
  | root =>
      cases h' with
      | root => rfl
      | child hp he => exact absurd he (hu.root (reach_of_path hp))
  | child hp he ih =>
      cases h' with
      | root => exact absurd he (hu.root (reach_of_path hp))
      | child hp' he' =>
          obtain ⟨rfl, rfl⟩ := hu.parent (reach_of_path hp) (reach_of_path hp') he he'
          rw [ih hp']

theorem path_trans {l l' : List S} {a b : N} (h : Path E r l a) (h' : Path E a l' b) :
    Path E r (l' ++ l) b := by
  induction h' with
  | root => exact h
  | child _ he ih => exact Path.child ih he

/-- No edge leads back to a node it comes from. -/
theorem not_reach_back (hu : UniqueParent E r) {d c : N} {s : S} (hd : Reach E r d)
    (he : E d s c) : ¬ Reach E c d := by
  intro hback
  obtain ⟨l, hl⟩ := path_of_reach hd
  obtain ⟨l', hl'⟩ := path_of_reach hback
  have hloop := congrArg List.length (path_unique hu hl (path_trans (Path.child hl he) hl'))
  rw [List.length_append, List.length_cons] at hloop
  omega

/-- The nodes on a path are distinct. -/
theorem path_nodes (hu : UniqueParent E r) {l : List S} {c : N} (h : Path E r l c) :
    ∃ nodes : List N, nodes.length = l.length + 1 ∧ nodes.Nodup ∧
      ∀ a ∈ nodes, Reach E r a ∧ Reach E a c := by
  induction h with
  | root =>
      refine ⟨[r], rfl, List.nodup_singleton r, ?_⟩
      intro a ha
      rw [List.mem_singleton.mp ha]
      exact ⟨Reach.root, Reach.root⟩
  | @child d c s l hp he ih =>
      obtain ⟨nodes, hlen, hnodup, hmem⟩ := ih
      have hd := reach_of_path hp
      refine ⟨c :: nodes, by rw [List.length_cons, hlen, List.length_cons], ?_, ?_⟩
      · refine List.nodup_cons.mpr ⟨?_, hnodup⟩
        intro hc
        exact not_reach_back hu hd he (hmem c hc).2
      · intro a ha
        rcases List.mem_cons.mp ha with rfl | ha
        · exact ⟨Reach.child hd he, Reach.root⟩
        · exact ⟨(hmem a ha).1, Reach.child (hmem a ha).2 he⟩

/-- Edges that agree on reachable nodes reach the same nodes. -/
theorem reach_congr (h : ∀ d s c, Reach E r d → (E d s c ↔ E' d s c)) (c : N) :
    Reach E r c ↔ Reach E' r c := by
  constructor
  · intro hc
    induction hc with
    | root => exact Reach.root
    | child hd he ih => exact Reach.child ih ((h _ _ _ hd).mp he)
  · intro hc
    induction hc with
    | root => exact Reach.root
    | child _ he ih => exact Reach.child ih ((h _ _ _ ih).mpr he)

theorem path_congr (h : ∀ d s c, Reach E r d → (E d s c ↔ E' d s c)) {l : List S} {c : N}
    (hp : Path E' r l c) : Path E r l c := by
  induction hp with
  | root => exact Path.root
  | child _ he ih => exact Path.child ih ((h _ _ _ (reach_of_path ih)).mpr he)

/-- Hanging a leaf `x` into a reachable node adds `x` and nothing else. -/
theorem reach_insert_leaf {p x : N} {t : S} (hp : Reach E r p)
    (hedge : ∀ d s c, Reach E r d →
      (E' d s c ↔ E d s c ∨ (d = p ∧ s = t ∧ c = x)))
    (hleaf : ∀ s c, ¬ E' x s c) (c : N) :
    Reach E' r c ↔ Reach E r c ∨ c = x := by
  constructor
  · intro hc
    induction hc with
    | root => exact Or.inl Reach.root
    | child _ he ih =>
        rcases ih with hd | rfl
        · rcases (hedge _ _ _ hd).mp he with he | ⟨-, -, rfl⟩
          · exact Or.inl (Reach.child hd he)
          · exact Or.inr rfl
        · exact absurd he (hleaf _ _)
  · have hold : ∀ d, Reach E r d → Reach E' r d := by
      intro d hd
      induction hd with
      | root => exact Reach.root
      | child hd he ih => exact Reach.child ih ((hedge _ _ _ hd).mpr (Or.inl he))
    rintro (hc | rfl)
    · exact hold c hc
    · exact Reach.child (hold p hp) ((hedge _ _ _ hp).mpr (Or.inr ⟨rfl, rfl, rfl⟩))

/-- Cutting the one edge to a leaf `x` removes `x` and nothing else. -/
theorem reach_remove_leaf (hu : UniqueParent E r) (hf : Functional E) {p x : N} {t : S}
    (hp : Reach E r p) (hpx : E p t x) (hleaf : ∀ s c, ¬ E x s c)
    (hedge : ∀ d s c, Reach E r d → d ≠ x →
      (E' d s c ↔ E d s c ∧ ¬ (d = p ∧ s = t))) (c : N) :
    Reach E' r c ↔ Reach E r c ∧ c ≠ x := by
  have hrx : r ≠ x := fun h => hu.root hp (h ▸ hpx)
  constructor
  · intro hc
    induction hc with
    | root => exact ⟨Reach.root, hrx⟩
    | child _ he ih =>
        obtain ⟨hd, hdx⟩ := ih
        obtain ⟨he, hcut⟩ := (hedge _ _ _ hd hdx).mp he
        refine ⟨Reach.child hd he, ?_⟩
        rintro rfl
        exact hcut (hu.parent hd hp he hpx)
  · rintro ⟨hc, hcx⟩
    induction hc with
    | root => exact Reach.root
    | @child d c s hd he ih =>
        have hdx : d ≠ x := by
          rintro rfl
          exact hleaf _ _ he
        refine Reach.child (ih hdx) ((hedge _ _ _ hd hdx).mpr ⟨he, ?_⟩)
        rintro ⟨rfl, rfl⟩
        exact hcx (hf he hpx)

section Reparent

/-! ## Moving one edge

    The edge from slot `t` of `p` to `x` is taken away and slot `u` of `q` gets an edge to
    `x` instead. -/

variable {p q x : N} {t u : S}

/-- What the moved graph's edges are, on nodes that were reachable before. -/
def Reparented (E E' : N → S → N → Prop) (r p q x : N) (t u : S) : Prop :=
  ∀ d s c, Reach E r d →
    (E' d s c ↔ (E d s c ∧ ¬ (d = p ∧ s = t)) ∨ (d = q ∧ s = u ∧ c = x))

/-- Moving an edge to a node that is not below its target keeps every node reachable. -/
theorem reach_reparent (hf : Functional E) (hp : Reach E r p) (hq : Reach E r q)
    (hpx : E p t x) (hmove : Reparented E E' r p q x t u) (hqx : ¬ Reach E x q) (c : N) :
    Reach E' r c ↔ Reach E r c := by
  -- first the nodes that are not below `x`: their way from the root avoids the edge
  have hout : ∀ d, Reach E r d → ¬ Reach E x d → Reach E' r d := by
    intro d hd
    induction hd with
    | root => intro _; exact Reach.root
    | @child d c s hd he ih =>
        intro hxc
        have hxd : ¬ Reach E x d := fun h => hxc (Reach.child h he)
        refine Reach.child (ih hxd) ((hmove _ _ _ hd).mpr (Or.inl ⟨he, ?_⟩))
        rintro ⟨rfl, rfl⟩
        exact hxc (hf hpx he ▸ Reach.root)
  have hx : Reach E' r x :=
    Reach.child (hout q hq hqx) ((hmove _ _ _ hq).mpr (Or.inr ⟨rfl, rfl, rfl⟩))
  have hin : ∀ d, Reach E x d → Reach E' r d := by
    intro d hd
    induction hd with
    | root => exact hx
    | @child d c s hd he ih =>
        by_cases hcut : d = p ∧ s = t
        · obtain ⟨rfl, rfl⟩ := hcut
          exact hf hpx he ▸ hx
        · have hrd : Reach E r d := reach_trans (Reach.child hp hpx) hd
          exact Reach.child ih ((hmove _ _ _ hrd).mpr (Or.inl ⟨he, hcut⟩))
  constructor
  · intro hc
    induction hc with
    | root => exact Reach.root
    | child _ he ih =>
        rcases (hmove _ _ _ ih).mp he with ⟨he, -⟩ | ⟨-, -, rfl⟩
        · exact Reach.child ih he
        · exact Reach.child hp hpx
  · intro hc
    by_cases hxc : Reach E x c
    · exact hin c hxc
    · exact hout c hc hxc

/-- Moving an edge to a node at or below its target makes everything below the target
    unreachable. -/
theorem reach_reparent_below (hu : UniqueParent E r) (hp : Reach E r p)
    (hpx : E p t x) (hmove : Reparented E E' r p q x t u) (hqx : Reach E x q) {c : N}
    (hc : Reach E' r c) : Reach E r c ∧ ¬ Reach E x c := by
  have hx : Reach E r x := Reach.child hp hpx
  induction hc with
  | root =>
      refine ⟨Reach.root, ?_⟩
      intro hxr
      cases hxr with
      | root => exact hu.root hp hpx
      | child hd he => exact hu.root (reach_trans hx hd) he
  | @child d c s _ he ih =>
      obtain ⟨hd, hxd⟩ := ih
      rcases (hmove _ _ _ hd).mp he with ⟨he, hcut⟩ | ⟨rfl, -, -⟩
      · refine ⟨Reach.child hd he, ?_⟩
        intro hxc
        cases hxc with
        | root => exact hcut (hu.parent hd hp he hpx)
        | child hd' he' =>
            obtain ⟨rfl, -⟩ := hu.parent hd (reach_trans hx hd') he he'
            exact hxd hd'
      · exact absurd hqx hxd

end Reparent

end RootedForest
