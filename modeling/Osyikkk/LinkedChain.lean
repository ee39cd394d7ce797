import Mathlib.Data.List.Basic
import Mathlib.Data.List.Nodup

/-!
# Linked chains over a partial successor map

A linked allocation stores, for every cell, the number of the cell that follows it; a
reserved value `stop` ends a chain. The successor map is partial: `next a = none` is an
access outside the map.

`Chain next stop a l` says that following `next` from `a` visits exactly the cells of `l`,
in order, and then meets `stop`. The rules below are what a proof about such a store needs:

* a chain is determined by its start (`chain_unique`) and never repeats a cell
  (`chain_nodup`);
* changing cells off a chain does not change the chain (`chain_frame`);
* a list of fresh cells that were linked one to the next is a chain (`chain_of_linked`).
-/

namespace LinkedChain

variable {α : Type} {next next' : α → Option α} {stop : α}

/-- Following `next` from the first argument visits exactly the list, then meets `stop`. -/
inductive Chain (next : α → Option α) (stop : α) : α → List α → Prop where
  | nil : Chain next stop stop []
  | cons {a b : α} {l : List α} : a ≠ stop → next a = some b →
      Chain next stop b l → Chain next stop a (a :: l)

theorem chain_nil_iff {a : α} : Chain next stop a [] ↔ a = stop := by
  constructor
  · rintro ⟨⟩
    rfl
  · rintro rfl
    exact Chain.nil

theorem chain_cons_iff {a c : α} {l : List α} :
    Chain next stop a (c :: l) ↔
      a = c ∧ c ≠ stop ∧ ∃ b, next c = some b ∧ Chain next stop b l := by
  constructor
  · rintro (_ | ⟨hne, hb, hrest⟩)
    exact ⟨rfl, hne, _, hb, hrest⟩
  · rintro ⟨rfl, hne, b, hb, hrest⟩
    exact Chain.cons hne hb hrest

theorem chain_stop {l : List α} (h : Chain next stop stop l) : l = [] := by
  cases h with
  | nil => rfl
  | cons hne _ _ => exact absurd rfl hne

theorem chain_head {a : α} {l : List α} (h : Chain next stop a l) (ha : a ≠ stop) :
    ∃ b rest, l = a :: rest ∧ next a = some b ∧ Chain next stop b rest := by
  cases h with
  | nil => exact absurd rfl ha
  | cons _ hb hrest => exact ⟨_, _, rfl, hb, hrest⟩

theorem chain_start_mem {a : α} {l : List α} (h : Chain next stop a l) (hl : l ≠ []) :
    a ∈ l := by
  cases h with
  | nil => exact absurd rfl hl
  | cons _ _ _ => exact List.mem_cons_self

/-- The start determines the chain. -/
theorem chain_unique {a : α} {l l' : List α} (h : Chain next stop a l)
    (h' : Chain next stop a l') : l = l' := by
  induction h generalizing l' with
  | nil => exact (chain_stop h').symm
  | cons hne hb _ ih =>
      obtain ⟨b', rest, rfl, hb', hrest⟩ := chain_head h' hne
      have hbb : _ = b' := Option.some.inj (hb.symm.trans hb')
      subst hbb
      rw [ih hrest]

/-- Every cell of a chain starts the part of the chain behind it. -/
theorem chain_suffix {a c : α} {l : List α} (h : Chain next stop a l) (hc : c ∈ l) :
    ∃ l₁ l₂, l = l₁ ++ l₂ ∧ Chain next stop c l₂ ∧ l₂ ≠ [] := by
  induction h with
  | nil => exact nomatch hc
  | cons hne hb hrest ih =>
      rcases List.mem_cons.mp hc with rfl | hmem
      · exact ⟨[], _, rfl, Chain.cons hne hb hrest, List.cons_ne_nil _ _⟩
      · obtain ⟨l₁, l₂, rfl, h₂, hne₂⟩ := ih hmem
        exact ⟨_ :: l₁, l₂, rfl, h₂, hne₂⟩

theorem chain_mem_ne_stop {a c : α} {l : List α} (h : Chain next stop a l) (hc : c ∈ l) :
    c ≠ stop := by
  obtain ⟨_, _, -, h₂, hne₂⟩ := chain_suffix h hc
  rintro rfl
  exact hne₂ (chain_stop h₂)

/-- Every cell of a chain lies inside the map, and its successor is `stop` or again on the
    chain. -/
theorem chain_mem_next {a c : α} {l : List α} (h : Chain next stop a l) (hc : c ∈ l) :
    ∃ b, next c = some b ∧ (b = stop ∨ b ∈ l) := by
  obtain ⟨l₁, l₂, rfl, h₂, -⟩ := chain_suffix h hc
  obtain ⟨b, rest, rfl, hb, hrest⟩ := chain_head h₂ (chain_mem_ne_stop h hc)
  refine ⟨b, hb, ?_⟩
  cases hrest with
  | nil => exact Or.inl rfl
  | cons _ _ _ => exact Or.inr (by simp)

/-- A chain that reaches `stop` never repeats a cell: the two suffixes behind a repeated
    cell would be one chain of two lengths. -/
theorem chain_nodup {a : α} {l : List α} (h : Chain next stop a l) : l.Nodup := by
  induction h with
  | nil => exact List.nodup_nil
  | cons hne hb hrest ih =>
      refine List.nodup_cons.mpr ⟨?_, ih⟩
      intro hmem
      obtain ⟨l₁, l₂, rfl, h₂, -⟩ := chain_suffix hrest hmem
      have heq := chain_unique h₂ (Chain.cons hne hb hrest)
      have hlen := congrArg List.length heq
      simp only [List.length_cons, List.length_append] at hlen
      omega

/-- **Frame rule.** A map that agrees on the cells of a chain has the same chain. -/
theorem chain_frame {a : α} {l : List α} (h : Chain next stop a l)
    (hagree : ∀ c ∈ l, next' c = next c) : Chain next' stop a l := by
  induction h with
  | nil => exact Chain.nil
  | cons hne hb _ ih =>
      refine Chain.cons hne ?_ (ih fun c hc => hagree c (List.mem_cons_of_mem _ hc))
      rw [hagree _ List.mem_cons_self, hb]

/-- `Linked next stop l`: each cell of `l` is followed by the next one of `l`, the last by
    `stop`. -/
def Linked (next : α → Option α) (stop : α) : List α → Prop
  | [] => True
  | [a] => next a = some stop
  | a :: b :: rest => next a = some b ∧ Linked next stop (b :: rest)

/-- A chain is linked as the map says. -/
theorem linked_of_chain {a : α} {l : List α} (h : Chain next stop a l) :
    Linked next stop l := by
  induction h with
  | nil => trivial
  | cons _ hb hrest ih =>
      cases hrest with
      | nil => exact hb
      | cons _ _ _ => exact ⟨hb, ih⟩

/-- A linked list of proper cells is a chain from its head. -/
theorem chain_of_linked {a : α} {l : List α} (hne : ∀ c ∈ a :: l, c ≠ stop)
    (h : Linked next stop (a :: l)) : Chain next stop a (a :: l) := by
  induction l generalizing a with
  | nil => exact Chain.cons (hne a List.mem_cons_self) h Chain.nil
  | cons b rest ih =>
      obtain ⟨hab, hrest⟩ := h
      refine Chain.cons (hne a List.mem_cons_self) hab ?_
      exact ih (fun c hc => hne c (List.mem_cons_of_mem _ hc)) hrest

end LinkedChain
