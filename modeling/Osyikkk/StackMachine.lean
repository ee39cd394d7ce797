import Mathlib.Data.UInt
import Mathlib.Data.List.Nodup
import Mathlib.Logic.Function.Basic

/-!
# Code that saves registers on a stack

A machine with registers of 32 bits and a stack of words that grows downward, whose pointer
is one of the registers. `Stacked` says which words are on top of the stack. `push` and `pop`
have one rule each; `saved_restored` is the rule for code that pushes registers, runs a body
that leaves the stack alone, and pops them in the opposite order.

Words are addressed by their lowest byte. The stack pointer moves by 4, so two words of one
stack are the same or do not overlap, whatever the pointer's alignment.
-/

namespace StackMachine

/-- The registers and the words in memory. -/
structure Machine (R : Type) where
  reg : R → UInt32
  mem : UInt32 → UInt32

/-- From address `a` upward the memory holds the words. -/
def Holds (mem : UInt32 → UInt32) : UInt32 → List UInt32 → Prop
  | _, [] => True
  | a, w :: l => mem a = w ∧ Holds mem (a + 4) l

variable {mem mem' : UInt32 → UInt32} {a b w : UInt32} {l l' : List UInt32}

/-- The address of word `k` behind `a`. -/
def wordAt (a : UInt32) (k : ℕ) : UInt32 := a + 4 * UInt32.ofNat k

@[simp] theorem wordAt_zero (a : UInt32) : wordAt a 0 = a := by
  rw [wordAt]
  exact UInt32.add_zero a

theorem wordAt_succ (a : UInt32) (k : ℕ) : wordAt a (k + 1) = wordAt (a + 4) k := by
  rw [wordAt, wordAt, UInt32.ofNat_add, UInt32.mul_add, UInt32.add_assoc,
    UInt32.add_comm (4 * UInt32.ofNat k)]
  rfl

/-- The words below an address are not among the next ones above it. -/
theorem wordAt_ne_below (a : UInt32) {k : ℕ} (hk : k + 1 < 1073741824) :
    wordAt a k ≠ a - 4 := by
  intro h
  have h4 : wordAt a k + 4 = a := by
    rw [h]
    exact UInt32.sub_add_cancel a 4
  rw [wordAt, UInt32.add_assoc] at h4
  have h0 : (4 * UInt32.ofNat k + 4).toNat = 0 := by
    have hzero : 4 * UInt32.ofNat k + 4 = 0 := by
      have hcancel : a + (4 * UInt32.ofNat k + 4) = a + 0 := h4.trans (UInt32.add_zero a).symm
      exact UInt32.add_right_inj a |>.mp hcancel
    rw [hzero]
    rfl
  rw [UInt32.toNat_add, UInt32.toNat_mul, UInt32.toNat_ofNat', show (4 : UInt32).toNat = 4 from rfl]
    at h0
  omega

/-- A word is not among those pushed from an address above it. -/
theorem ne_pushed_of_lt {a top : UInt32} {k : ℕ} (h : a.toNat + 4 * (k + 1) < top.toNat) :
    a ≠ top - 4 * UInt32.ofNat (k + 1) := by
  have htop := top.toNat_lt
  have hoffset : (4 * UInt32.ofNat (k + 1)).toNat = 4 * (k + 1) := by
    have hsmall : k + 1 < 2 ^ 32 := by omega
    have hfour : (4 : UInt32).toNat = 4 := rfl
    rw [UInt32.toNat_mul, UInt32.toNat_ofNat', Nat.mod_eq_of_lt hsmall, hfour]
    omega
  intro heq
  have hle : 4 * UInt32.ofNat (k + 1) ≤ top := by
    rw [UInt32.le_iff_toNat_le, hoffset]
    omega
  have hnat := congrArg UInt32.toNat heq
  rw [UInt32.toNat_sub_of_le _ _ hle, hoffset] at hnat
  omega

theorem holds_iff : Holds mem a l ↔ ∀ k, (h : k < l.length) → mem (wordAt a k) = l[k] := by
  induction l generalizing a with
  | nil => exact ⟨fun _ k h => absurd h (Nat.not_lt_zero k), fun _ => trivial⟩
  | cons w l ih =>
      rw [Holds, ih]
      constructor
      · rintro ⟨hw, hl⟩ k hk
        cases k with
        | zero => rw [wordAt_zero, hw, List.getElem_cons_zero]
        | succ k =>
            rw [wordAt_succ, List.getElem_cons_succ]
            exact hl k (Nat.lt_of_succ_lt_succ hk)
      · intro h
        refine ⟨?_, ?_⟩
        · have h0 := h 0 (Nat.succ_pos _)
          rwa [wordAt_zero, List.getElem_cons_zero] at h0
        · intro k hk
          have hk1 := h (k + 1) (Nat.succ_lt_succ hk)
          rwa [wordAt_succ, List.getElem_cons_succ] at hk1

/-- A memory with the same words there holds the same. -/
theorem Holds.congr (h : Holds mem a l)
    (hsame : ∀ k < l.length, mem' (wordAt a k) = mem (wordAt a k)) : Holds mem' a l := by
  rw [holds_iff] at h ⊢
  intro k hk
  rw [hsame k hk, h k hk]

theorem Holds.left (h : Holds mem a (l ++ l')) : Holds mem a l := by
  rw [holds_iff] at h ⊢
  intro k hk
  rw [h k (by rw [List.length_append]; omega), List.getElem_append_left hk]

variable {R : Type} [DecidableEq R]

/-! ## Pushing and popping -/

/-- A word goes on the stack. -/
def Machine.push (sp : R) (w : UInt32) (s : Machine R) : Machine R where
  reg := Function.update s.reg sp (s.reg sp - 4)
  mem := Function.update s.mem (s.reg sp - 4) w

/-- The top word goes to a register; into the pointer itself it goes last. -/
def Machine.pop (sp r : R) (s : Machine R) : Machine R where
  reg := Function.update (Function.update s.reg sp (s.reg sp + 4)) r (s.mem (s.reg sp))
  mem := s.mem

/-- Words go on the stack, the first one first. -/
def Machine.pushAll (sp : R) (ws : List UInt32) (s : Machine R) : Machine R :=
  ws.foldl (fun s w => s.push sp w) s

/-- The registers are pushed, the first one first. -/
def Machine.save (sp : R) (rs : List R) (s : Machine R) : Machine R :=
  rs.foldl (fun s r => s.push sp (s.reg r)) s

/-- The registers are popped, the first one first. -/
def Machine.restore (sp : R) (rs : List R) (s : Machine R) : Machine R :=
  rs.foldl (fun s r => s.pop sp r) s

/-- The top words of the stack. -/
def Stacked (sp : R) (s : Machine R) (l : List UInt32) : Prop := Holds s.mem (s.reg sp) l

variable {sp r : R} {s s' : Machine R} {rs : List R}

@[simp] theorem push_sp (sp : R) (w : UInt32) (s : Machine R) :
    (s.push sp w).reg sp = s.reg sp - 4 := Function.update_self ..

theorem push_reg (w : UInt32) (s : Machine R) (h : r ≠ sp) : (s.push sp w).reg r = s.reg r :=
  Function.update_of_ne h ..

theorem push_mem (w : UInt32) (s : Machine R) (h : a ≠ s.reg sp - 4) :
    (s.push sp w).mem a = s.mem a := Function.update_of_ne h ..

theorem pop_sp (s : Machine R) (h : r ≠ sp) : (s.pop sp r).reg sp = s.reg sp + 4 :=
  (Function.update_of_ne h.symm ..).trans (Function.update_self ..)

@[simp] theorem pop_self (sp r : R) (s : Machine R) :
    (s.pop sp r).reg r = s.mem (s.reg sp) := Function.update_self ..

@[simp] theorem pop_mem (sp r : R) (s : Machine R) : (s.pop sp r).mem = s.mem := rfl

theorem pop_other {q : R} (s : Machine R) (hr : q ≠ r) (hsp : q ≠ sp) :
    (s.pop sp r).reg q = s.reg q :=
  (Function.update_of_ne hr ..).trans (Function.update_of_ne hsp ..)

/-- **Push.** The word is on top of what was there. -/
theorem Stacked.push (h : Stacked sp s l) (hlen : l.length < 1073741823) (w : UInt32) :
    Stacked sp (s.push sp w) (w :: l) := by
  rw [Stacked, push_sp, Holds, UInt32.sub_add_cancel]
  refine ⟨Function.update_self .., Holds.congr h ?_⟩
  intro k hk
  exact push_mem w s (wordAt_ne_below _ (by omega))

/-- **Pop.** -/
theorem Stacked.pop (h : Stacked sp s (w :: l)) (hr : r ≠ sp) :
    (s.pop sp r).reg r = w ∧ Stacked sp (s.pop sp r) l := by
  obtain ⟨hw, hl⟩ := h
  refine ⟨(pop_self sp r s).trans hw, ?_⟩
  rw [Stacked, pop_sp s hr]
  exact hl

/-- The stack pointer after a list of words. -/
theorem pushAll_sp (ws : List UInt32) :
    (s.pushAll sp ws).reg sp = s.reg sp - 4 * UInt32.ofNat ws.length := by
  induction ws generalizing s with
  | nil => exact (UInt32.sub_zero _).symm
  | cons w ws ih =>
      rw [Machine.pushAll, List.foldl_cons]
      refine ih.trans ?_
      rw [push_sp, List.length_cons, UInt32.ofNat_add, UInt32.mul_add, sub_sub]
      congr 1
      exact UInt32.add_comm _ _

theorem pushAll_reg (ws : List UInt32) (h : r ≠ sp) : (s.pushAll sp ws).reg r = s.reg r := by
  induction ws generalizing s with
  | nil => rfl
  | cons w ws ih => exact ih.trans (push_reg w s h)

theorem Stacked.pushAll (h : Stacked sp s l) {ws : List UInt32}
    (hlen : l.length + ws.length < 1073741824) :
    Stacked sp (s.pushAll sp ws) (ws.reverse ++ l) := by
  induction ws generalizing s l with
  | nil => exact h
  | cons w ws ih =>
      rw [List.length_cons] at hlen
      have hnext := ih (h.push (by omega) w) (by rw [List.length_cons]; omega)
      rw [List.reverse_cons, List.append_assoc]
      exact hnext

/-- `m` words were pushed on the stack with top `base`, and nothing else was written. -/
structure Grown (sp : R) (base : UInt32) (m : ℕ) (mem : UInt32 → UInt32) (s : Machine R) :
    Prop where
  pointer : s.reg sp = base - 4 * UInt32.ofNat m
  others : ∀ a, (∀ k < m, a ≠ base - 4 * UInt32.ofNat (k + 1)) → s.mem a = mem a

omit [DecidableEq R] in
theorem Grown.start (hpointer : s.reg sp = b) : Grown sp b 0 s.mem s where
  pointer := hpointer.trans (UInt32.sub_zero b).symm
  others _ _ := rfl

omit [DecidableEq R] in
/-- Other registers are of no account. -/
theorem Grown.congr {m : ℕ} (h : Grown sp b m mem s) (hpointer : s'.reg sp = s.reg sp)
    (hmem : s'.mem = s.mem) : Grown sp b m mem s' where
  pointer := hpointer.trans h.pointer
  others a ha := (congrFun hmem a).trans (h.others a ha)

theorem Grown.push {m : ℕ} (h : Grown sp b m mem s) (w : UInt32) :
    Grown sp b (m + 1) mem (s.push sp w) where
  pointer := by
    rw [push_sp, h.pointer, sub_sub, UInt32.ofNat_add, UInt32.mul_add]
    rfl
  others a ha := by
    have hne : a ≠ s.reg sp - 4 := by
      rw [h.pointer, sub_sub]
      have hlast := ha m (Nat.lt_succ_self m)
      rwa [UInt32.ofNat_add, UInt32.mul_add] at hlast
    rw [push_mem w s hne]
    exact h.others a fun k hk => ha k (Nat.lt_succ_of_lt hk)

theorem Grown.pushAll {m : ℕ} (h : Grown sp b m mem s) (ws : List UInt32) :
    Grown sp b (m + ws.length) mem (s.pushAll sp ws) := by
  induction ws generalizing s m with
  | nil => exact h
  | cons w ws ih =>
      rw [List.length_cons, ← Nat.add_assoc, Nat.add_right_comm]
      exact ih (h.push w)

/-! ## Saving and restoring -/

/-- Saving registers other than the pointer pushes what they hold. -/
theorem save_eq (hsp : sp ∉ rs) : s.save sp rs = s.pushAll sp (rs.map s.reg) := by
  induction rs generalizing s with
  | nil => rfl
  | cons r rs ih =>
      rw [List.mem_cons, not_or] at hsp
      show (s.push sp (s.reg r)).save sp rs = (s.push sp (s.reg r)).pushAll sp (rs.map s.reg)
      rw [ih hsp.2]
      congr 1
      refine List.map_congr_left ?_
      intro q hq
      exact push_reg _ _ fun hqs => hsp.2 (hqs ▸ hq)

theorem restore_mem (sp : R) (rs : List R) (s : Machine R) : (s.restore sp rs).mem = s.mem := by
  induction rs generalizing s with
  | nil => rfl
  | cons r rs ih => exact ih (s.pop sp r)

theorem Grown.save {m : ℕ} (h : Grown sp b m mem s) (hsp : sp ∉ rs) :
    Grown sp b (m + rs.length) mem (s.save sp rs) := by
  rw [save_eq hsp, ← List.length_map s.reg]
  exact h.pushAll _

/-- Popping registers off the stack. -/
theorem Stacked.restore {f : R → UInt32} (h : Stacked sp s (rs.map f ++ l)) (hsp : sp ∉ rs)
    (hnodup : rs.Nodup) :
    (∀ r ∈ rs, (s.restore sp rs).reg r = f r) ∧ Stacked sp (s.restore sp rs) l ∧
      (∀ q, q ≠ sp → q ∉ rs → (s.restore sp rs).reg q = s.reg q) := by
  induction rs generalizing s with
  | nil => exact ⟨fun r hr => absurd hr List.not_mem_nil, h, fun _ _ _ => rfl⟩
  | cons r rs ih =>
      rw [List.mem_cons, not_or] at hsp
      obtain ⟨hr, hrest⟩ := List.nodup_cons.mp hnodup
      obtain ⟨hreg, hstack⟩ := Stacked.pop h (Ne.symm hsp.1)
      obtain ⟨hregs, hl, hkept⟩ := ih hstack hsp.2 hrest
      refine ⟨?_, hl, ?_⟩
      · intro q hq
        rcases List.mem_cons.mp hq with rfl | hq
        · exact (hkept q (Ne.symm hsp.1) hr).trans hreg
        · exact hregs q hq
      · intro q hqs hq
        rw [List.mem_cons, not_or] at hq
        exact (hkept q hqs hq.2).trans (pop_other s hq.1 hqs)

theorem restore_sp (hsp : sp ∉ rs) :
    (s.restore sp rs).reg sp = s.reg sp + 4 * UInt32.ofNat rs.length := by
  induction rs generalizing s with
  | nil => exact (UInt32.add_zero _).symm
  | cons r rs ih =>
      rw [List.mem_cons, not_or] at hsp
      refine (ih hsp.2).trans ?_
      rw [pop_sp s (Ne.symm hsp.1), List.length_cons, UInt32.ofNat_add, UInt32.mul_add,
        UInt32.add_assoc]
      congr 1
      exact UInt32.add_comm _ _

/-- **Save, run, restore.** A body that leaves the stack pointer and the saved words as they
    are is seen from outside in the other registers and in memory only. -/
theorem saved_restored (h : Stacked sp s l) (hsp : sp ∉ rs) (hnodup : rs.Nodup)
    (hlen : l.length + rs.length < 1073741824)
    (hpointer : s'.reg sp = (s.save sp rs).reg sp)
    (hwords : ∀ k < rs.length + l.length, s'.mem (wordAt ((s.save sp rs).reg sp) k)
      = (s.save sp rs).mem (wordAt ((s.save sp rs).reg sp) k)) :
    (s'.restore sp rs.reverse).reg sp = s.reg sp ∧
      (∀ r ∈ rs, (s'.restore sp rs.reverse).reg r = s.reg r) ∧
      (∀ q, q ≠ sp → q ∉ rs → (s'.restore sp rs.reverse).reg q = s'.reg q) ∧
      Stacked sp (s'.restore sp rs.reverse) l := by
  have hsaved : Stacked sp (s.save sp rs) (rs.reverse.map s.reg ++ l) := by
    rw [save_eq hsp, List.map_reverse]
    exact Stacked.pushAll h (by rwa [List.length_map])
  have hbody : Stacked sp s' (rs.reverse.map s.reg ++ l) := by
    rw [Stacked, hpointer]
    refine Holds.congr hsaved ?_
    intro k hk
    refine hwords k ?_
    rwa [List.length_append, List.length_map, List.length_reverse] at hk
  have hsp' : sp ∉ rs.reverse := fun hmem => hsp (List.mem_reverse.mp hmem)
  obtain ⟨hregs, hl, hkept⟩ := hbody.restore hsp' (List.nodup_reverse.mpr hnodup)
  refine ⟨?_, fun r hr => hregs r (List.mem_reverse.mpr hr), ?_, hl⟩
  · rw [restore_sp hsp', hpointer, save_eq hsp, pushAll_sp, List.length_map,
      List.length_reverse, UInt32.sub_add_cancel]
  · intro q hq hqs
    exact hkept q hq fun hmem => hqs (List.mem_reverse.mp hmem)

end StackMachine
