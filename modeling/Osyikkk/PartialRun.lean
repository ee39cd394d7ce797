import Mathlib.Data.Option.Basic
import Mathlib.Data.List.Basic

/-!
# Runs of a partial step function

A system takes calls one after another; `step s k = none` is a call without a defined
outcome (an access out of bounds, a loop that never ends). A run is then a partial function
of the list of calls, and a condition on calls may depend on the state each call meets
(`Guarded`). The two run rules carry an invariant from one step to a whole run: one where
the guarded step is shown to be defined, one that speaks of the states that are reached.

A careless driver of such a system goes on after a call without an outcome, in the state the
call met (`skipping`). It ends where the run ends when there is one, and may end anywhere
otherwise; `run_skips` shows a concrete system to be such a driver.
-/

namespace PartialRun

variable {σ κ : Type} (step : σ → κ → Option σ)

/-- The state after a list of calls, when every one of them has an outcome. -/
def run : σ → List κ → Option σ
  | s, [] => some s
  | s, k :: ks => (step s k).bind fun s' => run s' ks

/-- Every call of the list meets a state in which `P` holds of it. -/
def Guarded (P : σ → κ → Prop) : σ → List κ → Prop
  | _, [] => True
  | s, k :: ks => P s k ∧ ∀ s', step s k = some s' → Guarded P s' ks

@[simp] theorem run_nil (s : σ) : run step s [] = some s := rfl

@[simp] theorem run_cons (s : σ) (k : κ) (ks : List κ) :
    run step s (k :: ks) = (step s k).bind fun s' => run step s' ks := rfl

theorem run_append (s : σ) (ks ks' : List κ) :
    run step s (ks ++ ks') = (run step s ks).bind fun s' => run step s' ks' := by
  induction ks generalizing s with
  | nil => rfl
  | cons k ks ih =>
      rw [List.cons_append, run_cons, run_cons, Option.bind_assoc]
      exact congrArg _ (funext fun s' => ih s')

/-- A run through a call: what comes before it, the call itself, and the rest. -/
theorem run_mem {s s' : σ} {k : κ} {ks : List κ} (hk : k ∈ ks) (h : run step s ks = some s') :
    ∃ before after s₁ s₂, ks = before ++ k :: after ∧ run step s before = some s₁ ∧
      step s₁ k = some s₂ ∧ run step s₂ after = some s' := by
  obtain ⟨before, after, rfl⟩ := List.append_of_mem hk
  rw [run_append] at h
  obtain ⟨s₁, hbefore, h⟩ := Option.bind_eq_some_iff.mp h
  obtain ⟨s₂, hcall, hafter⟩ := Option.bind_eq_some_iff.mp h
  exact ⟨before, after, s₁, s₂, rfl, hbefore, hcall, hafter⟩

/-- A run goes the same way where more calls have an outcome. -/
theorem run_mono {step' : σ → κ → Option σ}
    (hstep : ∀ s k s', step s k = some s' → step' s k = some s') {s s' : σ} {ks : List κ}
    (h : run step s ks = some s') : run step' s ks = some s' := by
  induction ks generalizing s with
  | nil => exact h
  | cons k ks ih =>
      obtain ⟨s₁, hs₁, hrun⟩ := Option.bind_eq_some_iff.mp h
      rw [run_cons, hstep s k s₁ hs₁, Option.bind_some]
      exact ih hrun

/-- Calls that leave the state leave it in a run. -/
theorem run_still {s : σ} {ks : List κ} (h : ∀ k ∈ ks, step s k = some s) :
    run step s ks = some s := by
  induction ks with
  | nil => rfl
  | cons k ks ih =>
      rw [run_cons, h k List.mem_cons_self, Option.bind_some]
      exact ih fun j hj => h j (List.mem_cons_of_mem _ hj)

/-- The first call of a list with a property. -/
theorem first_call {P : κ → Prop} {ks : List κ} (h : ∃ k ∈ ks, P k) :
    ∃ before k after, ks = before ++ k :: after ∧ P k ∧ ∀ j ∈ before, ¬ P j := by
  induction ks with
  | nil =>
      obtain ⟨k, hk, -⟩ := h
      exact absurd hk List.not_mem_nil
  | cons a ks ih =>
      by_cases ha : P a
      · exact ⟨[], a, ks, rfl, ha, fun j hj => absurd hj List.not_mem_nil⟩
      · obtain ⟨k, hk, hP⟩ := h
        rcases List.mem_cons.mp hk with rfl | hk
        · exact absurd hP ha
        · obtain ⟨before, k, after, rfl, hP, hnone⟩ := ih ⟨k, hk, hP⟩
          exact ⟨a :: before, k, after, rfl, hP, List.forall_mem_cons.mpr ⟨ha, hnone⟩⟩

/-- A repeated call is taken once more at the end. -/
theorem run_replicate_succ {s s' : σ} {k : κ} {n : ℕ}
    (h : run step s (List.replicate n k) = some s') :
    run step s (List.replicate (n + 1) k) = step s' k := by
  rw [List.replicate_succ', run_append, h, Option.bind_some, run_cons]
  exact Option.bind_fun_some _

/-- A condition that holds in every state guards every run. -/
theorem guarded_of_forall {P : σ → κ → Prop} {ks : List κ} (h : ∀ s, ∀ k ∈ ks, P s k) (s : σ) :
    Guarded step P s ks := by
  induction ks generalizing s with
  | nil => trivial
  | cons k ks ih =>
      exact ⟨h s k List.mem_cons_self, fun s' _ =>
        ih (fun s k hk => h s k (List.mem_cons_of_mem _ hk)) s'⟩

/-- A run of a system with more state is a run of the system it is mapped to. -/
theorem run_simulation {τ : Type} {step' : τ → κ → Option τ} {f : τ → σ}
    (hstep : ∀ t k, (step' t k).map f = step (f t) k) (t : τ) (ks : List κ) :
    (run step' t ks).map f = run step (f t) ks := by
  induction ks generalizing t with
  | nil => rfl
  | cons k ks ih =>
      rw [run_cons, run_cons, ← hstep t k]
      cases step' t k with
      | none => rfl
      | some t' => exact ih t'

/-- **Total run rule.** A guarded call is defined and keeps `Inv`; then so does a guarded
    run. -/
theorem run_total {P : σ → κ → Prop} {Inv : σ → Prop}
    (hstep : ∀ s k, Inv s → P s k → ∃ s', step s k = some s' ∧ Inv s') {s : σ}
    {ks : List κ} (hs : Inv s) (hks : Guarded step P s ks) :
    ∃ s', run step s ks = some s' ∧ Inv s' := by
  induction ks generalizing s with
  | nil => exact ⟨s, rfl, hs⟩
  | cons k ks ih =>
      obtain ⟨s₁, hs₁, hinv₁⟩ := hstep s k hs hks.1
      obtain ⟨s₂, hs₂, hinv₂⟩ := ih hinv₁ (hks.2 s₁ hs₁)
      exact ⟨s₂, by rw [run_cons, hs₁, Option.bind_some, hs₂], hinv₂⟩

/-- **Loop rule.** An invariant of the calls that are done, which every next call of a list
    carries on, holds of the whole list at the end. -/
theorem run_loop (Inv : List κ → σ → Prop) {ks : List κ}
    (hstep : ∀ done k s, done ++ [k] <+: ks → Inv done s →
      ∃ s', step s k = some s' ∧ Inv (done ++ [k]) s') {s : σ} (hs : Inv [] s) :
    ∃ s', run step s ks = some s' ∧ Inv ks s' := by
  have hrest : ∀ (todo done : List κ) (s : σ), done ++ todo = ks → Inv done s →
      ∃ s', run step s todo = some s' ∧ Inv ks s' := by
    intro todo
    induction todo with
    | nil =>
        intro done s heq hs
        rw [List.append_nil] at heq
        exact ⟨s, rfl, heq ▸ hs⟩
    | cons k todo ih =>
        intro done s heq hs
        have heq' : (done ++ [k]) ++ todo = ks := by
          rw [List.append_assoc, List.singleton_append, heq]
        obtain ⟨s₁, hs₁, hinv₁⟩ := hstep done k s ⟨todo, heq'⟩ hs
        obtain ⟨s₂, hs₂, hinv₂⟩ := ih (done ++ [k]) s₁ heq' hinv₁
        exact ⟨s₂, by rw [run_cons, hs₁, Option.bind_some, hs₂], hinv₂⟩
  exact hrest ks [] s rfl hs

/-- **Counting rule.** The loop rule for `for (i = 0; i < n; i++)`. -/
theorem run_range (step : σ → ℕ → Option σ) (Inv : ℕ → σ → Prop) (n : ℕ)
    (hstep : ∀ i < n, ∀ s, Inv i s → ∃ s', step s i = some s' ∧ Inv (i + 1) s') {s : σ}
    (hs : Inv 0 s) : ∃ s', run step s (List.range n) = some s' ∧ Inv n s' := by
  induction n with
  | zero => exact ⟨s, rfl, hs⟩
  | succ n ih =>
      obtain ⟨s₁, hrun, hinv₁⟩ := ih fun i hi => hstep i (Nat.lt_succ_of_lt hi)
      obtain ⟨s₂, hlast, hinv₂⟩ := hstep n (Nat.lt_succ_self n) s₁ hinv₁
      refine ⟨s₂, ?_, hinv₂⟩
      rw [List.range_succ, run_append, hrun, Option.bind_some, run_cons, hlast]
      rfl

/-- **Partial run rule.** Every state a guarded run reaches satisfies an invariant that the
    guarded calls keep. -/
theorem run_invariant {P : σ → κ → Prop} {Inv : σ → Prop}
    (hstep : ∀ s k s', Inv s → P s k → step s k = some s' → Inv s') {s s' : σ}
    {ks : List κ} (hs : Inv s) (hks : Guarded step P s ks)
    (hrun : run step s ks = some s') : Inv s' := by
  induction ks generalizing s with
  | nil =>
      obtain rfl : s = s' := Option.some.inj hrun
      exact hs
  | cons k ks ih =>
      obtain ⟨s₁, hs₁, hrun₁⟩ := Option.bind_eq_some_iff.mp hrun
      exact ih (hstep s k s₁ hs hks.1 hs₁) (hks.2 s₁ hs₁) hrun₁

/-- **Outcome rule.** A guarded run has an outcome exactly when every call meets the condition
    under which one call has. -/
theorem run_ends_iff {P Q : σ → κ → Prop} {Inv : σ → Prop}
    (hstep : ∀ s k s', Inv s → P s k → step s k = some s' → Inv s')
    (hends : ∀ s k, Inv s → P s k → ((∃ s', step s k = some s') ↔ Q s k)) {s : σ}
    {ks : List κ} (hs : Inv s) (hks : Guarded step P s ks) :
    (∃ s', run step s ks = some s') ↔ Guarded step Q s ks := by
  induction ks generalizing s with
  | nil => exact iff_of_true ⟨s, rfl⟩ trivial
  | cons k ks ih =>
      have hk := hends s k hs hks.1
      constructor
      · rintro ⟨s', hrun⟩
        obtain ⟨s₁, hs₁, hrest⟩ := Option.bind_eq_some_iff.mp hrun
        refine ⟨hk.mp ⟨s₁, hs₁⟩, fun s₂ hs₂ => ?_⟩
        obtain rfl := Option.some.inj (hs₁.symm.trans hs₂)
        exact (ih (hstep s k s₁ hs hks.1 hs₁) (hks.2 s₁ hs₁)).mp ⟨s', hrest⟩
      · rintro ⟨hQ, hrest⟩
        obtain ⟨s₁, hs₁⟩ := hk.mpr hQ
        obtain ⟨s', hrun⟩ :=
          (ih (hstep s k s₁ hs hks.1 hs₁) (hks.2 s₁ hs₁)).mpr (hrest s₁ hs₁)
        refine ⟨s', ?_⟩
        rw [run_cons, hs₁, Option.bind_some, hrun]

/-- Under an invariant that every call keeps, two conditions that say the same guard the
    same runs. -/
theorem guarded_congr {P Q : σ → κ → Prop} {Inv : σ → Prop}
    (hstep : ∀ s k s', Inv s → step s k = some s' → Inv s')
    (hPQ : ∀ s k, Inv s → (P s k ↔ Q s k)) {s : σ} {ks : List κ} (hs : Inv s) :
    Guarded step P s ks ↔ Guarded step Q s ks := by
  induction ks generalizing s with
  | nil => exact Iff.rfl
  | cons k ks ih =>
      refine and_congr (hPQ s k hs) (forall₂_congr ?_)
      intro s' hs'
      exact ih (hstep s k s' hs hs')

/-! ## Total systems -/

/-- **Lockstep rule.** A total system stays related to its specification in every state of a
    run exactly when every call meets the condition under which one call keeps them
    related. `D` is the domain of the calls. -/
theorem lockstep_iff {τ : Type} {f : σ → κ → σ} {g : τ → κ → τ} {R : σ → τ → Prop}
    {P : σ → κ → Prop} {D : κ → Prop}
    (hstep : ∀ s t k, D k → R s t → (R (f s k) (g t k) ↔ P s k)) {s : σ} {t : τ} {ks : List κ}
    (hs : R s t) (hks : ∀ k ∈ ks, D k) :
    (∀ before, before <+: ks → R (before.foldl f s) (before.foldl g t)) ↔
      Guarded (fun s k => some (f s k)) P s ks := by
  induction ks generalizing s t with
  | nil =>
      refine iff_of_true ?_ trivial
      intro before hbefore
      rw [List.prefix_nil.mp hbefore]
      exact hs
  | cons k ks ih =>
      have hk := hstep s t k (hks k List.mem_cons_self) hs
      have hrest : ∀ k ∈ ks, D k := fun k hk => hks k (List.mem_cons_of_mem _ hk)
      constructor
      · intro h
        have h1 : R (f s k) (g t k) := h [k] (List.prefix_append [k] ks)
        refine ⟨hk.mp h1, ?_⟩
        intro s' hs'
        obtain rfl := Option.some.inj hs'
        refine (ih h1 hrest).mp ?_
        intro before hbefore
        exact h (k :: before) (List.cons_prefix_cons.mpr ⟨rfl, hbefore⟩)
      · rintro ⟨hP, hks'⟩ before hbefore
        cases before with
        | nil => exact hs
        | cons k' before =>
            obtain ⟨rfl, htail⟩ := List.cons_prefix_cons.mp hbefore
            exact (ih (hk.mpr hP) hrest).mpr (hks' _ rfl) before htail

/-- **Exact invariant rule.** An invariant holds in every state of a run exactly when every
    call meets the condition under which one call keeps it. -/
theorem always_iff {f : σ → κ → σ} {Inv : σ → Prop} {P : σ → κ → Prop}
    (hstep : ∀ s k, Inv s → (Inv (f s k) ↔ P s k)) {s : σ} {ks : List κ} (hs : Inv s) :
    (∀ before, before <+: ks → Inv (before.foldl f s)) ↔
      Guarded (fun s k => some (f s k)) P s ks :=
  -- a lockstep with a system of one state
  @lockstep_iff σ κ Unit f (fun _ _ => ()) (fun s _ => Inv s) P (fun _ => True)
    (fun s _ k _ h => hstep s k h) s () ks hs fun _ _ => trivial

/-- **Guarded invariant rule.** An invariant that the guarded calls of a domain keep holds in
    every state of a guarded run, and the next call of the list meets its guard there. -/
theorem foldl_invariant {f : σ → κ → σ} {Inv : σ → Prop} {P : σ → κ → Prop} {D : κ → Prop}
    (hstep : ∀ s k, D k → Inv s → P s k → Inv (f s k)) {s : σ} {ks before : List κ}
    (hs : Inv s) (hD : ∀ k ∈ ks, D k) (hks : Guarded (fun s k => some (f s k)) P s ks)
    (hbefore : before <+: ks) :
    Inv (before.foldl f s) ∧ ∀ k, before ++ [k] <+: ks → P (before.foldl f s) k := by
  induction ks generalizing s before with
  | nil =>
      rw [List.prefix_nil.mp hbefore]
      exact ⟨hs, fun k hk => absurd (List.prefix_nil.mp hk) (List.cons_ne_nil _ _)⟩
  | cons k ks ih =>
      cases before with
      | nil =>
          refine ⟨hs, fun k' hk' => ?_⟩
          rw [(List.cons_prefix_cons.mp hk').1]
          exact hks.1
      | cons k' before =>
          obtain ⟨rfl, htail⟩ := List.cons_prefix_cons.mp hbefore
          obtain ⟨hinv, hnext⟩ := ih (hstep s k' (hD k' List.mem_cons_self) hs hks.1)
            (fun k hk => hD k (List.mem_cons_of_mem _ hk)) (hks.2 _ rfl) htail
          exact ⟨hinv, fun k hk => hnext k (List.cons_prefix_cons.mp hk).2⟩

/-! ## Runs that skip -/

/-- The state after a list of calls when those without an outcome are left out. -/
def skipping : σ → List κ → σ
  | s, [] => s
  | s, k :: ks => skipping ((step s k).getD s) ks

theorem skipping_cons (s : σ) (k : κ) (ks : List κ) :
    skipping step s (k :: ks) = skipping step ((step s k).getD s) ks := rfl

/-- `P` holds of every call of the list, in the state a run that skips has there. -/
def AlongSkips (P : σ → κ → Prop) : σ → List κ → Prop
  | _, [] => True
  | s, k :: ks => P s k ∧ AlongSkips P ((step s k).getD s) ks

/-- Nothing is skipped by a run that has an outcome. -/
theorem skipping_of_run {s s' : σ} {ks : List κ} (h : run step s ks = some s') :
    skipping step s ks = s' := by
  induction ks generalizing s with
  | nil => exact Option.some.inj h
  | cons k ks ih =>
      obtain ⟨s₁, hs₁, hrun⟩ := Option.bind_eq_some_iff.mp h
      rw [skipping_cons, hs₁, Option.getD_some]
      exact ih hrun

/-- What the calls with an outcome keep is kept. -/
theorem skipping_invariant {Inv : σ → Prop}
    (hstep : ∀ s k s', Inv s → step s k = some s' → Inv s') {s : σ} {ks : List κ}
    (hs : Inv s) : Inv (skipping step s ks) := by
  induction ks generalizing s with
  | nil => exact hs
  | cons k ks ih =>
      refine ih ?_
      cases hk : step s k with
      | none => exact hs
      | some s' => exact hstep s k s' hs hk

theorem alongSkips_mono {P Q : σ → κ → Prop} {s : σ} {ks : List κ}
    (hPQ : ∀ s, ∀ k ∈ ks, P s k → Q s k) (h : AlongSkips step P s ks) :
    AlongSkips step Q s ks := by
  induction ks generalizing s with
  | nil => trivial
  | cons k ks ih =>
      refine ⟨hPQ s k List.mem_cons_self h.1, ih ?_ h.2⟩
      intro s k hk
      exact hPQ s k (List.mem_cons_of_mem _ hk)

/-- Two systems whose calls agree where one of them passes skip the same calls, and what
    holds along the way of one holds along the way of the other. -/
theorem skipping_congr {step' : σ → κ → Option σ} {P : σ → κ → Prop} {s : σ} {ks : List κ}
    (h : AlongSkips step (fun s k => step' s k = step s k ∧ P s k) s ks) :
    skipping step' s ks = skipping step s ks ∧ AlongSkips step' P s ks := by
  induction ks generalizing s with
  | nil => exact ⟨rfl, trivial⟩
  | cons k ks ih =>
      obtain ⟨⟨hk, hP⟩, hks⟩ := h
      obtain ⟨hskip, halong⟩ := ih hks
      refine ⟨?_, hP, ?_⟩
      · rw [skipping_cons, skipping_cons, hk, hskip]
      · rw [hk]
        exact halong

/-- **Skipping rule.** A system whose calls are always defined, and leave the state that is
    seen of it where the specified call has no outcome, runs as the specified system skips. -/
theorem run_skips {τ : Type} {conc : τ → κ → Option τ} {f : τ → σ} {Inv : τ → Prop}
    {P : σ → κ → Prop}
    (hstep : ∀ t k, Inv t → P (f t) k →
      ∃ t', conc t k = some t' ∧ f t' = (step (f t) k).getD (f t) ∧ Inv t')
    {t : τ} {ks : List κ} (ht : Inv t) (h : AlongSkips step P (f t) ks) :
    ∃ t', run conc t ks = some t' ∧ f t' = skipping step (f t) ks ∧ Inv t' := by
  induction ks generalizing t with
  | nil => exact ⟨t, rfl, rfl, ht⟩
  | cons k ks ih =>
      obtain ⟨hk, hks⟩ := h
      obtain ⟨t₁, ht₁, hf₁, hinv₁⟩ := hstep t k ht hk
      obtain ⟨t₂, ht₂, hf₂, hinv₂⟩ := ih hinv₁ (hf₁ ▸ hks)
      refine ⟨t₂, ?_, ?_, hinv₂⟩
      · rw [run_cons, ht₁, Option.bind_some, ht₂]
      · rw [hf₂, hf₁, skipping_cons]

/-! ## Programs that make calls -/

/-- The calls of a program that goes over a list, where `emit` says what it makes of an
    element in the state it meets. Behind a call without an outcome there are none. -/
def emitted {A : Type} (emit : σ → A → List κ) : σ → List A → List κ
  | _, [] => []
  | s, a :: as =>
      emit s a ++ ((run step s (emit s a)).elim [] fun s' => emitted emit s' as)

/-- **Call rule.** A program whose rounds change of its state what their calls change goes
    where its calls go. -/
theorem run_emitted {τ A : Type} {conc : τ → A → Option τ} (f : τ → σ) {emit : σ → A → List κ}
    (hround : ∀ t a t', conc t a = some t' → run step (f t) (emit (f t) a) = some (f t'))
    {t t' : τ} {as : List A} (h : run conc t as = some t') :
    run step (f t) (emitted step emit (f t) as) = some (f t') := by
  induction as generalizing t with
  | nil =>
      obtain rfl := Option.some.inj h
      rfl
  | cons a as ih =>
      obtain ⟨t₁, ha, has⟩ := Option.bind_eq_some_iff.mp h
      have hcalls := hround t a t₁ ha
      rw [emitted, hcalls, run_append, hcalls, Option.bind_some]
      exact ih has

/-- Calls of one kind. -/
theorem emitted_forall {A : Type} {P : κ → Prop} {emit : σ → A → List κ}
    (h : ∀ s a, ∀ k ∈ emit s a, P k) {s : σ} {as : List A} :
    ∀ k ∈ emitted step emit s as, P k := by
  induction as generalizing s with
  | nil => exact fun k hk => absurd hk List.not_mem_nil
  | cons a as ih =>
      intro k hk
      rcases List.mem_append.mp hk with hk | hk
      · exact h s a k hk
      · cases hrun : run step s (emit s a) with
        | none =>
            rw [hrun] at hk
            exact absurd hk List.not_mem_nil
        | some s' =>
            rw [hrun] at hk
            exact ih k hk

/-! ## Loops with output -/

/-- The outputs of the rounds of a loop, when every round has an outcome. -/
def gather {A B : Type} (f : A → Option (List B)) : List A → Option (List B)
  | [] => some []
  | a :: l => (f a).bind fun out => (gather f l).map fun rest => out ++ rest

theorem gather_eq {A B : Type} {f : A → Option (List B)} {g : A → List B} {l : List A}
    (h : ∀ a ∈ l, f a = some (g a)) : gather f l = some (l.flatMap g) := by
  induction l with
  | nil => rfl
  | cons a l ih =>
      rw [gather, h a List.mem_cons_self, ih fun b hb => h b (List.mem_cons_of_mem _ hb)]
      rfl

theorem gather_some {A B : Type} {f : A → Option (List B)} {l : List A} {out : List B}
    (h : gather f l = some out) : ∀ a ∈ l, ∃ o, f a = some o := by
  induction l generalizing out with
  | nil => exact fun a ha => absurd ha List.not_mem_nil
  | cons b l ih =>
      obtain ⟨o, ho, hrest⟩ := Option.bind_eq_some_iff.mp h
      obtain ⟨rest, hrest, -⟩ := Option.map_eq_some_iff.mp hrest
      intro a ha
      rcases List.mem_cons.mp ha with rfl | ha
      · exact ⟨o, ho⟩
      · exact ih hrest a ha

end PartialRun
