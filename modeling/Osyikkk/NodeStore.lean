import Mathlib.Algebra.BigOperators.Finprod

/-!
# A store of files and directories

Directories are known by an identity, and a name in a directory leads to a file or to a
directory. A request changes at most the entries it names. The rules are those of the
caller's view: what a name leads to, and how much space is left.

Two facts about whole runs follow from the rules alone. A file stays what it is until its
own name is removed or moved (`Run.entry_kept`), and space is neither lost nor gained
(`Run.space`). A system whose runs are runs of the store has both.
-/

namespace NodeStore

/-- What a name leads to. -/
inductive StoreNode (I B : Type) where
  | file (content : B)
  | directory (id : I)

/-- The entries of all directories, and the units of free space. -/
structure Store (I K B : Type) where
  entry : I × K → Option (StoreNode I B)
  free : ℕ

/-- A request. `read` comes with the units there is room for. -/
inductive Request (I K B : Type) where
  | putFile (d : I) (k : K) (content : B)
  | makeDirectory (d : I) (k : K)
  | remove (d : I) (k : K)
  | move (d : I) (k : K) (q : I)
  | read (d : I) (k : K) (room : ℕ)
  | list (d : I) (k : K)

/-- An answer. A listing says of each name whether it leads to a file or to a directory, and
    to which one. -/
inductive Response (I K B : Type) where
  | done
  | noSpace
  | noSlot
  | notEmpty
  | notFound
  | tooSmall
  | content (b : B)
  | listing (kinds : K → Option (Option I))

variable {I K B : Type}

/-- A file is `none`, a directory its identity. -/
def StoreNode.kind : StoreNode I B → Option I
  | .file _ => none
  | .directory x => some x

variable [DecidableEq I] [DecidableEq K]

/-- The store with another entry and other free space. -/
def Store.set (s : Store I K B) (p : I × K) (n : Option (StoreNode I B)) (free : ℕ) :
    Store I K B where
  entry := Function.update s.entry p n
  free := free

/-- One request and its answer. -/
inductive Step (units : B → ℕ) (s : Store I K B) :
    Request I K B → Response I K B → Store I K B → Prop where
  | stored {d : I} {k : K} {b : B} : s.entry (d, k) = none → units b ≤ s.free →
      Step units s (.putFile d k b) .done (s.set (d, k) (some (.file b)) (s.free - units b))
  | noSpaceFile {d : I} {k : K} {b : B} : s.free < units b →
      Step units s (.putFile d k b) .noSpace s
  | made {d x : I} {k : K} : s.entry (d, k) = none → (∀ k', s.entry (x, k') = none) →
      (∀ p, s.entry p ≠ some (.directory x)) → 1 ≤ s.free →
      Step units s (.makeDirectory d k) .done
        (s.set (d, k) (some (.directory x)) (s.free - 1))
  | noSpaceDirectory {d : I} {k : K} : s.free = 0 →
      Step units s (.makeDirectory d k) .noSpace s
  | removedFile {d : I} {k : K} {b : B} : s.entry (d, k) = some (.file b) →
      Step units s (.remove d k) .done (s.set (d, k) none (s.free + units b))
  | removedDirectory {d x : I} {k : K} : s.entry (d, k) = some (.directory x) →
      (∀ k', s.entry (x, k') = none) →
      Step units s (.remove d k) .done (s.set (d, k) none (s.free + 1))
  | notEmpty {d x : I} {k k' : K} : s.entry (d, k) = some (.directory x) →
      s.entry (x, k') ≠ none → Step units s (.remove d k) .notEmpty s
  | nothingRemoved {d : I} {k : K} : s.entry (d, k) = none →
      Step units s (.remove d k) .notFound s
  | moved {d q : I} {k : K} {n : StoreNode I B} : s.entry (d, k) = some n →
      s.entry (q, k) = none →
      Step units s (.move d k q) .done
        ((s.set (d, k) none s.free).set (q, k) (some n) s.free)
  | notMoved {d q : I} {k : K} : Step units s (.move d k q) .noSlot s
  | found {d : I} {k : K} {room : ℕ} {b : B} : s.entry (d, k) = some (.file b) →
      units b ≤ room → Step units s (.read d k room) (.content b) s
  | tooSmall {d : I} {k : K} {room : ℕ} {b : B} : s.entry (d, k) = some (.file b) →
      room < units b → Step units s (.read d k room) .tooSmall s
  | nothingRead {d : I} {k : K} {room : ℕ} : s.entry (d, k) = none →
      Step units s (.read d k room) .notFound s
  | listed {d x : I} {k : K} : s.entry (d, k) = some (.directory x) →
      Step units s (.list d k) (.listing fun k' => (s.entry (x, k')).map StoreNode.kind) s
  | nothingListed {d : I} {k : K} : (∀ x, s.entry (d, k) ≠ some (.directory x)) →
      Step units s (.list d k) .notFound s

/-- Requests with their answers, one after another. -/
inductive Run (units : B → ℕ) :
    Store I K B → List (Request I K B × Response I K B) → Store I K B → Prop where
  | nil {s : Store I K B} : Run units s [] s
  | cons {s s₁ s' : Store I K B} {request : Request I K B} {response : Response I K B}
      {rest : List (Request I K B × Response I K B)} :
      Step units s request response s₁ → Run units s₁ rest s' →
      Run units s ((request, response) :: rest) s'

variable {units : B → ℕ} {s s' s'' : Store I K B} {request : Request I K B}
  {response : Response I K B} {trace trace' : List (Request I K B × Response I K B)}

theorem Run.append (h : Run units s trace s') (h' : Run units s' trace' s'') :
    Run units s (trace ++ trace') s'' := by
  induction h with
  | nil => exact h'
  | cons hstep _ ih => exact .cons hstep (ih h')

/-! ## Files stay -/

/-- The request removes the name or moves it away. -/
def Request.TakesAway (p : I × K) : Request I K B → Prop
  | .remove d k => (d, k) = p
  | .move d k _ => (d, k) = p
  | _ => False

theorem set_entry_of_ne (s : Store I K B) {p p' : I × K} (n : Option (StoreNode I B)) (free : ℕ)
    (h : p' ≠ p) : (s.set p n free).entry p' = s.entry p' := Function.update_of_ne h ..

theorem set_entry_self (s : Store I K B) (p : I × K) (n : Option (StoreNode I B)) (free : ℕ) :
    (s.set p n free).entry p = n := Function.update_self ..

/-- An entry stays where it is when nothing takes it away: new entries go to free names. -/
theorem Step.entry_kept {p : I × K} {n : StoreNode I B} (h : Step units s request response s')
    (hp : s.entry p = some n) (htake : ¬ request.TakesAway p) : s'.entry p = some n := by
  have hfresh : ∀ p', s.entry p' = none → p ≠ p' := by
    rintro p' hnone rfl
    rw [hnone] at hp
    cases hp
  cases h with
  | stored hnone _ => rw [set_entry_of_ne _ _ _ (hfresh _ hnone), hp]
  | made hnone _ _ _ => rw [set_entry_of_ne _ _ _ (hfresh _ hnone), hp]
  | removedFile _ => rw [set_entry_of_ne _ _ _ (Ne.symm htake), hp]
  | removedDirectory _ _ => rw [set_entry_of_ne _ _ _ (Ne.symm htake), hp]
  | moved _ hnone =>
      rw [set_entry_of_ne _ _ _ (hfresh _ hnone), set_entry_of_ne _ _ _ (Ne.symm htake), hp]
  | noSpaceFile _ | noSpaceDirectory _ | notEmpty _ _ | nothingRemoved _ | notMoved | found _ _
  | tooSmall _ _ | nothingRead _ | listed _ | nothingListed _ => exact hp

/-- **Entries stay over runs.** -/
theorem Run.entry_kept {p : I × K} {n : StoreNode I B} (h : Run units s trace s')
    (hp : s.entry p = some n) (htake : ∀ e ∈ trace, ¬ e.1.TakesAway p) :
    s'.entry p = some n := by
  induction h with
  | nil => exact hp
  | cons hstep _ ih =>
      exact ih (hstep.entry_kept hp (htake _ List.mem_cons_self))
        fun e he => htake e (List.mem_cons_of_mem _ he)

/-! ## Space -/

/-- The units an entry takes. -/
def cost (units : B → ℕ) : Option (StoreNode I B) → ℕ
  | none => 0
  | some (.file b) => units b
  | some (.directory _) => 1

/-- The units all entries take. -/
noncomputable def Store.used (units : B → ℕ) (s : Store I K B) : ℕ :=
  ∑ᶠ p, cost units (s.entry p)

/-- Finitely many entries take space. -/
def Store.Finite (units : B → ℕ) (s : Store I K B) : Prop :=
  (Function.support fun p => cost units (s.entry p)).Finite

theorem cost_set (s : Store I K B) (p : I × K) (n : Option (StoreNode I B)) (free : ℕ) :
    (fun p' => cost units ((s.set p n free).entry p'))
      = Function.update (fun p' => cost units (s.entry p')) p (cost units n) := by
  funext p'
  exact Function.apply_update (fun _ => cost units) s.entry p n p'

theorem Store.Finite.set (h : s.Finite units) (p : I × K) (n : Option (StoreNode I B))
    (free : ℕ) :
    (s.set p n free).Finite units := by
  rw [Store.Finite, cost_set]
  refine (h.insert p).subset ?_
  intro p' hp'
  by_cases hpp : p' = p
  · exact Set.mem_insert_iff.mpr (Or.inl hpp)
  · refine Set.mem_insert_iff.mpr (Or.inr ?_)
    rw [Function.mem_support, Function.update_of_ne hpp] at hp'
    exact hp'

/-- One more value changes the sum by the difference. -/
theorem finsum_update {α : Type} [DecidableEq α] (f : α → ℕ) (hf : f.support.Finite) (a : α)
    (v : ℕ) : ∑ᶠ x, Function.update f a v x + f a = ∑ᶠ x, f x + v := by
  set t : Finset α := insert a hf.toFinset with ht
  have hsub : f.support ⊆ t := by
    intro x hx
    exact Finset.mem_coe.mpr (Finset.mem_insert_of_mem (hf.mem_toFinset.mpr hx))
  have hsub' : (Function.update f a v).support ⊆ t := by
    intro x hx
    by_cases hxa : x = a
    · exact Finset.mem_coe.mpr (hxa ▸ Finset.mem_insert_self a _)
    · rw [Function.mem_support, Function.update_of_ne hxa] at hx
      exact hsub hx
  have ha : a ∈ t := Finset.mem_insert_self a _
  rw [finsum_eq_sum_of_support_subset _ hsub, finsum_eq_sum_of_support_subset _ hsub',
    Finset.sum_update_of_mem ha, Finset.sum_eq_add_sum_sdiff_singleton_of_mem ha f]
  omega

/-- The sum behind a changed entry. -/
theorem used_set (h : s.Finite units) (p : I × K) (n : Option (StoreNode I B)) (free : ℕ) :
    (s.set p n free).used units + cost units (s.entry p) = s.used units + cost units n := by
  rw [Store.used, Store.used, cost_set]
  exact finsum_update _ h p (cost units n)

theorem Step.finite (h : Step units s request response s') (hfin : s.Finite units) :
    s'.Finite units := by
  cases h with
  | stored _ _ | made _ _ _ _ | removedFile _ | removedDirectory _ _ => exact hfin.set _ _ _
  | moved _ _ => exact (hfin.set _ _ _).set _ _ _
  | noSpaceFile _ | noSpaceDirectory _ | notEmpty _ _ | nothingRemoved _ | notMoved | found _ _
  | tooSmall _ _ | nothingRead _ | listed _ | nothingListed _ => exact hfin

/-- No request loses or gains space. -/
theorem Step.space (h : Step units s request response s') (hfin : s.Finite units) :
    s'.free + s'.used units = s.free + s.used units := by
  cases h with
  | @stored d k b hnone hle =>
      have hsum := used_set hfin (d, k) (some (.file b)) (s.free - units b)
      rw [hnone] at hsum
      simp only [cost, Store.set] at hsum ⊢
      omega
  | @made d x k hnone _ _ hle =>
      have hsum := used_set hfin (d, k) (some (.directory x)) (s.free - 1)
      rw [hnone] at hsum
      simp only [cost, Store.set] at hsum ⊢
      omega
  | @removedFile d k b hfile =>
      have hsum := used_set hfin (d, k) none (s.free + units b)
      rw [hfile] at hsum
      simp only [cost, Store.set] at hsum ⊢
      omega
  | @removedDirectory d x k hdir _ =>
      have hsum := used_set hfin (d, k) none (s.free + 1)
      rw [hdir] at hsum
      simp only [cost, Store.set] at hsum ⊢
      omega
  | @moved d q k n hn hnone =>
      -- the entry leaves one place and goes to another
      have hsum := used_set hfin (d, k) none s.free
      have hsum' := used_set (hfin.set (d, k) none s.free) (q, k) (some n) s.free
      have hne : (q, k) ≠ (d, k) := by
        intro heq
        rw [heq, hn] at hnone
        cases hnone
      rw [set_entry_of_ne _ _ _ hne, hnone] at hsum'
      rw [hn] at hsum
      simp only [cost, Store.set] at hsum hsum' ⊢
      omega
  | noSpaceFile _ | noSpaceDirectory _ | notEmpty _ _ | nothingRemoved _ | notMoved | found _ _
  | tooSmall _ _ | nothingRead _ | listed _ | nothingListed _ => rfl

/-- **Space over runs.** -/
theorem Run.space (h : Run units s trace s') (hfin : s.Finite units) :
    s'.Finite units ∧ s'.free + s'.used units = s.free + s.used units := by
  induction h with
  | nil => exact ⟨hfin, rfl⟩
  | cons hstep _ ih =>
      obtain ⟨hfin', hspace⟩ := ih (hstep.finite hfin)
      exact ⟨hfin', hspace.trans (hstep.space hfin)⟩

end NodeStore
