import Osyikkk.CopyTreeProofs
import Osyikkk.SlotFilling
import Mathlib.Algebra.Order.BigOperators.Group.List

/-!
# Copies under coinciding names

Whatever `copy_folder` does after its lookups have gone wrong, it does with `write`, which
only fills slots (`copyFolder_filled`). So what goes wrong early is there at the end.

* A directory that carries the name of one of its own directories is found in place of it,
  again and again, until no cell is free (`copyFolder_loops`).
* A destination that carries the name of the copy is taken for the copy and gets the entries
  of the source (`copyFolder_spilled`).
-/

namespace OsyShell

open OsyDisk OsyFat32 OsyVolume LinkedChain RootedForest PartialRun

variable {locals : Locals} {fs fs' : FileSystem} {s s' : Shell} {p q c d x δ : UInt32}
  {i j : Fin directoryEntryCount} {n depth : ℕ} {name : EntryName} {t : FAT32DirectoryTable}

/-! ## What every call leaves -/

theorem copyFile_filled {ext : EntryExt} {size : UInt32}
    (h : copyFile locals name ext size p d s = some s') : Filled s.fs s'.fs := by
  obtain ⟨⟨code, buf⟩, -, h⟩ := Option.bind_eq_some_iff.mp h
  by_cases hcode : code = 0
  · subst hcode
    obtain ⟨⟨code, fs₁⟩, hwrite, h⟩ := Option.bind_eq_some_iff.mp h
    have hfilled := write_filled hwrite
    by_cases hcode : code = 0
    · subst hcode
      obtain rfl := Option.some.inj h
      exact hfilled
    · dsimp only at h
      rw [if_pos hcode] at h
      obtain rfl := Option.some.inj h
      exact hfilled
  · dsimp only at h
    rw [if_pos hcode] at h
    obtain rfl := Option.some.inj h
    exact Filled.refl s.fs

/-- What a call of `copy_folder` with room for one more does, whatever its lookups find: it
    writes a directory, and on success it goes over the slots of the table it has read. -/
theorem copyFolder_cases (h : copyFolder locals (depth + 1) name p d s = some s') :
    ∃ t code fs₁, t = (readDirectoryTable name p locals.reqTable s.fs).2 ∧
      OsyFat32.write locals.newTable (folderRequest t name d) s.fs = some (code, fs₁) ∧
      (code ≠ 0 ∧ s'.fs = fs₁ ∨ code = 0 ∧ ∃ s₁ : Shell, s₁.fs = fs₁ ∧
        run (copySlot locals (copyFolder locals depth) t
          (readDirectoryTable name d locals.copiedTable fs₁).2) s₁ (slotsFrom 1) = some s') := by
  obtain ⟨found, t, opened, code, fs₁, hread, -, hwrite, h⟩ := copyFolder_step.mp h
  refine ⟨t, code, fs₁, congrArg Prod.snd hread.symm, hwrite, ?_⟩
  by_cases hcode : code = 0
  · subst hcode
    exact Or.inr ⟨rfl, _, rfl, h⟩
  · rw [if_pos hcode] at h
    obtain rfl := Option.some.inj h
    exact Or.inl ⟨hcode, rfl⟩

theorem copySlot_filled {copyDirectory : EntryName → UInt32 → UInt32 → Shell → Option Shell}
    {newTable : FAT32DirectoryTable}
    (hcopy : ∀ {name p d s s'}, copyDirectory name p d s = some s' → Filled s.fs s'.fs)
    (h : copySlot locals copyDirectory t newTable s i = some s') : Filled s.fs s'.fs := by
  rw [copySlot] at h
  split at h
  · split at h
    · exact hcopy h
    · exact copyFile_filled h
  · obtain rfl := Option.some.inj h
    exact Filled.refl _

theorem copySlots_filled {copyDirectory : EntryName → UInt32 → UInt32 → Shell → Option Shell}
    {newTable : FAT32DirectoryTable} {ks : List (Fin directoryEntryCount)}
    (hcopy : ∀ {name p d s s'}, copyDirectory name p d s = some s' → Filled s.fs s'.fs)
    (h : run (copySlot locals copyDirectory t newTable) s ks = some s') :
    Filled s.fs s'.fs := by
  have hstep : ∀ (s₁ : Shell) k s₂, Filled s.fs s₁.fs → True →
      copySlot locals copyDirectory t newTable s₁ k = some s₂ → Filled s.fs s₂.fs :=
    fun _ _ _ hs _ hround => hs.trans (copySlot_filled hcopy hround)
  exact run_invariant _ hstep (Filled.refl s.fs)
    (guarded_of_forall _ (fun _ _ _ => trivial) s) h

/-- **A call of `copy_folder` only fills, wherever its lookups lead.** -/
theorem copyFolder_filled (h : copyFolder locals depth name p d s = some s') :
    Filled s.fs s'.fs := by
  induction depth generalizing name p d s s' with
  | zero => exact absurd h (Option.some_ne_none s').symm
  | succ depth ih =>
      obtain ⟨t, code, fs₁, -, hwrite, ⟨-, rfl⟩ | ⟨-, s₁, rfl, hrun⟩⟩ := copyFolder_cases h
      · exact write_filled hwrite
      · exact (write_filled hwrite).trans (copySlots_filled ih hrun)

/-! ## Directories that carry the name of their entry -/

/-- The lookup of the directory just made in a directory that catches the name leads to one
    that does so, too. -/
theorem catches_next {newTable old : FAT32DirectoryTable} (hname : name ≠ fun _ => 0)
    (h : Catches fs name δ) (hc : c ∈ freeCells fs.fat) :
    Catches (directoryWritten newTable (folderRequest t name δ) fs c) name
      ((readDirectoryTable name δ old
        (directoryWritten newTable (folderRequest t name δ) fs c)).2 0).cluster := by
  let request := folderRequest t name δ
  have hfilled : Filled fs (directoryWritten newTable request fs c) := directoryWritten_filled hc
  by_cases hfull : ∀ k, (fs.table δ k).used
  · -- slot 0 is replaced by the new directory, which names itself
    have hnamed : NamedAt (directoryWritten newTable request fs c).table δ name
        (writeSlot request fs) c := directoryWritten_named_full rfl hfull
    obtain ⟨hc2, hfree⟩ := mem_freeCells.mp hc
    have hlt := clusterMapGet_lt hfree
    have hplace : drivePlace c ≠ drivePlace request.parentClusterNumber :=
      drivePlace_ne hlt h.claimed.2.1 (h.claimed.ne_free hfree).symm
    have htable : (directoryWritten newTable request fs c).table c
        = initDirectoryTable newTable name c := directoryWritten_ownTable hc hplace
    obtain ⟨hused, hattr, hn, hcluster⟩ := initDirectoryTable_self newTable name c
    rw [readDirectoryTable_found old (findTable_of_named hname hnamed), htable, hcluster]
    constructor
    case claimed =>
      refine ⟨hc2, hlt, ?_⟩
      rw [directoryWritten_fat, clusterMapGet_setCell_self _ _ hlt]
      decide
    case self =>
      left
      constructor
      case used => exact htable.symm ▸ hused
      case named => exact htable.symm ▸ ⟨hn, hattr⟩
      case cluster => exact htable.symm ▸ hcluster
  · have hself := h.self.resolve_right hfull
    have hslot : 0 ≠ writeSlot request fs := by
      intro h0
      have h0' : 0 = idxEmpty (fs.table δ) := h0
      rcases idxEmpty_spec (fs.table δ) with hun | ⟨-, hall⟩
      · exact hun (h0' ▸ hself.used)
      · exact hfull hall
    have h0 : (directoryWritten newTable request fs c).table δ 0 = fs.table δ 0 :=
      directoryWritten_slot_ne hslot
    have hself' : SelfNamed (directoryWritten newTable request fs c) δ name := by
      constructor
      case used => exact h0.symm ▸ hself.used
      case named => exact h0.symm ▸ hself.named
      case cluster => exact h0.symm ▸ hself.cluster
    rw [readDirectoryTable_found old (findTable_of_named hname hself'.namedAt), hself'.cluster]
    exact hfilled.catches h

/-- A loop over the slots comes to the slot `i`. -/
theorem copySlots_lost {newTable : FAT32DirectoryTable}
    (hcopy : ∀ {s s' δ}, Loops s.fs q i name δ →
      copyFolder locals depth name q δ s = some s' → Lost s'.fs q)
    (hq : Loops s.fs q i name (newTable 0).cluster) (ht : (t 0).cluster = q)
    (hslot : t i = s.fs.table q i)
    (h : run (copySlot locals (copyFolder locals depth) t newTable) s (slotsFrom 1) = some s') :
    Lost s'.fs q := by
  obtain ⟨before, after, s₁, s₂, -, hbefore, hround, hafter⟩ :=
    run_mem _ (mem_slotsFrom_one.mpr hq.slot) h
  have h₁ : Filled s.fs s₁.fs := copySlots_filled copyFolder_filled hbefore
  have h₂ : Filled s₁.fs s₂.fs := copySlot_filled copyFolder_filled hround
  have hclaimed : Claimed s₂.fs q := h₂.claimed (h₁.claimed hq.claimed)
  refine (copySlots_filled copyFolder_filled hafter).lost hclaimed ?_
  rcases h₁.loops hq with hq₁ | hlost
  · refine hcopy hq₁ ?_
    rw [copySlot_directory (hslot ▸ hq.used) (hslot ▸ hq.named.2), ht, hslot,
      hq.named.1] at hround
    exact hround
  · exact h₂.lost (h₁.claimed hq.claimed) hlost

/-- **The same directory is copied again and again, until nothing can be made.** -/
theorem copyFolder_loops (hname : name ≠ fun _ => 0) (hq : Loops s.fs q i name δ)
    (h : copyFolder locals depth name q δ s = some s') : Lost s'.fs q := by
  induction depth generalizing δ s s' with
  | zero => exact absurd h (Option.some_ne_none s').symm
  | succ depth ih =>
      obtain ⟨t, code, fs₁, ht, hwrite, hdone⟩ := copyFolder_cases h
      rw [readDirectoryTable_found _ (findTable_of_named hname hq.self.namedAt)] at ht
      subst ht
      have hfilled := write_filled hwrite
      rcases write_directory_cases hname hq.dest.claimed.1 rfl hwrite with
        ⟨hcode, hnil⟩ | ⟨rfl, c, hc, rfl⟩
      · rcases hdone with ⟨-, rfl⟩ | ⟨h0, -⟩
        · exact Or.inl hnil
        · exact absurd h0 hcode
      · rcases hdone with ⟨h0, -⟩ | ⟨-, s₁, hs₁, hrun⟩
        · exact absurd rfl h0
        rw [← hs₁] at hfilled hrun
        rcases hfilled.loops hq with hq₁ | hlost
        · have hslot := hfilled.slots hq.claimed hq.slot hq.used
          have hdest : Catches s₁.fs name
              ((readDirectoryTable name δ locals.copiedTable s₁.fs).2 0).cluster := by
            rw [hs₁]
            exact catches_next hname hq.dest hc
          exact copySlots_lost ih { hq₁ with dest := hdest } hq.self.cluster hslot.symm hrun
        · exact (copySlots_filled copyFolder_filled hrun).lost
            (hfilled.claimed hq.claimed) hlost

/-- The first entry whose copy goes wrong. -/
theorem exists_namesake {tbl : Tables} (h : ¬ NoNamesake tbl x) :
    ∃ before k after, slotsFrom 1 = before ++ k :: after ∧
      (∃ y, dirEdge tbl x k y ∧ ((tbl x k).name = (tbl x 0).name ∨ ¬ NoNamesake tbl y)) ∧
      ∀ j ∈ before, ∀ y, dirEdge tbl x j y →
        (tbl x j).name ≠ (tbl x 0).name ∧ NoNamesake tbl y := by
  have hbad : ∃ k ∈ slotsFrom 1, ∃ y, dirEdge tbl x k y ∧
      ((tbl x k).name = (tbl x 0).name ∨ ¬ NoNamesake tbl y) := by
    by_contra hnone
    refine h (noNamesake_of_children ?_)
    intro k y he
    constructor
    · intro hname
      exact hnone ⟨k, mem_slotsFrom_one.mpr he.1, y, he, Or.inl hname⟩
    · by_contra hno
      exact hnone ⟨k, mem_slotsFrom_one.mpr he.1, y, he, Or.inr hno⟩
  obtain ⟨before, k, after, hsplit, hk, hfine⟩ := first_call hbad
  refine ⟨before, k, after, hsplit, hk, ?_⟩
  intro j hj y he
  constructor
  · exact fun hname => hfine j hj ⟨y, he, Or.inl hname⟩
  · by_contra hno
    exact hfine j hj ⟨y, he, Or.inr hno⟩

/-- An entry with the name of its own directory is to be copied into the copy of that
    directory, which has the name as well. -/
theorem CopyLoop.loops {fs₁ fs₂ : FileSystem} {y : UInt32}
    {before : List (Fin directoryEntryCount)} (hstart : LoopStart fs₁ n x c)
    (hself : (fs₁.table c 0).attr = attrSubdirectory ∧ (fs₁.table c 0).cluster = c)
    (h : CopyLoop fs₁ n x c before fs₂) (he : dirEdge fs₁.table x i y)
    (hname : (fs₁.table x i).name = (fs₁.table x 0).name) :
    Loops fs₂ x i (fs₁.table x i).name c := by
  have hcons := h.grown.wellFormed.consistent
  have hx := h.grown.live hstart.source
  have hc := h.grown.live hstart.dest
  have hx₁ := hstart.intact x Reach.root
  have htable := h.source_kept hstart
  have hslot := h.grown.self hstart.dest
  constructor
  case claimed => exact claimed_of_live hcons hx
  case self =>
    refine ⟨hcons.selfUsed hx, ?_, ?_⟩
    · rw [htable]
      exact ⟨hname.symm, hx₁.self.1⟩
    · rw [htable]
      exact hx₁.self.2
  case slot => exact he.1
  case used => exact htable.symm ▸ he.2.1
  case named => exact htable.symm ▸ ⟨rfl, he.2.2.1⟩
  case dest =>
    refine ⟨claimed_of_live hcons hc, Or.inl ⟨hcons.selfUsed hc, ?_, ?_⟩⟩
    · rw [hslot]
      exact ⟨hstart.name.trans hname.symm, hself.1⟩
    · rw [hslot]
      exact hself.2

/-- **A directory below that carries the name of one of its own is lost.** -/
theorem copyFolder_lost (hzero : ∀ i, i ≠ 0 → locals.newTable i = FAT32DirectoryEntry.zero)
    (hn : n ≤ depth) (hin : FolderInput s.fs n p i x d) (hshallow : Shallow s.fs.table n x)
    (hsource : ¬ IsDirectory (s.fs.table p i).name (s.fs.table p 0))
    (hdest : ¬ IsDirectory (s.fs.table p i).name (s.fs.table d 0))
    (hbelow : ¬ NoNamesake s.fs.table x)
    (h : copyFolder locals depth (s.fs.table p i).name p d s = some s') :
    ∃ q, Reach (dirEdge s.fs.table) x q ∧ Lost s'.fs q := by
  induction n generalizing depth s s' p i x d with
  | zero => exact absurd (hshallow [] x Path.root) (Nat.not_lt_zero _)
  | succ n ih =>
      obtain ⟨depth, rfl⟩ : ∃ k, depth = k + 1 := ⟨depth - 1, by omega⟩
      have hn : n ≤ depth := Nat.le_of_succ_le_succ hn
      obtain ⟨fs₁, c, hmade, hcall⟩ := hin.begins hzero (readDirectoryTable_found _
        (findTable_of_named hin.named (hin.found hsource)))
      have hx : Live s.fs.table x := Reach.child hin.source hin.edge
      have hstart := hin.loopStart hmade hshallow
      have hx₁ := hstart.intact x Reach.root
      rw [hcall, hin.newTable hmade hdest, ← hmade.grown.table_kept hx hin.apart Reach.root] at h
      -- up to the first entry whose copy goes wrong the loop does what it should
      obtain ⟨before, k, after, hsplit, ⟨y, he, hcoincide⟩, hfine⟩ :=
        exists_namesake fun hfine => hbelow ((noNamesake_kept hmade.grown hx hin.apart).mp hfine)
      have hfront : before ++ [k] <+: slotsFrom 1 := by
        rw [hsplit]
        exact ⟨after, by rw [List.append_assoc, List.singleton_append]⟩
      have hnew : ∀ j, j ≠ 0 → (fs₁.table x j).used → (fs₁.table c 0).cluster = c :=
        fun _ _ _ => hmade.self.2
      obtain ⟨fs₂, hrun, hloop⟩ := CopyLoop.run (s := s) hstart (copyFolder_copied hzero hn)
        ((List.prefix_append before [k]).trans hfront) hnew hfine
      rw [hsplit, run_append, hrun, Option.bind_some, run_cons] at h
      obtain ⟨s₃, hround, hafter⟩ := Option.bind_eq_some_iff.mp h
      rw [copySlot_directory he.2.1 he.2.2.1, hx₁.self.2, hmade.self.2] at hround
      -- what is lost then is lost at the end
      have hrest : ∀ q, Reach (dirEdge fs₁.table) x q → Lost s₃.fs q →
          ∃ q, Reach (dirEdge s.fs.table) x q ∧ Lost s'.fs q := by
        intro q hq hlost
        have hq₂ : Live fs₂.table q := hloop.grown.live (reach_trans hstart.source hq)
        have hclaimed := (copyFolder_filled hround).claimed
          (claimed_of_live hloop.grown.wellFormed.consistent hq₂)
        exact ⟨q, (hmade.grown.reach_kept hx hin.apart q).mp hq,
          (copySlots_filled copyFolder_filled hafter).lost hclaimed hlost⟩
      by_cases hname : (fs₁.table x k).name = (fs₁.table x 0).name
      · have hloops := hloop.loops hstart ⟨hmade.self.1.2, hmade.self.2⟩ he hname
        have hnamed := hx₁.named (usedSlot_of_dirEdge hstart.source he)
        exact hrest x Reach.root (copyFolder_loops hnamed hloops hround)
      · have hy : Live fs₁.table y := Reach.child hstart.source he
        have hxy : Reach (dirEdge fs₁.table) x y := Reach.child Reach.root he
        have hapart : ¬ Reach (dirEdge fs₁.table) y c :=
          fun hr => hstart.apart (reach_trans hxy hr)
        have htable := hloop.source_kept hstart
        have hself := hloop.grown.self hstart.dest
        have hbelow' : ¬ NoNamesake fs₂.table y := fun hfine =>
          hcoincide.resolve_left hname ((noNamesake_kept hloop.grown hy hapart).mp hfine)
        have hsource' : ¬ IsDirectory (fs₂.table x k).name (fs₂.table x 0) := by
          rw [htable]
          exact fun hdir => hname hdir.1.symm
        have hdest' : ¬ IsDirectory (fs₂.table x k).name (fs₂.table c 0) := by
          rw [htable, hself]
          exact fun hdir => hname (hdir.1.symm.trans hstart.name)
        rw [← htable] at hround
        obtain ⟨q, hq, hlost⟩ := ih (s := { s with fs := fs₂ }) hn
          (hloop.input hstart hfront he) (hloop.shallow hstart he) hsource' hdest' hbelow' hround
        exact hrest q (reach_trans hxy ((hloop.grown.reach_kept hy hapart q).mp hq)) hlost

/-- **A source directory that carries the name of the copied one is lost.** -/
theorem copyFolder_source_lost
    (hzero : ∀ i, i ≠ 0 → locals.newTable i = FAT32DirectoryEntry.zero)
    (hin : FolderInput s.fs (n + 1) p i x d) (hp : (s.fs.table p 0).cluster = p)
    (hd : (s.fs.table d 0).cluster = d)
    (hsource : IsDirectory (s.fs.table p i).name (s.fs.table p 0))
    (h : copyFolder locals (depth + 1) (s.fs.table p i).name p d s = some s') :
    Lost s'.fs p := by
  have hcons := hin.wellFormed.consistent
  have hself : SelfNamed s.fs p (s.fs.table p i).name := ⟨hcons.selfUsed hin.source, hsource, hp⟩
  have hnamed : IsDirectory (s.fs.table p i).name (s.fs.table p i) := ⟨rfl, hin.edge.2.2.1⟩
  have hsp := usedSlot_of_dirEdge hin.source hin.edge
  by_cases hdest : IsDirectory (s.fs.table p i).name (s.fs.table d 0)
  · have hloops : Loops s.fs p i (s.fs.table p i).name d :=
      ⟨claimed_of_live hcons hin.source, hself, hin.edge.1, hin.edge.2.1, hnamed,
        claimed_of_live hcons hin.dest, Or.inl ⟨hcons.selfUsed hin.dest, hdest, hd⟩⟩
    exact copyFolder_loops hin.named hloops h
  · obtain ⟨fs₁, c, hmade, hcall⟩ := hin.begins hzero (readDirectoryTable_found _
      (findTable_of_named hin.named hself.namedAt))
    have hcons₁ := hmade.grown.wellFormed.consistent
    have hslot := hmade.grown.slots hsp
    have hslot0 := hmade.grown.self hin.source
    rw [hcall, hin.newTable hmade hdest] at h
    refine copySlots_lost (fun hq hcopy => copyFolder_loops hin.named hq hcopy) ?_ hp hslot.symm h
    constructor
    case claimed => exact claimed_of_live hcons₁ (hmade.grown.live hin.source)
    case self =>
      exact ⟨hcons₁.selfUsed (hmade.grown.live hin.source), hslot0.symm ▸ hsource,
        hslot0.symm ▸ hp⟩
    case slot => exact hin.edge.1
    case used => exact hslot.symm ▸ hin.edge.2.1
    case named => exact hslot.symm ▸ hnamed
    case dest =>
      rw [hmade.self.2]
      exact ⟨claimed_of_live hcons₁ hmade.live,
        Or.inl ⟨hcons₁.selfUsed hmade.live, hmade.self.1, hmade.self.2⟩⟩

/-! ## Destinations that carry the name of the copy -/

/-- More than the first unused slot of the directory was filled, or it is lost. -/
def Spilled (fs fs' : FileSystem) (d : UInt32) : Prop :=
  (∃ k, k ≠ 0 ∧ k ≠ idxEmpty (fs.table d) ∧ ¬ (fs.table d k).used ∧ (fs'.table d k).used) ∨
    Lost fs' d

theorem spilled_kept {fs₁ fs₂ : FileSystem} (h : Filled fs₁ fs₂) (hd : Claimed fs₁ d)
    (hspilled : Spilled fs fs₁ d) : Spilled fs fs₂ d := by
  rcases hspilled with ⟨k, h0, hne, hun, hused⟩ | hlost
  · refine Or.inl ⟨k, h0, hne, hun, ?_⟩
    rw [h.slots hd h0 hused]
    exact hused
  · exact Or.inr (h.lost hd hlost)

/-- A second entry after the first one. -/
theorem spilled_of_edits {fs₁ fs₂ : FileSystem} {e₁ e₂ : FAT32DirectoryEntry}
    (h₁ : fs₁.table d = Function.update (fs.table d) (idxEmpty (fs.table d)) e₁)
    (hused₁ : e₁.used)
    (h₂ : fs₂.table d = Function.update (fs₁.table d) (idxEmpty (fs₁.table d)) e₂)
    (hused₂ : e₂.used) (hne : e₂.cluster ≠ d) : Spilled fs fs₂ d := by
  by_cases h0 : idxEmpty (fs₁.table d) = 0
  · refine Or.inr (Or.inr ?_)
    rw [h₂, h0, Function.update_self]
    exact ⟨hused₂, hne⟩
  · have hun := (idxEmpty_spec (fs₁.table d)).resolve_right fun hfull => h0 hfull.1
    generalize idxEmpty (fs₁.table d) = k at h0 hun h₂
    have hk : k ≠ idxEmpty (fs.table d) := by
      rintro rfl
      rw [h₁, Function.update_self] at hun
      exact hun hused₁
    rw [h₁, Function.update_of_ne hk] at hun
    refine Or.inl ⟨k, h0, hk, hun, ?_⟩
    rw [h₂, Function.update_self]
    exact hused₂

/-- A round over an entry of an intact directory first writes to the destination, unless no
    cell is free. -/
theorem copySlot_writes {newTable : FAT32DirectoryTable} (hcons : FsConsistent s.fs)
    (hx : IntactDirectory s.fs x) (hs : UsedSlot s.fs.table x i) (hd : Live s.fs.table d)
    (hcells : (s.fs.table x i).attr = attrArchive →
      (s.fs.table x i).filesize.toNat / clusterSize ≤ (freeCells s.fs.fat).length)
    (hdest : (newTable 0).cluster = d)
    (h : copySlot locals (copyFolder locals depth) (s.fs.table x) newTable s i = some s') :
    ∃ fs₁, Claimed fs₁ d ∧ Filled fs₁ s'.fs ∧ (freeCells fs₁.fat = [] ∨
      ∃ e : FAT32DirectoryEntry, e.used ∧ e.cluster ≠ d ∧
        fs₁.table d = Function.update (s.fs.table d) (idxEmpty (s.fs.table d)) e) := by
  have hclaimed := claimed_of_live hcons hd
  rcases hx.kinds hs with hattr | hattr
  · rw [copySlot_directory hs.used hattr, hx.self.2, hdest] at h
    cases depth with
    | zero => exact absurd h (Option.some_ne_none s').symm
    | succ depth =>
        obtain ⟨t, code, fs₁, -, hwrite, hdone⟩ := copyFolder_cases h
        refine ⟨fs₁, (write_filled hwrite).claimed hclaimed, ?_, ?_⟩
        · rcases hdone with ⟨-, rfl⟩ | ⟨-, s₁, rfl, hrun⟩
          · exact Filled.refl _
          · exact copySlots_filled copyFolder_filled hrun
        · rcases write_directory_cases (hx.named hs) hclaimed.1 rfl hwrite with
            ⟨-, hnil⟩ | ⟨-, c, hc, rfl⟩
          · exact Or.inl hnil
          · refine Or.inr ⟨directoryEntry (folderRequest t _ d) s.fs c, rfl, ?_,
              flush_table_parent _ _ _ _⟩
            rw [directoryEntry_cluster]
            exact (hclaimed.ne_free (mem_freeCells.mp hc).2).symm
  · obtain ⟨l, hl, hne, -⟩ := hcons.chain hs
    have hread := hx.readable hcons hs hattr hl hne
    obtain ⟨first, rest, htake, hrun⟩ :=
      hread.stored locals hcons hd (hread.sized ▸ hcells hattr)
    rw [copySlot_file hs.used hattr, hx.self.2, hdest, hrun] at h
    obtain rfl := Option.some.inj h
    refine ⟨_, (fileWritten_filled htake).claimed hclaimed, Filled.refl _, Or.inr
      ⟨fileEntry (fileRequest _ _ d) s.fs first, rfl, ?_, flush_table_parent _ _ _ _⟩⟩
    rw [fileEntry_cluster]
    exact (hclaimed.ne_free (taken_free htake List.mem_cons_self).2).symm

/-- **The entries of the source land in a destination that has the name.** -/
theorem copyFolder_spilled
    (hzero : ∀ i, i ≠ 0 → locals.newTable i = FAT32DirectoryEntry.zero)
    (hin : FolderInput s.fs (n + 1) p i x d) (hshallow : Shallow s.fs.table (n + 1) x)
    (hd : (s.fs.table d 0).cluster = d)
    (hsource : ¬ IsDirectory (s.fs.table p i).name (s.fs.table p 0))
    (hdest : IsDirectory (s.fs.table p i).name (s.fs.table d 0))
    (hsome : usedSlots (s.fs.table x) ≠ [])
    (h : copyFolder locals (depth + 1) (s.fs.table p i).name p d s = some s') :
    Spilled s.fs s'.fs d := by
  obtain ⟨fs₁, c, hmade, hcall⟩ := hin.begins hzero (readDirectoryTable_found _
    (findTable_of_named hin.named (hin.found hsource)))
  obtain ⟨e₁, hused₁, -, -, -, htable₁⟩ := hmade.entry
  have hstart := hin.loopStart hmade hshallow
  have hcons := hstart.wellFormed.consistent
  have hx : Live s.fs.table x := Reach.child hin.source hin.edge
  have hd₁ : Live fs₁.table d := hmade.grown.live hin.dest
  have hself₁ : fs₁.table d 0 = s.fs.table d 0 := hmade.grown.self hin.dest
  have hself : SelfNamed fs₁ d (s.fs.table p i).name :=
    ⟨hcons.selfUsed hd₁, hself₁.symm ▸ hdest, hself₁.symm ▸ hd⟩
  rw [hcall, readDirectoryTable_found _ (findTable_of_named hin.named hself.namedAt),
    ← hmade.grown.table_kept hx hin.apart Reach.root] at h
  rw [← hmade.grown.table_kept hx hin.apart Reach.root] at hsome
  -- the first entry goes into the destination itself
  have hfirst : ∃ k ∈ slotsFrom 1, (fs₁.table x k).used := by
    obtain ⟨k, hk⟩ := List.exists_mem_of_ne_nil _ hsome
    obtain ⟨hk0, hkused⟩ := mem_usedSlots.mp hk
    exact ⟨k, mem_slotsFrom_one.mpr hk0, hkused⟩
  obtain ⟨before, k, after, hsplit, hkused, hunused⟩ := first_call hfirst
  have hk0 : k ≠ 0 := by
    refine mem_slotsFrom_one.mp ?_
    rw [hsplit]
    exact List.mem_append_right _ List.mem_cons_self
  rw [hsplit, run_append, run_still _ fun j hj => copySlot_unused (hunused j hj),
    Option.bind_some, run_cons] at h
  obtain ⟨s₂, hround, hafter⟩ := Option.bind_eq_some_iff.mp h
  have hcells : (fs₁.table x k).attr = attrArchive →
      (fs₁.table x k).filesize.toNat / clusterSize ≤ (freeCells fs₁.fat).length := by
    intro hattr
    have hmem := List.mem_map_of_mem (f := fun i =>
      entryCells (treeCells fs₁.table n) (fs₁.table x i)) (mem_usedSlots.mpr ⟨hk0, hkused⟩)
    have hle := List.le_sum_of_mem hmem
    have hattr' : (fs₁.table x k).attr ≠ attrSubdirectory :=
      fun hdir => archive_ne_subdirectory (hattr.symm.trans hdir)
    rw [entryCells, if_neg hattr'] at hle
    exact le_of_lt (lt_of_le_of_lt hle hstart.cells)
  obtain ⟨fs₂, hclaimed, hfilled, hwritten⟩ := copySlot_writes (s := { s with fs := fs₁ })
    hcons (hstart.intact x Reach.root) ⟨hstart.source, hk0, hkused⟩ hd₁ hcells hself.cluster hround
  refine spilled_kept (hfilled.trans (copySlots_filled copyFolder_filled hafter)) hclaimed ?_
  rcases hwritten with hnil | ⟨e₂, hused₂, hne, htable₂⟩
  · exact Or.inr (Or.inl hnil)
  · exact spilled_of_edits htable₁ hused₁ htable₂ hused₂ hne

end OsyShell
