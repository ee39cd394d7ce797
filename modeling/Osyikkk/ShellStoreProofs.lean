import Osyikkk.AddressProofs
import Osyikkk.StoreShell

/-!
# The shell refines the shell of a store

A line of a careful user is one command on the store: its walks follow the store
(`Mirrors.walk`), the tables it looks at list the directories the walks end in, and its calls
are the requests of the command (`line_refines`). So is every session from the prompt on, on
any volume that careful calls have made (`session_refines_store`).
-/

namespace OsyShell

open OsyDisk OsyFat32 OsyVolume PartialRun NodeStore RootedForest

/-- The shell works on this store, with this path. -/
structure Mirrors (s : Shell) (v : View) : Prop where
  volume : DriverInvariant s.fs
  named : OwnNames s.fs.table
  represents : Represents s.fs v.store
  levels : s.stack.levels = v.levels
  trail : Trail v.store v.levels

variable {s s' : Shell} {v : View} {fs fs' : FileSystem} {σ σ' : VolumeStore}
  {levels : List Level} {cmd : TokenTable} {locals : Locals} {calls : List Call}

/-! ## Walks -/

section Volume

variable (hinv : DriverInvariant fs) (hself : OwnNames fs.table) (hrep : Represents fs σ)
include hinv hself hrep

omit hinv in
/-- The levels of a path are directories of the volume, with the names in their slots 0. -/
theorem Trail.live (h : Trail σ levels) :
    ∀ l ∈ levels, Live fs.table l.number ∧ (fs.table l.number 0).name = l.dirName := by
  induction levels with
  | nil => exact fun l hl => absurd hl List.not_mem_nil
  | cons top rest ih =>
      cases rest with
      | nil =>
          intro l hl
          obtain rfl := List.mem_singleton.mp hl
          obtain rfl := Option.some.inj h.bottom
          exact ⟨Reach.root, hself.root.trans dirName_rootLevel.symm⟩
      | cons below rest =>
          have hrest := ih h.tail
          intro l hl
          rcases List.mem_cons.mp hl with rfl | hl
          · obtain ⟨hlive, hname⟩ := hrest below List.mem_cons_self
            have hlook := (List.isChain_cons_cons.mp h.chain).1
            rw [lookIn] at hlook
            split_ifs at hlook with hown
            · -- the level below once more
              rw [← Option.some.inj hlook, hown]
              exact ⟨hlive, hname⟩
            · obtain ⟨i, hs, hkey, hattr, hcluster⟩ :=
                (hrep.entry _ _ _).mp (subdirectory_eq_some.mp hlook)
              have hedge : dirEdge fs.table below.number i l.number :=
                ⟨hs.slot, hs.used, hattr, hcluster⟩
              refine ⟨Reach.child hlive hedge, ?_⟩
              rw [hself.below hlive hedge]
              exact congrArg Prod.fst hkey
          · exact hrest l hl

/-- A name leads where the path says. -/
theorem findDirectory_lookIn (h : Trail σ levels) {below : Level} (hb : below ∈ levels)
    (name : EntryName) : findDirectory fs below.number name = lookIn σ below name := by
  obtain ⟨hlive, hname⟩ := h.live hself hrep below hb
  rw [findDirectory_store hinv hself hrep hlive, hname, lookIn]

/-- A step of the shell's walk is one in the store. -/
theorem walkStep_eq_viewStep (h : Trail σ levels) (row : List UInt8) :
    walkStep fs levels row = viewStep σ levels row := by
  rw [walkStep, viewStep, enter, enter]
  cases levels with
  | nil => rfl
  | cons top rest =>
      have hlook := findDirectory_lookIn hinv hself hrep h List.mem_cons_self
        (rowName (componentOf row))
      rw [descend, descend, hlook]
      rfl

/-- **Walks follow the store.** -/
theorem skipping_eq_view (h : Trail σ levels) (rows : List (List UInt8)) :
    skipping (walkStep fs) levels rows = skipping (viewStep σ) levels rows := by
  induction rows generalizing levels with
  | nil => rfl
  | cons row rows ih =>
      rw [skipping_cons, skipping_cons, walkStep_eq_viewStep hinv hself hrep h]
      refine ih ?_
      cases hstep : viewStep σ levels row with
      | none => exact h
      | some levels' => exact h.viewStep hstep

omit hinv in
theorem Trail.directory_live (h : Trail σ levels) : Live fs.table (directoryNumber levels) := by
  cases levels with
  | nil => exact Reach.root
  | cons top rest => exact (h.live hself hrep top List.mem_cons_self).1

/-- The table that is looked up for the current directory is its own. -/
theorem Trail.currentTable (h : Trail σ levels) :
    currentTable fs levels = some (fs.table (directoryNumber levels)) := by
  have htree : SelfTree fs.table fs.fat :=
    ⟨hinv.owned.consistent, hinv.owned.self, hself.root, hself.directory Reach.root⟩
  refine Linked.table_found htree ⟨h.bottom, h.chain.imp_of_mem_imp ?_⟩
  intro top below _ hbelow hlook
  refine findDirectory_named htree (h.live hself hrep below hbelow).1 ?_
  rw [findDirectory_lookIn hinv hself hrep h hbelow]
  exact hlook

end Volume

theorem Mirrors.walkLevels (h : Mirrors s v) (rows : List (List UInt8)) :
    walkLevels s rows = v.walk rows := by
  rw [OsyShell.walkLevels, h.levels]
  exact skipping_eq_view h.volume h.named h.represents h.trail rows

theorem Mirrors.trail_walk (h : Mirrors s v) (rows : List (List UInt8)) :
    Trail v.store (v.walk rows) := h.trail.walk rows

theorem Mirrors.live (h : Mirrors s v) (rows : List (List UInt8)) :
    Live s.fs.table (v.directory rows) :=
  (h.trail_walk rows).directory_live h.named h.represents

theorem Mirrors.table (h : Mirrors s v) (rows : List (List UInt8)) :
    currentTable s.fs (OsyShell.walkLevels s rows) = some (s.fs.table (v.directory rows)) := by
  rw [h.walkLevels]
  exact (h.trail_walk rows).currentTable h.volume h.named h.represents

/-! ## Calls -/

/-- Careful calls are requests of the store, one after another. -/
theorem calls_refine (hinv : DriverInvariant fs) (hself : OwnNames fs.table)
    (hrep : Represents fs σ) (hcareful : Guarded exec StoreCall fs calls)
    (hrun : run exec fs calls = some fs') :
    ∃ trace σ', Run clusterUnits σ trace σ' ∧ trace.map Prod.fst = calls.map Call.request ∧
      DriverInvariant fs' ∧ OwnNames fs'.table ∧ Represents fs' σ' := by
  induction calls generalizing fs σ with
  | nil =>
      obtain rfl := Option.some.inj hrun
      exact ⟨[], σ, .nil, rfl, hinv, hself, hrep⟩
  | cons k calls ih =>
      obtain ⟨hk, hrest⟩ := hcareful
      obtain ⟨fs₁, hexec, hrun⟩ := Option.bind_eq_some_iff.mp hrun
      obtain ⟨answer, fs₂, response, σ₁, hrespond, hinv₁, hstep, hrep₁, -⟩ :=
        respond_refines hinv hrep hk
      obtain rfl : fs₂ = fs₁ := by
        have hsame := respond_exec fs k
        rw [hrespond, hexec] at hsame
        exact Option.some.inj hsame
      obtain ⟨trace, σ', hrun', htrace, hend⟩ :=
        ih hinv₁ (hself.exec hinv hk hexec) hrep₁ (hrest _ hexec) hrun
      exact ⟨(k.request, response) :: trace, σ', .cons hstep hrun', congrArg _ htrace, hend⟩

/-- The line's calls are those of a careful user, and take away no directory of the path. -/
def CarefulCalls (s : Shell) (calls : List Call) : Prop :=
  Guarded exec StoreCall s.fs calls ∧ ∀ k ∈ calls, Spared s.stack.levels k.request

/-- What is to be seen behind the calls of a command that keeps the levels. -/
theorem Mirrors.makes (h : Mirrors s v) (hcareful : CarefulCalls s calls)
    (hrun : run exec s.fs calls = some s'.fs) (hlevels : s'.stack.levels = s.stack.levels) :
    ∃ trace σ', Run clusterUnits v.store trace σ' ∧
      trace.map Prod.fst = calls.map Call.request ∧ Mirrors s' { v with store := σ' } := by
  obtain ⟨hguard, hspared⟩ := hcareful
  obtain ⟨trace, σ', hrun', htrace, hinv, hself, hrep⟩ :=
    calls_refine h.volume h.named h.represents hguard hrun
  refine ⟨trace, σ', hrun', htrace, hinv, hself, hrep, hlevels.trans h.levels, ?_⟩
  refine h.trail.run hrun' fun e he => ?_
  have hmem : e.1 ∈ calls.map Call.request := htrace ▸ List.mem_map_of_mem he
  obtain ⟨k, hk, heq⟩ := List.mem_map.mp hmem
  rw [← heq, ← h.levels]
  exact hspared k hk

/-- One call is one step. -/
theorem Mirrors.call {k : Call} (h : Mirrors s v) (hcareful : CarefulCalls s [k])
    (hrun : run exec s.fs [k] = some s'.fs) (hlevels : s'.stack.levels = s.stack.levels) :
    ∃ response σ', Step clusterUnits v.store k.request response σ' ∧
      Mirrors s' { v with store := σ' } := by
  obtain ⟨trace, σ', hrun', htrace, hshows⟩ := h.makes hcareful hrun hlevels
  obtain ⟨⟨request, response⟩, rfl, rfl⟩ := List.map_eq_singleton_iff.mp htrace
  cases hrun' with
  | cons hstep hnil =>
      cases hnil
      exact ⟨response, σ', hstep, hshows⟩

/-- A command that makes no call and walks. -/
theorem Mirrors.walked (h : Mirrors s v) {start : List Level} (hstart : Trail v.store start)
    {rows : List (List UInt8)} (hfs : s'.fs = s.fs)
    (hlevels : s'.stack.levels = skipping (walkStep s.fs) start rows) :
    Mirrors s' { v with levels := skipping (viewStep v.store) start rows } where
  volume := hfs ▸ h.volume
  named := hfs ▸ h.named
  represents := hfs ▸ h.represents
  levels := hlevels.trans (skipping_eq_view h.volume h.named h.represents hstart rows)
  trail := hstart.walk rows

theorem Mirrors.same (h : Mirrors s v) (hfs : s'.fs = s.fs)
    (hlevels : s'.stack.levels = s.stack.levels) : Mirrors s' v where
  volume := hfs ▸ h.volume
  named := hfs ▸ h.named
  represents := hfs ▸ h.represents
  levels := hlevels.trans h.levels
  trail := h.trail

/-! ## Entries by their names -/

theorem extName_eq (e : FAT32DirectoryEntry) : extName e = shownExt e.ext :=
  if_congr (hasExt_iff e).symm rfl rfl

theorem strcmp_shownExt (x : EntryExt) (ext : List UInt8) :
    strcmp (List.ofFn (shownExt x)) ext = 0 ↔ strcmp (List.ofFn x) ext = 0 := by
  rw [strcmp_eq_zero_iff, strcmp_eq_zero_iff, shownExt]
  split_ifs with hx
  · rfl
  · rw [not_not.mp hx]
    rfl

/-- The target of `rm` and `mv` is an entry of the name that is typed. -/
theorem isTarget_iff_namedAs {d : UInt32} {i : Fin directoryEntryCount} {n : VolumeNode}
    (hs : UsedSlot fs.table d i) (hn : NodeOf fs (fs.table d i) n) (name ext : List UInt8) :
    isTarget name ext (fs.table d i) ↔ NamedAs name ext (fullName (fs.table d i)) n := by
  have hkind : (fs.table d i).attr = attrArchive ↔ n.kind = none := by
    cases n with
    | file b => exact iff_of_true hn.1 rfl
    | directory x =>
        refine iff_of_false ?_ nofun
        rw [hn.1]
        decide
  rw [isTarget, NamedAs, hkind, extName_eq, strcmp_shownExt]
  exact ⟨fun h => h.2, fun h => ⟨hs.used, h⟩⟩

/-- The extension that `remove` passes on. -/
theorem deletedExt_eq {d : UInt32} {i : Fin directoryEntryCount} {n : VolumeNode}
    (hinv : DriverInvariant fs) (hs : UsedSlot fs.table d i) (hn : NodeOf fs (fs.table d i) n) :
    (if (fs.table d i).attr = attrArchive then extName (fs.table d i) else fun _ => 0)
      = shownExt (fs.table d i).ext := by
  cases n with
  | file b => rw [if_pos hn.1, extName_eq]
  | directory x =>
      rw [if_neg (by rw [hn.1]; decide),
        hinv.plain d i x hs.live ⟨hs.slot, hs.used, hn.1, hn.2⟩]
      rfl

/-- No slot is a target when the store has no entry of the name, and the other way round. -/
theorem Mirrors.no_target (h : Mirrors s v) {d : UInt32} {name ext : List UInt8}
    (hnone : ∀ i, i ≠ 0 → ¬ isTarget name ext (s.fs.table d i)) :
    ∀ k n, v.store.entry (d, k) = some n → ¬ NamedAs name ext k n := by
  intro k n hentry hnames
  obtain ⟨i, hs, rfl, hn⟩ := (h.represents.entry _ _ _).mp hentry
  exact hnone i hs.slot ((isTarget_iff_namedAs hs hn name ext).mpr hnames)

/-- A slot that is a target holds an entry of the name. -/
theorem Mirrors.target (h : Mirrors s v) {d : UInt32} {i : Fin directoryEntryCount}
    {name ext : List UInt8} (hd : Live s.fs.table d) (hi : i ≠ 0)
    (htarget : isTarget name ext (s.fs.table d i)) :
    ∃ n, v.store.entry (d, fullName (s.fs.table d i)) = some n ∧
      NamedAs name ext (fullName (s.fs.table d i)) n ∧
      (if (s.fs.table d i).attr = attrArchive then extName (s.fs.table d i) else fun _ => 0)
        = shownExt (s.fs.table d i).ext := by
  have hs : UsedSlot s.fs.table d i := ⟨hd, hi, htarget.1⟩
  obtain ⟨n, hn⟩ := exists_nodeOf h.volume.owned hs
  exact ⟨n, h.represents.present hs hn, (isTarget_iff_namedAs hs hn name ext).mp htarget,
    deletedExt_eq h.volume hs hn⟩

/-! ## The commands -/

/-- `mkdir`. -/
theorem mkdir_refines (h : Mirrors s v)
    (hcareful : CarefulCalls s ((Command.branch .mkdir).calls locals cmd s))
    (hrun : run exec s.fs ((Command.branch .mkdir).calls locals cmd s) = some s'.fs)
    (hlevels : s'.stack.levels = s.stack.levels) :
    ∃ v', ShellStep v ((Command.branch .mkdir).asked cmd) v' ∧ Mirrors s' v' := by
  rw [Command.calls, mkdirCall] at hcareful hrun
  rw [Command.asked]
  split_ifs at hcareful hrun ⊢
  · obtain ⟨response, σ', hstep, hshows⟩ := h.call hcareful hrun hlevels
    rw [Call.request, if_pos rfl, h.walkLevels] at hstep
    exact ⟨_, .made hstep, hshows⟩
  · exact ⟨v, .looked, h.same (Option.some.inj hrun).symm hlevels⟩

/-- `rm`. -/
theorem rm_refines (h : Mirrors s v)
    (hcareful : CarefulCalls s ((Command.branch .rm).calls locals cmd s))
    (hrun : run exec s.fs ((Command.branch .rm).calls locals cmd s) = some s'.fs)
    (hlevels : s'.stack.levels = s.stack.levels) :
    ∃ v', ShellStep v ((Command.branch .rm).asked cmd) v' ∧ Mirrors s' v' := by
  rw [Command.calls, rmCall] at hcareful hrun
  rw [Command.asked]
  split_ifs at hcareful hrun ⊢
  · have hlive := h.live (argumentPath cmd)
    rw [removeCall, h.table, Option.bind_some] at hcareful hrun
    cases hfind : (slotsFrom 1).find? fun i =>
        isTarget (parseTarget (charAt (argumentRow cmd))).name
          (parseTarget (charAt (argumentRow cmd))).extString
          (s.fs.table (v.directory (argumentPath cmd)) i) with
    | none =>
        rw [hfind] at hrun
        refine ⟨v, .nothingRemoved (h.no_target ?_), h.same (Option.some.inj hrun).symm hlevels⟩
        intro i hi htarget
        have hno := List.find?_eq_none.mp hfind i (mem_slotsFrom_one.mpr hi)
        exact hno (decide_eq_true htarget)
    | some i =>
        rw [hfind] at hcareful hrun
        have hi := mem_slotsFrom_one.mp (List.mem_of_find?_eq_some hfind)
        have htarget := List.find?_some hfind
        rw [decide_eq_true_eq] at htarget
        obtain ⟨n, hentry, hnames, hext⟩ := h.target hlive hi htarget
        obtain ⟨response, σ', hstep, hshows⟩ := h.call hcareful hrun hlevels
        rw [Call.request, hext, h.walkLevels] at hstep
        exact ⟨_, .removed hentry hnames hstep, hshows⟩
  · exact ⟨v, .looked, h.same (Option.some.inj hrun).symm hlevels⟩

/-- `mv`. -/
theorem mv_refines (h : Mirrors s v)
    (hcareful : CarefulCalls s ((Command.branch .mv).calls locals cmd s))
    (hrun : run exec s.fs ((Command.branch .mv).calls locals cmd s) = some s'.fs)
    (hlevels : s'.stack.levels = mvLevels s cmd) :
    ∃ v', ShellStep v ((Command.branch .mv).asked cmd) v' ∧ Mirrors s' v' := by
  have hsource := h.live (sourcePath cmd)
  have hdest := h.live (destPath cmd)
  have hentry : movedEntry s cmd
      = (sourceIndex (parseTarget (charAt (sourceRow cmd)))
          (s.fs.table (v.directory (sourcePath cmd)))).map
        fun i => (s.fs.table (v.directory (sourcePath cmd)), i) := by
    rw [movedEntry, h.table, Option.bind_some]
  have hdestTable : destTable s cmd = some (s.fs.table (v.directory (destPath cmd))) :=
    h.table (destPath cmd)
  rw [Command.asked]
  by_cases hlen : cmd.cmdLength = 2
  · rw [Command.calls, mvCall, if_pos hlen, hentry, hdestTable] at hcareful hrun
    rw [mvLevels, if_pos hlen, hentry, hdestTable] at hlevels
    rw [if_pos hlen]
    cases hfind : sourceIndex (parseTarget (charAt (sourceRow cmd)))
        (s.fs.table (v.directory (sourcePath cmd))) with
    | none =>
        -- no slot of the source has the parsed name, so no entry of the store has
        rw [hfind] at hrun hlevels
        refine ⟨_, .nothingMoved (h.no_target ?_),
          h.walked h.trail (Option.some.inj hrun).symm (h.levels ▸ hlevels)⟩
        intro i hi htarget
        have hno := List.find?_eq_none.mp hfind i
          (List.mem_reverse.mpr (mem_slotsFrom_one.mpr hi))
        exact hno (decide_eq_true htarget)
    | some i =>
        rw [hfind] at hcareful hrun hlevels
        obtain ⟨hi, -⟩ := sourceIndex_some hfind
        have htarget := List.find?_some hfind
        rw [decide_eq_true_eq] at htarget
        obtain ⟨n, hin, hnames, -⟩ := h.target hsource hi htarget
        obtain ⟨response, σ', hstep, hshows⟩ := h.call hcareful hrun hlevels
        -- the slot number goes through a register and back
        have hidx : Fin.ofNat directoryEntryCount (UInt32.ofNat i).toNat = i := by
          have hlt := i.isLt
          have h64 : directoryEntryCount = 64 := rfl
          refine Fin.ext ?_
          show (UInt32.ofNat i).toNat % directoryEntryCount = i
          rw [UInt32.toNat_ofNat', Nat.mod_eq_of_lt (by omega), Nat.mod_eq_of_lt (by omega)]
        rw [Call.request, hidx, h.volume.owned.self hsource, h.volume.owned.self hdest] at hstep
        exact ⟨_, .moved hin hnames hstep, hshows⟩
  · obtain ⟨hkept, hcall⟩ := mv_refused hlen (rfl : s.stack = s.stack) (rfl : s.fs = s.fs)
    rw [Command.calls, run_toList, hcall] at hrun
    rw [if_neg hlen]
    exact ⟨v, .looked, h.same (Option.some.inj hrun).symm (hlevels.trans hkept.symm)⟩

/-- No directory has an extension. -/
theorem not_matchesDirectory (hinv : DriverInvariant fs) (hrep : Represents fs σ)
    {request : FAT32DriverRequest} (hlive : Live fs.table request.parentClusterNumber)
    (hn : request.name ≠ fun _ => 0) (hext : request.ext 0 ≠ 0) :
    ¬ MatchesDirectory request fs := by
  rintro ⟨i, hm, hdir⟩
  obtain ⟨hslot, hkey, -⟩ := hrep.found hinv hlive hn hm
  have hplain := hinv.plain _ i _ hlive ⟨hslot.slot, hslot.used, hdir, rfl⟩
  have hsame : (fs.table request.parentClusterNumber i).ext = request.ext :=
    congrArg Prod.snd hkey
  refine hext ?_
  rw [← hsame]
  exact congrFun hplain 0

/-- What `read` has found is a file of the store, and its bytes are in front of the
    buffer. -/
theorem read_content (hinv : DriverInvariant fs) (hrep : Represents fs σ)
    {request : FAT32DriverRequest} {buf : Memory}
    (hlive : Live fs.table request.parentClusterNumber) (hfile : ¬ MatchesDirectory request fs)
    (hread : read request fs = some (0, buf)) :
    request.bufferSize ≠ 0 ∧ ∃ b,
      σ.entry (request.parentClusterNumber, (request.name, request.ext)) = some (.file b) ∧
      b <+: (List.range request.bufferSize.toNat).map buf := by
  have hcons := hinv.owned.consistent
  have hcode : ∀ {code : Int8} {m : Memory}, code ≠ 0 → read request fs ≠ some (code, m) := by
    intro code m hne heq
    rw [hread] at heq
    exact hne (Prod.mk.inj (Option.some.inj heq)).1.symm
  have hn : request.name ≠ fun _ => 0 := fun hn => hcode (by decide) (read_emptyName hn)
  have hs : request.bufferSize ≠ 0 := fun hs => hcode (by decide) (read_zeroSize hn hs)
  cases hm : firstMatch request (fs.table request.parentClusterNumber) with
  | none => exact absurd (read_notFound hn hs hm) (hcode (by decide))
  | some i =>
      obtain ⟨hslot, -, hentry⟩ := hrep.found hinv hlive hn hm
      obtain ⟨l, hl, -, -⟩ := hcons.chain hslot
      have hattr : (fs.table request.parentClusterNumber i).attr = attrArchive :=
        (hinv.owned.kind hslot).resolve_left fun hdir => hfile ⟨i, hm, hdir⟩
      refine ⟨hs, _, hentry (.file (l.flatMap (clusterBytes fs.disk))) ⟨hattr, l, hl, rfl⟩, ?_⟩
      by_cases hroom : l.length ≤ clusterCount request
      · rw [read_eq hn hs hm hl hroom] at hread
        obtain rfl := (Prod.mk.inj (Option.some.inj hread)).2
        have hfits : clusterSize * l.length ≤ request.bufferSize.toNat := by
          rw [clusterCount_eq] at hroom
          calc clusterSize * l.length ≤ 2048 * (request.bufferSize.toNat / 2048) :=
                Nat.mul_le_mul_left 2048 hroom
            _ ≤ request.bufferSize.toNat := Nat.mul_div_le _ _
        rw [← copyClusters_bytes fs.disk request.buf l, ← Nat.min_eq_left hfits,
          ← List.take_range]
        exact (List.take_prefix _ _).map _
      · exact absurd (read_tooSmall hn hs hm hl (Nat.not_le.mp hroom)) (hcode (by decide))

/-- The request of `copy_file`. -/
theorem Mirrors.copyFile (h : Mirrors s v) {name : EntryName} {ext : EntryExt}
    {size source dest : UInt32} (hlive : Live s.fs.table source) (hext : ext 0 ≠ 0) :
    (copyFileCalls locals name ext size source dest s.fs).map Call.request = [] ∨
      ∃ b₀ b, v.store.entry (source, (name, ext)) = some (.file b₀) ∧ b₀ <+: b ∧
        (copyFileCalls locals name ext size source dest s.fs).map Call.request
          = [.putFile dest (name, ext) b] := by
  rw [copyFileCalls]
  cases hread : read (copyRequest locals name ext size source) s.fs with
  | none => exact Or.inl rfl
  | some answer =>
      obtain ⟨code, buf⟩ := answer
      rw [Option.elim_some]
      by_cases hcode : code = 0
      · subst hcode
        have hname : name ≠ fun _ => 0 := by
          intro hn
          have hcode := (read_emptyName hn).symm.trans hread
          exact absurd (Prod.mk.inj (Option.some.inj hcode)).1 (by decide)
        have hfile : ¬ MatchesDirectory (copyRequest locals name ext size source) s.fs :=
          not_matchesDirectory h.volume h.represents hlive hname hext
        obtain ⟨hs, b, hentry, hprefix⟩ :=
          read_content h.volume h.represents hlive hfile hread
        rw [if_neg (not_not.mpr rfl)]
        refine Or.inr ⟨b, _, hentry, hprefix, ?_⟩
        rw [List.map_singleton, Call.request, if_neg hs]
        rfl
      · rw [if_pos hcode]
        exact Or.inl rfl

theorem copyFolder_head {depth : ℕ} {name : EntryName} {source dest : UInt32} :
    ∀ r ∈ ((copyFolderCalls locals depth name source dest fs).map Call.request).head?,
      r = .makeDirectory dest (name, fun _ => 0) := by
  cases depth with
  | zero => exact fun r hr => nomatch hr
  | succ depth =>
      intro r hr
      rw [copyFolderCalls, List.map_cons, List.head?_cons, Option.mem_some_iff] at hr
      exact hr.symm

theorem puts_of_isWrite {k : Call} (hk : Call.IsWrite k) : Puts k.request := by
  cases k with
  | write newTable request =>
      rw [Call.request]
      split_ifs <;> trivial
  | _ => exact hk.elim

/-- `cp`. -/
theorem cp_refines (h : Mirrors s v)
    (hcareful : CarefulCalls s ((Command.branch .cp).calls locals cmd s))
    (hrun : run exec s.fs ((Command.branch .cp).calls locals cmd s) = some s'.fs)
    (hlevels : s'.stack.levels = s.stack.levels) :
    ∃ v', ShellStep v ((Command.branch .cp).asked cmd) v' ∧ Mirrors s' v' := by
  obtain ⟨trace, σ', hrun', htrace, hshows⟩ := h.makes hcareful hrun hlevels
  refine ⟨_, .copied hrun' ?_, hshows⟩
  have hsource := h.live (sourcePath cmd)
  rw [htrace, Command.calls]
  constructor
  case puts =>
    intro r hr
    obtain ⟨k, hk, rfl⟩ := List.mem_map.mp hr
    exact puts_of_isWrite (cpCalls_isWrite hk)
  case file =>
    intro hext
    rw [cpCalls, if_pos hext, h.walkLevels, h.walkLevels]
    exact h.copyFile hsource hext
  case folder =>
    intro hext
    rw [cpCalls, if_neg (not_not.mpr hext), h.walkLevels, h.walkLevels]
    exact copyFolder_head

/-- The lowest level of the stack is the root. -/
theorem Mirrors.root_levels (h : Mirrors s v) :
    ({ s.stack with length := 1 } : DirStack).levels = [rootLevel] := by
  have hbottom : s.stack.levels.getLast? = some rootLevel := by
    rw [h.levels]
    exact h.trail.bottom
  have hlen : 1 ≤ s.stack.length.toNat := by
    rw [← levels_length, Nat.one_le_iff_ne_zero, h.levels]
    exact fun hzero => h.trail.ne_nil (List.length_eq_zero_iff.mp hzero)
  obtain ⟨above, habove⟩ := levelsBelow_suffix s.stack hlen
  rw [DirStack.levels, ← habove] at hbottom
  change (above ++ [_]).getLast? = some rootLevel at hbottom
  rw [List.getLast?_concat] at hbottom
  exact congrArg (fun level => [level]) (Option.some.inj hbottom)

/-- `cd`. -/
theorem cd_refines (h : Mirrors s v) (hfs : s'.fs = s.fs)
    (hlevels : s'.stack.levels = (Command.branch .cd).levels cmd s) :
    ∃ v', ShellStep v ((Command.branch .cd).asked cmd) v' ∧ Mirrors s' v' := by
  rw [Command.levels] at hlevels
  rw [Command.asked]
  split_ifs at hlevels ⊢
  · exact ⟨v, .looked, h.same hfs hlevels⟩
  · refine ⟨_, .went, ?_⟩
    have hstart : (cdStart s cmd).stack.levels
        = if decide (rowUsed cmd 1 ≠ some true) = true then [rootLevel] else v.levels := by
      rw [cdStart]
      by_cases hused : rowUsed cmd 1 = some true
      · rw [if_pos hused, if_neg (by simpa using hused)]
        exact h.levels
      · rw [if_neg hused, if_pos (by simpa using hused)]
        exact h.root_levels
    rw [OsyShell.walkLevels, cdStart_fs, hstart] at hlevels
    refine h.walked ?_ hfs hlevels
    split_ifs
    · exact trail_start _
    · exact h.trail

/-- A careful line: its calls are those of a careful user, and no directory of the path is
    taken away. -/
def CarefulLine (u : UserShell) (l : Line) : Prop := CarefulCalls u.shell (l.calls u.shell)

/-- **One line is one command.** -/
theorem line_refines {u u' : UserShell} {l : Line} (h : Mirrors u.shell v)
    (hcareful : CarefulLine u l) (hline : executeLine u l = some u') :
    ∃ v', ShellStep v l.asked v' ∧ Mirrors u'.shell v' := by
  obtain ⟨hrun, hlevels⟩ := executeLine_calls hline
  obtain ⟨⟨command, input, cmd⟩, htokens, -⟩ := Option.bind_eq_some_iff.mp hline
  rw [CarefulLine, Line.calls, htokens] at hcareful
  rw [Line.calls, htokens] at hrun
  rw [Line.levels, htokens] at hlevels
  rw [Line.asked, htokens]
  change CarefulCalls u.shell (command.calls l.locals cmd u.shell) at hcareful
  change run exec u.shell.fs (command.calls l.locals cmd u.shell) = _ at hrun
  change _ = command.levels cmd u.shell at hlevels
  show ∃ v', ShellStep v (command.asked cmd) v' ∧ Mirrors u'.shell v'
  have hlook : some u.shell.fs = some u'.shell.fs →
      u'.shell.stack.levels = u.shell.stack.levels →
      ∃ v', ShellStep v .look v' ∧ Mirrors u'.shell v' := fun hfs hkept =>
    ⟨v, .looked, h.same (Option.some.inj hfs).symm hkept⟩
  cases command with
  | branch b =>
      cases b with
      | cd => exact cd_refines h (Option.some.inj hrun).symm hlevels
      | mkdir => exact mkdir_refines h hcareful hrun hlevels
      | cat => exact hlook hrun hlevels
      | cp => exact cp_refines h hcareful hrun hlevels
      | mv => exact mv_refines h hcareful hrun hlevels
      | rm => exact rm_refines h hcareful hrun hlevels
  | clear => exact hlook hrun hlevels
  | help => exact hlook hrun hlevels
  | ls => exact hlook hrun hlevels
  | whereis => exact hlook hrun hlevels
  | echo => exact hlook hrun hlevels
  | notFound => exact hlook hrun hlevels

/-! ## Sessions -/

/-- A session of careful lines is a run of commands. -/
theorem lines_refine {u u' : UserShell} {lines : List Line} (h : Mirrors u.shell v)
    (hcareful : Guarded executeLine CarefulLine u lines)
    (hrun : run executeLine u lines = some u') :
    ∃ v', ShellRun v (lines.map Line.asked) v' ∧ Mirrors u'.shell v' := by
  induction lines generalizing u v with
  | nil =>
      obtain rfl := Option.some.inj hrun
      exact ⟨v, .nil, h⟩
  | cons l lines ih =>
      obtain ⟨hfirst, hrest⟩ := hcareful
      obtain ⟨u₁, hline, hrun⟩ := Option.bind_eq_some_iff.mp hrun
      obtain ⟨v₁, hstep, h₁⟩ := line_refines h hfirst hline
      obtain ⟨v', hcommands, h'⟩ := ih h₁ (hrest u₁ hline) hrun
      exact ⟨v', .cons hstep hcommands, h'⟩

end OsyShell
