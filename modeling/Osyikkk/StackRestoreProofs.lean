import Osyikkk.CommandOutcomes

/-!
# Commands that do not move the user

Every command but `cd` is meant to leave the user where it found him: it copies the stack,
walks over its paths, and copies the stack back. `mkdir`, `cat`, `rm` and `cp` do so on every
exit. `mv` returns from the middle of the branch when the source's directory, the source or
the destination's directory is not found, and the user stays where the walk has ended. Its
stack is kept only when that walk led back (`command_keepsStack_iff`).
-/

namespace OsyShell

open OsyDisk OsyFat32 OsyVolume PartialRun

variable {locals : Locals} {behind : UInt8} {input : Buffer} {cmd : TokenTable} {b : Branch}
  {s s' : Shell} {done : BranchEnd}

/-- `mv` finds its source: the directory the first walk ends in is found by its name, and
    one of its slots `1..63` is the target. -/
def SourceFound (s : Shell) (cmd : TokenTable) : Prop :=
  ∃ t i, currentTable s.fs (walkLevels s (sourcePath cmd)) = some t ∧ i ≠ 0 ∧
    isTarget (parseTarget (charAt (sourceRow cmd))).name
      (parseTarget (charAt (sourceRow cmd))).extString (t i)

/-- `mv` finds the directory its second walk ends in by its name. -/
def DestFound (s : Shell) (cmd : TokenTable) : Prop :=
  ∃ t, currentTable s.fs (walkLevels s (destPath cmd)) = some t

/-- A lookup of `mv` that fails does so where the command began. -/
def FailsAtHome (s : Shell) (cmd : TokenTable) : Prop :=
  cmd.cmdLength = 2 →
    (¬ SourceFound s cmd → walkLevels s (sourcePath cmd) = s.stack.levels) ∧
    (SourceFound s cmd → ¬ DestFound s cmd → walkLevels s (destPath cmd) = s.stack.levels)

theorem sourceIndex_none {parsed : ParsedFile} {t : FAT32DirectoryTable} :
    sourceIndex parsed t = none ↔ ∀ i, i ≠ 0 → ¬ isTarget parsed.name parsed.extString (t i) := by
  rw [sourceIndex, List.find?_eq_none]
  simp only [List.mem_reverse, mem_slotsFrom_one, decide_eq_true_eq]

theorem movedEntry_none : movedEntry s cmd = none ↔ ¬ SourceFound s cmd := by
  rw [movedEntry, SourceFound]
  cases htable : currentTable s.fs (walkLevels s (sourcePath cmd)) with
  | none =>
      refine iff_of_true rfl ?_
      rintro ⟨t, i, ht, -⟩
      cases ht
  | some t =>
      rw [Option.bind_some, Option.map_eq_none_iff, sourceIndex_none]
      constructor
      · rintro h ⟨t', i, ht', hi, htarget⟩
        obtain rfl := Option.some.inj ht'
        exact h i hi htarget
      · intro h i hi htarget
        exact h ⟨t, i, rfl, hi, htarget⟩

theorem destTable_none : destTable s cmd = none ↔ ¬ DestFound s cmd :=
  Option.eq_none_iff_forall_ne_some.trans not_exists.symm

/-- `mv` leaves the levels it began with when its lookups fail at home. -/
theorem mvLevels_eq_iff : mvLevels s cmd = s.stack.levels ↔ FailsAtHome s cmd := by
  by_cases hlen : cmd.cmdLength = 2
  · rw [mvLevels, if_pos hlen, FailsAtHome, forall_prop_of_true hlen]
    by_cases hsource : SourceFound s cmd
    · rw [if_neg (mt movedEntry_none.mp (not_not.mpr hsource))]
      by_cases hdest : DestFound s cmd
      · rw [if_neg (mt destTable_none.mp (not_not.mpr hdest))]
        exact iff_of_true rfl ⟨fun h => absurd hsource h, fun _ h => absurd hdest h⟩
      · rw [if_pos (destTable_none.mpr hdest)]
        exact ⟨fun h => ⟨fun hs => absurd hsource hs, fun _ _ => h⟩,
          fun h => h.2 hsource hdest⟩
    · rw [if_pos (movedEntry_none.mpr hsource)]
      exact ⟨fun h => ⟨fun _ => h, fun hs => absurd hs hsource⟩, fun h => h.1 hsource⟩
  · exact iff_of_true (mv_refused hlen rfl rfl).1.symm fun h => absurd h hlen

/-- The levels a branch leaves. -/
theorem execute_levels (hb : b ≠ .cd)
    (h : b.execute locals cmd s = some done) :
    done.shell.stack.levels = if b = .mv then mvLevels s cmd else s.stack.levels := by
  cases b with
  | cd => exact absurd rfl hb
  | mkdir => exact keepsStack_iff.mp (executeMkdir_some h).1
  | cat => exact keepsStack_iff.mp (executeCat_some h)
  | cp => exact keepsStack_iff.mp (executeCp_some h)
  | mv => exact (executeMv_some h).1
  | rm => exact keepsStack_iff.mp (executeRm_some h).1

/-- The levels a line leaves. -/
theorem command_levels (hcmd : commandOf behind input = some (b, cmd)) (hb : b ≠ .cd)
    (h : executeCmd locals behind input s = some s') :
    s'.stack.levels = if b = .mv then mvLevels s cmd else s.stack.levels := by
  rw [executeCmd_eq, hcmd, Option.bind_some] at h
  obtain ⟨done, hexec, hfinish⟩ := Option.bind_eq_some_iff.mp h
  have hlevels := execute_levels hb hexec
  -- the line break that is printed first changes neither the stack nor the files
  rw [(finish_some hfinish).1]
  exact hlevels

/-- **Commands other than `cd`.** A line that ends leaves the stack as it was, except for an
    `mv` with a lookup that fails away from where the line began. -/
theorem command_keepsStack_iff (locals : Locals) (behind : UInt8) (input : Buffer)
    (s s' : Shell) (b : Branch) (cmd : TokenTable)
    (hcmd : commandOf behind input = some (b, cmd)) (hb : b ≠ .cd)
    (h : executeCmd locals behind input s = some s') :
    KeepsStack s.stack s'.stack ↔ (b = .mv → FailsAtHome s cmd) := by
  rw [keepsStack_iff, command_levels hcmd hb h]
  by_cases hmv : b = .mv
  · rw [if_pos hmv, forall_prop_of_true hmv]
    exact mvLevels_eq_iff
  · rw [if_neg hmv]
    exact iff_of_true rfl fun h => absurd h hmv

/-! ## Lines with two paths -/

theorem commandOf_mv {src dest : List (List UInt8)} (h : PlainMove s src dest) :
    commandOf behind (bufferOf (twoPathLine Branch.mv.word src dest))
      = some (.mv, twoPathTable Branch.mv.word src dest) := by
  refine commandOf_line ?_ ?_ rfl
  · exact plainLine_twoPathLine Branch.mv.word_isWord Branch.mv.word_ne_nil h.sourcePath
      h.destPath h.line
  · exact tokenize_twoPathLine Branch.mv.word_isWord Branch.mv.word_ne_nil h.sourcePath h.destPath
      (h.rows.trans (Nat.le_succ 36))

/-- A line whose volume is known has an outcome. -/
theorem executeMv_outcome {src dest : List (List UInt8)} {fs : FileSystem}
    (h : PlainMove s src dest) (hafter : afterMv s src dest = some fs) :
    ∃ s', executeCmd locals behind (bufferOf (twoPathLine Branch.mv.word src dest)) s
      = some s' := by
  have hexec : (executeCmd locals behind (bufferOf (twoPathLine Branch.mv.word src dest))
      s).map Shell.fs = some fs := (execute_mv h).trans hafter
  obtain ⟨s', hs', -⟩ := Option.map_eq_some_iff.mp hexec
  exact ⟨s', hs'⟩

/-- `mv a b` in the root, with both directories there. -/
theorem command_keepsStack_mv : ∃ s', executeCmd zeroLocals 0 (bufferOf (twoPathLine
    Branch.mv.word [[97]] [[98]])) (startShell afterTwoMkdirs) = some s' ∧
      KeepsStack (startShell afterTwoMkdirs).stack s'.stack := by
  have hplain : PlainMove (startShell afterTwoMkdirs) [[97]] [[98]] :=
    plainMove_start _ (isWord_singleton (by decide)) (isWord_singleton (by decide))
      (List.cons_ne_nil _ _) (List.cons_ne_nil _ _)
  have hsome : (afterMv (startShell afterTwoMkdirs) [[97]] [[98]]).isSome := by decide
  obtain ⟨fs, hfs⟩ := Option.isSome_iff_exists.mp hsome
  obtain ⟨s', hexec⟩ := executeMv_outcome hplain hfs
  refine ⟨s', hexec, ?_⟩
  refine (command_keepsStack_iff zeroLocals 0 _ _ s' .mv _ (commandOf_mv hplain) (by decide)
    hexec).mpr ?_
  intro _ _
  have hentry : movedEntry (startShell afterTwoMkdirs) (twoPathTable Branch.mv.word [[97]]
      [[98]]) ≠ none := by
    refine Option.isSome_iff_ne_none.mp ?_
    decide
  have hdest : destTable (startShell afterTwoMkdirs) (twoPathTable Branch.mv.word [[97]]
      [[98]]) ≠ none := by
    refine Option.isSome_iff_ne_none.mp ?_
    decide
  exact ⟨fun hsource => absurd (movedEntry_none.mpr hsource) hentry,
    fun _ hfound => absurd (destTable_none.mpr hfound) hdest⟩

/-- `mv a/x a` in the root, where there is no `x` in `a`, ends in `a`. -/
theorem mv_movesUser : ∃ s', executeCmd zeroLocals 0 (bufferOf (twoPathLine Branch.mv.word
    [[97], [120]] [[97]])) (startShell afterMkdir) = some s' ∧
      ¬ KeepsStack (startShell afterMkdir).stack s'.stack := by
  have hword : ∀ c ∈ [[97], [120]], IsWord c := by
    intro c hc
    rcases List.mem_pair.mp hc with rfl | rfl
    all_goals exact isWord_singleton (by decide)
  have hplain : PlainMove (startShell afterMkdir) [[97], [120]] [[97]] :=
    { sourcePath := ⟨hword, by decide, by decide, by decide⟩
      destPath := ⟨by simpa using hword [97] List.mem_cons_self, by decide, by decide, by decide⟩
      rows := by decide
      line := by decide
      inUse := by decide
      room := by decide
      prompt := by decide }
  have hsome : (afterMv (startShell afterMkdir) [[97], [120]] [[97]]).isSome := by decide
  obtain ⟨fs, hfs⟩ := Option.isSome_iff_exists.mp hsome
  obtain ⟨s', hexec⟩ := executeMv_outcome hplain hfs
  refine ⟨s', hexec, ?_⟩
  rw [keepsStack_iff, command_levels (commandOf_mv hplain) (by decide) hexec, if_pos rfl]
  intro hsame
  have htwo : (mvLevels (startShell afterMkdir) (twoPathTable Branch.mv.word [[97], [120]]
      [[97]])).length = 2 := by decide
  exact absurd ((congrArg List.length hsame).symm.trans htwo) (by decide)

end OsyShell
