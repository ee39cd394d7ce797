import Osyikkk.CommandLineProofs
import Osyikkk.TreeMoveProofs

/-!
# `mv` on the tree

The branch for `mv` walks over the source up to its last component and looks for that name
in the directory it is in, goes back, walks over the destination, and moves the entry with
the two tables it has read (`execute_mv`). Nothing stops it when both walks end in one
directory, as they do for `mv a .` or when the destination does not exist, and nothing when
the destination is the moved directory or is below it. Everything is kept once in the other
cases, and only in these (`mv_keepsOnce_iff`).
-/

namespace OsyShell

open OsyDisk OsyFat32 OsyVolume PartialRun

/-! ## The rows of a line with two paths -/

/-- The table of a line `word src dest`. -/
abbrev twoPathTable (word : List UInt8) (src dest : List (List UInt8)) : TokenTable where
  rows := word :: [space] :: (src ++ [space] :: dest)
  cmdLength := 2

/-- The test before both walks, `cmd[3][0] != '\0'`, fails: the source is `c//…`. -/
def WalksOff (src : List (List UInt8)) : Prop := src[1]? = some []

instance (src : List (List UInt8)) : Decidable (WalksOff src) :=
  inferInstanceAs (Decidable (_ = _))

/-- The rows of the source that are walked over. -/
def sourceWalked (src : List (List UInt8)) : List (List UInt8) :=
  if WalksOff src then [] else src.dropLast

/-- The row of the name to be moved. -/
def sourceName (src : List (List UInt8)) : List UInt8 :=
  if WalksOff src then src.headD [] else lastComponent src

/-- The rows of the destination that are walked over, up to an empty one. -/
def destWalked (src dest : List (List UInt8)) : List (List UInt8) :=
  if WalksOff src then [] else dest.takeWhile (· ≠ [])

variable {word : List UInt8} {src dest : List (List UInt8)} {s : Shell}

theorem sourceWalked_length (hsrc : src ≠ []) : (sourceWalked src).length + 1 ≤ src.length := by
  have hpos := List.length_pos_iff.mpr hsrc
  rw [sourceWalked]
  split_ifs
  · exact hpos
  · rw [List.length_dropLast]
    omega

theorem destWalked_length (src dest : List (List UInt8)) :
    (destWalked src dest).length ≤ dest.length := by
  rw [destWalked]
  split_ifs
  · exact Nat.zero_le _
  · exact (List.takeWhile_sublist _).length_le

theorem IsWord.first_eq_zero_iff {c : List UInt8} (h : IsWord c) : charAt c 0 = 0 ↔ c = [] := by
  constructor
  · intro h0
    by_contra hne
    exact h.first_ne_zero hne h0
  · rintro rfl
    rfl

/-- The row behind the first non-empty rows is empty. -/
theorem getD_takeWhile_length (rows : List (List UInt8)) :
    rows.getD (rows.takeWhile (· ≠ [])).length [] = [] := by
  induction rows with
  | nil => rfl
  | cons row rows ih =>
      by_cases hrow : row = []
      · rw [List.takeWhile_cons_of_neg (by simpa using hrow)]
        exact hrow
      · rw [List.takeWhile_cons_of_pos (by simpa using hrow), List.length_cons,
          List.getD_cons_succ]
        exact ih

section TwoPaths

variable (hsrc : IsPath src) (hdest : IsPath dest) (h36 : src.length + dest.length ≤ 36)

theorem twoPath_getD (src dest : List (List UInt8)) (k : ℕ) :
    (src ++ [space] :: dest).getD k []
      = if k < src.length then src.getD k [] else
          if k = src.length then [space] else dest.getD (k - src.length - 1) [] := by
  split_ifs with hlt heq
  · exact List.getD_append _ _ _ _ hlt
  · rw [List.getD_append_right _ _ _ _ (Nat.le_of_eq heq.symm), heq, Nat.sub_self]
    rfl
  · have hgt : src.length < k := by omega
    obtain ⟨m, rfl⟩ := Nat.exists_eq_add_of_lt hgt
    have hm : src.length + m + 1 - src.length = m + 1 := by omega
    rw [List.getD_append_right _ _ _ _ (Nat.le_of_lt hgt), hm, List.getD_cons_succ,
      Nat.add_sub_cancel]

include hsrc in
/-- The third row is empty when the source has an empty second component. -/
theorem twoPath_third :
    rowUsed (twoPathTable word src dest) 3 = some (decide ¬ WalksOff src) := by
  have hpos := List.length_pos_iff.mpr hsrc.nonempty
  rw [rowUsed_eq (by decide), getD_path word _ 1, twoPath_getD]
  refine congrArg some (decide_eq_decide.mpr (not_congr ?_))
  by_cases h1 : 1 < src.length
  · have hword := hsrc.words _ (List.getElem_mem h1)
    rw [if_pos h1, List.getD_eq_getElem _ _ h1, hword.first_eq_zero_iff, WalksOff,
      List.getElem?_eq_getElem h1, Option.some_inj]
  · have hlen : 1 = src.length := by omega
    rw [if_neg h1, if_pos hlen, WalksOff, List.getElem?_eq_none (Nat.le_of_eq hlen.symm)]
    exact iff_of_false (by decide) (fun h => nomatch h)

include h36 in
theorem twoPath_sourceRow {k : ℕ} (hk : k < src.length) :
    (twoPathTable word src dest).row (2 + k) = some src[k] := by
  rw [row_eq (by omega), getD_path, twoPath_getD, if_pos hk, List.getD_eq_getElem _ _ hk]

include h36 in
theorem twoPath_destRow {k : ℕ} (hk : k < dest.length) :
    (twoPathTable word src dest).row (src.length + 3 + k) = some dest[k] := by
  have hrow : src.length + 3 + k = 2 + (src.length + 1 + k) := by omega
  have hsub : src.length + 1 + k - src.length - 1 = k := by omega
  rw [hrow, row_eq (by omega), getD_path, twoPath_getD, if_neg (by omega), if_neg (by omega),
    hsub, List.getD_eq_getElem _ _ hk]

include hsrc h36 in
/-- The source ends at the row of a space. -/
theorem twoPath_notSpace {k : ℕ} (hk : k ≤ src.length) :
    rowNotSpace (twoPathTable word src dest) (2 + k) = some (decide (k < src.length)) := by
  rw [rowNotSpace, first_eq (by omega), Option.map_some, getD_path, twoPath_getD]
  by_cases hlt : k < src.length
  · have hword := hsrc.words _ (List.getElem_mem hlt)
    rw [if_pos hlt, List.getD_eq_getElem _ _ hlt, decide_eq_true hword.first_ne_space,
      decide_eq_true hlt]
  · rw [if_neg hlt, if_pos (by omega), decide_eq_false hlt]
    rfl

include hdest h36 in
/-- The walk over the destination stops at an empty row. -/
theorem twoPath_word {k : ℕ} (hk : k ≤ dest.length) :
    rowWord (twoPathTable word src dest) (src.length + 3 + k)
      = some (decide (dest.getD k [] ≠ [])) := by
  have hrow : src.length + 3 + k = 2 + (src.length + 1 + k) := by omega
  have hsub : src.length + 1 + k - src.length - 1 = k := by omega
  have hword : IsWord (dest.getD k []) := by
    by_cases hlt : k < dest.length
    · rw [List.getD_eq_getElem _ _ hlt]
      exact hdest.words _ (List.getElem_mem hlt)
    · rw [List.getD_eq_default _ _ (Nat.not_lt.mp hlt)]
      exact ⟨by simp, by decide⟩
  rw [rowWord, hrow, first_eq (by omega), Option.map_some, getD_path, twoPath_getD,
    if_neg (by omega), if_neg (by omega), hsub]
  refine congrArg some (decide_eq_decide.mpr ?_)
  rw [ne_eq, hword.first_eq_zero_iff]
  exact and_iff_left hword.first_ne_space

include hsrc h36 in
theorem twoPath_name : (twoPathTable word src dest).row (2 + (sourceWalked src).length)
    = some (sourceName src) := by
  have hpos := List.length_pos_iff.mpr hsrc.nonempty
  rw [sourceWalked, sourceName]
  split_ifs with hoff
  · rw [List.length_nil, twoPath_sourceRow h36 hpos, List.headD_eq_head?_getD,
      List.head?_eq_getElem?, List.getElem?_eq_getElem hpos, Option.getD_some]
  · rw [List.length_dropLast, twoPath_sourceRow h36 (by omega), lastComponent,
      List.getLast?_eq_getElem?, List.getElem?_eq_getElem (by omega), Option.getD_some]

/-! ## The two walks -/

include hsrc h36 in
/-- The first loop walks over the source. -/
theorem sourceLoop : pathLoopIf (twoPathTable word src dest)
      (fun i => rowNotSpace (twoPathTable word src dest) (i + 1)) 2 2 s
    = (run (fun s row => changeToRow row s) s (sourceWalked src)).map
        fun s => (2 + (sourceWalked src).length, s) := by
  have hpos := List.length_pos_iff.mpr hsrc.nonempty
  rw [pathLoopIf, twoPath_third hsrc, sourceWalked]
  by_cases hoff : WalksOff src
  · rw [if_pos hoff, decide_eq_false (not_not.mpr hoff)]
    rfl
  · rw [if_neg hoff, decide_eq_true hoff]
    have hlen : src.dropLast.length = src.length - 1 := List.length_dropLast
    refine pathLoop_eq (by omega) (fun k hk => ⟨?_, ?_⟩) ?_
    · have hk1 : k + 1 < src.length := by omega
      rw [Nat.add_assoc, twoPath_notSpace hsrc h36 (Nat.le_of_lt hk1), decide_eq_true hk1]
    · rw [twoPath_sourceRow h36 (by omega), List.getElem_dropLast]
    · rw [Nat.add_assoc, twoPath_notSpace hsrc h36 (by omega), decide_eq_false (by omega)]

/-- What `counterCD` is after both walks. -/
def mvCounter (src dest : List (List UInt8)) : ℕ :=
  if WalksOff src then 2 else src.length + 3 + (destWalked src dest).length

include hsrc hdest h36 in
/-- The second loop walks over the destination. -/
theorem destLoop : pathLoopIf (twoPathTable word src dest) (rowWord (twoPathTable word src dest))
      (2 + (sourceWalked src).length) (2 + (sourceWalked src).length + 2) s
    = (run (fun s row => changeToRow row s) s (destWalked src dest)).map
        fun s => (mvCounter src dest, s) := by
  have hpos := List.length_pos_iff.mpr hsrc.nonempty
  rw [pathLoopIf, twoPath_third hsrc, mvCounter, destWalked, sourceWalked]
  by_cases hoff : WalksOff src
  · rw [if_pos hoff, if_pos hoff, if_pos hoff, decide_eq_false (not_not.mpr hoff)]
    rfl
  · rw [if_neg hoff, if_neg hoff, if_neg hoff, decide_eq_true hoff]
    have hstart : 2 + src.dropLast.length + 2 = src.length + 3 := by
      rw [List.length_dropLast]
      omega
    have hle : (dest.takeWhile (· ≠ [])).length ≤ dest.length :=
      (List.takeWhile_sublist _).length_le
    rw [hstart]
    refine pathLoop_eq (by omega) (fun k hk => ⟨?_, ?_⟩) ?_
    · -- rows before the first empty one are not empty
      have hget := (List.takeWhile_prefix _).getElem hk
      have hne := List.mem_takeWhile_imp (List.getElem_mem hk)
      rw [hget, decide_eq_true_eq] at hne
      rw [twoPath_word hdest h36 (by omega), List.getD_eq_getElem _ _ (by omega),
        decide_eq_true hne]
    · rw [twoPath_destRow h36 (by omega), (List.takeWhile_prefix _).getElem hk]
    · rw [twoPath_word hdest h36 hle]
      exact congrArg some (decide_eq_false (not_not.mpr (getD_takeWhile_length dest)))

end TwoPaths

/-! ## What the branch does -/

/-- The levels the walk over some rows leads to. -/
def walkLevels (s : Shell) (rows : List (List UInt8)) : List Level :=
  skipping (walkStep s.fs) s.stack.levels rows

/-- The file system `mv` leaves: the entry is looked up in the table of the directory the
    first walk ends in, and moved to the table of the directory the second walk ends in. -/
def afterMv (s : Shell) (src dest : List (List UInt8)) : Option FileSystem :=
  match currentTable s.fs (walkLevels s (sourceWalked src)) with
  | none => some s.fs
  | some srcTable =>
      match sourceIndex (parseTarget (charAt (sourceName src))) srcTable with
      | none => some s.fs
      | some i =>
          match currentTable s.fs (walkLevels s (destWalked src dest)) with
          | none => some s.fs
          | some destTable => syscallMove srcTable destTable (UInt32.ofNat i) s.fs

/-- Two paths inside the token limits, and a stack with room for the walks, the restoring
    loops and the prompt. -/
structure PlainMove (s : Shell) (src dest : List (List UInt8)) : Prop where
  sourcePath : IsPath src
  destPath : IsPath dest
  rows : src.length + dest.length ≤ 36
  line : (twoPathLine Branch.mv.word src dest).length < 256
  inUse : s.stack.length ≠ 0
  room : s.stack.length.toNat + src.length + dest.length + 3 ≤ 256
  prompt : (promptText s.stack.levels).length < 256

variable {locals : Locals} {behind : UInt8}

theorem printParsed_stack (s : Shell) (p : ParsedFile) : (s.printParsed p).stack = s.stack := by
  rw [Shell.printParsed]
  split_ifs <;> rfl

theorem printParsed_fs (s : Shell) (p : ParsedFile) : (s.printParsed p).fs = s.fs := by
  rw [Shell.printParsed]
  split_ifs <;> rfl

/-- The messages about a name change neither the stack nor the files. -/
theorem nameMessages (s : Shell) (row : List UInt8) :
    ∃ s', s' = (s.print (cString ((List.range 12).map (charAt row))) white).printParsed
        (parseTarget (charAt row)) ∧ s'.stack = s.stack ∧ s'.fs = s.fs :=
  ⟨_, rfl, printParsed_stack _ _, printParsed_fs _ _⟩

/-- The counters of the restoring loops stay on the stack. -/
theorem PlainMove.counters (h : PlainMove s src dest) :
    s.stack.length.toNat + (2 + (sourceWalked src).length) ≤ 256 ∧
      s.stack.length.toNat + mvCounter src dest ≤ 256 := by
  have hroom := h.room
  have hsrc := sourceWalked_length h.sourcePath.nonempty
  have hdest := destWalked_length src dest
  have hpos := List.length_pos_iff.mpr h.destPath.nonempty
  refine ⟨by omega, ?_⟩
  rw [mvCounter]
  split_ifs <;> omega

/-- A walk over rows of the line ends. -/
theorem PlainMove.walk (h : PlainMove s src dest) {rows : List (List UInt8)}
    (hrows : rows.length ≤ src.length + dest.length) :
    ∃ s', run (fun s row => changeToRow row s) s rows = some s' ∧
      s'.stack.levels = walkLevels s rows ∧ s'.stack.length ≠ 0 ∧ s'.fs = s.fs := by
  have hlen : s.stack.levels.length + rows.length < 256 := by
    have hroom := h.room
    rw [levels_length]
    omega
  obtain ⟨s', hrun, hlevels, hinUse, hfs, -⟩ :=
    walk_levels h.inUse (hasRoom_of_length hlen)
  exact ⟨s', hrun, hlevels, hinUse, hfs⟩

/-- A stack with the same levels is as good. -/
theorem PlainMove.congr {s' : Shell} (h : PlainMove s src dest)
    (hlevels : s'.stack.levels = s.stack.levels) (hlen : s'.stack.length = s.stack.length) :
    PlainMove s' src dest where
  sourcePath := h.sourcePath
  destPath := h.destPath
  rows := h.rows
  line := h.line
  inUse := hlen ▸ h.inUse
  room := hlen ▸ h.room
  prompt := hlevels ▸ h.prompt

/-- The second half of `mv`. -/
theorem moveToDestination_fs (h : PlainMove s src dest) (srcTable : FAT32DirectoryTable)
    (srcIdx : UInt32) :
    ((moveToDestination locals (twoPathTable word src dest) srcTable srcIdx
        (2 + (sourceWalked src).length) s).bind BranchEnd.finish).map Shell.fs
      = match currentTable s.fs (walkLevels s (destWalked src dest)) with
        | none => some s.fs
        | some destTable => syscallMove srcTable destTable srcIdx s.fs := by
  have hle : (destWalked src dest).length ≤ src.length + dest.length :=
    (destWalked_length src dest).trans (Nat.le_add_left _ _)
  obtain ⟨s₁, hrun, hlevels, hinUse, hfs⟩ := h.walk hle
  rw [moveToDestination, destLoop h.sourcePath h.destPath h.rows, hrun]
  simp only [Option.bind_eq_bind, Option.bind_some, Option.map_some, top_eq hinUse]
  -- the messages change neither the stack nor the file system
  obtain ⟨s₂, hs₂⟩ : ∃ s₂, s₂ = ((s₁.print (text "\n") white).print (cString (List.ofFn
      (requestName (s₁.stack.name (s₁.stack.length - 1))))) white).printParsed
        (parseTarget fun idx =>
          if idx < 8 then
            charAt (List.ofFn (requestName (s₁.stack.name (s₁.stack.length - 1)))) idx
          else locals.behindFullName idx) := ⟨_, rfl⟩
  have hstack₂ : s₂.stack = s₁.stack := by rw [hs₂, printParsed_stack]; rfl
  have hfs₂ : s₂.fs = s.fs := by rw [hs₂, printParsed_fs]; exact hfs
  rw [← hs₂]
  have hinUse₂ : s₂.stack.length ≠ 0 := hstack₂ ▸ hinUse
  have hcur : currentTable s₂.fs s₂.stack.levels
      = currentTable s.fs (walkLevels s (destWalked src dest)) := by
    rw [hfs₂, hstack₂, hlevels]
  cases htable : currentTable s.fs (walkLevels s (destWalked src dest)) with
  | none =>
      obtain ⟨code, hcode, hread⟩ := readCurrentTable_none hinUse₂ unreadTable (hcur.trans htable)
      rw [hread]
      simp only [Option.bind_some, if_pos hcode]
      exact congrArg some hfs₂
  | some destTable =>
      rw [readCurrentTable_found hinUse₂ unreadTable (hcur.trans htable), hfs₂]
      simp only [Option.bind_some, if_neg (show ¬ (0 : Int8) ≠ 0 by decide)]
      cases hmove : syscallMove srcTable destTable srcIdx s.fs with
      | none => rfl
      | some fs' =>
          obtain ⟨st', hback, hlevels', hlength'⟩ :=
            restore_levels { s₂ with fs := fs' } h.counters.2
          simp only [Option.bind_some, hback]
          rw [finish_eq (hlength' ▸ h.inUse) (hlevels' ▸ h.prompt)]
          rfl

/-- **The branch for `mv`.** -/
theorem execute_mv (h : PlainMove s src dest) :
    (executeCmd locals behind (bufferOf (twoPathLine Branch.mv.word src dest)) s).map Shell.fs
      = afterMv s src dest := by
  have hle : (sourceWalked src).length ≤ src.length + dest.length := by
    have := sourceWalked_length h.sourcePath.nonempty
    omega
  have hplain : PlainMove (s.print (text "\n") white) src dest := h.congr rfl rfl
  obtain ⟨s₁, hrun, hlevels, hinUse, hfs⟩ := hplain.walk hle
  have hline := plainLine_twoPathLine Branch.mv.word_isWord Branch.mv.word_ne_nil h.sourcePath
    h.destPath h.line
  have htokens := tokenize_twoPathLine Branch.mv.word_isWord Branch.mv.word_ne_nil h.sourcePath
    h.destPath (h.rows.trans (Nat.le_succ 36))
  have hrow : (twoPathTable Branch.mv.word src dest).row 0 = some Branch.mv.word := rfl
  rw [executeCmd_line hline htokens hrow, afterMv]
  show ((executeMv locals (twoPathTable Branch.mv.word src dest) _).bind _).map _ = _
  rw [executeMv, if_neg (show ¬ 2 ≤ 1 by decide), if_neg (show ¬ 2 > 2 by decide),
    sourceLoop h.sourcePath h.rows, hrun]
  simp only [Option.bind_eq_bind, Option.bind_some, Option.map_some,
    twoPath_name h.sourcePath h.rows]
  obtain ⟨s₂, hs₂, hstack₂, hkept⟩ := nameMessages s₁ (sourceName src)
  have hfs₂ : s₂.fs = s.fs := hkept.trans hfs
  rw [← hs₂]
  -- the table is looked up by the name of the directory the walk has ended in
  have hinUse₂ : s₂.stack.length ≠ 0 := hstack₂ ▸ hinUse
  have hcur : currentTable s₂.fs s₂.stack.levels
      = currentTable s.fs (walkLevels s (sourceWalked src)) := by
    rw [hfs₂, hstack₂, hlevels]
    rfl
  cases htable : currentTable s.fs (walkLevels s (sourceWalked src)) with
  | none =>
      obtain ⟨code, hcode, hread⟩ := readCurrentTable_none hinUse₂ unreadTable (hcur.trans htable)
      rw [hread]
      simp only [Option.bind_some, if_pos hcode]
      exact congrArg some hfs₂
  | some srcTable =>
      rw [readCurrentTable_found hinUse₂ unreadTable (hcur.trans htable)]
      simp only [Option.bind_some, if_neg (show ¬ (0 : Int8) ≠ 0 by decide)]
      cases hi : sourceIndex (parseTarget (charAt (sourceName src))) srcTable with
      | none => exact congrArg some hfs₂
      | some i =>
          -- the second walk starts where the first one did
          obtain ⟨st', hback, hlevels', hlength'⟩ := restore_levels s₂ hplain.counters.1
          have hplain' : PlainMove { s₂ with stack := st' } src dest :=
            h.congr hlevels' hlength'
          simp only [hback, Option.bind_some]
          rw [moveToDestination_fs hplain']
          have hwalk : walkLevels { s₂ with stack := st' } (destWalked src dest)
              = walkLevels s (destWalked src dest) := by
            rw [walkLevels, walkLevels, hfs₂, hlevels']
            rfl
          rw [hwalk, hfs₂]

/-! ## The directories of the two walks -/

/-- The directory the shell takes for the current one. -/
def currentDirectory (fs : FileSystem) : List Level → Option UInt32
  | [] => none
  | [top] => findDirectory fs rootClusterNumber top.dirName
  | top :: below :: _ => findDirectory fs below.number top.dirName

/-- A tree in which every directory has a free slot, and a stack of directories of it. -/
structure RoomyTree (s : Shell) : Prop where
  owned : Owned s.fs.table s.fs.fat
  free : ∀ d, Live s.fs.table d → ∃ j, j ≠ 0 ∧ ¬ (s.fs.table d j).used
  levels : ∀ l ∈ s.stack.levels, Live s.fs.table l.number

variable {fs : FileSystem} {d c : UInt32} {name : EntryName}

/-- A lookup in a directory finds a directory and returns its table. -/
theorem findTable_eq (hown : Owned fs.table fs.fat) (hd : Live fs.table d) :
    findTable fs d name = (findDirectory fs d name).map fs.table ∧
      ∀ c, findDirectory fs d name = some c → Live fs.table c := by
  cases hfind : findTable fs d name with
  | none =>
      rw [findDirectory, hfind]
      exact ⟨rfl, fun c hc => absurd hc.symm (Option.some_ne_none c)⟩
  | some t =>
      have hname : name ≠ fun _ => 0 := by
        rintro rfl
        rw [findTable, if_pos rfl] at hfind
        exact absurd hfind.symm (Option.some_ne_none t)
      have hslot := hfind
      rw [findTable, if_neg hname] at hslot
      obtain ⟨i, hi, rfl⟩ := Option.map_eq_some_iff.mp hslot
      have hmatch := List.find?_some hi
      rw [decide_eq_true_eq] at hmatch
      obtain ⟨hn, hattr⟩ := hmatch
      have hlive : Live fs.table (fs.table d i).cluster := by
        by_cases hi0 : i = 0
        · rw [hi0, hown.self hd]
          exact hd
        · have hused := hown.consistent.used_of_name hd (hn ▸ hname)
          exact RootedForest.Reach.child hd ⟨hi0, hused, hattr, rfl⟩
      have hself := hown.self hlive
      rw [findDirectory, hfind, Option.map_some, hself]
      constructor
      · rfl
      intro c hc
      obtain rfl := Option.some.inj hc
      exact hlive

theorem currentTable_eq (hown : Owned fs.table fs.fat) {levels : List Level}
    (hlive : ∀ l ∈ levels, Live fs.table l.number) :
    currentTable fs levels = (currentDirectory fs levels).map fs.table ∧
      ∀ c, currentDirectory fs levels = some c → Live fs.table c := by
  match levels with
  | [] => exact ⟨rfl, fun c hc => absurd hc.symm (Option.some_ne_none c)⟩
  | [top] => exact findTable_eq hown RootedForest.Reach.root
  | top :: below :: _ => exact findTable_eq hown (hlive below (by simp))

/-- The walks stay in the tree. -/
theorem walkStep_live (hown : Owned fs.table fs.fat) (levels : List Level) (row : List UInt8)
    (levels' : List Level) (hlive : ∀ l ∈ levels, Live fs.table l.number)
    (h : walkStep fs levels row = some levels') : ∀ l ∈ levels', Live fs.table l.number := by
  rw [walkStep, enter] at h
  split_ifs at h
  · obtain rfl := Option.some.inj h
    exact fun l hl => hlive l (mem_of_mem_leave hl)
  · obtain rfl := Option.some.inj h
    exact hlive
  · cases levels with
    | nil => exact absurd h.symm (Option.some_ne_none levels')
    | cons top below =>
        obtain ⟨n, hn, rfl⟩ := Option.map_eq_some_iff.mp h
        have hn := (findTable_eq hown (hlive top List.mem_cons_self)).2 n hn
        intro l hl
        rcases List.mem_cons.mp hl with rfl | hl
        · exact hn
        · exact hlive l hl

theorem RoomyTree.walkLevels_live (h : RoomyTree s) (rows : List (List UInt8)) :
    ∀ l ∈ walkLevels s rows, Live s.fs.table l.number :=
  skipping_invariant (walkStep s.fs) (walkStep_live h.owned) h.levels

/-! ## Kept once -/

/-- Whenever `mv` finds the entry and the destination, the destination is another directory
    than the one the entry is in, and neither the entry nor below it. -/
def MovesElsewhere (s : Shell) (src dest : List (List UInt8)) : Prop :=
  ∀ p i q, currentDirectory s.fs (walkLevels s (sourceWalked src)) = some p →
    sourceIndex (parseTarget (charAt (sourceName src))) (s.fs.table p) = some i →
    currentDirectory s.fs (walkLevels s (destWalked src dest)) = some q →
    p ≠ q ∧ ¬ Below s.fs.table p i q

theorem sourceIndex_some {parsed : ParsedFile} {t : FAT32DirectoryTable}
    {i : Fin directoryEntryCount} (h : sourceIndex parsed t = some i) : i ≠ 0 ∧ (t i).used := by
  have hmem := List.mem_of_find?_eq_some h
  have htarget := List.find?_some h
  rw [List.mem_reverse] at hmem
  rw [decide_eq_true_eq] at htarget
  exact ⟨mem_slotsFrom_one.mp hmem, htarget.1⟩

theorem afterMv_keptOnce_iff (h : RoomyTree s) (src dest : List (List UInt8)) :
    (∃ fs', afterMv s src dest = some fs' ∧ KeptOnce s.fs fs') ↔ MovesElsewhere s src dest := by
  have hcons := h.owned.consistent
  have hunmoved : ∃ fs', some s.fs = some fs' ∧ KeptOnce s.fs fs' :=
    ⟨s.fs, rfl, keptOnce_refl hcons⟩
  obtain ⟨hsrcTable, hsrcLive⟩ := currentTable_eq h.owned (h.walkLevels_live (sourceWalked src))
  obtain ⟨hdestTable, hdestLive⟩ :=
    currentTable_eq h.owned (h.walkLevels_live (destWalked src dest))
  rw [afterMv, hsrcTable, hdestTable]
  simp only [MovesElsewhere]
  -- without an entry and a destination nothing is moved and the condition says nothing
  cases hp : currentDirectory s.fs (walkLevels s (sourceWalked src)) with
  | none => exact iff_of_true hunmoved fun p i q hp' => nomatch hp'
  | some p =>
      simp only [Option.map_some, Option.some.injEq]
      cases hi : sourceIndex (parseTarget (charAt (sourceName src))) (s.fs.table p) with
      | none =>
          refine iff_of_true hunmoved ?_
          rintro _ i q rfl hi'
          exact nomatch hi.symm.trans hi'
      | some i =>
          cases hq : currentDirectory s.fs (walkLevels s (destWalked src dest)) with
          | none => exact iff_of_true hunmoved fun p i q _ _ hq' => nomatch hq'
          | some q =>
              obtain ⟨hi0, hused⟩ := sourceIndex_some hi
              have hs : UsedSlot s.fs.table p i := ⟨hsrcLive p hp, hi0, hused⟩
              have hlq := hdestLive q hq
              -- the destination has a free slot, so the syscall does move
              obtain ⟨j, hj⟩ := exists_unused_iff.mpr (h.free q hlq)
              obtain ⟨hj0, hfree⟩ := firstUnused_some hj
              have hidx : (UInt32.ofNat i).toNat = i := by
                rw [UInt32.toNat_ofNat', Nat.mod_eq_of_lt]
                exact i.isLt.trans (by decide)
              have hmove := syscallMove_eq (h.owned.self hs.live) (h.owned.self hlq) hi0 hidx hj
              have hiff := entryMoved_keptOnce_iff hcons hs hlq hj0 hfree
              simp only [Option.map_some, hmove, Option.some.injEq, exists_eq_left', hiff]
              constructor
              · rintro hkeep _ i' _ rfl hi' rfl
                obtain rfl := Option.some.inj (hi.symm.trans hi')
                exact hkeep
              · exact fun hkeep => hkeep p i q rfl hi rfl

/-- **`mv` on the tree.** On a plain line in a tree with free slots everything is kept once
    exactly when the destination is another directory and is not the entry or below it. -/
theorem mv_keepsOnce_iff (locals : Locals) (behind : UInt8) (s : Shell)
    (src dest : List (List UInt8)) (htree : RoomyTree s) (h : PlainMove s src dest) :
    (∃ s', executeCmd locals behind (bufferOf (twoPathLine Branch.mv.word src dest)) s = some s' ∧
      KeptOnce s.fs s'.fs) ↔ MovesElsewhere s src dest := by
  rw [← afterMv_keptOnce_iff htree, ← execute_mv h]
  constructor
  · rintro ⟨s', hexec, hkeep⟩
    exact ⟨s'.fs, by rw [hexec]; rfl, hkeep⟩
  · rintro ⟨fs', hfs, hkeep⟩
    obtain ⟨s', hexec, rfl⟩ := Option.map_eq_some_iff.mp hfs
    exact ⟨s', hexec, hkeep⟩

/-! ## Two directories in the root -/

/-- The last slot of every directory is free when it is in the listed ones, which hold all
    their subdirectories. -/
theorem free_of_closed {fs : FileSystem} (ds : List UInt32) (hroot : rootClusterNumber ∈ ds)
    (hedge : ∀ d ∈ ds, ∀ i, i ≠ 0 → (fs.table d i).used →
      (fs.table d i).attr = attrSubdirectory → (fs.table d i).cluster ∈ ds)
    (hfree : ∀ d ∈ ds, ¬ (fs.table d 63).used) (d : UInt32)
    (hd : Live fs.table d) : ∃ j, j ≠ 0 ∧ ¬ (fs.table d j).used := by
  have hmem : d ∈ ds := by
    refine RootedForest.reach_closed (· ∈ ds) hroot ?_ hd
    intro d i c hmem he
    obtain ⟨hi, hused, hattr, rfl⟩ := he
    exact hedge d hmem i hi hused hattr
  exact ⟨63, by decide, hfree d hmem⟩

/-- The state after the directories `a` and `b` were made in the fresh root. -/
def afterTwoMkdirs : FileSystem :=
  (exec afterMkdir (.write zeroTable (rootRequest [98] 0))).getD afterMkdir

theorem exec_secondMkdir : exec afterMkdir (.write zeroTable (rootRequest [98] 0))
    = some afterTwoMkdirs := by
  have hsome : (exec afterMkdir (.write zeroTable (rootRequest [98] 0))).isSome := by decide
  exact (Option.getD_of_ne_none (Option.isSome_iff_ne_none.mp hsome) _).symm

theorem afterMkdir_headCell : (freeCells afterMkdir.fat).head? = some 4 := by
  decide

theorem afterTwoMkdirs_owned : Owned afterTwoMkdirs.table afterTwoMkdirs.fat := by
  have hadm : Admissible afterMkdir (.write zeroTable (rootRequest [98] 0)) :=
    Or.inl ⟨⟨RootedForest.Reach.root, fun _ _ => rfl⟩, by decide⟩
  have hkeep : KeepsOwnership afterMkdir (.write zeroTable (rootRequest [98] 0)) :=
    fun _ _ => ⟨⟨2, by decide⟩, fun _ => headCell_ne_last afterMkdir_headCell (by decide)⟩
  obtain ⟨fs, hfs, hown⟩ := exec_owned _ _ afterMkdir_owned ⟨hadm, hkeep⟩
  obtain rfl := Option.some.inj (exec_secondMkdir.symm.trans hfs)
  exact hown

theorem roomyTree_start {fs : FileSystem} (hown : Owned fs.table fs.fat)
    (hfree : ∀ d, Live fs.table d → ∃ j, j ≠ 0 ∧ ¬ (fs.table d j).used) :
    RoomyTree (startShell fs) where
  owned := hown
  free := hfree
  levels l hl := by
    rw [startShell_levels, List.mem_singleton] at hl
    rw [hl]
    exact RootedForest.Reach.root

/-- A word of one character. -/
theorem isWord_singleton {b : UInt8} (h : b ≠ 0 ∧ b ≠ space ∧ b ≠ slash) : IsWord [b] where
  chars := by simpa using h
  length := by
    show 1 < 15
    decide

theorem plainMove_start (fs : FileSystem) {src dest : List UInt8} (hsrc : IsWord src)
    (hdest : IsWord dest) (hsrc0 : src ≠ []) (hdest0 : dest ≠ []) :
    PlainMove (startShell fs) [src] [dest] where
  sourcePath := ⟨by simpa using hsrc, by simpa using hsrc0, by simpa using hsrc0, by simp⟩
  destPath := ⟨by simpa using hdest, by simpa using hdest0, by simpa using hdest0, by simp⟩
  rows := by
    show 1 + 1 ≤ 36
    decide
  line := by
    have h := hsrc.length
    have h' := hdest.length
    simp only [twoPathLine, pathText, Branch.word, List.length_append, List.length_cons,
      List.length_nil]
    omega
  inUse := by
    show (1 : UInt8) ≠ 0
    decide
  room := by
    show 1 + 1 + 1 + 3 ≤ 256
    decide
  prompt := by
    show (promptText [rootLevel]).length < 256
    decide

/-- `mv a b` moves `a` into `b`. -/
theorem mv_intoSibling : ∃ s', executeCmd zeroLocals 0 (bufferOf (twoPathLine Branch.mv.word
    [[97]] [[98]])) (startShell afterTwoMkdirs) = some s' ∧
      KeptOnce afterTwoMkdirs s'.fs := by
  have htree : RoomyTree (startShell afterTwoMkdirs) := by
    refine roomyTree_start afterTwoMkdirs_owned (free_of_closed [2, 3, 4] (by simp) ?_ ?_)
    · simp only [List.forall_mem_cons, List.not_mem_nil, false_implies, implies_true, and_true]
      exact ⟨by decide, by decide, by decide⟩
    · simp only [List.forall_mem_cons, List.not_mem_nil, false_implies, implies_true, and_true]
      exact ⟨by decide, by decide, by decide⟩
  have hplain : PlainMove (startShell afterTwoMkdirs) [[97]] [[98]] :=
    plainMove_start _ (isWord_singleton (by decide)) (isWord_singleton (by decide))
      (List.cons_ne_nil _ _) (List.cons_ne_nil _ _)
  refine (mv_keepsOnce_iff zeroLocals 0 _ _ _ htree hplain).mpr ?_
  intro p i q hp hi hq
  have hp2 : currentDirectory afterTwoMkdirs (walkLevels (startShell afterTwoMkdirs)
      (sourceWalked [[97]])) = some 2 := by decide
  have hq4 : currentDirectory afterTwoMkdirs (walkLevels (startShell afterTwoMkdirs)
      (destWalked [[97]] [[98]])) = some 4 := by decide
  obtain rfl := Option.some.inj (hp2.symm.trans hp)
  obtain rfl := Option.some.inj (hq4.symm.trans hq)
  have hi1 : sourceIndex (parseTarget (charAt (sourceName [[97]]))) (afterTwoMkdirs.table 2)
      = some 1 := by decide
  obtain rfl := Option.some.inj (hi1.symm.trans hi)
  refine ⟨by decide, ?_⟩
  rintro ⟨x, ⟨-, -, -, hx⟩, hbelow⟩
  -- below `a` there is only its own cluster 3
  have h3 : (afterTwoMkdirs.table 2 1).cluster = 3 := by decide
  have hleaf : ∀ k : Fin directoryEntryCount, k ≠ 0 → ¬ (afterTwoMkdirs.table 3 k).used := by
    decide
  have hx3 : x = 3 := hx.symm.trans h3
  have h4 : (4 : UInt32) = x := by
    refine RootedForest.reach_closed (· = x) rfl ?_ hbelow
    intro d k c hd he
    rw [hd, hx3] at he
    exact absurd he.2.1 (hleaf k he.1)
  exact absurd (h4.trans hx3) (by decide)

/-- `mv a .` in the root leaves `a` in two slots. -/
theorem mv_here_twice : RoomyTree (startShell afterMkdir) ∧
    PlainMove (startShell afterMkdir) [[97]] [[dot]] ∧
    ¬ ∃ s', executeCmd zeroLocals 0 (bufferOf (twoPathLine Branch.mv.word [[97]] [[dot]]))
      (startShell afterMkdir) = some s' ∧ KeptOnce afterMkdir s'.fs := by
  have htree : RoomyTree (startShell afterMkdir) := by
    refine roomyTree_start afterMkdir_owned (free_of_closed [2, 3] (by simp) ?_ ?_)
    · simp only [List.forall_mem_cons, List.not_mem_nil, false_implies, implies_true, and_true]
      exact ⟨by decide, by decide⟩
    · simp only [List.forall_mem_cons, List.not_mem_nil, false_implies, implies_true, and_true]
      exact ⟨by decide, by decide⟩
  have hplain : PlainMove (startShell afterMkdir) [[97]] [[dot]] :=
    plainMove_start _ (isWord_singleton (by decide)) (isWord_singleton (by decide))
      (List.cons_ne_nil _ _) (List.cons_ne_nil _ _)
  refine ⟨htree, hplain, ?_⟩
  rintro ⟨s', hexec, hkeep⟩
  have hfs : afterMv (startShell afterMkdir) [[97]] [[dot]] = some s'.fs := by
    rw [← execute_mv hplain, hexec]
    rfl
  have hp : currentDirectory afterMkdir (walkLevels (startShell afterMkdir)
      (sourceWalked [[97]])) = some 2 := by decide
  have hq : currentDirectory afterMkdir (walkLevels (startShell afterMkdir)
      (destWalked [[97]] [[dot]])) = some 2 := by decide
  have hi : sourceIndex (parseTarget (charAt (sourceName [[97]]))) (afterMkdir.table 2)
      = some 1 := by decide
  exact ((afterMv_keptOnce_iff htree _ _).mp ⟨_, hfs, hkeep⟩ 2 1 2 hp hi hq).1 rfl

end OsyShell
