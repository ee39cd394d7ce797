import Osyikkk.DirectoryStackProofs
import Osyikkk.TargetArrayProofs

/-!
# Command lines on the token table

What the parts of a branch do on the table of a line `word path` or `word path path'`: the
parsing of a name without extension, the path loops, and the way from the input buffer to
the branch.
-/

namespace OsyShell

open OsyDisk OsyFat32 OsyVolume PartialRun

/-! ## Names without an extension -/

/-- An array that is filled from left to right: one more place. -/
theorem filled_succ (f g : ℕ → UInt8) (idx n : ℕ) :
    (fun j => if idx + 1 ≤ j ∧ j < idx + 1 + n then f j else Function.update g idx (f idx) j)
      = fun j => if idx ≤ j ∧ j < idx + (n + 1) then f j else g j := by
  funext j
  by_cases hj : j = idx
  · subst hj
    rw [if_neg (by omega), if_pos (by omega), Function.update_self]
  · rw [Function.update_of_ne hj]
    by_cases hin : idx + 1 ≤ j ∧ j < idx + 1 + n
    · rw [if_pos hin, if_pos (by omega)]
    · rw [if_neg hin, if_neg (by omega)]

theorem parseLoop_name {file : ℕ → UInt8} (hdot : ∀ j, file j ≠ dot)
    (hlong : ∀ j, 8 ≤ j → file j = 0) (n idx : ℕ) (p : ParsedFile) :
    parseLoop file n idx false idx 0 p
      = { p with
          targetName := fun j => if idx ≤ j ∧ j < idx + n then file j else p.targetName j } := by
  induction n generalizing idx p with
  | zero =>
      have hno : ∀ j, ¬ (idx ≤ j ∧ j < idx + 0) := by omega
      simp only [parseLoop, if_neg (hno _)]
  | succ n ih =>
      have hfits : ¬ (idx = 8 ∧ file idx ≠ 0) := by
        rintro ⟨rfl, hne⟩
        exact hne (hlong 8 (Nat.le_refl 8))
      rw [parseLoop, if_neg (hdot idx), if_pos rfl, if_neg hfits, ih]
      exact congrArg (fun g => ({ p with targetName := g } : ParsedFile))
        (filled_succ file p.targetName idx n)

/-- A name that is kept as it is, without an extension. -/
def ParsedFile.ofName (row : List UInt8) : ParsedFile where
  targetName := charAt row
  targetExt := fun _ => 0
  nameTooLong := false
  extTooLong := false

theorem ofName_name {row : List UInt8} (h0 : 0 ∉ row) (hlen : row.length ≤ 8) :
    cString (ParsedFile.ofName row).name = row :=
  cString_map_charAt h0 (Nat.lt_succ_of_le hlen)

theorem ofName_ext (row : List UInt8) : cString (ParsedFile.ofName row).extString = [] := by
  rw [cString_extString (List.mem_cons_self (a := 0) (l := [0, 0, 0]))]
  rfl

theorem printParsed_ofName (s : Shell) (row : List UInt8) :
    s.printParsed (ParsedFile.ofName row) = s := rfl

theorem charAt_ne_dot {row : List UInt8} (hdot : dot ∉ row) (j : ℕ) : charAt row j ≠ dot := by
  by_cases hj : j < row.length
  · rw [charAt_of_lt hj]
    exact fun h => hdot (h ▸ List.getElem_mem hj)
  · rw [charAt_of_le (Nat.not_lt.mp hj)]
    decide

/-- A name of at most eight characters without a dot is kept. -/
theorem parseFileCmd_name {row : List UInt8} (hdot : dot ∉ row) (hlen : row.length ≤ 8) :
    parseFileCmd (charAt row) = ParsedFile.ofName row := by
  have hlong : ∀ j, 8 ≤ j → charAt row j = 0 := fun j hj => charAt_of_le (hlen.trans hj)
  rw [parseFileCmd, parseLoop_name (charAt_ne_dot hdot) hlong]
  refine congrArg (fun g => ParsedFile.mk g (fun _ => 0) false false) (funext fun j => ?_)
  by_cases hj : j < 12
  · exact if_pos ⟨Nat.zero_le j, by omega⟩
  · rw [hlong j (by omega)]
    exact if_neg (by omega)

/-- Without a dot nothing is stored through `target_ext`. -/
theorem parseStores_noDot {row : List UInt8} (hdot : dot ∉ row) :
    (parseStores (charAt row) 12 0 false 0 0).2 = [] := by
  have hnone : tokenExt (charAt row) = [] := by
    have hall : ∀ b ∈ tokenBytes (charAt row) 0 12, decide (b ≠ dot) = true := by
      intro b hb
      obtain ⟨j, -, rfl⟩ := List.mem_map.mp hb
      exact decide_eq_true (charAt_ne_dot hdot j)
    rw [tokenExt, extBytes, List.dropWhile_eq_nil_iff.mpr hall]
    rfl
  rw [parseStores_eq, hnone]
  exact ite_self _

/-- Its caller finds it in the arrays. -/
theorem parseTarget_name {row : List UInt8} (hdot : dot ∉ row) (hlen : row.length ≤ 8) :
    parseTarget (charAt row) = ParsedFile.ofName row := by
  rw [parseTarget_eq, parseStores_noDot hdot, parseFileCmd_name hdot hlen]
  exact ParsedFile.mk.injEq .. |>.mpr ⟨funext fun j => if_neg (Nat.not_lt_zero _),
    funext fun _ => ite_self _, rfl, rfl⟩

/-! ## Path loops -/

theorem IsWord.zero_notMem {c : List UInt8} (h : IsWord c) : 0 ∉ c :=
  fun h0 => (h.chars 0 h0).1 rfl

theorem IsWord.first_ne_zero {c : List UInt8} (h : IsWord c) (hne : c ≠ []) :
    charAt c 0 ≠ 0 := by
  obtain ⟨b, c, rfl⟩ := List.exists_cons_of_ne_nil hne
  exact (h.chars b List.mem_cons_self).1

theorem IsWord.first_ne_space {c : List UInt8} (h : IsWord c) : charAt c 0 ≠ space := by
  cases c with
  | nil => decide
  | cons b c => exact (h.chars b List.mem_cons_self).2.1

variable {cmd : TokenTable} {i : ℕ} {s : Shell} {word : List UInt8} {path : List (List UInt8)}

theorem rowUsed_eq (hi : i < 40) :
    rowUsed cmd i = some (decide (charAt (cmd.rows.getD i []) 0 ≠ 0)) := by
  rw [rowUsed, first_eq hi, Option.map_some]

theorem getD_path (word : List UInt8) (path : List (List UInt8)) (k : ℕ) :
    (word :: [space] :: path).getD (2 + k) [] = path.getD k [] := by
  rw [Nat.add_comm, List.getD_cons_succ, List.getD_cons_succ]

/-- The table of a line `word path`. -/
abbrev pathTable (word : List UInt8) (path : List (List UInt8)) : TokenTable where
  rows := word :: [space] :: path
  cmdLength := 1

/-- Row `2 + k` of such a table is component `k`, or empty behind the path. -/
theorem pathTable_used (hk : k < 38) (path : List (List UInt8)) :
    rowUsed (pathTable word path) (2 + k) = some (decide (charAt (path.getD k []) 0 ≠ 0)) := by
  rw [rowUsed_eq (by omega), getD_path]

theorem pathTable_row (hk : k < path.length) (h37 : path.length ≤ 37) :
    (pathTable word path).row (2 + k) = some path[k] := by
  rw [row_eq (by omega), getD_path, List.getD_eq_getElem _ _ hk]

section PathTable

variable (hw : ∀ c ∈ path, IsWord c ∧ c ≠ []) (h37 : path.length ≤ 37)
include hw h37

theorem pathTable_used_eq (hk : k ≤ path.length) :
    rowUsed (pathTable word path) (2 + k) = some (decide (k < path.length)) := by
  rw [pathTable_used (by omega)]
  by_cases hlt : k < path.length
  · obtain ⟨hword, hne⟩ := hw _ (List.getElem_mem hlt)
    rw [List.getD_eq_getElem _ _ hlt, decide_eq_true (hword.first_ne_zero hne),
      decide_eq_true hlt]
  · rw [List.getD_eq_default _ _ (Nat.not_lt.mp hlt), decide_eq_false hlt]
    rfl

/-- The loop of `cd` walks over the whole path. -/
theorem pathLoop_all : pathLoop (pathTable word path) (rowUsed (pathTable word path)) 41 2 s
    = (run (fun s row => changeToRow row s) s path).map fun s => (2 + path.length, s) := by
  refine pathLoop_eq (by omega) (fun k hk => ⟨?_, pathTable_row hk h37⟩) ?_
  · rw [pathTable_used_eq hw h37 (Nat.le_of_lt hk), decide_eq_true hk]
  · rw [pathTable_used_eq hw h37 (Nat.le_refl _), decide_eq_false (Nat.lt_irrefl _)]

/-- The loops of `mkdir`, `cat` and `rm` stop at the last component. -/
theorem pathLoopIf_dropLast (hne : path ≠ []) :
    pathLoopIf (pathTable word path) (fun i => rowUsed (pathTable word path) (i + 1)) 2 2 s
      = (run (fun s row => changeToRow row s) s path.dropLast).map
          fun s => (2 + path.dropLast.length, s) := by
  have hlen : path.dropLast.length = path.length - 1 := List.length_dropLast
  have hpos := List.length_pos_iff.mpr hne
  rw [pathLoopIf, pathTable_used_eq hw h37 (show 1 ≤ path.length from hpos)]
  by_cases h1 : 1 < path.length
  · rw [decide_eq_true h1]
    refine pathLoop_eq (by omega) (fun k hk => ⟨?_, ?_⟩) ?_
    · have hk1 : k + 1 < path.length := by omega
      rw [Nat.add_assoc, pathTable_used_eq hw h37 (Nat.le_of_lt hk1), decide_eq_true hk1]
    · rw [pathTable_row (by omega) h37, List.getElem_dropLast]
    · rw [Nat.add_assoc, pathTable_used_eq hw h37 (by omega), decide_eq_false (by omega)]
  · -- a single component: `cmd[3]` is empty and nothing is walked
    have hnil : path.dropLast = [] := List.length_eq_zero_iff.mp (by omega)
    rw [decide_eq_false h1, hnil]
    rfl

end PathTable

/-- The name a command with a path acts on. -/
def lastComponent (path : List (List UInt8)) : List UInt8 := path.getLast?.getD []

theorem lastComponent_mem (h : path ≠ []) : lastComponent path ∈ path := by
  rw [lastComponent, List.getLast?_eq_getLast_of_ne_nil h, Option.getD_some]
  exact List.getLast_mem h

/-! ## From the buffer to the branch -/

theorem branchOf_word (b : Branch) : branchOf b.word = some b := by
  cases b <;> decide

theorem Branch.word_isWord (b : Branch) : IsWord b.word := by
  cases b <;> exact ⟨by simp [Branch.word, space, slash], by decide⟩

theorem Branch.word_ne_nil (b : Branch) : b.word ≠ [] := by
  cases b <;> exact List.cons_ne_nil _ _

/-- The newline `execute_cmd` prints before a branch. -/
abbrev newline : Display := .writeString (text "\n") white

theorem executeCmd_line {locals : Locals} {behind : UInt8} {line : List UInt8} {b : Branch}
    (hline : PlainLine line) (htokens : tokenize line = some cmd)
    (hrow : cmd.row 0 = some b.word) :
    executeCmd locals behind (bufferOf line) s
      = (b.execute locals cmd (s.print (text "\n") white)).bind BranchEnd.finish := by
  simp only [executeCmd, trim_bufferOf hline, lineOf_bufferOf hline,
    commandTable_of_tokenize htokens, hrow, branchOf_word, Option.bind_eq_bind, Option.bind_some]

/-- A command with one path. -/
theorem executeCmd_path {locals : Locals} {behind : UInt8} (b : Branch) (hp : IsPath path)
    (h37 : path.length ≤ 37) (hlen : (pathLine b.word path).length < 256) :
    executeCmd locals behind (bufferOf (pathLine b.word path)) s
      = (b.execute locals (pathTable b.word path) (s.print (text "\n") white)).bind
          BranchEnd.finish := by
  refine executeCmd_line (plainLine_pathLine b.word_isWord b.word_ne_nil hp hlen) ?_ rfl
  exact tokenize_pathLine b.word_isWord b.word_ne_nil hp (h37.trans (Nat.le_succ 37))

/-! ## The initial shell -/

/-- The shell before its first command. -/
def startShell (fs : FileSystem) : Shell where
  stack := DirStack.initial
  fs := fs
  screen := []

/-- Locals whose memory holds zeros. -/
def zeroLocals : Locals where
  newTable := zeroTable
  currentTable := zeroTable
  cl := fun _ => 0
  behindFullName := fun _ => 0
  parentTable := zeroTable
  filesize := 0
  reqTable := zeroTable
  copiedTable := zeroTable
  callDepth := 1

/-- The level of the root. -/
def rootLevel : Level where
  number := 2
  name := DirStack.initial.name 0

theorem startShell_levels (fs : FileSystem) : (startShell fs).stack.levels = [rootLevel] := rfl

end OsyShell
