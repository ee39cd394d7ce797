import Osyikkk.TokenProofs

/-!
# The directory stack as a list of levels

The entries of the stack in use, the current directory first, are the levels of the path
from the root to the current directory. A component of a path is a partial step on them
(`enter`): `..` leaves the current directory, `.` stays, and a name enters a directory that
a lookup finds. The shell's walk over the components of a path takes these steps with the
lookup of `read_directory` and leaves out the components that have none (`walk_levels`).
-/

namespace OsyShell

open OsyDisk OsyFat32 OsyVolume PartialRun

/-! ## Levels -/

/-- An entry of the directory stack. -/
structure Level where
  number : UInt32
  name : Fin 9 → UInt8

/-- The entries with an index below `n`, the last one first. -/
def DirStack.levelsBelow (st : DirStack) : ℕ → List Level
  | 0 => []
  | n + 1 => { number := st.number (UInt8.ofNat n), name := st.name (UInt8.ofNat n) }
      :: st.levelsBelow n

/-- The entries in use, the current directory first. -/
def DirStack.levels (st : DirStack) : List Level := st.levelsBelow st.length.toNat

/-- The entry `change_directory` stores. -/
def Level.entered (name : EntryName) (number : UInt32) : Level where
  number := number
  name := fun j => if h : j.val < 8 then name ⟨j, h⟩ else 0

/-- The eight bytes of a level's name that go into a request. -/
def Level.dirName (l : Level) : EntryName := requestName l.name

variable {st st' : DirStack}

theorem levelsBelow_length (st : DirStack) (n : ℕ) : (st.levelsBelow n).length = n := by
  induction n with
  | zero => rfl
  | succ n ih => rw [DirStack.levelsBelow, List.length_cons, ih]

theorem levels_length (st : DirStack) : st.levels.length = st.length.toNat :=
  levelsBelow_length st _

theorem levelsBelow_congr {n : ℕ}
    (h : ∀ i < n, st'.number (UInt8.ofNat i) = st.number (UInt8.ofNat i) ∧
      st'.name (UInt8.ofNat i) = st.name (UInt8.ofNat i)) :
    st'.levelsBelow n = st.levelsBelow n := by
  induction n with
  | zero => rfl
  | succ n ih =>
      obtain ⟨hnumber, hname⟩ := h n (Nat.lt_succ_self n)
      rw [DirStack.levelsBelow, DirStack.levelsBelow, hnumber, hname,
        ih fun i hi => h i (Nat.lt_succ_of_lt hi)]

theorem length_sub_one_toNat (h : st.length ≠ 0) :
    (st.length - 1).toNat = st.length.toNat - 1 := by
  refine UInt8.toNat_sub_of_le _ _ ?_
  rw [UInt8.le_iff_toNat_le]
  exact Nat.one_le_iff_ne_zero.mpr fun h0 => h (UInt8.toNat_inj.mp h0)

theorem length_pos (h : st.length ≠ 0) : 0 < st.length.toNat :=
  Nat.pos_of_ne_zero fun h0 => h (UInt8.toNat_inj.mp h0)

/-- A stack in use has the current directory on top. -/
theorem levels_cons (h : st.length ≠ 0) :
    st.levels = { number := st.number (st.length - 1), name := st.name (st.length - 1) }
      :: st.levelsBelow (st.length.toNat - 1) := by
  have hlen : st.length.toNat = st.length.toNat - 1 + 1 := by
    have := length_pos h
    omega
  have htop : UInt8.ofNat (st.length.toNat - 1) = st.length - 1 := by
    rw [← length_sub_one_toNat h, UInt8.ofNat_toNat]
  rw [DirStack.levels, hlen, DirStack.levelsBelow, Nat.add_sub_cancel, htop]

theorem top_eq (h : st.length ≠ 0) : st.top = some (st.length - 1) := if_neg h

/-- `DIR_STACK_LENGTH--`. -/
theorem levels_pop (h : st.length ≠ 0) :
    ({ st with length := st.length - 1 } : DirStack).levels = st.levels.tail := by
  rw [levels_cons h, List.tail_cons, DirStack.levels, length_sub_one_toNat h]
  exact levelsBelow_congr fun i _ => ⟨rfl, rfl⟩

/-- `change_directory` puts a level on top, as long as `DIR_STACK_LENGTH` does not wrap. -/
theorem levels_push (hlt : st.length.toNat < 255) (name : EntryName) (number : UInt32) :
    (st.push name number).levels = Level.entered name number :: st.levels := by
  have hlen : (st.push name number).length.toNat = st.length.toNat + 1 := by
    show (st.length + 1).toNat = _
    rw [UInt8.toNat_add, UInt8.toNat_one]
    omega
  have hold : (st.push name number).levelsBelow st.length.toNat
      = st.levelsBelow st.length.toNat := by
    refine levelsBelow_congr ?_
    intro i hi
    have hne : UInt8.ofNat i ≠ st.length := by
      intro heq
      have htoNat := congrArg UInt8.toNat heq
      rw [UInt8.toNat_ofNat', Nat.mod_eq_of_lt (by omega)] at htoNat
      omega
    exact ⟨Function.update_of_ne hne _ _, Function.update_of_ne hne _ _⟩
  rw [DirStack.levels, hlen, DirStack.levelsBelow, hold, UInt8.ofNat_toNat]
  simp only [DirStack.push, Function.update_self]
  rfl

/-- A push leaves the stack in use. -/
theorem push_length_ne_zero (hlt : st.length.toNat < 255) (name : EntryName)
    (number : UInt32) : (st.push name number).length ≠ 0 := by
  show st.length + 1 ≠ 0
  intro hz
  have hnat := congrArg UInt8.toNat hz
  rw [UInt8.toNat_add, UInt8.toNat_one] at hnat
  have hzero : (0 : UInt8).toNat = 0 := rfl
  omega

/-! ## Lookups -/

/-- The table `read_directory` returns for a name. -/
def findTable (fs : FileSystem) (d : UInt32) (name : EntryName) : Option FAT32DirectoryTable :=
  if name = fun _ => 0 then none
  else
    ((slotsFrom 0).find? fun i =>
        name = (fs.table d i).name ∧ (fs.table d i).attr = attrSubdirectory).map fun i =>
      fs.table (fs.table d i).cluster

/-- The cluster the shell takes from slot 0 of that table. -/
def findDirectory (fs : FileSystem) (d : UInt32) (name : EntryName) : Option UInt32 :=
  (findTable fs d name).map fun t => (t 0).cluster

variable {fs : FileSystem} {d : UInt32} {name : EntryName}

theorem tableOfMemory_congr {m m' : Memory} (h : ∀ k < clusterSize, m k = m' k) :
    tableOfMemory m = tableOfMemory m' := by
  funext i
  have hi := i.isLt
  refine ofBytes_congr fun r hr => h _ ?_
  simp only [clusterSize, directoryEntryCount] at hi ⊢
  omega

theorem readDirectoryTable_found {t : FAT32DirectoryTable} (old : FAT32DirectoryTable)
    (h : findTable fs d name = some t) : readDirectoryTable name d old fs = (0, t) := by
  by_cases hn : name = fun _ => 0
  · rw [findTable, if_pos hn] at h
    exact nomatch h
  rw [findTable, if_neg hn] at h
  obtain ⟨i, hi, rfl⟩ := Option.map_eq_some_iff.mp h
  have hfirst : firstDirectory
      { buf := tableToMemory old, name := name, ext := fun _ => 0, parentClusterNumber := d,
        bufferSize := 0 } (fs.table d) = some i := by
    rw [← hi, firstDirectory]
    refine List.find?_congr ?_
    intro j _
    simp only [sameName_iff]
  simp only [readDirectoryTable, readDirectory_eq hn rfl hfirst, Prod.mk.injEq, true_and]
  calc tableOfMemory (fun k => if k < clusterSize then
          tableToMemory (fs.table (fs.table d i).cluster) k else tableToMemory old k)
      = tableOfMemory (tableToMemory (fs.table (fs.table d i).cluster)) :=
        tableOfMemory_congr fun k hk => if_pos hk
    _ = fs.table (fs.table d i).cluster := tableOfMemory_tableToMemory _

theorem readDirectoryTable_none (old : FAT32DirectoryTable) (h : findTable fs d name = none) :
    ∃ code, code ≠ 0 ∧ readDirectoryTable name d old fs = (code, old) := by
  by_cases hn : name = fun _ => 0
  · refine ⟨-1, by decide, ?_⟩
    have hempty : readDirectory
        { buf := tableToMemory old, name := name, ext := fun _ => 0, parentClusterNumber := d,
          bufferSize := 0 } fs = (-1, tableToMemory old) := readDirectory_emptyName hn
    simp only [readDirectoryTable, hempty, tableOfMemory_tableToMemory]
  rw [findTable, if_neg hn, Option.map_eq_none_iff] at h
  have hfirst : firstDirectory
      { buf := tableToMemory old, name := name, ext := fun _ => 0, parentClusterNumber := d,
        bufferSize := 0 } (fs.table d) = none := by
    rw [← h, firstDirectory]
    refine List.find?_congr ?_
    intro j _
    simp only [sameName_iff]
  refine ⟨2, by decide, ?_⟩
  simp only [readDirectoryTable, readDirectory_notFound hn rfl hfirst,
    tableOfMemory_tableToMemory]

/-- The table the shell takes for the current directory's: it is looked up in the level
    below, and in the root for the lowest level. -/
def currentTable (fs : FileSystem) : List Level → Option FAT32DirectoryTable
  | [] => none
  | [top] => findTable fs rootClusterNumber top.dirName
  | top :: below :: _ => findTable fs below.number top.dirName

theorem readCurrentTable_eq {s : Shell} (h : s.stack.length ≠ 0) (old : FAT32DirectoryTable) :
    ∃ parent name, currentTable s.fs s.stack.levels = findTable s.fs parent name ∧
      readCurrentTable old s = some (readDirectoryTable name parent old s.fs) := by
  have hpos := length_pos h
  by_cases h1 : s.stack.length ≤ 1
  · have hlen : s.stack.length.toNat - 1 = 0 := by
      rw [UInt8.le_iff_toNat_le] at h1
      exact Nat.sub_eq_zero_of_le h1
    refine ⟨rootClusterNumber, requestName (s.stack.name (s.stack.length - 1)),
      ?_, ?_⟩
    · rw [levels_cons h, hlen]
      rfl
    · simp only [readCurrentTable, top_eq h, Option.bind_eq_bind, Option.bind_some, if_pos h1]
  · have h2 : 1 < s.stack.length.toNat := by
      rw [UInt8.le_iff_toNat_le] at h1
      exact Nat.not_le.mp h1
    have hlen : s.stack.length.toNat - 1 = s.stack.length.toNat - 2 + 1 := by omega
    have hbelow : UInt8.ofNat (s.stack.length.toNat - 2) = s.stack.length - 1 - 1 := by
      refine UInt8.toNat_inj.mp ?_
      have hone : (1 : UInt8) ≤ s.stack.length - 1 := by
        rw [UInt8.le_iff_toNat_le, length_sub_one_toNat h]
        exact Nat.le_sub_one_of_lt h2
      rw [UInt8.toNat_sub_of_le _ _ hone, length_sub_one_toNat h, UInt8.toNat_ofNat',
        Nat.mod_eq_of_lt, UInt8.toNat_one]
      · omega
      · have := UInt8.toNat_lt s.stack.length
        omega
    refine ⟨s.stack.number (s.stack.length - 1 - 1),
      requestName (s.stack.name (s.stack.length - 1)), ?_, ?_⟩
    · rw [levels_cons h, hlen, DirStack.levelsBelow, hbelow]
      rfl
    · simp only [readCurrentTable, top_eq h, Option.bind_eq_bind, Option.bind_some, if_neg h1]

theorem readCurrentTable_found {s : Shell} {t : FAT32DirectoryTable} (h : s.stack.length ≠ 0)
    (old : FAT32DirectoryTable) (ht : currentTable s.fs s.stack.levels = some t) :
    readCurrentTable old s = some (0, t) := by
  obtain ⟨parent, name, hcur, hread⟩ := readCurrentTable_eq h old
  rw [hread, readDirectoryTable_found old (hcur ▸ ht)]

theorem readCurrentTable_none {s : Shell} (h : s.stack.length ≠ 0) (old : FAT32DirectoryTable)
    (ht : currentTable s.fs s.stack.levels = none) :
    ∃ code, code ≠ 0 ∧ readCurrentTable old s = some (code, old) := by
  obtain ⟨parent, name, hcur, hread⟩ := readCurrentTable_eq h old
  obtain ⟨code, hcode, heq⟩ := readDirectoryTable_none old (hcur ▸ ht)
  exact ⟨code, hcode, hread.trans (congrArg some heq)⟩

/-! ## Steps along a path -/

/-- `..`: the current directory is left, unless it is the lowest level. -/
def leave : List Level → List Level
  | [] => []
  | [top] => [top]
  | _ :: below :: rest => below :: rest

/-- A name: the directory it leads to becomes the current one. -/
def descend (lookup : UInt32 → EntryName → Option UInt32) (name : EntryName) :
    List Level → Option (List Level)
  | [] => none
  | top :: below =>
      (lookup top.number name).map fun n => Level.entered name n :: top :: below

/-- A component of a path as a partial step on the levels. -/
def enter (lookup : UInt32 → EntryName → Option UInt32) (levels : List Level)
    (c : List UInt8) : Option (List Level) :=
  if c = [dot, dot] then some (leave levels)
  else if c = [dot] then some levels
  else descend lookup (rowName c) levels

/-- The component a row of the path loops is taken for. -/
def componentOf (row : List UInt8) : List UInt8 :=
  if charAt row 0 = dot then if charAt row 1 = dot then [dot, dot] else [dot] else row

/-- The step of the path loops. -/
def walkStep (fs : FileSystem) (levels : List Level) (row : List UInt8) : Option (List Level) :=
  enter (findDirectory fs) levels (componentOf row)

/-- What was sent to the screen beside the message of `change_directory`. -/
def Shell.shown (s : Shell) : List Display := s.screen.filter (· ≠ invalidDirectory)

theorem leave_length (levels : List Level) : (leave levels).length ≤ levels.length := by
  match levels with
  | [] | [_] => exact Nat.le_refl _
  | _ :: _ :: _ => exact Nat.le_succ _

theorem mem_of_mem_leave {l : Level} {levels : List Level} (h : l ∈ leave levels) :
    l ∈ levels := by
  match levels with
  | [] | [_] => exact h
  | _ :: _ :: _ => exact List.mem_cons_of_mem _ h

/-- A step adds one level at most. -/
theorem enter_length {lookup : UInt32 → EntryName → Option UInt32} {levels levels' : List Level}
    {c : List UInt8} (h : enter lookup levels c = some levels') :
    levels'.length ≤ levels.length + 1 := by
  rw [enter] at h
  by_cases hdd : c = [dot, dot]
  · rw [if_pos hdd] at h
    obtain rfl := Option.some.inj h
    exact (leave_length levels).trans (Nat.le_succ _)
  rw [if_neg hdd] at h
  by_cases hd : c = [dot]
  · rw [if_pos hd] at h
    obtain rfl := Option.some.inj h
    exact Nat.le_succ _
  rw [if_neg hd] at h
  cases levels with
  | nil => exact nomatch h
  | cons top below =>
      obtain ⟨n, -, rfl⟩ := Option.map_eq_some_iff.mp h
      exact Nat.le_refl _

/-- A component that begins with a dot is `"."` or `".."`. -/
theorem componentOf_dots (row : List UInt8) : charAt (componentOf row) 0 = dot →
    componentOf row = [dot] ∨ componentOf row = [dot, dot] := by
  rw [componentOf]
  split_ifs with h0 h1
  · exact fun _ => Or.inr rfl
  · exact fun _ => Or.inl rfl
  · exact fun h => absurd h h0

/-- Such a component is told from the two by `strcmp`, whatever follows the string in its row. -/
theorem strcmp_dots {c : List UInt8} (hc : charAt c 0 = dot → c = [dot] ∨ c = [dot, dot]) :
    (strcmp c [dot, dot] = 0 ↔ c = [dot, dot]) ∧ (strcmp c [dot] = 0 ↔ c = [dot]) := by
  by_cases hdot : charAt c 0 = dot
  · rcases hc hdot with rfl | rfl
    · exact ⟨by decide, by decide⟩
    · exact ⟨by decide, by decide⟩
  have hfirst : ∀ rest, strcmp c (dot :: rest) ≠ 0 := by
    intro rest heq
    rw [strcmp_eq_zero_iff, cString_cons, if_neg (by decide)] at heq
    cases c with
    | nil => exact List.cons_ne_nil _ _ heq.symm
    | cons a c =>
        rw [cString_cons] at heq
        split_ifs at heq
        exact hdot (List.cons.inj heq).1
  refine ⟨iff_of_false (hfirst _) ?_, iff_of_false (hfirst _) ?_⟩
  · rintro rfl
    exact hdot rfl
  · rintro rfl
    exact hdot rfl

/-- `..` in the lowest level: the source tests `DIR_STACK_LENGTH <= 1`. -/
theorem leave_lowest {st : DirStack} (h : st.length ≠ 0) (h1 : st.length ≤ 1) :
    leave st.levels = st.levels := by
  have hone : st.length.toNat - 1 = 0 := by
    rw [UInt8.le_iff_toNat_le] at h1
    exact Nat.sub_eq_zero_of_le h1
  rw [levels_cons h, hone]
  rfl

/-- `..` above the lowest level pops the stack, and a level stays in use. -/
theorem leave_pop {st : DirStack} (h : st.length ≠ 0) (h1 : ¬ st.length ≤ 1) :
    ({ st with length := st.length - 1 } : DirStack).levels = leave st.levels ∧
      st.length - 1 ≠ 0 := by
  have h2 : 1 < st.length.toNat := by
    rw [UInt8.le_iff_toNat_le] at h1
    exact Nat.not_le.mp h1
  constructor
  · have hbelow : st.length.toNat - 1 = st.length.toNat - 2 + 1 := by omega
    rw [levels_pop h, levels_cons h, hbelow, DirStack.levelsBelow]
    rfl
  · intro hz
    have hnat := length_sub_one_toNat h
    rw [hz] at hnat
    have hzero : (0 : UInt8).toNat = 0 := rfl
    omega

/-- What `change_directory` has done when it returns: the levels are the given ones, and
    neither the files nor the screen beside its own message have changed. -/
def Shell.MovedTo (s s' : Shell) (levels : List Level) : Prop :=
  s'.stack.levels = levels ∧ s'.stack.length ≠ 0 ∧ s'.fs = s.fs ∧ s'.shown = s.shown

theorem changeDirectory_dotdot {s : Shell} (hlen : s.stack.length ≠ 0) :
    ∃ s', changeDirectory [dot, dot] s = some s' ∧ s.MovedTo s' (leave s.stack.levels) := by
  have hdd : strcmp [dot, dot] [dot, dot] = 0 := by decide
  simp only [changeDirectory, top_eq hlen, Option.bind_eq_bind, Option.bind_some, if_pos hdd]
  by_cases h1 : s.stack.length ≤ 1
  · exact ⟨s, if_pos h1, (leave_lowest hlen h1).symm, hlen, rfl, rfl⟩
  · obtain ⟨hlevels, hpop⟩ := leave_pop hlen h1
    exact ⟨_, if_neg h1, hlevels, hpop, rfl, rfl⟩

theorem changeDirectory_dot {s : Shell} (hlen : s.stack.length ≠ 0) :
    changeDirectory [dot] s = some s := by
  have hdd : strcmp [dot] [dot, dot] ≠ 0 := by decide
  have hd : strcmp [dot] [dot] = 0 := by decide
  simp only [changeDirectory, top_eq hlen, Option.bind_eq_bind, Option.bind_some, if_neg hdd,
    if_pos hd]

/-- A name that is not found is reported, and nothing else says so. -/
theorem changeDirectory_name {s : Shell} {c : List UInt8} (hdd : ¬ strcmp c [dot, dot] = 0)
    (hd : ¬ strcmp c [dot] = 0) (hlen : s.stack.length ≠ 0)
    (hroom : ∀ levels, descend (findDirectory s.fs) (rowName c) s.stack.levels = some levels →
      levels.length < 256) :
    ∃ s', changeDirectory c s = some s' ∧ s.MovedTo s'
      ((descend (findDirectory s.fs) (rowName c) s.stack.levels).getD s.stack.levels) := by
  simp only [changeDirectory, top_eq hlen, Option.bind_eq_bind, Option.bind_some, if_neg hdd,
    if_neg hd]
  have hdescend : descend (findDirectory s.fs) (rowName c) s.stack.levels
      = (findDirectory s.fs (s.stack.number (s.stack.length - 1)) (rowName c)).map
          fun n => Level.entered (rowName c) n :: s.stack.levels := by
    rw [levels_cons hlen, descend]
  cases hfind : findTable s.fs (s.stack.number (s.stack.length - 1)) (rowName c) with
  | none =>
      obtain ⟨code, hcode, hread⟩ := readDirectoryTable_none unreadTable hfind
      rw [hread]
      refine ⟨{ s with screen := s.screen ++ [invalidDirectory] }, if_pos hcode, ?_, hlen,
        rfl, ?_⟩
      · rw [hdescend, findDirectory, hfind]
        rfl
      · simp [Shell.shown]
  | some t =>
      rw [readDirectoryTable_found unreadTable hfind]
      have hsome : descend (findDirectory s.fs) (rowName c) s.stack.levels
          = some (Level.entered (rowName c) (t 0).cluster :: s.stack.levels) := by
        rw [hdescend, findDirectory, hfind]
        rfl
      -- below 255 entries the `uint8_t` length does not wrap
      have hlt : s.stack.length.toNat < 255 := by
        have hfits := hroom _ hsome
        rw [List.length_cons, levels_length] at hfits
        exact Nat.lt_of_succ_lt_succ hfits
      refine ⟨{ s with stack := s.stack.push (rowName c) (t 0).cluster }, rfl, ?_,
        push_length_ne_zero hlt _ _, rfl, rfl⟩
      rw [hsome, Option.getD_some]
      exact levels_push hlt _ _

/-- `change_directory` is a step on the levels, or leaves them. -/
theorem changeDirectory_levels {s : Shell} {c : List UInt8}
    (hdots : charAt c 0 = dot → c = [dot] ∨ c = [dot, dot]) (hlen : s.stack.length ≠ 0)
    (hroom : ∀ levels, enter (findDirectory s.fs) s.stack.levels c = some levels →
      levels.length < 256) :
    ∃ s', changeDirectory c s = some s' ∧
      s.MovedTo s' ((enter (findDirectory s.fs) s.stack.levels c).getD s.stack.levels) := by
  by_cases hc2 : c = [dot, dot]
  · rw [enter, if_pos hc2, Option.getD_some, hc2]
    exact changeDirectory_dotdot hlen
  by_cases hc1 : c = [dot]
  · rw [enter, if_neg hc2, if_pos hc1, Option.getD_some, hc1]
    exact ⟨s, changeDirectory_dot hlen, rfl, hlen, rfl, rfl⟩
  · rw [enter, if_neg hc2, if_neg hc1] at hroom ⊢
    obtain ⟨hdd, hd⟩ := strcmp_dots hdots
    exact changeDirectory_name (mt hdd.mp hc2) (mt hd.mp hc1) hlen hroom

/-- There is a level on the stack for a row that is entered. -/
def HasRoom (fs : FileSystem) (levels : List Level) (row : List UInt8) : Prop :=
  ∀ levels', walkStep fs levels row = some levels' → levels'.length < 256

theorem changeToRow_levels {s : Shell} {row : List UInt8} (hlen : s.stack.length ≠ 0)
    (hroom : HasRoom s.fs s.stack.levels row) :
    ∃ s', changeToRow row s = some s' ∧
      s.MovedTo s' ((walkStep s.fs s.stack.levels row).getD s.stack.levels) := by
  have hchange : changeToRow row s = changeDirectory (componentOf row) s := by
    rw [changeToRow, componentOf]
    split_ifs <;> rfl
  rw [hchange, walkStep]
  exact changeDirectory_levels (componentOf_dots row) hlen hroom

/-- Rows that have room on the stack one after another. -/
theorem hasRoom_of_length {levels : List Level} {path : List (List UInt8)}
    (hlen : levels.length + path.length < 256) :
    AlongSkips (walkStep fs) (HasRoom fs) levels path := by
  induction path generalizing levels with
  | nil => trivial
  | cons c path ih =>
      rw [List.length_cons] at hlen
      refine ⟨?_, ?_⟩
      · intro levels' h
        have hstep := enter_length h
        omega
      · -- a step adds one level at most, and the path is one row shorter
        refine ih ?_
        cases hstep : walkStep fs levels c with
        | none =>
            rw [Option.getD_none]
            omega
        | some levels' =>
            have hle := enter_length hstep
            rw [Option.getD_some]
            omega

/-- **The walk over a path.** It leaves out the components that have no step. -/
theorem walk_levels {s : Shell} {path : List (List UInt8)} (hlen : s.stack.length ≠ 0)
    (hroom : AlongSkips (walkStep s.fs) (HasRoom s.fs) s.stack.levels path) :
    ∃ s', run (fun s row => changeToRow row s) s path = some s' ∧
      s.MovedTo s' (skipping (walkStep s.fs) s.stack.levels path) := by
  -- every step finds the files and the screen the walk started with
  have hstep : ∀ t row, (t.stack.length ≠ 0 ∧ t.fs = s.fs ∧ t.shown = s.shown) →
      HasRoom s.fs t.stack.levels row →
      ∃ t', changeToRow row t = some t' ∧
        t'.stack.levels = (walkStep s.fs t.stack.levels row).getD t.stack.levels ∧
        (t'.stack.length ≠ 0 ∧ t'.fs = s.fs ∧ t'.shown = s.shown) := by
    rintro t row ⟨ht, hfs, hshown⟩ hr
    rw [← hfs] at hr ⊢
    obtain ⟨t', h, hlevels, ht', hfs', hshown'⟩ := changeToRow_levels ht hr
    exact ⟨t', h, hlevels, ht', hfs', hshown'.trans hshown⟩
  exact run_skips (walkStep s.fs) hstep ⟨hlen, rfl, rfl⟩ hroom

/-! ## Path loops -/

theorem row_eq {cmd : TokenTable} {i : ℕ} (hi : i < 40) :
    cmd.row i = some (cmd.rows.getD i []) := if_pos hi

theorem first_eq {cmd : TokenTable} {i : ℕ} (hi : i < 40) :
    cmd.first i = some (charAt (cmd.rows.getD i []) 0) := by
  rw [TokenTable.first, row_eq hi, Option.map_some]

/-- A path loop that stops behind the rows of a path walks over the path. -/
theorem pathLoop_eq {cmd : TokenTable} {test : ℕ → Option Bool} {path : List (List UInt8)}
    {i fuel : ℕ} {s : Shell} (hfuel : path.length < fuel)
    (hgo : ∀ k, (hk : k < path.length) →
      test (i + k) = some true ∧ cmd.row (i + k) = some path[k])
    (hstop : test (i + path.length) = some false) :
    pathLoop cmd test fuel i s
      = (run (fun s row => changeToRow row s) s path).map fun s => (i + path.length, s) := by
  induction path generalizing i fuel s with
  | nil =>
      obtain ⟨n, rfl⟩ := Nat.exists_eq_succ_of_ne_zero (Nat.ne_zero_of_lt hfuel)
      rw [pathLoop, show test i = some false from hstop]
      rfl
  | cons c path ih =>
      obtain ⟨n, rfl⟩ := Nat.exists_eq_succ_of_ne_zero (Nat.ne_zero_of_lt hfuel)
      obtain ⟨htest, hrow⟩ := hgo 0 (Nat.succ_pos _)
      rw [pathLoop, show test i = some true from htest, show cmd.row i = some c from hrow,
        run_cons]
      simp only [Option.bind_eq_bind, Option.bind_some, if_true]
      cases hc : changeToRow c s with
      | none => rfl
      | some s₁ =>
          have hgo' : ∀ k, (hk : k < path.length) →
              test (i + 1 + k) = some true ∧ cmd.row (i + 1 + k) = some path[k] := by
            intro k hk
            have h := hgo (k + 1) (Nat.succ_lt_succ hk)
            rwa [show i + (k + 1) = i + 1 + k by omega] at h
          have hstop' : test (i + 1 + path.length) = some false := by
            rwa [List.length_cons,
              show i + (path.length + 1) = i + 1 + path.length by omega] at hstop
          rw [Option.bind_some, Option.bind_some, ih (Nat.lt_of_succ_lt_succ hfuel) hgo' hstop']
          refine congrArg (fun f => Option.map f _) (funext fun s => ?_)
          rw [List.length_cons, show i + 1 + path.length = i + (path.length + 1) by omega]

/-! ## Saving and restoring -/

theorem restoreStack_levels (st st' : DirStack) {c : ℕ} (h : st.length.toNat + c ≤ 256) :
    ∃ st'', restoreStack (saveStack st) c st' = some st'' ∧ st''.levels = st.levels ∧
      st''.length = st.length := by
  refine ⟨_, if_pos h, ?_, rfl⟩
  refine levelsBelow_congr ?_
  intro i hi
  have hi256 : i < 256 := by
    have := UInt8.toNat_lt st.length
    exact Nat.lt_trans hi this
  have htoNat : (UInt8.ofNat i).toNat = i := by
    rw [UInt8.toNat_ofNat', Nat.mod_eq_of_lt hi256]
  have hlt : UInt8.ofNat i < (saveStack st).length := by
    rw [UInt8.lt_iff_toNat_lt, htoNat]
    exact hi
  have hsaved : (UInt8.ofNat i).toNat < st.length.toNat + 1 := by
    rw [htoNat]
    exact Nat.lt_succ_of_lt hi
  exact ⟨(if_pos hlt).trans (if_pos hsaved), (if_pos hlt).trans (if_pos hsaved)⟩

/-- `restore` puts the saved levels back. -/
theorem restore_levels (s : Shell) {st : DirStack} {c : ℕ} (h : st.length.toNat + c ≤ 256) :
    ∃ st', s.restore (saveStack st) c = some { s with stack := st' } ∧
      st'.levels = st.levels ∧ st'.length = st.length := by
  obtain ⟨st', hrestore, hlevels, hlength⟩ := restoreStack_levels st s.stack h
  refine ⟨st', ?_, hlevels, hlength⟩
  rw [Shell.restore, hrestore, Option.map_some]

/-! ## The prompt -/

/-- What stands in the prompt before a name above these levels. -/
def homePath : List Level → List UInt8
  | [] => []
  | [_] => text "OSyikkk:" ++ text "/"
  | top :: below => homePath below ++ cString (List.ofFn top.name) ++ text "/"

/-- The prompt for a list of levels. -/
def promptText : List Level → List UInt8
  | [] => []
  | [root] => homePath [root]
  | top :: below => homePath below ++ cString (List.ofFn top.name)

theorem zero_notMem_cString (s : List UInt8) : 0 ∉ cString s := by
  intro h
  simpa using List.mem_takeWhile_imp h

theorem zero_notMem_homePath (levels : List Level) : 0 ∉ homePath levels := by
  induction levels with
  | nil => exact List.not_mem_nil
  | cons top below ih =>
      cases below with
      | nil =>
          show 0 ∉ text "OSyikkk:" ++ text "/"
          decide
      | cons below rest =>
          have hslash : (0 : UInt8) ∉ text "/" := by decide
          rw [homePath, List.mem_append, List.mem_append]
          · exact not_or.mpr ⟨not_or.mpr ⟨ih, zero_notMem_cString _⟩, hslash⟩
          · exact List.cons_ne_nil _ _

/-- The loop of `print_home` before the last level. -/
theorem homeRounds_eq (st : DirStack) {n : ℕ} (hn : n + 1 < st.length.toNat) :
    (List.range (n + 1)).foldl (homeRound st) [] = homePath (st.levelsBelow (n + 1)) := by
  induction n with
  | zero => rfl
  | succ n ih =>
      have hlt : n + 1 < st.length.toNat - 1 := by omega
      have hslash : cString (text "/") = text "/" := by decide
      have hpath := zero_notMem_homePath (st.levelsBelow (n + 1))
      have hname := zero_notMem_cString (List.ofFn (st.name (UInt8.ofNat (n + 1))))
      rw [List.range_succ, List.foldl_append, ih (Nat.lt_of_succ_lt hn), List.foldl_cons,
        List.foldl_nil, homeRound, if_neg (Nat.succ_ne_zero n), if_pos hlt, stringCombine,
        stringCombine, cString_eq_self hpath, hslash, cString_eq_self]
      · rfl
      · rw [List.mem_append]
        exact not_or.mpr ⟨hpath, hname⟩

/-- `print_home` prints the names of the levels. -/
theorem homeText_eq (st : DirStack) : homeText st = promptText st.levels := by
  rw [homeText, DirStack.levels]
  match hlen : st.length.toNat with
  | 0 => rfl
  | 1 => rfl
  | n + 2 =>
      have hpath := zero_notMem_homePath (st.levelsBelow (n + 1))
      have hlast : ¬ n + 1 < st.length.toNat - 1 := by omega
      rw [List.range_succ, List.foldl_append, homeRounds_eq st (by omega), List.foldl_cons,
        List.foldl_nil, homeRound, if_neg (Nat.succ_ne_zero n), if_neg hlast, stringCombine,
        cString_eq_self hpath]
      rfl

/-- What a command sends to the screen at its end. -/
def promptDisplays (levels : List Level) : List Display :=
  [.setCursor 1 0, .writeString (promptText levels) blue, .writeString (text "> ") white]

/-- A branch that reaches its end prints the prompt, if there is room for it in `home`. -/
theorem finish_eq {s : Shell} (hlen : s.stack.length ≠ 0)
    (hfits : (promptText s.stack.levels).length < 256) :
    (BranchEnd.finished s).finish
      = some { s with screen := s.screen ++ promptDisplays s.stack.levels } := by
  have hcond : s.stack.length ≠ 0 ∧ (homeText s.stack).length < 256 := by
    rw [homeText_eq]
    exact ⟨hlen, hfits⟩
  rw [BranchEnd.finish, printHome, if_pos hcond, homeText_eq]
  simp only [Shell.print, promptDisplays, List.append_assoc, List.cons_append, List.nil_append]

end OsyShell
