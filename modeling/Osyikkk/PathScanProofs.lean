import Osyikkk.SentinelScan
import Osyikkk.ShellCommands
import Osyikkk.TokenStoreProofs

/-!
# The scans over the token table

Every command that takes a path advances `counterCD` through `cmd` until a sentinel row: `cd`,
`mkdir`, `cat` and `rm` to an empty row, `cp` and `mv` first to a row of a space and then to
either. The rows behind the tokens are empty, so all but one of these loops end in the table.
The source loop of `cp`, whose arguments nothing counts, has its sentinel only when a word
follows the source (`scans_inTable_iff`).
-/

namespace OsyShell

open SentinelScan

/-! ## The scans of the commands -/

/-- `cmd[i][0]`, where what lies behind the array is arbitrary. -/
def firstChar (cmd : CmdArray) (behind : ℕ → UInt8) (i : ℕ) : UInt8 :=
  if i < 40 then cmd.bytes (15 * i) else behind i

/-- The tests of the loops: `!= '\0'`, `!= ' '`, and both. -/
def notNul (c : UInt8) : Bool := c ≠ 0

def notSpace (c : UInt8) : Bool := c ≠ space

def wordChar (c : UInt8) : Bool := c ≠ 0 ∧ c ≠ space

/-- `if (cmd[3][0] != '\0')` and a loop from row `start` on: the counter behind it, and the rows
    that were read. -/
def scanIf (first : ℕ → UInt8) (ahead : ℕ) (goesOn : UInt8 → Bool) (n counterCD start : ℕ) :
    Option (ℕ × List ℕ) :=
  if first 3 ≠ 0 then (scan first ahead goesOn n start).map fun r => (r.1, 3 :: r.2)
  else some (counterCD, [3])

/-- The two loops of `cp` and `mv`. The second one starts two rows behind the end of the
    first. -/
def twoScans (first : ℕ → UInt8) (n : ℕ) : Option (List ℕ) := do
  let (counterCD, source) ← scanIf first 1 notSpace n 2 2
  let (_, dest) ← scanIf first 0 wordChar n counterCD (counterCD + 2)
  some (source ++ dest)

/-- The rows that the loops of a branch read, with the checks in front of them, when no loop
    tests more than `n` times. -/
def Branch.scans (first : ℕ → UInt8) (cmdLength n : ℕ) : Branch → Option (List ℕ)
  | .cd =>
      if cmdLength > 1 then some []
      else (scan first 0 notNul n 2).map fun r => 1 :: r.2
  | .mkdir | .rm =>
      if cmdLength = 1 then (scanIf first 1 notNul n 2 2).map Prod.snd else some []
  | .cat =>
      if cmdLength = 1 then
        if first 2 = 0 then some [2]
        else (scanIf first 1 notNul n 2 2).map fun r => 2 :: r.2
      else some []
  | .cp => twoScans first n
  | .mv => if cmdLength = 2 then twoScans first n else some []

/-- The loops of the branch end, and read rows of the table only. -/
def ScansInTable (b : Branch) (cmd : CmdArray) (behind : ℕ → UInt8) : Prop :=
  ∃ n rows, b.scans (firstChar cmd behind) cmd.cmdLength n = some rows ∧ ∀ i ∈ rows, i < 40

/-- A scan that ends has read rows of the table only. -/
def InTable (scanned : Option (List ℕ)) : Prop := ∃ rows, scanned = some rows ∧ ∀ i ∈ rows, i < 40

variable {a a' : CmdArray} {behind first : ℕ → UInt8} {input line : List UInt8} {n neff : ℕ}

/-! ## The row of a space -/

/-- Behind `cmd_length` gaps there is a row of a space, and at least as many rows of words in
    front of it as of spaces. -/
def HasSpaceRow (cmd : CmdArray) : Prop :=
  cmd.cmdLength ≠ 0 →
    ∃ i, 2 * cmd.cmdLength ≤ i + 1 ∧ i < cmd.neff ∧ cmd.bytes (15 * i) = space

/-- A word leaves the rows in front of it. -/
theorem putWord_before (a : CmdArray) (w : List UInt8) {i : ℕ} (hi : i < a.neff) :
    (a.putWord w 0).bytes (15 * i) = a.bytes (15 * i) :=
  if_neg (by omega)

theorem HasSpaceRow.putWord (h : HasSpaceRow a) (w : List UInt8) : HasSpaceRow (a.putWord w 0) := by
  intro hne
  obtain ⟨i, hlow, hlt, hspace⟩ := h hne
  exact ⟨i, hlow, Nat.lt_succ_of_lt hlt, (putWord_before a w hlt).trans hspace⟩

/-- A gap adds its row behind that of the word. -/
theorem HasSpaceRow.round (h : HasSpaceRow a) (input : List UInt8) :
    HasSpaceRow (storeRound input a).2 := by
  rw [storeRound, storeWord_eq]
  dsimp only
  split_ifs
  · have hrows : 2 * a.cmdLength ≤ a.neff := by
      by_cases hzero : a.cmdLength = 0
      · omega
      · obtain ⟨i, hlow, hlt, -⟩ := h hzero
        omega
    intro _
    refine ⟨a.neff + 1, ?_, Nat.lt_succ_self _, ?_⟩
    · show 2 * (a.cmdLength + 1) ≤ _
      omega
    · exact Function.update_self _ _ _
  · exact h.putWord _

/-- The array of a line. -/
theorem storeLoop_hasSpaceRow (h : HasSpaceRow a) (hloop : storeLoop n input a = some a') :
    HasSpaceRow a' := by
  induction n generalizing input a with
  | zero =>
      cases input with
      | nil => exact Option.some.inj hloop ▸ h
      | cons => exact absurd hloop.symm (Option.some_ne_none _)
  | succ n ih =>
      cases input with
      | nil => exact Option.some.inj hloop ▸ h
      | cons c input => exact ih (h.round (c :: input)) hloop

theorem storeTokens_hasSpaceRow (h : storeTokens line = some a) : HasSpaceRow a :=
  storeLoop_hasSpaceRow (fun hne => absurd rfl hne) h

/-! ## Scans that end -/

/-- The rows from `neff` on are empty. -/
def EmptyFrom (first : ℕ → UInt8) (neff : ℕ) : Prop := ∀ i, neff ≤ i → i < 40 → first i = 0

theorem InTable.nil : InTable (some []) := ⟨[], rfl, List.forall_mem_nil _⟩

theorem InTable.of_scan {scanned : Option (ℕ × List ℕ)} {last : ℕ} {rows : List ℕ}
    (h : scanned = some (last, rows)) (hrows : ∀ i ∈ rows, i < 40) :
    InTable (scanned.map Prod.snd) := ⟨rows, by rw [h, Option.map_some], hrows⟩

/-- One more row, read in front of a scan. -/
theorem InTable.cons {scanned : Option (ℕ × List ℕ)} {i : ℕ} (hi : i < 40)
    (h : InTable (scanned.map Prod.snd)) : InTable (scanned.map fun r => i :: r.2) := by
  obtain ⟨rows, hmap, hrows⟩ := h
  obtain ⟨r, rfl, rfl⟩ := Option.map_eq_some_iff.mp hmap
  exact ⟨i :: r.2, rfl, List.forall_mem_cons.mpr ⟨hi, hrows⟩⟩

/-- A scan behind a check of `cmd_length`. -/
theorem InTable.guarded {p : Prop} [Decidable p] {scanned : Option (List ℕ)}
    (h : p → InTable scanned) : InTable (if p then scanned else some []) := by
  split_ifs with hp
  · exact h hp
  · exact .nil

/-- A loop that stops at an empty row ends in the table. -/
theorem scan_toEmpty (ahead start : ℕ) {goesOn : UInt8 → Bool} (hgo : goesOn 0 = false)
    (hempty : EmptyFrom first neff) (hneff : neff ≤ 36) (hstart : start + ahead ≤ 36) :
    InTable ((scan first ahead goesOn 41 start).map Prod.snd) := by
  obtain ⟨m, hle, hlow, hhigh⟩ : ∃ m, start ≤ m ∧ neff ≤ m + ahead ∧ m + ahead ≤ 36 :=
    ⟨36 - ahead, by omega, by omega, by omega⟩
  have hstop : goesOn (first (m + ahead)) = false := by
    rw [hempty _ hlow (by omega)]
    exact hgo
  obtain ⟨last, rows, hlast, hscan⟩ := scan_ends (n := 41) hle hstop (by omega)
  exact .of_scan hscan ((scan_some hscan).below (by omega))

theorem scanIf_toEmpty (ahead counterCD start : ℕ) {goesOn : UInt8 → Bool}
    (hgo : goesOn 0 = false) (hempty : EmptyFrom first neff) (hneff : neff ≤ 36)
    (hstart : start + ahead ≤ 36) :
    InTable ((scanIf first ahead goesOn 41 counterCD start).map Prod.snd) := by
  rw [scanIf]
  split_ifs
  · rw [Option.map_map]
    exact (scan_toEmpty ahead start hgo hempty hneff hstart).cons (by decide)
  · exact .of_scan rfl (List.forall_mem_singleton.mpr (by decide))

/-- The source loop of `cp` and `mv` finds its row of a space. -/
def SpaceAhead (first : ℕ → UInt8) (neff : ℕ) : Prop :=
  first 3 = 0 ∨ ∃ i, 3 ≤ i ∧ i < neff ∧ first i = space

/-- With a row of a space both loops end in the table. -/
theorem twoScans_ends (hempty : EmptyFrom first neff) (hneff : neff ≤ 36)
    (hahead : SpaceAhead first neff) :
    InTable (twoScans first 41) := by
  have hsource : ∃ last rows, scanIf first 1 notSpace 41 2 2 = some (last, rows) ∧
      last + 2 ≤ 36 ∧ ∀ i ∈ rows, i < 40 := by
    rw [scanIf]
    by_cases h3 : first 3 = 0
    · rw [if_neg (not_not.mpr h3)]
      exact ⟨2, [3], rfl, by decide, List.forall_mem_singleton.mpr (by decide)⟩
    · obtain ⟨i, hlow, hhigh, hspace⟩ := hahead.resolve_left h3
      have hcell : i - 1 + 1 = i := by omega
      have hstop : notSpace (first (i - 1 + 1)) = false := by
        rw [hcell, hspace]
        rfl
      obtain ⟨last, rows, hlast, hscan⟩ := scan_ends (n := 41) (show 2 ≤ i - 1 by omega) hstop
        (by omega)
      rw [if_pos h3, hscan]
      refine ⟨last, 3 :: rows, rfl, by omega, fun j hj => ?_⟩
      rcases List.mem_cons.mp hj with rfl | hj
      · decide
      · exact (scan_some hscan).below (show last + 1 < 40 by omega) j hj
  obtain ⟨last, source, hscan, hlast, hrows⟩ := hsource
  -- the second loop starts two rows behind the end of the first
  obtain ⟨dest, hdest, hrows'⟩ :=
    scanIf_toEmpty 0 last (last + 2) (show wordChar 0 = false from rfl) hempty hneff hlast
  obtain ⟨⟨last', dest⟩, hscan', rfl⟩ := Option.map_eq_some_iff.mp hdest
  refine ⟨source ++ dest, ?_, List.forall_mem_append.mpr ⟨hrows, hrows'⟩⟩
  simp only [twoScans, hscan, hscan', Option.bind_eq_bind, Option.bind_some]

/-- Loops that stay in the table have found a row of a space. -/
theorem spaceAhead_of_twoScans (hempty : EmptyFrom first neff) {rows : List ℕ}
    (h : twoScans first n = some rows) (hrows : ∀ i ∈ rows, i < 40) : SpaceAhead first neff := by
  simp only [twoScans, Option.bind_eq_bind, Option.bind_eq_some_iff] at h
  obtain ⟨⟨last, source⟩, hsource, ⟨last', dest⟩, -, heq⟩ := h
  by_cases h3 : first 3 = 0
  · exact Or.inl h3
  rw [scanIf, if_pos h3] at hsource
  obtain ⟨⟨last, reads⟩, hscan, hpair⟩ := Option.map_eq_some_iff.mp hsource
  obtain ⟨rfl, rfl⟩ := Prod.mk.inj hpair
  obtain rfl := Option.some.inj heq
  have hscanned := scan_some hscan
  have hle := hscanned.le
  have hread : last + 1 ∈ reads := (hscanned.reads _).mpr (Or.inr ⟨by omega, Nat.le_refl _⟩)
  have hbelow : last + 1 < 40 :=
    hrows _ (List.mem_append_left _ (List.mem_cons_of_mem _ hread))
  -- the loop has stopped at a row of a space, and behind the tokens there is none
  have hspace : first (last + 1) = space := by
    have hstops := hscanned.stops
    rw [notSpace, decide_eq_false_iff_not, not_not] at hstops
    exact hstops
  refine Or.inr ⟨last + 1, by omega, ?_, hspace⟩
  by_contra hno
  rw [hempty _ (Nat.not_lt.mp hno) hbelow] at hspace
  exact absurd hspace (by decide)

/-! ## The loops of the commands -/

section Loops

variable {cmd : TokenTable} {s s' : Shell} {c c' start ahead : ℕ} {test : ℕ → Option Bool}
  {goesOn : UInt8 → Bool}

theorem firstChar_of_lt (a : CmdArray) (behind : ℕ → UInt8) {i : ℕ} (hi : i < 40) :
    firstChar a behind i = a.bytes (15 * i) := if_pos hi

/-- The table's rows begin as those of the array, and there is no row behind them. -/
theorem Holds.first_eq_some (h : Holds a cmd) (behind : ℕ → UInt8) {i : ℕ} {b : UInt8}
    (hfirst : cmd.first i = some b) :
    i < 40 ∧ firstChar a behind i = b := by
  rw [TokenTable.first, TokenTable.row] at hfirst
  split_ifs at hfirst with hi
  · rw [Option.map_some] at hfirst
    refine ⟨hi, ?_⟩
    rw [firstChar_of_lt a behind hi, ← Option.some.inj hfirst]
    exact h.bytes i 0 (by decide)
  · exact absurd hfirst.symm (Option.some_ne_none b)

/-- A path loop that ends is the scan, and has read rows of the table only. -/
theorem pathLoop_scan (h : Holds a cmd) (behind : ℕ → UInt8)
    (htest : ∀ i, test i = (cmd.first (i + ahead)).map goesOn)
    (hloop : pathLoop cmd test n c s = some (c', s')) :
    ∃ rows, scan (firstChar a behind) ahead goesOn n c = some (c', rows) ∧
      ∀ i ∈ rows, i < 40 := by
  induction n generalizing c s with
  | zero => exact absurd hloop.symm (Option.some_ne_none _)
  | succ n ih =>
      simp only [pathLoop, Option.bind_eq_bind, Option.bind_eq_some_iff] at hloop
      obtain ⟨go, hgo, hloop⟩ := hloop
      rw [htest] at hgo
      obtain ⟨b, hb, rfl⟩ := Option.map_eq_some_iff.mp hgo
      obtain ⟨hahead, hfirst⟩ := h.first_eq_some behind hb
      rw [scan, hfirst]
      by_cases hb : goesOn b = true
      · rw [if_pos hb] at hloop ⊢
        obtain ⟨row, hrow, hrest⟩ := Option.bind_eq_some_iff.mp hloop
        obtain ⟨s₁, -, hrest⟩ := Option.bind_eq_some_iff.mp hrest
        obtain ⟨rows, hscan, hrows⟩ := ih hrest
        have hc : c < 40 := Nat.lt_of_le_of_lt (Nat.le_add_right c ahead) hahead
        rw [hscan]
        exact ⟨_, rfl, List.forall_mem_cons.mpr ⟨hahead, List.forall_mem_cons.mpr ⟨hc, hrows⟩⟩⟩
      · rw [if_neg hb] at hloop ⊢
        obtain ⟨rfl, rfl⟩ := Prod.mk.inj (Option.some.inj hloop)
        refine ⟨_, rfl, fun i hi => ?_⟩
        rw [List.mem_singleton.mp hi]
        exact hahead

/-- The same of the loops that are guarded. -/
theorem pathLoopIf_scan (h : Holds a cmd) (behind : ℕ → UInt8)
    (htest : ∀ i, test i = (cmd.first (i + ahead)).map goesOn)
    (hloop : pathLoopIf cmd test c start s = some (c', s')) :
    ∃ rows, scanIf (firstChar a behind) ahead goesOn 41 c start = some (c', rows) ∧
      ∀ i ∈ rows, i < 40 := by
  simp only [pathLoopIf, Option.bind_eq_bind, Option.bind_eq_some_iff] at hloop
  obtain ⟨used, hused, hloop⟩ := hloop
  obtain ⟨b, hb, rfl⟩ := Option.map_eq_some_iff.mp hused
  obtain ⟨-, hfirst⟩ := h.first_eq_some behind hb
  rw [scanIf, hfirst]
  by_cases hb : b = 0
  · rw [if_neg (not_not.mpr hb)]
    rw [if_neg (by simpa using hb)] at hloop
    obtain ⟨rfl, rfl⟩ := Prod.mk.inj (Option.some.inj hloop)
    exact ⟨_, rfl, List.forall_mem_singleton.mpr (by decide)⟩
  · rw [if_pos hb]
    rw [if_pos (by simpa using hb)] at hloop
    obtain ⟨rows, hscan, hrows⟩ := pathLoop_scan h behind htest hloop
    rw [hscan]
    exact ⟨_, rfl, List.forall_mem_cons.mpr ⟨by decide, hrows⟩⟩

/-- The guarded loop of `mkdir`, `cat` and `rm`. -/
theorem argumentScan (h : Holds a cmd) (behind : ℕ → UInt8)
    (hloop : pathLoopIf cmd (fun i => rowUsed cmd (i + 1)) 2 2 s = some (c', s')) :
    InTable ((scanIf (firstChar a behind) 1 notNul 41 2 2).map Prod.snd) := by
  obtain ⟨rows, hscan, hrows⟩ := pathLoopIf_scan h behind (fun _ => rfl) hloop
  exact .of_scan hscan hrows

/-! ### Branch by branch -/

variable {locals : Locals} {done : BranchEnd}

theorem executeCd_scans (h : Holds a cmd) (behind : ℕ → UInt8)
    (hexec : executeCd cmd s = some done) :
    InTable (Branch.cd.scans (firstChar a behind) cmd.cmdLength 41) := by
  rw [executeCd] at hexec
  rw [Branch.scans]
  split_ifs at hexec ⊢
  · exact .nil
  · simp only [Option.bind_eq_bind, Option.bind_eq_some_iff] at hexec
    obtain ⟨used, -, ⟨c', s'⟩, hloop, -⟩ := hexec
    have htest : ∀ i, rowUsed cmd i = (cmd.first (i + 0)).map notNul := fun _ => rfl
    obtain ⟨rows, hscan, hrows⟩ := pathLoop_scan h behind htest hloop
    exact .cons (by decide) (.of_scan hscan hrows)

theorem executeMkdir_scans (h : Holds a cmd) (behind : ℕ → UInt8)
    (hexec : executeMkdir locals cmd s = some done) :
    InTable (Branch.mkdir.scans (firstChar a behind) cmd.cmdLength 41) := by
  refine .guarded fun hcount => ?_
  rw [executeMkdir, if_neg (by omega), if_neg (by omega)] at hexec
  obtain ⟨⟨c', s'⟩, hloop, -⟩ := Option.bind_eq_some_iff.mp hexec
  exact argumentScan h behind hloop

theorem executeRm_scans (h : Holds a cmd) (behind : ℕ → UInt8)
    (hexec : executeRm cmd s = some done) :
    InTable (Branch.rm.scans (firstChar a behind) cmd.cmdLength 41) := by
  refine .guarded fun hcount => ?_
  rw [executeRm, if_neg (by omega), if_neg (by omega)] at hexec
  obtain ⟨⟨c', s'⟩, hloop, -⟩ := Option.bind_eq_some_iff.mp hexec
  exact argumentScan h behind hloop

theorem executeCat_scans (h : Holds a cmd) (behind : ℕ → UInt8)
    (hexec : executeCat locals cmd s = some done) :
    InTable (Branch.cat.scans (firstChar a behind) cmd.cmdLength 41) := by
  refine .guarded fun hcount => ?_
  by_cases h2 : firstChar a behind 2 = 0
  · rw [if_pos h2]
    exact ⟨[2], rfl, List.forall_mem_singleton.mpr (by decide)⟩
  · rw [if_neg h2]
    rw [executeCat, if_neg (by omega), if_neg (by omega)] at hexec
    obtain ⟨used, hused, hexec⟩ := Option.bind_eq_some_iff.mp hexec
    obtain ⟨b, hb, rfl⟩ := Option.map_eq_some_iff.mp hused
    obtain ⟨-, hfirst⟩ := h.first_eq_some behind hb
    rw [if_pos (by simpa [hfirst] using h2)] at hexec
    obtain ⟨⟨c', s'⟩, hloop, -⟩ := Option.bind_eq_some_iff.mp hexec
    exact .cons (by decide) (argumentScan h behind hloop)

theorem executeCp_scans (h : Holds a cmd) (behind : ℕ → UInt8)
    (hexec : executeCp locals cmd s = some done) :
    InTable (Branch.cp.scans (firstChar a behind) cmd.cmdLength 41) := by
  simp only [executeCp, Option.bind_eq_bind, Option.bind_eq_some_iff] at hexec
  obtain ⟨⟨last, s₁⟩, hsource, row, -, t, -, top, -, s₂, -, hrest⟩ := hexec
  rw [copyToDestination] at hrest
  obtain ⟨⟨last', s₃⟩, hdest, -⟩ := Option.bind_eq_some_iff.mp hrest
  have hspaces : ∀ i, rowNotSpace cmd (i + 1) = (cmd.first (i + 1)).map notSpace := fun _ => rfl
  have hwords : ∀ i, rowWord cmd i = (cmd.first (i + 0)).map wordChar := fun _ => rfl
  obtain ⟨source, hscan, hrows⟩ := pathLoopIf_scan h behind hspaces hsource
  obtain ⟨dest, hscan', hrows'⟩ := pathLoopIf_scan h behind hwords hdest
  refine ⟨source ++ dest, ?_, List.forall_mem_append.mpr ⟨hrows, hrows'⟩⟩
  simp only [Branch.scans, twoScans, hscan, hscan', Option.bind_eq_bind, Option.bind_some]

/-- A branch that ends has scanned the table only; `mv` can return between its two loops. -/
theorem execute_scansInTable (h : Holds a cmd) {b : Branch} (hb : b ≠ .mv)
    (hexec : b.execute locals cmd s = some done) : ScansInTable b a behind := by
  refine ⟨41, ?_⟩
  rw [h.cmdLength]
  cases b with
  | cd => exact executeCd_scans h behind hexec
  | mkdir => exact executeMkdir_scans h behind hexec
  | rm => exact executeRm_scans h behind hexec
  | cat => exact executeCat_scans h behind hexec
  | cp => exact executeCp_scans h behind hexec
  | mv => exact absurd rfl hb

end Loops

/-! ## Every line -/

/-- **The scans stay in the table** for every command and every line of at most 36 tokens, but
    for `cp` without a row of a space behind its third row. -/
theorem scans_inTable_iff (b : Branch) (line : List UInt8) (a : CmdArray) (behind : ℕ → UInt8)
    (hstore : storeTokens line = some a) (hneff : a.neff ≤ 36)
    (hempty : ∀ i, a.neff ≤ i → i < 40 → a.bytes (15 * i) = 0) :
    ScansInTable b a behind ↔
      (b = .cp → a.bytes (15 * 3) = 0 ∨
        ∃ i, 3 ≤ i ∧ i < a.neff ∧ a.bytes (15 * i) = space) := by
  have hfirst : ∀ i, i < 40 → firstChar a behind i = a.bytes (15 * i) :=
    fun i hi => firstChar_of_lt a behind hi
  have hempty' : EmptyFrom (firstChar a behind) a.neff := by
    intro i hlow hhigh
    rw [hfirst i hhigh]
    exact hempty i hlow hhigh
  have hahead : SpaceAhead (firstChar a behind) a.neff ↔ (a.bytes (15 * 3) = 0 ∨
      ∃ i, 3 ≤ i ∧ i < a.neff ∧ a.bytes (15 * i) = space) := by
    rw [SpaceAhead, hfirst 3 (by decide)]
    refine or_congr_right (exists_congr fun i => and_congr_right fun _ => ?_)
    exact and_congr_right fun hi => by rw [hfirst i (by omega)]
  have hnul : notNul 0 = false := rfl
  have hargument := scanIf_toEmpty 1 2 2 hnul hempty' hneff (by decide)
  cases b with
  | cd =>
      refine iff_of_true ⟨41, ?_⟩ fun h => absurd h (by decide)
      show InTable (if a.cmdLength > 1 then some [] else _)
      split_ifs
      · exact .nil
      · exact .cons (by decide) (scan_toEmpty 0 2 hnul hempty' hneff (by decide))
  | mkdir | rm =>
      refine iff_of_true ⟨41, ?_⟩ fun h => absurd h (by decide)
      exact InTable.guarded fun _ => hargument
  | cat =>
      refine iff_of_true ⟨41, InTable.guarded fun _ => ?_⟩ fun h => absurd h (by decide)
      split_ifs
      · exact ⟨[2], rfl, List.forall_mem_singleton.mpr (by decide)⟩
      · exact .cons (by decide) hargument
  | cp =>
      rw [← hahead]
      constructor
      · rintro ⟨n, rows, hscan, hrows⟩ -
        exact spaceAhead_of_twoScans hempty' hscan hrows
      · exact fun h => ⟨41, twoScans_ends hempty' hneff (h rfl)⟩
  | mv =>
      refine iff_of_true ⟨41, InTable.guarded fun hcount => ?_⟩ fun h => absurd h (by decide)
      -- two gaps: the row of the second one stands behind the source
      obtain ⟨i, hlow, hlt, hspace⟩ := storeTokens_hasSpaceRow hstore (by omega)
      exact twoScans_ends hempty' hneff (hahead.mpr (Or.inr ⟨i, by omega, hlt, hspace⟩))

/-- `cp a b`. -/
theorem scans_inTable_copy : ∃ a, storeTokens (text "cp a b") = some a ∧
    ScansInTable .cp a fun _ => 0 := by
  obtain ⟨a, hstore, hneff, hempty, h3⟩ : ∃ a, storeTokens (text "cp a b") = some a ∧
      a.neff = 5 ∧ (∀ i, 5 ≤ i → i < 40 → a.bytes (15 * i) = 0) ∧
        a.bytes (15 * 3) = space :=
    ⟨_, rfl, by decide, by decide, by decide⟩
  rw [← hneff] at hempty
  have hiff := scans_inTable_iff .cp (text "cp a b") a (fun _ => 0) hstore (by omega) hempty
  exact ⟨a, hstore, hiff.mpr fun _ => Or.inr ⟨3, Nat.le_refl 3, by omega, h3⟩⟩

/-- `cp a/b`, without a destination: the source loop leaves the table. -/
theorem noDestination_leavesTable : ∃ a, storeTokens (text "cp a/b") = some a ∧ a.neff ≤ 36 ∧
    (∀ i, a.neff ≤ i → i < 40 → a.bytes (15 * i) = 0) ∧
    ∀ behind, ¬ ScansInTable .cp a behind := by
  obtain ⟨a, hstore, hneff, hempty, h3⟩ : ∃ a, storeTokens (text "cp a/b") = some a ∧
      a.neff = 4 ∧ (∀ i, 4 ≤ i → i < 40 → a.bytes (15 * i) = 0) ∧ a.bytes (15 * 3) = 98 :=
    ⟨_, rfl, by decide, by decide, by decide⟩
  rw [← hneff] at hempty
  refine ⟨a, hstore, by omega, hempty, ?_⟩
  rintro behind ⟨n, rows, hscan, hrows⟩
  have hempty' : EmptyFrom (firstChar a behind) a.neff := by
    intro i hlow hhigh
    rw [firstChar_of_lt a behind hhigh]
    exact hempty i hlow hhigh
  have hthird : firstChar a behind 3 = 98 := (firstChar_of_lt a behind (by decide)).trans h3
  rcases spaceAhead_of_twoScans hempty' hscan hrows with hzero | ⟨i, hlow, hhigh, hspace⟩
  · exact absurd (hthird.symm.trans hzero) (by decide)
  · obtain rfl : i = 3 := by omega
    exact absurd (hthird.symm.trans hspace) (by decide)

end OsyShell
