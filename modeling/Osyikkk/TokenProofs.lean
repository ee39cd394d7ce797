import Osyikkk.ShellCommands
import Osyikkk.SeparatedWords
import Mathlib.Data.List.GetD

/-!
# The tokens of a command line

A line of words and paths is not changed by the trimming and is split into its words, each
path into its components, with one row of a space between two words. The rows keep the
components as they stand; a path may hold empty components inside (`a//b`), but a first
or a last component that is empty is swallowed by the tokenizer.
-/

namespace OsyShell

open SeparatedWords

/-! ## Lines in the buffer -/

/-- The buffer that holds a line and zeros behind it. -/
def bufferOf (line : List UInt8) : Buffer := fun i => charAt line i.toNat

/-- A line as the keyboard delivers it, without leading or trailing spaces. -/
structure PlainLine (line : List UInt8) : Prop where
  length : line.length < 256
  noNul : 0 ∉ line
  first : charAt line 0 ≠ 0 ∧ charAt line 0 ≠ space
  last : ∀ b ∈ line.getLast?, b ≠ space

theorem charAt_of_le {row : List UInt8} {j : ℕ} (h : row.length ≤ j) : charAt row j = 0 := by
  rw [charAt, List.getD_eq_default _ _ h]

theorem charAt_of_lt {row : List UInt8} {j : ℕ} (h : j < row.length) : charAt row j = row[j] := by
  rw [charAt, List.getD_eq_getElem _ _ h]

theorem bufferOf_ofNat (line : List UInt8) {i : ℕ} (hi : i < 256) :
    bufferOf line (UInt8.ofNat i) = charAt line i := by
  show charAt line (UInt8.ofNat i).toNat = charAt line i
  rw [UInt8.toNat_ofNat', Nat.mod_eq_of_lt hi]

variable {line : List UInt8}

theorem PlainLine.length_pos (h : PlainLine line) : 0 < line.length := by
  by_contra hno
  exact h.first.1 (charAt_of_le (Nat.not_lt.mp hno))

theorem lastByte_bufferOf (h : PlainLine line) {n : ℕ} (hn : line.length ≤ n) (h256 : n ≤ 256) :
    lastByte (bufferOf line) n = some (line.length - 1) := by
  induction n with
  | zero => exact absurd h.length_pos (Nat.not_lt.mpr hn)
  | succ n ih =>
      rw [lastByte, bufferOf_ofNat line h256]
      by_cases hlen : line.length ≤ n
      · rw [if_pos (charAt_of_le hlen)]
        exact ih hlen (Nat.le_of_succ_le h256)
      · have hlast : line.length = n + 1 := by omega
        have hlt : n < line.length := by omega
        rw [if_neg, hlast]
        · rfl
        · rw [charAt_of_lt hlt]
          intro h0
          exact h.noNul (h0 ▸ List.getElem_mem hlt)

/-- A plain line stays as it is. -/
theorem trim_bufferOf (h : PlainLine line) (behind : UInt8) :
    trim behind (bufferOf line) = some (bufferOf line) := by
  have hpos := h.length_pos
  have hlt : line.length - 1 < 256 := by
    have := h.length
    omega
  have hfront : trimFront behind 257 (bufferOf line) = some (bufferOf line) := by
    rw [trimFront]
    exact if_neg h.first.2
  have hlast : charAt line (line.length - 1) ≠ space := by
    have hsub : line.length - 1 < line.length := Nat.sub_lt hpos Nat.one_pos
    refine h.last _ ?_
    rw [charAt_of_lt hsub, List.getLast?_eq_getElem?, List.getElem?_eq_getElem hsub]
    rfl
  have hback : trimBack (line.length - 1 + 1) (bufferOf line) = some (bufferOf line) := by
    rw [trimBack, bufferOf_ofNat line hlt]
    exact if_neg hlast
  have hk := lastByte_bufferOf h (Nat.le_of_lt h.length) (Nat.le_refl 256)
  simp only [trim, hfront, hk, Option.bind_eq_bind, Option.bind_some, hback]

theorem cString_append_zero {s : List UInt8} (h : 0 ∉ s) (t : List UInt8) :
    cString (s ++ 0 :: t) = s := by
  induction s with
  | nil => rfl
  | cons a s ih =>
      have ha : a ≠ 0 := fun ha => h (ha ▸ List.mem_cons_self)
      rw [List.cons_append, cString_cons, if_neg ha, ih fun hs => h (List.mem_cons_of_mem _ hs)]

theorem cString_append (s t : List UInt8) :
    cString (s ++ t) = if 0 ∈ s then cString s else s ++ cString t := by
  by_cases h0 : 0 ∈ s
  · obtain ⟨l, r, rfl, hl⟩ := List.eq_append_cons_of_mem h0
    rw [if_pos h0, List.append_assoc, List.cons_append, cString_append_zero hl,
      cString_append_zero hl]
  · rw [if_neg h0, cString, List.takeWhile_append_of_pos, cString]
    intro b hb
    simp only [ne_eq, decide_not, Bool.not_eq_eq_eq_not, Bool.not_true, decide_eq_false_iff_not]
    rintro rfl
    exact h0 hb

theorem cString_append_zeros (s : List UInt8) {z : List UInt8} (hz : ∀ c ∈ z, c = 0) :
    cString (s ++ z) = cString s := by
  by_cases h0 : 0 ∈ s
  · rw [cString_append, if_pos h0]
  · cases z with
    | nil => rw [List.append_nil]
    | cons c z =>
        obtain rfl := hz c List.mem_cons_self
        rw [cString_append_zero h0, cString_eq_self h0]

/-- A row copied into a longer array is followed by zeros. -/
theorem map_charAt_range {row : List UInt8} {n : ℕ} (h : row.length < n) :
    (List.range n).map (charAt row) = row ++ 0 :: List.replicate (n - 1 - row.length) 0 := by
  have hzeros : (0 : UInt8) :: List.replicate (n - 1 - row.length) 0
      = List.replicate (n - row.length) 0 := by
    rw [← List.replicate_succ]
    exact congrArg (fun k => List.replicate k 0) (by omega)
  rw [hzeros]
  refine List.ext_getElem ?_ ?_
  · simp only [List.length_map, List.length_range, List.length_append, List.length_replicate]
    omega
  · intro i hi _
    rw [List.getElem_map, List.getElem_range]
    by_cases hlt : i < row.length
    · rw [charAt_of_lt hlt, List.getElem_append_left hlt]
    · rw [charAt_of_le (Nat.not_lt.mp hlt), List.getElem_append_right (Nat.not_lt.mp hlt),
        List.getElem_replicate]

/-- The array holds the row's string. -/
theorem cString_map_charAt {row : List UInt8} {n : ℕ} (h0 : 0 ∉ row) (h : row.length < n) :
    cString ((List.range n).map (charAt row)) = row := by
  rw [map_charAt_range h, cString_append_zero h0]

theorem lineOf_bufferOf (h : PlainLine line) : lineOf (bufferOf line) = some line := by
  have hbytes : (List.range 256).map (fun i => bufferOf line (UInt8.ofNat i))
      = (List.range 256).map (charAt line) :=
    List.map_congr_left fun i hi => bufferOf_ofNat line (List.mem_range.mp hi)
  rw [lineOf, hbytes, map_charAt_range h.length, if_pos, cString_append_zero h.noNul]
  exact List.mem_append_right _ List.mem_cons_self

/-! ## Rounds of the tokenizer -/

/-- A component of a path: no NUL, space or slash, and short enough for a row. -/
structure IsWord (c : List UInt8) : Prop where
  chars : ∀ b ∈ c, b ≠ 0 ∧ b ≠ space ∧ b ≠ slash
  length : c.length < 15

instance (c : List UInt8) : Decidable (IsWord c) :=
  decidable_of_iff ((c.all fun b => decide (b ≠ 0 ∧ b ≠ space ∧ b ≠ slash)) = true ∧
    c.length < 15) <| by
      rw [List.all_eq_true]
      simp only [decide_eq_true_eq]
      exact ⟨fun h => ⟨h.1, h.2⟩, fun h => ⟨h.chars, h.length⟩⟩

theorem IsWord.inWord {c : List UInt8} (h : IsWord c) : ∀ b ∈ c, inWord b = true := by
  intro b hb
  obtain ⟨-, h1, h2⟩ := h.chars b hb
  simp [OsyShell.inWord, h1, h2]

theorem takeWhile_word {c : List UInt8} (hc : ∀ b ∈ c, inWord b = true) {b : UInt8}
    (hb : inWord b = false) (rest : List UInt8) : (c ++ b :: rest).takeWhile inWord = c := by
  rw [List.takeWhile_append_of_pos hc, List.takeWhile_cons_of_neg (by simp [hb]),
    List.append_nil]

theorem dropWhile_word {c : List UInt8} (hc : ∀ b ∈ c, inWord b = true) {b : UInt8}
    (hb : inWord b = false) (rest : List UInt8) :
    (c ++ b :: rest).dropWhile inWord = b :: rest := by
  rw [List.dropWhile_append_of_pos hc, List.dropWhile_cons_of_neg (by simp [hb])]

/-- A component in front of a slash. -/
theorem tokenRound_slash {c : List UInt8} (hc : ∀ b ∈ c, inWord b = true) (cmd : TokenTable)
    (rest : List UInt8) :
    tokenRound (c ++ slash :: rest) cmd = (cmd.write c).map fun cmd => (rest, cmd) := by
  have hs : inWord slash = false := by decide
  simp only [tokenRound, takeWhile_word hc hs, dropWhile_word hc hs, List.head?_cons]
  cases cmd.write c <;> rfl

/-- A component at the end of the line. -/
theorem tokenRound_end {c : List UInt8} (hc : ∀ b ∈ c, inWord b = true) (cmd : TokenTable) :
    tokenRound c cmd = (cmd.write c).map fun cmd => ([], cmd) := by
  have htake : c.takeWhile inWord = c := List.takeWhile_eq_self_iff.mpr hc
  have hdrop : c.dropWhile inWord = [] := List.dropWhile_eq_nil_iff.mpr hc
  simp only [tokenRound, htake, hdrop, List.head?_nil]
  cases cmd.write c <;> rfl

/-- A component in front of spaces, which take a row, and of a text, which loses a slash. -/
theorem tokenRound_gap {c gap rest : List UInt8} (hc : ∀ b ∈ c, inWord b = true)
    (hne : gap ≠ []) (hgap : ∀ b ∈ gap, b = space) (hrest : rest.head? ≠ some space)
    (cmd : TokenTable) :
    tokenRound (c ++ gap ++ rest) cmd
      = ((cmd.write c).bind fun cmd => cmd.write [space]).map fun cmd =>
          (skipSlash rest, { cmd with cmdLength := cmd.cmdLength + 1 }) := by
  obtain ⟨b, gap, rfl⟩ := List.exists_cons_of_ne_nil hne
  obtain rfl := hgap b List.mem_cons_self
  have hs : inWord space = false := by decide
  have hdrop : (space :: (gap ++ rest)).dropWhile (· = space) = rest := by
    rw [← List.cons_append, List.dropWhile_append_of_pos (fun b hb => by simpa using hgap b hb)]
    cases rest with
    | nil => rfl
    | cons b rest =>
        have hb : b ≠ space := fun h => hrest (by rw [h]; rfl)
        rw [List.dropWhile_cons_of_neg (by simpa using hb)]
  simp only [tokenRound, List.append_assoc, List.cons_append, takeWhile_word hc hs,
    dropWhile_word hc hs, List.head?_cons, if_true, hdrop]
  cases hw : cmd.write c with
  | none => rfl
  | some cmd₁ =>
      simp only [Option.bind_eq_bind, Option.bind_some]
      cases cmd₁.write [space] <;> rfl

/-- Rows go to the table as long as it has room for each of them. -/
def TokenTable.extend (cmd : TokenTable) (rows : List (List UInt8)) (gaps : ℕ) :
    Option TokenTable :=
  if cmd.rows.length + rows.length ≤ 40 ∧ ∀ r ∈ rows, r.length < 15 then
    some
      { rows := cmd.rows ++ rows
        cmdLength := cmd.cmdLength + gaps
        neff := cmd.neff + rows.length }
  else none

theorem TokenTable.write_eq (cmd : TokenTable) (row : List UInt8) :
    cmd.write row = cmd.extend [row] 0 := by
  simp only [TokenTable.write, TokenTable.extend, List.length_singleton, List.mem_singleton,
    forall_eq, Nat.lt_iff_add_one_le, Nat.add_zero]

theorem TokenTable.extend_extend (cmd : TokenTable) (rows rows' : List (List UInt8))
    (gaps gaps' : ℕ) :
    ((cmd.extend rows gaps).bind fun cmd => cmd.extend rows' gaps')
      = cmd.extend (rows ++ rows') (gaps + gaps') := by
  by_cases h : cmd.rows.length + rows.length ≤ 40 ∧ ∀ r ∈ rows, r.length < 15
  · rw [TokenTable.extend, if_pos h, Option.bind_some, TokenTable.extend, TokenTable.extend]
    simp only [List.length_append, List.mem_append, or_imp, forall_and, List.append_assoc,
      Nat.add_assoc, and_iff_right h.2]
  · rw [TokenTable.extend, if_neg h, Option.bind_none, TokenTable.extend, if_neg]
    rintro ⟨hlen, hrows⟩
    rw [List.length_append] at hlen
    exact h ⟨by omega, fun r hr => hrows r (List.mem_append_left _ hr)⟩

theorem TokenTable.extend_length {cmd cmd' : TokenTable} {rows : List (List UInt8)} {gaps : ℕ}
    (h : cmd.extend rows gaps = some cmd') : cmd'.rows.length ≤ 40 := by
  rw [TokenTable.extend] at h
  split at h
  · next hin =>
      rw [← Option.some.inj h, List.length_append]
      exact hin.1
  · exact absurd h (by simp)

/-! ## Fuel -/

theorem skipSlash_length (input : List UInt8) : (skipSlash input).length ≤ input.length := by
  cases input with
  | nil => exact Nat.le_refl 0
  | cons c input =>
      rw [skipSlash]
      by_cases hc : c = slash
      · rw [if_pos hc]
        exact Nat.le_succ _
      · rw [if_neg hc]

/-- The line behind a round. -/
def roundRest (input : List UInt8) : List UInt8 :=
  if (input.dropWhile inWord).head? = some space then
    skipSlash ((input.dropWhile inWord).dropWhile (· = space))
  else skipSlash (input.dropWhile inWord)

/-- A round takes at least one character. -/
theorem roundRest_length (c : UInt8) (input : List UInt8) :
    (roundRest (c :: input)).length ≤ input.length := by
  have hspaces : ∀ s : List UInt8, (skipSlash (s.dropWhile (· = space))).length ≤ s.length :=
    fun s => (skipSlash_length _).trans (List.dropWhile_sublist _).length_le
  by_cases hw : inWord c = true
  · -- the word has a first character
    have hin : (input.dropWhile inWord).length ≤ input.length :=
      (List.dropWhile_sublist _).length_le
    rw [roundRest, List.dropWhile_cons_of_pos hw]
    split
    · exact (hspaces _).trans hin
    · exact (skipSlash_length _).trans hin
  · -- an empty word stands before a space or a slash, which is skipped
    rw [roundRest, List.dropWhile_cons_of_neg hw, List.head?_cons]
    by_cases hsp : c = space
    · rw [if_pos (congrArg some hsp), List.dropWhile_cons_of_pos (by simpa using hsp)]
      exact hspaces input
    · have hsl : c = slash := by
        by_contra hno
        exact hw (by simp [inWord, hsp, hno])
      rw [if_neg fun h => hsp (Option.some.inj h), skipSlash, if_pos hsl]

theorem tokenRound_rest {input : List UInt8} {cmd : TokenTable} {r : List UInt8 × TokenTable}
    (h : tokenRound input cmd = some r) : r.1 = roundRest input := by
  obtain ⟨cmd₁, -, h⟩ := Option.bind_eq_some_iff.mp h
  rw [roundRest]
  by_cases hsp : (input.dropWhile inWord).head? = some space
  · rw [if_pos hsp] at h ⊢
    obtain ⟨cmd₂, -, h⟩ := Option.bind_eq_some_iff.mp h
    rw [← Option.some.inj h]
  · rw [if_neg hsp] at h ⊢
    rw [← Option.some.inj h]

theorem tokenRound_length {c : UInt8} {input : List UInt8} {cmd : TokenTable}
    {r : List UInt8 × TokenTable} (h : tokenRound (c :: input) cmd = some r) :
    r.1.length ≤ input.length := by
  rw [tokenRound_rest h]
  exact roundRest_length c input

/-- As many rounds as there are characters are enough. -/
theorem tokenLoop_fuel {n m : ℕ} {input : List UInt8} (cmd : TokenTable)
    (hn : input.length ≤ n) (hm : input.length ≤ m) :
    tokenLoop n input cmd = tokenLoop m input cmd := by
  induction n generalizing m input cmd with
  | zero =>
      obtain rfl := List.length_eq_zero_iff.mp (Nat.le_zero.mp hn)
      cases m <;> rfl
  | succ n ih =>
      cases input with
      | nil => cases m <;> rfl
      | cons c input =>
          cases m with
          | zero => exact absurd hm (Nat.not_succ_le_zero _)
          | succ m =>
              rw [tokenLoop, tokenLoop]
              cases hr : tokenRound (c :: input) cmd with
              | none => rfl
              | some r =>
                  obtain ⟨rest, cmd'⟩ := r
                  have hlen := tokenRound_length hr
                  exact ih cmd' (hlen.trans (Nat.le_of_succ_le_succ hn))
                    (hlen.trans (Nat.le_of_succ_le_succ hm))

/-- The rest of a line goes to a table. -/
abbrev tokens (input : List UInt8) (cmd : TokenTable) : Option TokenTable :=
  tokenLoop input.length input cmd

/-- The rest behind a round goes to the table that the round leaves. -/
theorem tokens_step {input : List UInt8} (hne : input ≠ []) (cmd : TokenTable) :
    tokens input cmd = (tokenRound input cmd).bind fun r => tokens r.1 r.2 := by
  cases input with
  | nil => exact absurd rfl hne
  | cons c input =>
      show tokenLoop (input.length + 1) (c :: input) cmd = _
      rw [tokenLoop]
      cases hr : tokenRound (c :: input) cmd with
      | none => rfl
      | some r => exact tokenLoop_fuel r.2 (tokenRound_length hr) (Nat.le_refl _)

/-! ## Paths -/

/-- The text of a path. -/
def pathText : List (List UInt8) → List UInt8
  | [] => []
  | [c] => c
  | c :: c' :: path => c ++ slash :: pathText (c' :: path)

/-- A path of words; its first and its last component are not empty. -/
structure IsPath (path : List (List UInt8)) : Prop where
  words : ∀ c ∈ path, IsWord c
  first : path.head? ≠ some []
  last : path.getLast? ≠ some []
  nonempty : path ≠ []

/-- The path at the end of the line; a last component that is empty takes no row. -/
theorem tokens_path_end {path : List (List UInt8)} {cmd : TokenTable}
    (hw : ∀ c ∈ path, ∀ b ∈ c, inWord b = true) (h40 : cmd.rows.length ≤ 40) :
    tokens (pathText path) cmd = cmd.extend (dropEmptyLast path) 0 := by
  have hnil : tokens [] cmd = cmd.extend [] 0 := by
    rw [TokenTable.extend, if_pos ⟨h40, fun r hr => absurd hr List.not_mem_nil⟩, List.append_nil]
    rfl
  match path with
  | [] => exact hnil
  | [[]] => exact hnil
  | [b :: c] =>
      show tokens (b :: c) cmd = cmd.extend [b :: c] 0
      rw [tokens_step (List.cons_ne_nil b c), tokenRound_end (hw _ List.mem_cons_self),
        TokenTable.write_eq]
      cases cmd.extend [b :: c] 0 <;> rfl
  | c :: c' :: path =>
      have hlast : dropEmptyLast (c :: c' :: path) = [c] ++ dropEmptyLast (c' :: path) := by
        cases c <;> rfl
      have htext : c ++ slash :: pathText (c' :: path) ≠ [] := by simp
      show tokens (c ++ slash :: pathText (c' :: path)) cmd = _
      rw [tokens_step htext, tokenRound_slash (hw c List.mem_cons_self), TokenTable.write_eq,
        hlast, Option.bind_map]
      refine Eq.trans ?_ (cmd.extend_extend [c] _ 0 0)
      refine Option.bind_congr fun cmd' hcmd' => ?_
      exact tokens_path_end (fun d hd => hw d (List.mem_cons_of_mem _ hd))
        (TokenTable.extend_length hcmd')

/-- The path in front of spaces. -/
theorem tokens_path_space {path : List (List UInt8)} {gap rest : List UInt8}
    (hw : ∀ c ∈ path, ∀ b ∈ c, inWord b = true) (hne : path ≠ []) (hgap : gap ≠ [])
    (hspaces : ∀ b ∈ gap, b = space) (hrest : rest.head? ≠ some space) (cmd : TokenTable) :
    tokens (pathText path ++ gap ++ rest) cmd
      = (cmd.extend (path ++ [[space]]) 1).bind fun cmd => tokens (skipSlash rest) cmd := by
  induction path generalizing cmd with
  | nil => exact absurd rfl hne
  | cons c path ih =>
      have hc := hw c List.mem_cons_self
      cases path with
      | nil =>
          have htext : c ++ gap ++ rest ≠ [] := by simp [hgap]
          show tokens (c ++ gap ++ rest) cmd = _
          rw [tokens_step htext, tokenRound_gap hc hgap hspaces hrest, TokenTable.write_eq]
          simp only [TokenTable.write_eq, TokenTable.extend_extend]
          rw [TokenTable.extend, TokenTable.extend]
          split <;> rfl
      | cons c' path =>
          have htext : c ++ slash :: (pathText (c' :: path) ++ gap ++ rest) ≠ [] := by simp
          have hassoc : pathText (c :: c' :: path) ++ gap ++ rest
              = c ++ slash :: (pathText (c' :: path) ++ gap ++ rest) := by
            simp only [pathText, List.append_assoc, List.cons_append]
          have hcons : c :: c' :: path ++ [[space]] = [c] ++ (c' :: path ++ [[space]]) := rfl
          rw [hassoc, tokens_step htext, tokenRound_slash hc, TokenTable.write_eq, hcons,
            ← Nat.zero_add 1, ← TokenTable.extend_extend, Option.bind_map, Option.bind_assoc]
          refine Option.bind_congr fun cmd' _ => ?_
          exact ih (fun d hd => hw d (List.mem_cons_of_mem _ hd)) (List.cons_ne_nil _ _) cmd'

/-- The text of a path holds no NUL and no space. -/
theorem pathText_chars {path : List (List UInt8)} (hw : ∀ c ∈ path, IsWord c) :
    ∀ b ∈ pathText path, b ≠ 0 ∧ b ≠ space := by
  induction path with
  | nil => exact fun b hb => absurd hb List.not_mem_nil
  | cons c path ih =>
      have hc := (hw c List.mem_cons_self).chars
      have hrest := ih fun d hd => hw d (List.mem_cons_of_mem _ hd)
      cases path with
      | nil => exact fun b hb => ⟨(hc b hb).1, (hc b hb).2.1⟩
      | cons c' path =>
          intro b hb
          rw [pathText, List.mem_append, List.mem_cons] at hb
          rcases hb with hb | rfl | hb
          · exact ⟨(hc b hb).1, (hc b hb).2.1⟩
          · exact ⟨by decide, by decide⟩
          · exact hrest b hb

/-- The text of a path begins with a character of its first component. -/
theorem IsPath.pathText_cons {path : List (List UInt8)} (h : IsPath path) :
    ∃ b rest, pathText path = b :: rest ∧ inWord b = true ∧ b ≠ 0 := by
  obtain ⟨c, path, rfl⟩ := List.exists_cons_of_ne_nil h.nonempty
  cases c with
  | nil => exact absurd rfl h.first
  | cons b c =>
      have hc := h.words _ List.mem_cons_self
      have hb := hc.inWord b List.mem_cons_self
      have h0 := (hc.chars b List.mem_cons_self).1
      cases path with
      | nil => exact ⟨b, c, rfl, hb, h0⟩
      | cons c' path => exact ⟨b, _, rfl, hb, h0⟩

/-! ## Command lines -/

/-- `word path`. -/
def pathLine (word : List UInt8) (path : List (List UInt8)) : List UInt8 :=
  word ++ space :: pathText path

/-- `word path path'`. -/
def twoPathLine (word : List UInt8) (path path' : List (List UInt8)) : List UInt8 :=
  word ++ space :: (pathText path ++ space :: pathText path')

theorem IsPath.pathText_ne_nil {path : List (List UInt8)} (h : IsPath path) :
    pathText path ≠ [] := by
  obtain ⟨b, rest, htext, -⟩ := h.pathText_cons
  rw [htext]
  exact List.cons_ne_nil _ _

/-- A word, a space and a text behind it make a line. -/
theorem plainLine_of_text {word rest : List UInt8} (hword : IsWord word) (hne : word ≠ [])
    (hrest : ∀ b ∈ rest, b ≠ 0) (hlast : ∀ b ∈ rest.getLast?, b ≠ space) (hne' : rest ≠ [])
    (hlen : (word ++ space :: rest).length < 256) : PlainLine (word ++ space :: rest) where
  length := hlen
  noNul := by
    rw [List.mem_append, List.mem_cons]
    rintro (h | h | h)
    · exact (hword.chars 0 h).1 rfl
    · exact absurd h (by decide)
    · exact hrest 0 h rfl
  first := by
    obtain ⟨b, word, rfl⟩ := List.exists_cons_of_ne_nil hne
    obtain ⟨h0, hsp, -⟩ := hword.chars b List.mem_cons_self
    exact ⟨h0, hsp⟩
  last := by
    obtain ⟨b, rest, rfl⟩ := List.exists_cons_of_ne_nil hne'
    rwa [List.getLast?_append_of_ne_nil _ (List.cons_ne_nil _ _), List.getLast?_cons_cons]

theorem plainLine_pathLine {word : List UInt8} {path : List (List UInt8)} (hword : IsWord word)
    (hne : word ≠ []) (h : IsPath path) (hlen : (pathLine word path).length < 256) :
    PlainLine (pathLine word path) := by
  have hchars := pathText_chars h.words
  exact plainLine_of_text hword hne (fun b hb => (hchars b hb).1)
    (fun b hb => (hchars b (List.mem_of_getLast? hb)).2) h.pathText_ne_nil hlen

theorem plainLine_twoPathLine {word : List UInt8} {path path' : List (List UInt8)}
    (hword : IsWord word) (hne : word ≠ []) (h : IsPath path) (h' : IsPath path')
    (hlen : (twoPathLine word path path').length < 256) :
    PlainLine (twoPathLine word path path') := by
  have hchars := pathText_chars h.words
  have hchars' := pathText_chars h'.words
  refine plainLine_of_text hword hne ?_ ?_ (by simp) hlen
  · intro b hb
    rw [List.mem_append, List.mem_cons] at hb
    rcases hb with hb | rfl | hb
    · exact (hchars b hb).1
    · decide
    · exact (hchars' b hb).1
  · obtain ⟨c, rest, htext⟩ := List.exists_cons_of_ne_nil h'.pathText_ne_nil
    rw [htext, List.getLast?_append_of_ne_nil _ (List.cons_ne_nil _ _),
      List.getLast?_cons_cons, ← htext]
    exact fun b hb => (hchars' b (List.mem_of_getLast? hb)).2

theorem IsPath.inWord {path : List (List UInt8)} (h : IsPath path) :
    ∀ c ∈ path, ∀ b ∈ c, inWord b = true := fun c hc => (h.words c hc).inWord

/-- The text of a path loses no slash and is not taken for spaces. -/
theorem IsPath.pathText_start {path : List (List UInt8)} (h : IsPath path)
    (rest : List UInt8) :
    skipSlash (pathText path ++ rest) = pathText path ++ rest ∧
      (pathText path ++ rest).head? ≠ some space := by
  obtain ⟨b, tail, htext, hb, -⟩ := h.pathText_cons
  obtain ⟨hsp, hsl⟩ : b ≠ space ∧ b ≠ slash := by simpa [OsyShell.inWord] using hb
  rw [htext, List.cons_append, skipSlash, if_neg hsl, List.head?_cons]
  exact ⟨rfl, fun h => hsp (Option.some.inj h)⟩

/-- A path in front of another text. -/
theorem IsPath.tokens_space {path : List (List UInt8)} {cmd : TokenTable} {rest : List UInt8}
    (h : IsPath path) (hstart : skipSlash rest = rest ∧ rest.head? ≠ some space)
    (h40 : cmd.rows.length + path.length < 40) :
    tokens (pathText path ++ space :: rest) cmd
      = tokens rest
          { rows := cmd.rows ++ path ++ [[space]]
            cmdLength := cmd.cmdLength + 1
            neff := cmd.neff + (path.length + 1) } := by
  have hfits : cmd.rows.length + (path ++ [[space]]).length ≤ 40 ∧
      ∀ r ∈ path ++ [[space]], r.length < 15 := by
    refine ⟨?_, fun r hr => ?_⟩
    · rw [List.length_append, List.length_singleton]
      omega
    rcases List.mem_append.mp hr with hr | hr
    · exact (h.words r hr).length
    · rw [List.mem_singleton.mp hr]
      decide
  have hgap : pathText path ++ space :: rest = pathText path ++ [space] ++ rest :=
    List.append_cons _ _ _
  rw [hgap, tokens_path_space h.inWord h.nonempty (List.cons_ne_nil _ _)
    (fun b hb => List.mem_singleton.mp hb) hstart.2, TokenTable.extend, if_pos hfits,
    Option.bind_some, hstart.1, List.append_assoc, List.length_append]
  rfl

/-- A path at the end of the line. -/
theorem IsPath.tokens_end {path : List (List UInt8)} {cmd : TokenTable} (h : IsPath path)
    (h40 : cmd.rows.length + path.length ≤ 40) :
    tokens (pathText path) cmd
      = some { cmd with rows := cmd.rows ++ path, neff := cmd.neff + path.length } := by
  rw [tokens_path_end h.inWord (by omega), dropEmptyLast_eq_iff.mpr h.last, TokenTable.extend,
    if_pos ⟨h40, fun r hr => (h.words r hr).length⟩]
  rfl

/-- A command's name is a path of one component. -/
theorem isPath_word {word : List UInt8} (hword : IsWord word) (hne : word ≠ []) :
    IsPath [word] where
  words c hc := by rwa [List.mem_singleton.mp hc]
  first h := hne (Option.some.inj h)
  last h := hne (Option.some.inj h)
  nonempty := List.cons_ne_nil _ _

theorem tokenize_pathLine {word : List UInt8} {path : List (List UInt8)} (hword : IsWord word)
    (hne : word ≠ []) (h : IsPath path) (h40 : path.length ≤ 38) :
    tokenize (pathLine word path)
      = some { rows := word :: [space] :: path, cmdLength := 1 } := by
  have hstart := h.pathText_start []
  rw [List.append_nil] at hstart
  have hlen : ([word, [space]] : List (List UInt8)).length + path.length ≤ 40 := by
    simp only [List.length_cons, List.length_nil]
    omega
  show tokens (pathText [word] ++ space :: pathText path) TokenTable.empty = _
  rw [(isPath_word hword hne).tokens_space hstart (by simp [TokenTable.empty]), h.tokens_end hlen]
  refine congrArg some (TokenTable.mk.injEq .. |>.mpr ⟨rfl, rfl, ?_⟩)
  simp only [TokenTable.empty, List.length_cons, List.length_nil]
  omega

theorem tokenize_twoPathLine {word : List UInt8} {path path' : List (List UInt8)}
    (hword : IsWord word) (hne : word ≠ []) (h : IsPath path) (h' : IsPath path')
    (h40 : path.length + path'.length ≤ 37) :
    tokenize (twoPathLine word path path')
      = some { rows := word :: [space] :: (path ++ [space] :: path'), cmdLength := 2 } := by
  have hstart' := h'.pathText_start []
  rw [List.append_nil] at hstart'
  show tokens (pathText [word] ++ space :: (pathText path ++ space :: pathText path'))
    TokenTable.empty = _
  rw [(isPath_word hword hne).tokens_space (h.pathText_start _) (by simp [TokenTable.empty]),
    h.tokens_space hstart', h'.tokens_end]
  · refine congrArg some (TokenTable.mk.injEq .. |>.mpr ⟨?_, rfl, ?_⟩)
    · simp only [TokenTable.empty, List.nil_append, List.append_assoc, List.cons_append]
    · simp only [TokenTable.empty, List.length_append, List.length_cons, List.length_nil]
      omega
  · simp only [TokenTable.empty, List.length_append, List.length_cons, List.length_nil]
    omega
  · simp only [TokenTable.empty, List.length_append, List.length_cons, List.length_nil]
    omega

/-- A line whose components fit is read as it was tokenized. -/
theorem commandTable_of_tokenize {line : List UInt8} {cmd : TokenTable}
    (h : tokenize line = some cmd) : commandTable line = some cmd := by
  rw [commandTable, h]

end OsyShell
