import Osyikkk.TokenProofs

/-!
# The array of the tokenizer

Every word of a line goes to the rows of `char cmd[40][15]` component by component. A slash at
the start of a later word and one at the end of the line are skipped, so an empty component
there takes no row, and every other empty component takes one. A component of 15 characters or
more, or a forty-first row, is stored outside the array (`tokens_exact_iff`).
-/

namespace OsyShell

open SeparatedWords

/-! ## What the tokens of a line are -/

/-- The character between two words. -/
def isSpace (c : UInt8) : Bool := c = space

/-- The components of a word, with the empty ones or without. -/
def components (emptyParts : Bool) (word : List UInt8) : List (List UInt8) :=
  if emptyParts then word.splitOn slash else inhabited (word.splitOn slash)

/-- The components of the words of a line, with a row of a space between two words. -/
def tokenRows (emptyParts : Bool) (line : List UInt8) : List (List UInt8) :=
  [[space]].intercalate ((words isSpace line).map (components emptyParts))

/-- The array holds exactly the tokens of the line, and nothing was stored outside it. -/
structure TokensExact (emptyParts : Bool) (line : List UInt8) (cmd : CmdArray) : Prop where
  inside : ∀ s ∈ cmd.stores, s.1 < 40 ∧ s.2 < 15
  neff : cmd.neff = (tokenRows emptyParts line).length
  cmdLength : cmd.cmdLength = (words isSpace line).length - 1
  rows : ∀ (i : ℕ) (h : i < (tokenRows emptyParts line).length),
    0 ∈ cmd.row i ∧ cString (cmd.row i) = (tokenRows emptyParts line)[i]
  empty : ∀ i, cmd.neff ≤ i → i < 40 → ∀ b ∈ cmd.row i, b = 0

/-- The slashes of a line stand where the tokenizer skips none that counts: with empty
    components, no later word begins with a slash and the last one does not end with one;
    without, a slash that has no component on one side only begins a later word or ends the
    last one. -/
def SlashesFit : Bool → List (List (List UInt8)) → Prop
  | true, paths =>
      (∀ path ∈ paths.tail, path.head? ≠ some []) ∧
        ∀ path ∈ paths.getLast?, path.getLast? ≠ some []
  | false, paths =>
      (∀ path ∈ paths.head?, path.head? ≠ some []) ∧
        (∀ path ∈ paths, [] ∉ path.tail.dropLast) ∧
        ∀ path ∈ paths.dropLast, path.getLast? ≠ some []

variable {line w : List UInt8} {cmd cmd' : TokenTable} {a : CmdArray}

/-! ## Rows of a line -/

theorem inWord_eq (c : UInt8) : inWord c = true ↔ isSpace c = false ∧ c ≠ slash := by
  simp [inWord, isSpace]

theorem pathText_eq_intercalate (path : List (List UInt8)) :
    pathText path = [slash].intercalate path := by
  match path with
  | [] => rfl
  | [c] => rw [List.intercalate_singleton, pathText]
  | c :: c' :: path =>
      rw [pathText, List.intercalate_cons_cons, pathText_eq_intercalate (c' :: path),
        List.append_assoc]
      rfl

theorem pathText_splitOn (w : List UInt8) : pathText (w.splitOn slash) = w := by
  rw [pathText_eq_intercalate, List.intercalate_splitOn]

/-- The components hold the characters of the word, without the slashes. -/
theorem mem_component {c : List UInt8} (hc : c ∈ w.splitOn slash) :
    c ⊆ w ∧ slash ∉ c := by
  induction w generalizing c with
  | nil =>
      rw [List.splitOn_nil, List.mem_singleton] at hc
      subst hc
      exact ⟨List.Subset.refl _, List.not_mem_nil⟩
  | cons b w ih =>
      rw [List.splitOn_cons_eq_if_modifyHead] at hc
      obtain ⟨d, path, hpath⟩ := List.exists_cons_of_ne_nil (List.splitOn_ne_nil slash w)
      by_cases hb : b = slash
      · rw [if_pos (by simpa using hb)] at hc
        rcases List.mem_cons.mp hc with rfl | hc
        · exact ⟨List.nil_subset _, List.not_mem_nil⟩
        · exact ⟨fun x hx => List.mem_cons_of_mem _ ((ih hc).1 hx), (ih hc).2⟩
      · rw [if_neg (by simpa using hb), hpath, List.modifyHead_cons] at hc
        rcases List.mem_cons.mp hc with rfl | hc
        · obtain ⟨hsub, hno⟩ := ih (hpath ▸ List.mem_cons_self)
          refine ⟨List.cons_subset_cons b hsub, ?_⟩
          rw [List.mem_cons, not_or]
          exact ⟨fun h => hb h.symm, hno⟩
        · obtain ⟨hsub, hno⟩ := ih (hpath ▸ List.mem_cons_of_mem d hc)
          exact ⟨fun x hx => List.mem_cons_of_mem _ (hsub hx), hno⟩

theorem component_inWord (hw : ∀ b ∈ w, isSpace b = false) :
    ∀ c ∈ w.splitOn slash, ∀ b ∈ c, inWord b = true := by
  intro c hc b hb
  obtain ⟨hsub, hno⟩ := mem_component hc
  exact (inWord_eq b).mpr ⟨hw b (hsub hb), fun h => hno (h ▸ hb)⟩

/-- A skipped slash is an empty first component. -/
theorem skipSlash_eq (w : List UInt8) :
    skipSlash w = pathText (dropEmptyHead (w.splitOn slash)) := by
  cases w with
  | nil => rfl
  | cons b w =>
      rw [skipSlash, List.splitOn_cons_eq_if_modifyHead]
      by_cases hb : b = slash
      · rw [if_pos hb, if_pos (by simpa using hb)]
        exact (pathText_splitOn w).symm
      · rw [if_neg hb, if_neg (by simpa using hb)]
        obtain ⟨d, path, hpath⟩ := List.exists_cons_of_ne_nil (List.splitOn_ne_nil slash w)
        have htext := pathText_splitOn (b :: w)
        rw [List.splitOn_cons_eq_if_modifyHead, if_neg (by simpa using hb), hpath,
          List.modifyHead_cons] at htext
        rw [hpath, List.modifyHead_cons]
        exact htext.symm

/-- The components of a word as a round meets them: behind a gap a slash has been skipped. -/
def metPath (later : Bool) (w : List UInt8) : List (List UInt8) :=
  if later then dropEmptyHead (w.splitOn slash) else w.splitOn slash

theorem metPath_text (later : Bool) (w : List UInt8) :
    pathText (metPath later w) = if later then skipSlash w else w := by
  cases later
  · exact pathText_splitOn w
  · exact (skipSlash_eq w).symm

theorem metPath_inWord (later : Bool) (hw : ∀ b ∈ w, isSpace b = false) :
    ∀ c ∈ metPath later w, ∀ b ∈ c, inWord b = true := by
  intro c hc
  refine component_inWord hw c ?_
  cases later
  · exact hc
  · exact (dropEmptyHead_sublist _).subset hc

theorem metPath_ne_nil (later : Bool) (hw : w ≠ []) : metPath later w ≠ [] := by
  cases later
  · exact List.splitOn_ne_nil slash w
  · intro hnil
    have hsingle : w.splitOn slash = [[]] := by
      have hsub : (dropEmptyHead (w.splitOn slash)) = [] := hnil
      match hpath : w.splitOn slash, hsub with
      | [], _ => exact absurd hpath (List.splitOn_ne_nil slash w)
      | [[]], _ => rfl
    have htext := pathText_splitOn w
    rw [hsingle] at htext
    exact hw htext.symm

theorem skipSlash_append (hw : w ≠ []) (rest : List UInt8) :
    skipSlash (w ++ rest) = skipSlash w ++ rest := by
  obtain ⟨b, w, rfl⟩ := List.exists_cons_of_ne_nil hw
  rw [List.cons_append, skipSlash, skipSlash]
  split <;> rfl

/-- **The rows of a line**: those of its words, without the swallowed ends. -/
theorem tokens_line (h : Trimmed isSpace line) (later : Bool) (h40 : cmd.rows.length ≤ 40) :
    tokens (if later then skipSlash line else line) cmd
      = cmd.extend (swallowed [space] later ((words isSpace line).map fun w => w.splitOn slash))
          ((words isSpace line).length - 1) := by
  revert later cmd
  refine Trimmed.induction (motive := fun line => ∀ {cmd : TokenTable} (later : Bool),
    cmd.rows.length ≤ 40 → tokens (if later then skipSlash line else line) cmd
      = cmd.extend (swallowed [space] later ((words isSpace line).map fun w => w.splitOn slash))
          ((words isSpace line).length - 1)) ?_ ?_ ?_ h
  · intro cmd later h40
    have hnil : (if later then skipSlash [] else []) = ([] : List UInt8) := by cases later <;> rfl
    rw [hnil, words_nil, TokenTable.extend, if_pos ⟨h40, fun r hr => absurd hr List.not_mem_nil⟩]
    show some cmd
      = some { rows := cmd.rows ++ [], cmdLength := cmd.cmdLength, neff := cmd.neff }
    rw [List.append_nil]
  · intro w hw cmd later h40
    rw [← metPath_text, tokens_path_end (metPath_inWord later hw.inside) h40, words_run hw]
    rfl
  · intro w gap rest hw hgap hspaces hrest htrim ih cmd later h40
    have hstart : rest.head? ≠ some space := fun h => absurd (htrim.first space h) (by decide)
    have htext : (if later then skipSlash (w ++ gap ++ rest) else w ++ gap ++ rest)
        = pathText (metPath later w) ++ gap ++ rest := by
      rw [metPath_text]
      cases later
      · rfl
      · simp only [if_true, List.append_assoc, skipSlash_append hw.nonempty]
    obtain ⟨v, vs, hvs⟩ := List.exists_cons_of_ne_nil (htrim.words_ne_nil hrest)
    rw [htext, tokens_path_space (metPath_inWord later hw.inside)
      (metPath_ne_nil later hw.nonempty) hgap (fun b hb => by simpa [isSpace] using hspaces b hb)
      hstart, words_cons hw hgap hspaces, hvs]
    have hrows : swallowed [space] later ((w :: v :: vs).map fun w => w.splitOn slash)
        = (metPath later w ++ [[space]])
          ++ swallowed [space] true ((v :: vs).map fun w => w.splitOn slash) := by
      rw [List.append_assoc]
      rfl
    have hcount : (w :: v :: vs).length - 1 = 1 + ((v :: vs).length - 1) := by
      simp only [List.length_cons]
      omega
    rw [hrows, hcount, ← TokenTable.extend_extend]
    refine Option.bind_congr fun cmd' hcmd' => ?_
    have hnext := ih true (TokenTable.extend_length hcmd')
    rw [hvs] at hnext
    exact hnext

/-! ## The array -/

/-- A store inside `cmd[40][15]`. -/
def InArray (s : ℕ × ℕ) : Prop := s.1 < 40 ∧ s.2 < 15

/-- The array holds the rows of a table: all stores were inside it, and the rows are followed
    by zeros. -/
structure Holds (a : CmdArray) (cmd : TokenTable) : Prop where
  neff : a.neff = cmd.rows.length
  count : a.neff = cmd.neff
  cmdLength : a.cmdLength = cmd.cmdLength
  inside : ∀ s ∈ a.stores, InArray s
  bytes : ∀ i j, j < 15 → a.bytes (15 * i + j) = charAt (cmd.rows.getD i []) j

/-- The array behind a word that is stored from column `j` on. -/
def CmdArray.putWord (a : CmdArray) (w : List UInt8) (j : ℕ) : CmdArray where
  bytes x := if 15 * a.neff + j ≤ x ∧ x ≤ 15 * a.neff + j + w.length then
      charAt w (x - (15 * a.neff + j)) else a.bytes x
  stores := a.stores ++ (List.range' j (w.length + 1)).map fun j => (a.neff, j)
  neff := a.neff + 1
  cmdLength := a.cmdLength

theorem putWord_nil (a : CmdArray) (j : ℕ) :
    a.putWord [] j = { a.put a.neff j 0 with neff := a.neff + 1 } := by
  have hbytes : (a.putWord [] j).bytes = Function.update a.bytes (15 * a.neff + j) 0 := by
    funext x
    show (if _ then _ else _) = _
    by_cases hx : x = 15 * a.neff + j
    · rw [hx, if_pos ⟨Nat.le_refl _, Nat.le_refl _⟩, Function.update_self]
      rfl
    · rw [Function.update_of_ne hx, if_neg]
      rintro ⟨hle, hge⟩
      exact hx (Nat.le_antisymm hge hle)
  exact CmdArray.mk.injEq .. |>.mpr ⟨hbytes, rfl, rfl, rfl⟩

theorem putWord_cons (a : CmdArray) (c : UInt8) (w : List UInt8) (j : ℕ) :
    a.putWord (c :: w) j = (a.put a.neff j c).putWord w (j + 1) := by
  have hbytes : (a.putWord (c :: w) j).bytes = ((a.put a.neff j c).putWord w (j + 1)).bytes := by
    funext x
    show (if _ then _ else _) = if _ then _ else Function.update a.bytes (15 * a.neff + j) c x
    rw [List.length_cons]
    by_cases hx : x = 15 * a.neff + j
    · rw [hx, if_pos ⟨Nat.le_refl _, by omega⟩, Nat.sub_self, Function.update_self, if_neg]
      · rfl
      · show ¬ (15 * a.neff + (j + 1) ≤ _ ∧ _)
        omega
    · rw [Function.update_of_ne hx]
      show _ = if 15 * a.neff + (j + 1) ≤ x ∧ x ≤ 15 * a.neff + (j + 1) + w.length then
        charAt w (x - (15 * a.neff + (j + 1))) else a.bytes x
      by_cases hin : 15 * a.neff + (j + 1) ≤ x ∧ x ≤ 15 * a.neff + (j + 1) + w.length
      · have hsub : x - (15 * a.neff + j) = x - (15 * a.neff + (j + 1)) + 1 := by omega
        rw [if_pos hin, if_pos (by omega), hsub]
        rfl
      · rw [if_neg hin, if_neg (by omega)]
  refine CmdArray.mk.injEq .. |>.mpr ⟨hbytes, ?_, rfl, rfl⟩
  show a.stores ++ _ = (a.stores ++ [(a.neff, j)]) ++ _
  rw [List.append_assoc, List.length_cons, List.range'_succ]
  rfl

/-- The inner loop takes the word off the line. -/
theorem storeWord_eq (input : List UInt8) (j : ℕ) (a : CmdArray) :
    storeWord input j a
      = (input.dropWhile inWord, a.putWord (input.takeWhile inWord) j) := by
  induction input generalizing j a with
  | nil =>
      rw [storeWord, List.takeWhile_nil, putWord_nil]
      rfl
  | cons c input ih =>
      rw [storeWord]
      by_cases hc : inWord c = true
      · rw [if_pos hc, ih, List.takeWhile_cons_of_pos hc, List.dropWhile_cons_of_pos hc,
          putWord_cons]
      · rw [if_neg hc, List.takeWhile_cons_of_neg hc, List.dropWhile_cons_of_neg hc, putWord_nil]

/-- A row that the table takes is stored inside the array. -/
theorem Holds.putWord (h : Holds a cmd) {row : List UInt8} (hw : cmd.write row = some cmd') :
    Holds (a.putWord row 0) cmd' := by
  rw [TokenTable.write] at hw
  split at hw
  swap
  · exact absurd hw (by simp)
  next hfits =>
    obtain rfl := Option.some.inj hw
    constructor
    · show a.neff + 1 = (cmd.rows ++ [row]).length
      rw [h.neff, List.length_append, List.length_singleton]
    · exact congrArg (· + 1) h.count
    · exact h.cmdLength
    · intro s hs
      rcases List.mem_append.mp hs with hs | hs
      · exact h.inside s hs
      · obtain ⟨j, hj, rfl⟩ := List.mem_map.mp hs
        rw [List.mem_range'_1] at hj
        have hneff := h.neff
        constructor <;> dsimp only <;> omega
    · intro i j hj
      show (if _ then _ else _) = charAt ((cmd.rows ++ [row]).getD i []) j
      have hneff := h.neff
      rcases Nat.lt_trichotomy i cmd.rows.length with hi | hi | hi
      · rw [if_neg (by omega), h.bytes i j hj, List.getD_append _ _ _ _ hi]
      · rw [List.getD_append_right _ _ _ _ (Nat.le_of_eq hi.symm), hi, Nat.sub_self,
          List.getD_cons_zero]
        by_cases hj' : j ≤ row.length
        · rw [if_pos (by omega)]
          exact congrArg (charAt row) (by omega)
        · rw [if_neg (by omega), h.bytes _ j hj, List.getD_eq_default _ _ (Nat.le_refl _),
            charAt_of_le (Nat.zero_le j), charAt_of_le (Nat.le_of_not_le hj')]
      · rw [if_neg (by omega), h.bytes i j hj, List.getD_eq_default _ _ (Nat.le_of_lt hi),
          List.getD_eq_default]
        rw [List.length_append, List.length_singleton]
        exact hi

/-- A row that the table has no room for is stored outside. -/
theorem Holds.putWord_outside (h : Holds a cmd) {row : List UInt8} (hw : cmd.write row = none) :
    ∃ s ∈ (a.putWord row 0).stores, ¬ InArray s := by
  have hno : ¬ (cmd.rows.length < 40 ∧ row.length < 15) := by
    intro hfits
    rw [TokenTable.write, if_pos hfits] at hw
    exact absurd hw (by simp)
  refine ⟨(a.neff, row.length),
    List.mem_append_right _ (List.mem_map.mpr ⟨row.length, ?_, rfl⟩), ?_⟩
  · rw [List.mem_range'_1]
    omega
  · intro hin
    exact hno ⟨h.neff ▸ hin.1, hin.2⟩

/-- The space between two words is a row of one character; the zero behind it is there. -/
theorem Holds.putSpace_eq (h : Holds a cmd) :
    { a.put a.neff 0 space with neff := a.neff + 1, cmdLength := a.cmdLength + 1 }
      = { a.putWord [space] 0 with
          stores := a.stores ++ [(a.neff, 0)], cmdLength := a.cmdLength + 1 } := by
  have hbytes : Function.update a.bytes (15 * a.neff + 0) space = (a.putWord [space] 0).bytes := by
    funext x
    show _ = if _ then _ else _
    by_cases hx : x = 15 * a.neff + 0
    · rw [hx, Function.update_self, if_pos ⟨Nat.le_refl _, Nat.le_add_right _ _⟩, Nat.sub_self]
      rfl
    · rw [Function.update_of_ne hx]
      by_cases hin : 15 * a.neff + 0 ≤ x ∧ x ≤ 15 * a.neff + 0 + 1
      · have hone : x = 15 * a.neff + 1 := by omega
        have hzero := h.bytes a.neff 1 (by decide)
        rw [List.getD_eq_default _ _ (Nat.le_of_eq h.neff.symm)] at hzero
        have hsub : 15 * a.neff + 1 - (15 * a.neff + 0) = 1 := by omega
        rw [hone, hzero, if_pos (by simp), hsub]
        rfl
      · exact (if_neg hin).symm
  exact CmdArray.mk.injEq .. |>.mpr ⟨hbytes, rfl, rfl, rfl⟩

/-- What the loop leaves of an array that holds a table: the larger table, or a store outside. -/
def Simulates (a : CmdArray) (cmd : Option TokenTable) : Prop :=
  match cmd with
  | some cmd => Holds a cmd
  | none => ∃ s ∈ a.stores, ¬ InArray s

/-- The array behind the space. -/
theorem Holds.putSpace (h : Holds a cmd) :
    Simulates { a.put a.neff 0 space with neff := a.neff + 1, cmdLength := a.cmdLength + 1 }
      ((cmd.write [space]).map fun cmd => { cmd with cmdLength := cmd.cmdLength + 1 }) := by
  cases hw : cmd.write [space] with
  | none =>
      refine ⟨(a.neff, 0), List.mem_append_right _ (List.mem_singleton_self _), fun hin => ?_⟩
      rw [TokenTable.write, if_pos ⟨h.neff ▸ hin.1, by decide⟩] at hw
      exact absurd hw (by simp)
  | some cmd' =>
      have hput := h.putWord hw
      rw [h.putSpace_eq]
      refine ⟨hput.neff, hput.count, congrArg (· + 1) hput.cmdLength, fun s hs => ?_, hput.bytes⟩
      refine hput.inside s ?_
      rcases List.mem_append.mp hs with hs | hs
      · exact List.mem_append_left _ hs
      · rw [List.mem_singleton.mp hs]
        exact List.mem_append_right _ List.mem_cons_self

/-! ## The loop -/

theorem storeRound_rest (input : List UInt8) (a : CmdArray) :
    (storeRound input a).1 = roundRest input := by
  rw [storeRound, storeWord_eq, roundRest]
  dsimp only
  split <;> rfl

/-- A round keeps the stores before it. -/
theorem storeRound_stores (input : List UInt8) (a : CmdArray) :
    a.stores <+: (storeRound input a).2.stores := by
  rw [storeRound, storeWord_eq]
  dsimp only
  split
  · exact (List.prefix_append _ _).trans (List.prefix_append _ _)
  · exact List.prefix_append _ _

/-- One round, beside that of the table. -/
theorem storeRound_simulates (h : Holds a cmd) (input : List UInt8) :
    Simulates (storeRound input a).2 ((tokenRound input cmd).map Prod.snd) := by
  rw [storeRound, storeWord_eq, tokenRound]
  dsimp only
  cases hw : cmd.write (input.takeWhile inWord) with
  | none =>
      obtain ⟨s, hs, hout⟩ := h.putWord_outside hw
      refine ⟨s, ?_, hout⟩
      split
      · exact List.mem_append_left _ hs
      · exact hs
  | some cmd₁ =>
      have hput := h.putWord hw
      simp only [Option.bind_eq_bind, Option.bind_some]
      split
      · have hspace := hput.putSpace
        cases hw' : cmd₁.write [space] <;> rw [hw'] at hspace <;> exact hspace
      · exact hput

/-- The loop ends and keeps the stores before it. -/
theorem storeLoop_total {n : ℕ} {input : List UInt8} (hn : input.length ≤ n) (a : CmdArray) :
    ∃ a', storeLoop n input a = some a' ∧ a.stores <+: a'.stores := by
  induction n generalizing input a with
  | zero =>
      obtain rfl := List.length_eq_zero_iff.mp (Nat.le_zero.mp hn)
      exact ⟨a, rfl, List.prefix_rfl⟩
  | succ n ih =>
      cases input with
      | nil => exact ⟨a, rfl, List.prefix_rfl⟩
      | cons c input =>
          have hlen : (storeRound (c :: input) a).1.length ≤ n := by
            rw [storeRound_rest]
            exact (roundRest_length c input).trans (Nat.le_of_succ_le_succ hn)
          obtain ⟨a', hloop, hpre⟩ := ih hlen (storeRound (c :: input) a).2
          exact ⟨a', hloop, (storeRound_stores (c :: input) a).trans hpre⟩

/-- **The array and the table**: the tokenizer's stores stay in the array exactly when the
    table has room, and then the array holds the table. -/
theorem storeLoop_simulates {n : ℕ} {input : List UInt8} (hn : input.length ≤ n)
    (h : Holds a cmd) :
    ∃ a', storeLoop n input a = some a' ∧ Simulates a' (tokenLoop n input cmd) := by
  induction n generalizing input a cmd with
  | zero =>
      obtain rfl := List.length_eq_zero_iff.mp (Nat.le_zero.mp hn)
      exact ⟨a, rfl, h⟩
  | succ n ih =>
      cases input with
      | nil => exact ⟨a, rfl, h⟩
      | cons c input =>
          have hsim := storeRound_simulates h (c :: input)
          have hlen : (storeRound (c :: input) a).1.length ≤ n := by
            rw [storeRound_rest]
            exact (roundRest_length c input).trans (Nat.le_of_succ_le_succ hn)
          rw [tokenLoop]
          cases hr : tokenRound (c :: input) cmd with
          | none =>
              rw [hr] at hsim
              obtain ⟨s, hs, hout⟩ := hsim
              obtain ⟨a', hloop, hpre⟩ := storeLoop_total hlen (storeRound (c :: input) a).2
              exact ⟨a', hloop, s, hpre.subset hs, hout⟩
          | some r =>
              rw [hr] at hsim
              have hrest : r.1 = (storeRound (c :: input) a).1 := by
                rw [storeRound_rest]
                exact tokenRound_rest hr
              obtain ⟨a', hloop, hsim'⟩ := ih hlen hsim
              rw [← hrest] at hsim'
              exact ⟨a', hloop, hsim'⟩

theorem zeroed_holds : Holds CmdArray.zeroed TokenTable.empty where
  neff := rfl
  count := rfl
  cmdLength := rfl
  inside _ hs := absurd hs List.not_mem_nil
  bytes _ j _ := (charAt_of_le (Nat.zero_le j)).symm

/-- **The table of the branches** has the bytes of the array. -/
theorem commandTable_bytes {line : List UInt8} (h : commandTable line = some cmd) :
    ∃ a, storeTokens line = some a ∧ a.neff = cmd.neff ∧ a.cmdLength = cmd.cmdLength ∧
      ∀ i j, i < 40 → j < 15 → a.bytes (15 * i + j) = charAt (cmd.rows.getD i []) j := by
  obtain ⟨a, hstore, hsim⟩ := storeLoop_simulates (Nat.le_refl line.length) zeroed_holds
  refine ⟨a, hstore, ?_⟩
  have hstore : storeTokens line = some a := hstore
  rw [commandTable, tokenize] at h
  cases htokens : tokenLoop line.length line TokenTable.empty with
  | some table =>
      rw [htokens] at h hsim
      obtain rfl := Option.some.inj h
      have hholds : Holds a table := hsim
      exact ⟨hholds.count, hholds.cmdLength, fun i j _ hj => hholds.bytes i j hj⟩
  | none =>
      rw [htokens] at h
      dsimp only at h
      rw [hstore, Option.bind_some] at h
      split_ifs at h
      obtain rfl := Option.some.inj h
      refine ⟨rfl, rfl, fun i j hi hj => ?_⟩
      have hlen : j < 15 * (40 - i) := by omega
      simp only [CmdArray.table, charAt, List.getD_eq_getElem?_getD, List.getElem?_map,
        List.getElem?_range hi, Option.map_some, Option.getD_some, List.getElem?_range hlen]

/-- There is one unless a store of the tokenizer goes behind the array. -/
theorem commandTable_none {line : List UInt8} : commandTable line = none ↔
    ∃ a, storeTokens line = some a ∧ ∃ s ∈ a.stores, 600 ≤ 15 * s.1 + s.2 := by
  obtain ⟨a, hstore, hsim⟩ := storeLoop_simulates (Nat.le_refl line.length) zeroed_holds
  have hstore : storeTokens line = some a := hstore
  have hsome : (∃ a, storeTokens line = some a ∧ ∃ s ∈ a.stores, 600 ≤ 15 * s.1 + s.2) ↔
      ∃ s ∈ a.stores, 600 ≤ 15 * s.1 + s.2 := by
    constructor
    · rintro ⟨a', hstore', hs⟩
      obtain rfl := Option.some.inj (hstore.symm.trans hstore')
      exact hs
    · exact fun hs => ⟨a, hstore, hs⟩
  rw [hsome, commandTable, tokenize]
  cases htokens : tokenLoop line.length line TokenTable.empty with
  | some table =>
      rw [htokens] at hsim
      have hholds : Holds a table := hsim
      refine iff_of_false (Option.some_ne_none _) ?_
      rintro ⟨s, hs, hout⟩
      obtain ⟨hrow, hcol⟩ := hholds.inside s hs
      omega
  | none =>
      dsimp only
      rw [hstore, Option.bind_some, ite_eq_right_iff]
      simp only [reduceCtorEq, imp_false, not_forall, exists_prop, Nat.not_lt]

/-! ## Exactly the tokens -/

/-- The components of the words of a line. -/
abbrev paths (line : List UInt8) : List (List (List UInt8)) :=
  (words isSpace line).map fun w => w.splitOn slash

/-- The rows are those of the components that count, exactly when the slashes fit. -/
theorem swallowed_eq_tokenRows_iff (emptyParts : Bool) (h : Trimmed isSpace line) :
    swallowed [space] false (paths line) = tokenRows emptyParts line
      ↔ SlashesFit emptyParts (paths line) := by
  cases emptyParts
  · have hwords : [[]] ∉ paths line := by
      intro hmem
      obtain ⟨w, hw, hsplit⟩ := List.mem_map.mp hmem
      have htext := pathText_splitOn w
      rw [hsplit] at htext
      exact (h.mem_words hw).1.nonempty htext.symm
    have hrows : tokenRows false line = [[space]].intercalate ((paths line).map inhabited) := by
      rw [tokenRows, List.map_map]
      rfl
    rw [hrows, swallowed_eq_inhabited_iff (List.cons_ne_nil _ _) false hwords]
    rfl
  · exact swallowed_eq_iff [space] false (paths line)

theorem row_noNul (h : Trimmed isSpace line) (h0 : 0 ∉ line) {r : List UInt8}
    (hr : r ∈ swallowed [space] false (paths line)) : 0 ∉ r := by
  rcases mem_swallowed hr with rfl | ⟨path, hpath, hr⟩
  · decide
  · obtain ⟨w, hw, rfl⟩ := List.mem_map.mp hpath
    exact fun hz => h0 ((h.mem_words hw).2 ((mem_component hr).1 hz))

/-- A row of the array is the row of the table and zeros. -/
theorem Holds.row_eq (h : Holds a cmd) (i : ℕ) :
    a.row i = (List.range 15).map (charAt (cmd.rows.getD i [])) :=
  List.map_congr_left fun j hj => h.bytes i j (List.mem_range.mp hj)

/-- A row that fits is a string of the array. -/
theorem Holds.row_exact (h : Holds a cmd) {i : ℕ} (hi : i < cmd.rows.length)
    (h0 : 0 ∉ cmd.rows[i]) (hshort : cmd.rows[i].length < 15) :
    0 ∈ a.row i ∧ cString (a.row i) = cmd.rows[i] := by
  have hget : a.row i = (List.range 15).map (charAt cmd.rows[i]) := by
    rw [h.row_eq]
    exact congrArg (fun r => (List.range 15).map (charAt r)) (List.getD_eq_getElem _ _ hi)
  rw [hget]
  refine ⟨?_, cString_map_charAt h0 hshort⟩
  rw [map_charAt_range hshort]
  exact List.mem_append_right _ List.mem_cons_self

/-- The rows behind the table are zeros. -/
theorem Holds.row_behind (h : Holds a cmd) {i : ℕ} (hi : cmd.rows.length ≤ i) :
    ∀ b ∈ a.row i, b = 0 := by
  intro b hb
  rw [h.row_eq, List.getD_eq_default _ _ hi] at hb
  obtain ⟨j, -, rfl⟩ := List.mem_map.mp hb
  exact charAt_of_le (Nat.zero_le j)

/-- An array that holds rows that fit is exact when these are the rows of the line. -/
theorem Holds.tokensExact_iff {emptyParts : Bool} (h : Holds a cmd)
    (hrows : ∀ r ∈ cmd.rows, 0 ∉ r ∧ r.length < 15)
    (hlength : cmd.cmdLength = (words isSpace line).length - 1) :
    TokensExact emptyParts line a ↔ cmd.rows = tokenRows emptyParts line := by
  have hrow : ∀ i (hi : i < cmd.rows.length),
      0 ∈ a.row i ∧ cString (a.row i) = cmd.rows[i] := by
    intro i hi
    obtain ⟨h0, hshort⟩ := hrows _ (List.getElem_mem hi)
    exact h.row_exact hi h0 hshort
  constructor
  · intro hexact
    refine List.ext_getElem (h.neff.symm.trans hexact.neff) fun i hi hi' => ?_
    exact (hrow i hi).2.symm.trans (hexact.rows i hi').2
  · intro heq
    refine ⟨h.inside, heq ▸ h.neff, h.cmdLength.trans hlength, ?_, ?_⟩
    · rw [← heq]
      exact hrow
    · exact fun i hi _ => h.row_behind (h.neff ▸ hi)

/-- **The tokenizer is exact** as long as every component and the number of rows fit the array
    and the slashes stand where it skips none that counts. -/
theorem tokens_exact_iff (emptyParts : Bool) (line : List UInt8) (h0 : 0 ∉ line)
    (h : Trimmed isSpace line) :
    ∃ cmd, storeTokens line = some cmd ∧
      (TokensExact emptyParts line cmd ↔
        (∀ r ∈ tokenRows emptyParts line, r.length < 15) ∧
          (tokenRows emptyParts line).length ≤ 40 ∧ SlashesFit emptyParts (paths line)) := by
  obtain ⟨a, hstore, hsim⟩ := storeLoop_simulates (Nat.le_refl line.length) zeroed_holds
  refine ⟨a, hstore, ?_⟩
  have hline : tokenLoop line.length line TokenTable.empty
      = TokenTable.empty.extend (swallowed [space] false (paths line))
          ((words isSpace line).length - 1) := tokens_line h false (Nat.zero_le 40)
  have hzero : TokenTable.empty.rows.length + (swallowed [space] false (paths line)).length
      = (swallowed [space] false (paths line)).length := Nat.zero_add _
  rw [hline, TokenTable.extend, hzero] at hsim
  rw [← swallowed_eq_tokenRows_iff emptyParts h]
  by_cases hfits : (swallowed [space] false (paths line)).length ≤ 40 ∧
      ∀ r ∈ swallowed [space] false (paths line), r.length < 15
  · rw [if_pos hfits] at hsim
    rw [Holds.tokensExact_iff hsim
      (fun r hr => ⟨row_noNul h h0 hr, hfits.2 r hr⟩) (Nat.zero_add _)]
    constructor
    · intro heq
      have heq : swallowed [space] false (paths line) = tokenRows emptyParts line := heq
      rw [← heq]
      exact ⟨hfits.2, hfits.1, rfl⟩
    · exact fun hall => hall.2.2
  · -- a store outside the array is left in the trace
    rw [if_neg hfits] at hsim
    obtain ⟨s, hs, hout⟩ := hsim
    constructor
    · exact fun hexact => absurd (hexact.inside s hs) hout
    · rintro ⟨hshort, hmany, heq⟩
      rw [← heq] at hshort hmany
      exact absurd ⟨hmany, hshort⟩ hfits

/-- `cp a b/c`. -/
theorem tokens_exact_cp : ∃ cmd, storeTokens (text "cp a b/c") = some cmd ∧
    (TokensExact true (text "cp a b/c") cmd ↔
      (∀ r ∈ tokenRows true (text "cp a b/c"), r.length < 15) ∧
        (tokenRows true (text "cp a b/c")).length ≤ 40 ∧
        SlashesFit true (paths (text "cp a b/c"))) :=
  tokens_exact_iff true (text "cp a b/c") (by decide) (by decide)

/-- `cd` of a name of 15 characters, on either reading. -/
theorem longName_splitsWrong :
    (0 ∉ text "cd abcdefghijklmno" ∧ Trimmed isSpace (text "cd abcdefghijklmno")) ∧
      ∀ emptyParts : Bool, ∃ cmd, storeTokens (text "cd abcdefghijklmno") = some cmd ∧
        ¬ TokensExact emptyParts (text "cd abcdefghijklmno") cmd := by
  refine ⟨⟨by decide, by decide⟩, fun emptyParts => ?_⟩
  refine ⟨_, rfl, fun hexact => ?_⟩
  exact absurd (hexact.inside (2, 15) (by decide)) (by decide)

end OsyShell
