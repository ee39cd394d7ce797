import Osyikkk.TokenProofs

/-!
# File names in a token

`parse_file_cmd` reads all 12 bytes of a token, also those behind its NUL: the bytes before the
first dot go to the name and the bytes behind it, other than dots, to the extension. Each limit
is tested at one index only and only for a byte that is not NUL. A token padded with zeros
passes both tests and runs over the ends of the two arrays (`parsesExactly_iff`).
-/

namespace OsyShell

/-! ## The parts of a token -/

/-- The bytes that the loop reads. -/
def tokenBytes (file : ℕ → UInt8) (idx n : ℕ) : List UInt8 := (List.range' idx n).map file

/-- The bytes before the first dot. -/
def nameBytes (bytes : List UInt8) : List UInt8 := bytes.takeWhile (· ≠ dot)

/-- The bytes behind the first dot, without the dots. -/
def extBytes (bytes : List UInt8) : List UInt8 :=
  (bytes.dropWhile (· ≠ dot)).filter (· ≠ dot)

/-- What is stored of the bytes of a part: all of them, or up to the limit if the byte there is
    not NUL. -/
def stored (limit : ℕ) (bytes : List UInt8) : List UInt8 :=
  if charAt bytes limit ≠ 0 then bytes.take limit else bytes

/-- The name of a file as one types it. -/
def fileName (name ext : List UInt8) : List UInt8 :=
  if ext = [] then name else name ++ dot :: ext

/-- The string in a token. -/
def tokenString (file : ℕ → UInt8) : List UInt8 := cString (tokenBytes file 0 12)

/-- The string before its first dot, and behind it. -/
def namePart (s : List UInt8) : List UInt8 := s.takeWhile (· ≠ dot)
def extPart (s : List UInt8) : List UInt8 := (s.dropWhile (· ≠ dot)).tail

/-- A name or an extension of a file. -/
structure IsPart (limit : ℕ) (part : List UInt8) : Prop where
  length : part.length ≤ limit
  noDot : dot ∉ part
  noNul : 0 ∉ part

instance (limit : ℕ) (part : List UInt8) : Decidable (IsPart limit part) :=
  decidable_of_iff (part.length ≤ limit ∧ dot ∉ part ∧ 0 ∉ part)
    ⟨fun h => ⟨h.1, h.2.1, h.2.2⟩, fun h => ⟨h.length, h.noDot, h.noNul⟩⟩

/-- The call stores inside its two arrays and leaves a NUL in both, it yields the name and the
    extension that the token spells, and it reports a part that is too long. -/
structure ParsesExactly (file : ℕ → UInt8) : Prop where
  insideName : ∀ i ∈ (parseStores file 12 0 false 0 0).1, i < 9
  insideExt : ∀ i ∈ (parseStores file 12 0 false 0 0).2, i < 4
  terminated : 0 ∈ (parseFileCmd file).name ∧ 0 ∈ (parseFileCmd file).ext
  exact : ∀ name ext, IsPart 8 name → IsPart 3 ext → name ≠ [] →
    tokenString file = fileName name ext →
    cString (parseFileCmd file).name = name ∧ cString (parseFileCmd file).ext = ext
  reported : 8 < (namePart (tokenString file)).length ∨ 3 < (extPart (tokenString file)).length →
    (parseFileCmd file).nameTooLong = true ∨ (parseFileCmd file).extTooLong = true

/-- Both parts of a token and the bytes behind its NUL fit the loop: the ninth byte before the
    first dot is there and not NUL; or there are at most nine of them, the bytes behind the dot
    are at most four or the fifth is not NUL, one of the first four is missing or NUL, the first
    of them if there is a name without a dot, and an extension of more than three characters
    has a fifth byte behind it that is not NUL. -/
def FitsParser (file : ℕ → UInt8) : Prop :=
  charAt (nameBytes (tokenBytes file 0 12)) 8 ≠ 0 ∨
    ((nameBytes (tokenBytes file 0 12)).length ≤ 9 ∧
      ((extBytes (tokenBytes file 0 12)).length ≤ 4 ∨
        charAt (extBytes (tokenBytes file 0 12)) 4 ≠ 0) ∧
      0 ∈ (List.range 4).map (charAt (extBytes (tokenBytes file 0 12))) ∧
      (0 ∈ nameBytes (tokenBytes file 0 12) → tokenString file ≠ [] →
        charAt (extBytes (tokenBytes file 0 12)) 0 = 0) ∧
      (3 < (extPart (tokenString file)).length →
        charAt (extBytes (tokenBytes file 0 12)) 4 ≠ 0))

variable {file : ℕ → UInt8} {bytes pre : List UInt8} {b : UInt8} {n idx limit : ℕ}

/-! ## The loop -/

theorem charAt_append_left {row rest : List UInt8} {j : ℕ} (h : j < row.length) :
    charAt (row ++ rest) j = charAt row j := List.getD_append _ _ _ _ h

theorem charAt_append_length (row rest : List UInt8) :
    charAt (row ++ b :: rest) row.length = b := by
  rw [charAt, List.getD_append_right _ _ _ _ (Nat.le_refl _), Nat.sub_self, List.getD_cons_zero]

theorem update_charAt (row : List UInt8) (b : UInt8) :
    Function.update (charAt row) row.length b = charAt (row ++ [b]) := by
  funext j
  by_cases hj : j = row.length
  · rw [hj, Function.update_self, charAt_append_length]
  · rw [Function.update_of_ne hj]
    rcases Nat.lt_or_gt_of_ne hj with hlt | hgt
    · rw [charAt_append_left hlt]
    · rw [charAt_of_le (Nat.le_of_lt hgt), charAt_of_le]
      rw [List.length_append, List.length_singleton]
      exact hgt

theorem stored_eq_self (h : charAt bytes limit = 0) : stored limit bytes = bytes :=
  if_neg (not_not.mpr h)

/-- The byte at the limit stops the loop. -/
theorem stored_eq_pre (hpre : pre.length = limit) (hb : b ≠ 0) (rest : List UInt8) :
    stored limit (pre ++ b :: rest) = pre := by
  rw [stored, if_pos, ← hpre, List.take_left]
  rw [← hpre, charAt_append_length]
  exact hb

/-- A byte that does not stop the loop leaves no character at the limit. -/
theorem charAt_limit_snoc (hpre : charAt pre limit = 0) (hb : ¬ (pre.length = limit ∧ b ≠ 0)) :
    charAt (pre ++ [b]) limit = 0 := by
  rcases Nat.lt_trichotomy limit pre.length with hlt | heq | hgt
  · rw [charAt_append_left hlt, hpre]
  · rw [heq, charAt_append_length]
    by_contra hne
    exact hb ⟨heq.symm, hne⟩
  · refine charAt_of_le ?_
    rw [List.length_append, List.length_singleton]
    exact hgt

theorem tokenBytes_succ (file : ℕ → UInt8) (idx n : ℕ) :
    tokenBytes file idx (n + 1) = file idx :: tokenBytes file (idx + 1) n := rfl

/-- What the loop stores behind the first dot. -/
theorem parseLoop_extBytes (file : ℕ → UInt8) (n idx idxName : ℕ) (pre : List UInt8)
    (p : ParsedFile) (hp : p.targetExt = charAt pre) (hpre : charAt pre 4 = 0) :
    parseLoop file n idx true idxName pre.length p = { p with
      targetExt := charAt (stored 4 (pre ++ (tokenBytes file idx n).filter (· ≠ dot)))
      extTooLong := p.extTooLong ||
        decide (charAt (pre ++ (tokenBytes file idx n).filter (· ≠ dot)) 4 ≠ 0) } := by
  induction n generalizing idx pre p with
  | zero =>
      have hnil : pre ++ (tokenBytes file idx 0).filter (· ≠ dot) = pre := List.append_nil pre
      rw [hnil, stored_eq_self hpre, hpre, ← hp]
      simp [parseLoop]
  | succ n ih =>
      rw [parseLoop, tokenBytes_succ]
      by_cases hdot : file idx = dot
      · rw [if_pos hdot, List.filter_cons_of_neg (by simpa using hdot), ih _ _ _ hp hpre]
      · rw [if_neg hdot, if_neg (by decide), List.filter_cons_of_pos (by simpa using hdot)]
        by_cases hstop : pre.length = 4 ∧ file idx ≠ 0
        · have hat : charAt (pre ++ file idx ::
              (tokenBytes file (idx + 1) n).filter (· ≠ dot)) 4 ≠ 0 := by
            rw [← hstop.1, charAt_append_length]
            exact hstop.2
          rw [if_pos hstop, stored_eq_pre hstop.1 hstop.2, ← hp, decide_eq_true hat,
            Bool.or_true]
        · have hlen : pre.length + 1 = (pre ++ [file idx]).length := by simp
          rw [if_neg hstop, hlen, ih _ (pre ++ [file idx]) _ (by rw [← update_charAt, hp])
            (charAt_limit_snoc hpre hstop), List.append_assoc]
          rfl

/-- What the loop stores before and behind the first dot. -/
theorem parseLoop_bytes (file : ℕ → UInt8) (n idx : ℕ) (pre : List UInt8) (p : ParsedFile)
    (hp : p.targetName = charAt pre) (hpre : charAt pre 8 = 0)
    (hext : p.targetExt = charAt [] ∧ p.extTooLong = false) :
    parseLoop file n idx false pre.length 0 p =
      if charAt (pre ++ nameBytes (tokenBytes file idx n)) 8 ≠ 0 then
        { p with
          targetName := charAt (stored 8 (pre ++ nameBytes (tokenBytes file idx n)))
          nameTooLong := true }
      else
        { p with
          targetName := charAt (pre ++ nameBytes (tokenBytes file idx n))
          targetExt := charAt (stored 4 (extBytes (tokenBytes file idx n)))
          extTooLong := decide (charAt (extBytes (tokenBytes file idx n)) 4 ≠ 0) } := by
  induction n generalizing idx pre p with
  | zero =>
      have hnil : pre ++ nameBytes (tokenBytes file idx 0) = pre := List.append_nil pre
      have hno : extBytes (tokenBytes file idx 0) = [] := rfl
      have hshort : decide (charAt [] 4 ≠ 0) = p.extTooLong := by
        rw [hext.2]
        decide
      rw [hnil, hno, if_neg (not_not.mpr hpre), ← hp, stored_eq_self (charAt_of_le (by decide)),
        hshort, ← hext.1]
      rfl
  | succ n ih =>
      rw [parseLoop, tokenBytes_succ, nameBytes, extBytes]
      by_cases hdot : file idx = dot
      · have hname : (file idx :: tokenBytes file (idx + 1) n).takeWhile (· ≠ dot) = [] :=
          List.takeWhile_cons_of_neg (by simpa using hdot)
        have hrest : ((file idx :: tokenBytes file (idx + 1) n).dropWhile (· ≠ dot)).filter
            (· ≠ dot) = (tokenBytes file (idx + 1) n).filter (· ≠ dot) := by
          rw [List.dropWhile_cons_of_neg (by simpa using hdot),
            List.filter_cons_of_neg (by simpa using hdot)]
        -- what follows the first dot goes to the extension, later dots left out
        have hloop := parseLoop_extBytes file n (idx + 1) pre.length [] p hext.1
          (charAt_of_le (by decide))
        rw [if_pos hdot, hname, hrest, List.append_nil, if_neg (not_not.mpr hpre), ← hp]
        rw [hext.2, Bool.false_or, List.nil_append] at hloop
        exact hloop
      · have hname : (file idx :: tokenBytes file (idx + 1) n).takeWhile (· ≠ dot)
            = file idx :: nameBytes (tokenBytes file (idx + 1) n) :=
          List.takeWhile_cons_of_pos (by simpa using hdot)
        have hrest : ((file idx :: tokenBytes file (idx + 1) n).dropWhile (· ≠ dot)).filter
            (· ≠ dot) = extBytes (tokenBytes file (idx + 1) n) := by
          rw [List.dropWhile_cons_of_pos (by simpa using hdot), extBytes]
        rw [if_neg hdot, if_pos rfl, hname, hrest]
        -- a ninth character ends the loop, a NUL does not
        by_cases hstop : pre.length = 8 ∧ file idx ≠ 0
        · have hat : charAt (pre ++ file idx :: nameBytes (tokenBytes file (idx + 1) n)) 8 ≠ 0 := by
            rw [← hstop.1, charAt_append_length]
            exact hstop.2
          rw [if_pos hstop, if_pos hat, stored_eq_pre hstop.1 hstop.2, ← hp]
        · have hlen : pre.length + 1 = (pre ++ [file idx]).length := by simp
          rw [if_neg hstop, hlen, ih _ (pre ++ [file idx])
            { p with targetName := Function.update p.targetName pre.length (file idx) }
            (by rw [← update_charAt, hp]) (charAt_limit_snoc hpre hstop) hext, List.append_assoc]
          rfl

/-- The indices of the stores behind the first dot. -/
theorem parseStores_extBytes (file : ℕ → UInt8) (n idx idxName : ℕ) (pre : List UInt8)
    (hpre : charAt pre 4 = 0) :
    (parseStores file n idx true idxName pre.length).1 = [] ∧
      List.range pre.length ++ (parseStores file n idx true idxName pre.length).2
        = List.range (stored 4 (pre ++ (tokenBytes file idx n).filter (· ≠ dot))).length := by
  induction n generalizing idx pre with
  | zero =>
      have hnil : pre ++ (tokenBytes file idx 0).filter (· ≠ dot) = pre := List.append_nil pre
      rw [hnil, stored_eq_self hpre]
      exact ⟨rfl, List.append_nil _⟩
  | succ n ih =>
      rw [parseStores, tokenBytes_succ]
      by_cases hdot : file idx = dot
      · rw [if_pos hdot, List.filter_cons_of_neg (by simpa using hdot)]
        exact ih _ _ hpre
      · rw [if_neg hdot, if_neg (by decide), List.filter_cons_of_pos (by simpa using hdot)]
        by_cases hstop : pre.length = 4 ∧ file idx ≠ 0
        · rw [if_pos hstop, stored_eq_pre hstop.1 hstop.2]
          exact ⟨rfl, List.append_nil _⟩
        · obtain ⟨hnames, hexts⟩ := ih (idx + 1) (pre ++ [file idx]) (charAt_limit_snoc hpre hstop)
          have hlen : (pre ++ [file idx]).length = pre.length + 1 := by simp
          rw [hlen, List.range_succ, List.append_assoc, List.append_assoc] at hexts
          rw [hlen] at hnames
          rw [if_neg hstop]
          exact ⟨hnames, hexts⟩

/-- The indices of all stores. -/
theorem parseStores_bytes (file : ℕ → UInt8) (n idx : ℕ) (pre : List UInt8)
    (hpre : charAt pre 8 = 0) :
    List.range pre.length ++ (parseStores file n idx false pre.length 0).1
        = List.range (stored 8 (pre ++ nameBytes (tokenBytes file idx n))).length ∧
      (parseStores file n idx false pre.length 0).2
        = if charAt (pre ++ nameBytes (tokenBytes file idx n)) 8 ≠ 0 then []
          else List.range (stored 4 (extBytes (tokenBytes file idx n))).length := by
  induction n generalizing idx pre with
  | zero =>
      have hnil : pre ++ nameBytes (tokenBytes file idx 0) = pre := List.append_nil pre
      rw [hnil, stored_eq_self hpre, if_neg (not_not.mpr hpre)]
      exact ⟨List.append_nil _, rfl⟩
  | succ n ih =>
      rw [parseStores, tokenBytes_succ, nameBytes, extBytes]
      by_cases hdot : file idx = dot
      · have hexts := parseStores_extBytes file n (idx + 1) pre.length []
          (charAt_of_le (by decide))
        simp only [List.length_nil, List.range_zero, List.nil_append] at hexts
        rw [if_pos hdot, List.takeWhile_cons_of_neg (by simpa using hdot), List.append_nil,
          stored_eq_self hpre, if_neg (not_not.mpr hpre),
          List.dropWhile_cons_of_neg (by simpa using hdot),
          List.filter_cons_of_neg (by simpa using hdot)]
        exact ⟨by rw [hexts.1, List.append_nil], hexts.2⟩
      · rw [if_neg hdot, if_pos rfl, List.takeWhile_cons_of_pos (by simpa using hdot),
          List.dropWhile_cons_of_pos (by simpa using hdot)]
        by_cases hstop : pre.length = 8 ∧ file idx ≠ 0
        · have hat : charAt (pre ++ file idx ::
              (tokenBytes file (idx + 1) n).takeWhile (· ≠ dot)) 8 ≠ 0 := by
            rw [← hstop.1, charAt_append_length]
            exact hstop.2
          rw [if_pos hstop, if_pos hat, stored_eq_pre hstop.1 hstop.2]
          exact ⟨List.append_nil _, rfl⟩
        · obtain ⟨hnames, hexts⟩ := ih (idx + 1) (pre ++ [file idx]) (charAt_limit_snoc hpre hstop)
          have hlen : (pre ++ [file idx]).length = pre.length + 1 := by simp
          rw [hlen, List.append_assoc] at hnames hexts
          rw [List.range_succ, List.append_assoc] at hnames
          rw [if_neg hstop]
          exact ⟨hnames, hexts⟩

/-! ## The call -/

/-- The bytes of the name and of the extension. -/
abbrev tokenName (file : ℕ → UInt8) : List UInt8 := nameBytes (tokenBytes file 0 12)
abbrev tokenExt (file : ℕ → UInt8) : List UInt8 := extBytes (tokenBytes file 0 12)

theorem charAt_nil : charAt [] = fun _ => 0 := funext fun j => charAt_of_le (Nat.zero_le j)

theorem parseFileCmd_eq (file : ℕ → UInt8) : parseFileCmd file =
    if charAt (tokenName file) 8 ≠ 0 then
      { targetName := charAt ((tokenName file).take 8)
        targetExt := charAt []
        nameTooLong := true
        extTooLong := false }
    else
      { targetName := charAt (tokenName file)
        targetExt := charAt (stored 4 (tokenExt file))
        nameTooLong := false
        extTooLong := decide (charAt (tokenExt file) 4 ≠ 0) } := by
  have hloop := parseLoop_bytes file 12 0 []
    { targetName := charAt [], targetExt := charAt [], nameTooLong := false, extTooLong := false }
    rfl (charAt_of_le (by decide)) ⟨rfl, rfl⟩
  rw [parseFileCmd, ← charAt_nil]
  refine hloop.trans ?_
  rw [List.nil_append]
  by_cases hlong : charAt (tokenName file) 8 ≠ 0
  · rw [if_pos hlong, if_pos hlong, stored, if_pos hlong]
  · rw [if_neg hlong, if_neg hlong]

theorem parseStores_eq (file : ℕ → UInt8) : parseStores file 12 0 false 0 0 =
    (List.range (stored 8 (tokenName file)).length,
      if charAt (tokenName file) 8 ≠ 0 then []
      else List.range (stored 4 (tokenExt file)).length) := by
  have hloop := parseStores_bytes file 12 0 [] (charAt_of_le (by decide))
  simp only [List.nil_append, List.length_nil, List.range_zero] at hloop
  exact Prod.ext hloop.1 hloop.2

/-! ## Strings -/

theorem cString_take (s : List UInt8) (k : ℕ) : cString (s.take k) = (cString s).take k := by
  induction s generalizing k with
  | nil => simp
  | cons b s ih =>
      cases k with
      | zero => simp
      | succ k =>
          rw [List.take_succ_cons, cString_cons, cString_cons, ih]
          split
          · rfl
          · rfl

/-- An array of `k` bytes that holds a row and zeros. -/
theorem map_charAt_eq (row : List UInt8) (k : ℕ) :
    (List.range k).map (charAt row) = row.take k ++ List.replicate (k - row.length) 0 := by
  rcases Nat.lt_or_ge row.length k with hlt | hge
  · have hzeros : List.replicate (k - row.length) (0 : UInt8)
        = 0 :: List.replicate (k - 1 - row.length) 0 := by
      rw [← List.replicate_succ]
      exact congrArg (fun n => List.replicate n 0) (by omega)
    rw [map_charAt_range hlt, List.take_of_length_le (Nat.le_of_lt hlt), hzeros]
  · rw [Nat.sub_eq_zero_of_le hge, List.replicate_zero, List.append_nil]
    refine List.ext_getElem (by simpa using hge) fun i hi hi' => ?_
    have hlt : i < row.length := by
      rw [List.length_map, List.length_range] at hi
      omega
    rw [List.getElem_map, List.getElem_range, charAt_of_lt hlt, List.getElem_take]

/-- The string of the array, and whether it has a NUL. -/
theorem cString_array (row : List UInt8) (k : ℕ) :
    cString ((List.range k).map (charAt row)) = (cString row).take k := by
  have hzeros : cString (List.replicate (k - row.length) 0) = [] := by
    cases k - row.length with
    | zero => rfl
    | succ n => rw [List.replicate_succ, cString_cons, if_pos rfl]
  rw [map_charAt_eq, cString_append, hzeros, List.append_nil, ← cString_take]
  split
  · rfl
  · next h0 => exact (cString_eq_self h0).symm

theorem zero_mem_array {row : List UInt8} {k : ℕ} :
    0 ∈ (List.range k).map (charAt row) ↔ row.length < k ∨ 0 ∈ row.take k := by
  rw [map_charAt_eq, List.mem_append, List.mem_replicate, or_comm, ← Nat.pos_iff_ne_zero,
    Nat.sub_pos_iff_lt]
  simp only [and_true]

/-- Dots in the bytes behind the string do not matter to it. -/
theorem cString_filter {s : List UInt8} (h : dot ∉ cString s) :
    cString (s.filter (· ≠ dot)) = cString s := by
  induction s with
  | nil => rfl
  | cons b s ih =>
      rw [cString_cons] at h ⊢
      by_cases hb : b = 0
      · rw [if_pos hb, List.filter_cons_of_pos (by rw [hb]; decide), cString_cons, if_pos hb]
      · rw [if_neg hb, List.mem_cons, not_or] at h
        rw [if_neg hb, List.filter_cons_of_pos (by simpa using fun hd => h.1 hd.symm),
          cString_cons, if_neg hb, ih h.2]

/-! ## The string of a token and its bytes -/

theorem namePart_cString (bytes : List UInt8) :
    namePart (cString bytes) = cString (nameBytes bytes) := by
  rw [namePart, cString, cString, nameBytes, List.takeWhile_takeWhile, List.takeWhile_takeWhile]
  exact congrArg (fun p => bytes.takeWhile p) (funext fun b => by simp only [and_comm])

theorem nameBytes_noDot (bytes : List UInt8) : dot ∉ nameBytes bytes := by
  intro h
  have hne := List.mem_takeWhile_imp h
  exact absurd hne (by decide)

/-- The bytes behind the name are missing or begin with the dot. -/
theorem dropWhile_dot (bytes : List UInt8) : bytes.dropWhile (· ≠ dot) = [] ∨
    ∃ rest, bytes.dropWhile (· ≠ dot) = dot :: rest := by
  induction bytes with
  | nil => exact Or.inl rfl
  | cons b bytes ih =>
      by_cases hb : b = dot
      · exact Or.inr ⟨bytes, by rw [List.dropWhile_cons_of_neg (by simpa using hb), hb]⟩
      · rw [List.dropWhile_cons_of_pos (by simpa using hb)]
        exact ih

theorem extBytes_eq (bytes : List UInt8) :
    extBytes bytes = ((bytes.dropWhile (· ≠ dot)).tail).filter (· ≠ dot) := by
  rw [extBytes]
  rcases dropWhile_dot bytes with hnil | ⟨rest, hrest⟩
  · rw [hnil]
    rfl
  · rw [hrest, List.filter_cons_of_neg (by decide)]
    rfl

/-- The string is the name's when a NUL stands before the first dot, and else goes on. -/
theorem cString_bytes (bytes : List UInt8) : cString bytes =
    if 0 ∈ nameBytes bytes then cString (nameBytes bytes)
    else nameBytes bytes ++ cString (bytes.dropWhile (· ≠ dot)) := by
  rw [← cString_append, nameBytes, List.takeWhile_append_dropWhile]

theorem extPart_cString (bytes : List UInt8) : extPart (cString bytes) =
    if 0 ∈ nameBytes bytes then [] else cString (bytes.dropWhile (· ≠ dot)).tail := by
  rw [cString_bytes, extPart]
  split
  · have hno : ∀ b ∈ cString (nameBytes bytes), decide (b ≠ dot) = true := by
      intro b hb
      refine decide_eq_true ?_
      rintro rfl
      exact nameBytes_noDot bytes ((List.takeWhile_sublist _).subset hb)
    rw [List.dropWhile_eq_nil_iff.mpr hno]
    rfl
  · have hname : ∀ b ∈ nameBytes bytes, decide (b ≠ dot) = true := by
      intro b hb
      refine decide_eq_true ?_
      rintro rfl
      exact nameBytes_noDot bytes hb
    rw [List.dropWhile_append_of_pos hname]
    rcases dropWhile_dot bytes with hnil | ⟨rest, hrest⟩
    · rw [hnil]
      rfl
    · rw [hrest, cString_cons, if_neg (by decide), List.dropWhile_cons_of_neg (by decide)]
      rfl

theorem stored_take (limit : ℕ) (bytes : List UInt8) :
    (stored limit bytes).take limit = bytes.take limit := by
  rw [stored]
  split
  · rw [List.take_take, Nat.min_self]
  · rfl

theorem zero_mem_stored (limit : ℕ) (bytes : List UInt8) :
    0 ∈ (List.range limit).map (charAt (stored limit bytes)) ↔
      0 ∈ (List.range limit).map (charAt bytes) := by
  have hsame : ∀ j ∈ List.range limit, charAt (stored limit bytes) j = charAt bytes j := by
    intro j hj
    rw [stored]
    split
    · rw [charAt, charAt, List.getD_eq_getElem?_getD, List.getD_eq_getElem?_getD,
        List.getElem?_take_of_lt (List.mem_range.mp hj)]
    · rfl
  rw [List.map_congr_left hsame]

/-! ## The call and the token -/

section Call

variable (file : ℕ → UInt8)

theorem parsed_name : cString (parseFileCmd file).name
    = (cString (tokenName file)).take (if charAt (tokenName file) 8 ≠ 0 then 8 else 9) := by
  rw [parseFileCmd_eq]
  split
  · show cString ((List.range 9).map (charAt ((tokenName file).take 8))) = _
    rw [cString_array, cString_take, List.take_take]
    rfl
  · exact cString_array _ _

theorem parsed_ext : cString (parseFileCmd file).ext
    = if charAt (tokenName file) 8 ≠ 0 then [] else (cString (tokenExt file)).take 4 := by
  rw [parseFileCmd_eq]
  split
  · show cString ((List.range 4).map (charAt [])) = []
    rw [cString_array]
    rfl
  · show cString ((List.range 4).map (charAt (stored 4 (tokenExt file)))) = _
    rw [cString_array, ← cString_take, stored_take, cString_take]

theorem cString_take_eq_nil {s : List UInt8} : (cString s).take 4 = [] ↔ charAt s 0 = 0 := by
  cases s with
  | nil => exact iff_of_true rfl rfl
  | cons b s =>
      rw [cString_cons]
      by_cases hb : b = 0
      · rw [if_pos hb]
        exact iff_of_true rfl hb
      · rw [if_neg hb]
        exact iff_of_false (List.cons_ne_nil _ _) hb

/-- A string has its characters in front of the NUL. -/
theorem charAt_cString {s : List UInt8} {j : ℕ} (h : j < (cString s).length) :
    charAt s j ≠ 0 := by
  have hsplit : cString s ++ s.dropWhile (· ≠ 0) = s := List.takeWhile_append_dropWhile
  have hmem := List.mem_takeWhile_imp (List.getElem_mem h)
  rw [← hsplit, charAt_append_left h, charAt_of_lt h]
  exact of_decide_eq_true hmem

theorem tokenBytes_length : (tokenBytes file 0 12).length = 12 := by
  rw [tokenBytes, List.length_map, List.length_range']

/-- Before the first dot there is a NUL, or more than eight bytes end the call. -/
theorem tokenExt_of_long (h : ¬ charAt (tokenName file) 8 ≠ 0) (h0 : 0 ∉ tokenName file) :
    (tokenBytes file 0 12).dropWhile (· ≠ dot) ≠ [] := by
  intro hnil
  have hall : tokenName file = tokenBytes file 0 12 := by
    have hsplit := List.takeWhile_append_dropWhile (p := (· ≠ dot)) (l := tokenBytes file 0 12)
    rw [hnil, List.append_nil] at hsplit
    exact hsplit
  have hlen : 8 < (tokenName file).length := by
    rw [hall, tokenBytes_length]
    decide
  refine h0 ?_
  rw [← not_not.mp h, charAt_of_lt hlen]
  exact List.getElem_mem hlen

/-- A NUL within nine bytes ends a name. -/
theorem tokenName_isPart (h0 : 0 ∈ tokenName file) (hnine : (tokenName file).length ≤ 9) :
    IsPart 8 (cString (tokenName file)) where
  length := by
    obtain ⟨l, r, hsplit, hl⟩ := List.eq_append_cons_of_mem h0
    rw [hsplit, cString_append_zero hl]
    rw [hsplit, List.length_append, List.length_cons] at hnine
    omega
  noDot hdot := nameBytes_noDot _ ((List.takeWhile_sublist _).subset hdot)
  noNul hnul := absurd (List.mem_takeWhile_imp hnul) (by decide)

/-- What a token spells is what its bytes hold before the NULs. -/
theorem spelled {name ext : List UInt8} (hname : IsPart 8 name) (hext : IsPart 3 ext)
    (h : tokenString file = fileName name ext) :
    cString (tokenName file) = name ∧
      (ext ≠ [] → 0 ∉ tokenName file ∧ cString (tokenExt file) = ext) ∧
      (ext = [] → 0 ∉ tokenName file → charAt (tokenName file) 8 ≠ 0) := by
  have hdots : ∀ b ∈ name, decide (b ≠ dot) = true := by
    intro b hb
    refine decide_eq_true ?_
    rintro rfl
    exact hname.noDot hb
  have hpart := namePart_cString (tokenBytes file 0 12)
  have hrest := extPart_cString (tokenBytes file 0 12)
  rw [show cString (tokenBytes file 0 12) = fileName name ext from h] at hpart hrest
  by_cases he : ext = []
  · rw [fileName, if_pos he] at hpart hrest h
    refine ⟨?_, fun hne => absurd he hne, fun _ h0 => ?_⟩
    · rw [← hpart, namePart, List.takeWhile_eq_self_iff.mpr hdots]
    · by_contra hshort
      obtain ⟨rest, hdrop⟩ := (dropWhile_dot _).resolve_left
        (tokenExt_of_long file (not_not.mpr hshort) h0)
      rw [tokenString, cString_bytes, if_neg h0, hdrop, cString_cons, if_neg (by decide)] at h
      exact hname.noDot (h ▸ List.mem_append_right _ List.mem_cons_self)
  · rw [fileName, if_neg he] at hpart hrest h
    have hmem : dot ∈ cString (tokenBytes file 0 12) := by
      rw [show cString (tokenBytes file 0 12) = _ from h]
      exact List.mem_append_right _ List.mem_cons_self
    have h0 : 0 ∉ tokenName file := by
      intro h0
      rw [cString_bytes, if_pos h0] at hmem
      exact nameBytes_noDot _ ((List.takeWhile_sublist _).subset hmem)
    rw [if_neg h0, extPart, List.dropWhile_append_of_pos hdots,
      List.dropWhile_cons_of_neg (by decide), List.tail_cons] at hrest
    refine ⟨?_, fun _ => ⟨h0, ?_⟩, fun hno => absurd hno he⟩
    · rw [← hpart, namePart, List.takeWhile_append_of_pos hdots,
        List.takeWhile_cons_of_neg (by decide), List.append_nil]
    · rw [tokenExt, extBytes_eq, cString_filter (hrest ▸ hext.noDot), ← hrest]

/-! ## Long names -/

section Long

variable {file} (hlong : charAt (tokenName file) 8 ≠ 0)
include hlong

theorem parseFileCmd_long : parseFileCmd file =
    { targetName := charAt ((tokenName file).take 8)
      targetExt := charAt []
      nameTooLong := true
      extTooLong := false } := by
  rw [parseFileCmd_eq, if_pos hlong]

/-- The ninth byte of the name ends the call. -/
theorem parsesExactly_of_long : ParsesExactly file := by
  constructor
  case insideName =>
    intro i hi
    rw [parseStores_eq, List.mem_range, stored, if_pos hlong] at hi
    exact Nat.lt_of_lt_of_le hi ((List.length_take_le _ _).trans (by decide))
  case insideExt =>
    intro i hi
    rw [parseStores_eq, if_pos hlong] at hi
    exact absurd hi List.not_mem_nil
  case terminated =>
    rw [parseFileCmd_long hlong]
    show 0 ∈ (List.range 9).map (charAt ((tokenName file).take 8)) ∧
      0 ∈ (List.range 4).map (charAt [])
    refine ⟨zero_mem_array.mpr (Or.inl ?_), zero_mem_array.mpr (Or.inl (by decide))⟩
    exact Nat.lt_of_le_of_lt (List.length_take_le _ _) (by decide)
  case exact =>
    intro name ext hname hext _ hs
    obtain ⟨hn, he, -⟩ := spelled file hname hext hs
    rw [parsed_name, parsed_ext, if_pos hlong, if_pos hlong, hn]
    refine ⟨List.take_of_length_le hname.length, ?_⟩
    by_contra hne
    obtain ⟨h0, -⟩ := he fun h => hne h.symm
    rw [cString_eq_self h0] at hn
    exact hlong (charAt_of_le (hn ▸ hname.length))
  case reported =>
    intro _
    left
    rw [parseFileCmd_long hlong]

end Long

/-! ## Short names -/

section Short

variable {file} (hshort : charAt (tokenName file) 8 = 0)
include hshort

theorem parseFileCmd_short : parseFileCmd file =
    { targetName := charAt (tokenName file)
      targetExt := charAt (stored 4 (tokenExt file))
      nameTooLong := false
      extTooLong := decide (charAt (tokenExt file) 4 ≠ 0) } := by
  rw [parseFileCmd_eq, if_neg (not_not.mpr hshort)]

theorem parseStores_short : parseStores file 12 0 false 0 0 =
    (List.range (tokenName file).length, List.range (stored 4 (tokenExt file)).length) := by
  rw [parseStores_eq, if_neg (not_not.mpr hshort), stored_eq_self hshort]

theorem terminated_short : 0 ∈ (parseFileCmd file).name ∧
    (0 ∈ (parseFileCmd file).ext ↔ 0 ∈ (List.range 4).map (charAt (tokenExt file))) := by
  rw [parseFileCmd_short hshort]
  exact ⟨List.mem_map.mpr ⟨8, by decide, hshort⟩, zero_mem_stored 4 _⟩

/-- The part of an exact call that is seen in its stores. -/
theorem insideExt_iff : (∀ i ∈ (parseStores file 12 0 false 0 0).2, i < 4) ↔
    (tokenExt file).length ≤ 4 ∨ charAt (tokenExt file) 4 ≠ 0 := by
  rw [parseStores_short hshort]
  constructor
  · intro h
    by_contra hno
    obtain ⟨hmany, hfifth⟩ := not_or.mp hno
    have hmem : 4 ∈ List.range (stored 4 (tokenExt file)).length := by
      rw [List.mem_range, stored, if_neg hfifth]
      exact Nat.lt_of_not_le hmany
    exact absurd (h 4 hmem) (by decide)
  · intro h i hi
    rw [List.mem_range, stored] at hi
    split at hi
    · exact Nat.lt_of_lt_of_le hi (List.length_take_le _ _)
    · next hfew => exact Nat.lt_of_lt_of_le hi (h.resolve_right hfew)

theorem insideName_iff : (∀ i ∈ (parseStores file 12 0 false 0 0).1, i < 9) ↔
    (tokenName file).length ≤ 9 := by
  rw [parseStores_short hshort]
  constructor
  · intro h
    by_contra hno
    exact absurd (h 9 (List.mem_range.mpr (Nat.lt_of_not_le hno))) (by decide)
  · exact fun h i hi => Nat.lt_of_lt_of_le (List.mem_range.mp hi) h

theorem ParsesExactly.fits (h : ParsesExactly file) : FitsParser file := by
  have hnine := (insideName_iff hshort).mp h.insideName
  refine Or.inr ⟨hnine, (insideExt_iff hshort).mp h.insideExt,
    (terminated_short hshort).2.mp h.terminated.2, ?_, ?_⟩
  · -- the name alone is spelled, so no extension may be found
    intro h0 hne
    have hstring : tokenString file = cString (tokenName file) := by
      rw [tokenString, cString_bytes, if_pos h0]
    have hname := tokenName_isPart file h0 hnine
    have hspelled := (h.exact _ [] hname (by decide) (hstring ▸ hne)
      (by rw [hstring, fileName, if_pos rfl])).2
    rw [parsed_ext, if_neg (not_not.mpr hshort)] at hspelled
    exact cString_take_eq_nil.mp hspelled
  · intro hmany
    have hreport := h.reported (Or.inr hmany)
    rw [parseFileCmd_short hshort] at hreport
    exact of_decide_eq_true (hreport.resolve_left Bool.false_ne_true)

theorem FitsParser.parsesExactly (h : FitsParser file) : ParsesExactly file := by
  obtain ⟨hnine, hfour, hnul, hfirst, hfifth⟩ := h.resolve_left (not_not.mpr hshort)
  obtain ⟨hname0, hext0⟩ := terminated_short hshort
  constructor
  case insideName => exact (insideName_iff hshort).mpr hnine
  case insideExt => exact (insideExt_iff hshort).mpr hfour
  case terminated => exact ⟨hname0, hext0.mpr hnul⟩
  case exact =>
    intro name ext hname hext hne hs
    obtain ⟨hn, he, hnone⟩ := spelled file hname hext hs
    rw [parsed_name, parsed_ext, if_neg (not_not.mpr hshort), if_neg (not_not.mpr hshort), hn]
    refine ⟨List.take_of_length_le (hname.length.trans (by decide)), ?_⟩
    by_cases hempty : ext = []
    · have h0 : 0 ∈ tokenName file := by
        by_contra h0
        exact hnone hempty h0 hshort
      have hstring : tokenString file ≠ [] := by
        rw [hs, fileName, if_pos hempty]
        exact hne
      rw [hempty]
      exact cString_take_eq_nil.mpr (hfirst h0 hstring)
    · rw [(he hempty).2]
      exact List.take_of_length_le (hext.length.trans (by decide))
  case reported =>
    rintro (hmany | hmany)
    · -- a name that is too long has a ninth byte
      rw [tokenString, namePart_cString] at hmany
      exact absurd hshort (charAt_cString hmany)
    · right
      rw [parseFileCmd_short hshort]
      exact decide_eq_true (hfifth hmany)

end Short

end Call

/-- **The parser is exact** for a token exactly when its parts and the bytes behind its NUL fit
    the loop. -/
theorem parsesExactly_iff (file : ℕ → UInt8) : ParsesExactly file ↔ FitsParser file := by
  by_cases hlong : charAt (tokenName file) 8 ≠ 0
  · exact iff_of_true (parsesExactly_of_long hlong) (Or.inl hlong)
  · have hshort := not_not.mp hlong
    exact ⟨ParsesExactly.fits hshort, FitsParser.parsesExactly hshort⟩

/-- The token `a`, padded with zeros: `target_name[9]` to `target_name[11]` are written. -/
theorem paddedName_overruns : ¬ ParsesExactly (charAt (text "a")) :=
  fun h => absurd (h.insideName 11 (by decide)) (by decide)

end OsyShell
