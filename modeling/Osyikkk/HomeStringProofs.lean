import Osyikkk.ArrayStrings
import Osyikkk.SearchProofs
import Osyikkk.StackRangeProofs

/-!
# The array of the prompt

`print_home` puts the prompt together in `char home[256]` with `string_combine`, whose result
is its own first argument: the first loop writes every character over itself, and the second
one starts at the NUL. The text grows by up to nine bytes a level and nothing compares its
length with the array, so that it fits only up to some depth (`printHome_builds_iff`).
-/

namespace OsyPrompt

open OsyShell OsyFat32 OsyVolume PartialRun ArrayStrings

/-! ## The arrays -/

/-- The arrays of `print_home`, and the rows of `DIR_NAME_STACK`. -/
inductive HomeArray where
  | home
  | base
  | path
  | dirName (i : UInt8)
  deriving DecidableEq

def arraySize : HomeArray → ℕ
  | .home => 256
  | .base => 9
  | .path => 2
  | .dirName _ => 9

abbrev HomeMemory := HomeArray → ℕ → UInt8

/-- The arrays at the start of `print_home`; nothing has set `home`. -/
def frame (st : DirStack) (home : ℕ → UInt8) : HomeMemory
  | .home => home
  | .base => charAt (text "OSyikkk:")
  | .path => charAt (text "/")
  | .dirName i => fun j => if h : j < 9 then st.name i ⟨j, h⟩ else 0

/-- `string_combine`. A loop has read behind its array before it runs out of rounds. -/
def stringCombine (s1 s2 res : HomeArray) (mem : HomeMemory) : Option HomeMemory := do
  let (i, mem) ← copyString arraySize s1 res 0 (arraySize s1 + 1) 0 mem
  let (j, mem) ← copyString arraySize s2 res i (arraySize s2 + 1) 0 mem
  store arraySize res (i + j) 0 mem

/-- A round of the loop of `print_home`. -/
def homeRound (length : UInt8) (mem : HomeMemory) (i : ℕ) : Option HomeMemory :=
  if i = 0 then stringCombine .base .path .home mem
  else if i < length.toNat - 1 then do
    let mem ← stringCombine .home (.dirName (UInt8.ofNat i)) .home mem
    stringCombine .home .path .home mem
  else stringCombine .home (.dirName (UInt8.ofNat i)) .home mem

/-- The loop of `print_home`. -/
def homeLoop (st : DirStack) (home : ℕ → UInt8) : Option HomeMemory :=
  run (homeRound st.length) (frame st home) (List.range st.length.toNat)

/-! ## What it is to leave -/

/-- The names of the levels above the root. -/
def pathNames (st : DirStack) : List (List UInt8) :=
  (List.range' 1 (st.length.toNat - 1)).map fun i => cString (List.ofFn (st.name (UInt8.ofNat i)))

/-- `OSyikkk:/` and the names, joined by slashes. -/
def homeString (st : DirStack) : List UInt8 :=
  text "OSyikkk:/" ++ (text "/").intercalate (pathNames st)

/-- The loop ends without an access outside an array, and `home` holds the text, whatever it
    held before. -/
def BuildsHome (st : DirStack) : Prop :=
  ∀ home, ∃ mem, homeLoop st home = some mem ∧ HoldsString arraySize mem .home (homeString st)

/-- The names of the levels above the root take at most 247 bytes, with a byte behind each. -/
def NamesFit (st : DirStack) : Prop :=
  ((pathNames st).map fun name => name.length + 1).sum ≤ 247

/-- A line of `cd`, up to the statements behind the branches. -/
def cdLine (s : Shell) (cmd : TokenTable) : Option Shell :=
  (executeCd cmd (s.print (text "\n") white)).map BranchEnd.shell

variable {st : DirStack} {mem mem' : HomeMemory} {s1 s2 res : HomeArray} {a b : List UInt8}

/-! ## `string_combine` -/

/-- The last store ends the string. -/
theorem combined (h1 : HoldsString arraySize mem s1 a) (h2 : HoldsString arraySize mem s2 b)
    (hne : s2 ≠ res) (hfits : a.length + b.length < arraySize res)
    (hcopied : ∀ k, k < a.length → mem res k = a.getD k 0) :
    ∃ mem', ((copyString arraySize s2 res a.length (arraySize s2 + 1) 0 mem).bind fun r =>
        store arraySize res (a.length + r.1) 0 r.2) = some mem' ∧
      HoldsString arraySize mem' res (a ++ b) ∧ ∀ c, c ≠ res → mem' c = mem c := by
  obtain ⟨mem₁, hcopy, hothers, hcells⟩ :=
    copyString_fits a.length h2 hne (Nat.zero_le _) h2.rounds (Nat.le_of_lt hfits)
  have hstore : store arraySize res (a.length + b.length) 0 mem₁ = some
      (Function.update mem₁ res (Function.update (mem₁ res) (a.length + b.length) 0)) :=
    if_pos hfits
  refine ⟨_, by rw [hcopy, Option.bind_some, hstore], ⟨?_, ?_, ?_⟩, ?_⟩
  · rw [List.length_append]
    exact hfits
  · intro k hk
    rw [List.length_append] at hk
    rw [Function.update_self]
    -- the new NUL, the characters that were copied, and those that were there
    by_cases hend : k = a.length + b.length
    · rw [hend, Function.update_self, List.getD_eq_default]
      rw [List.length_append]
    · rw [Function.update_of_ne hend, hcells, Nat.add_zero]
      by_cases hb : a.length ≤ k
      · rw [if_pos ⟨hb, by omega⟩, List.getD_append_right _ _ _ _ hb]
      · rw [if_neg (fun h => hb h.1), hcopied k (by omega), List.getD_append _ _ _ _ (by omega)]
  · rw [List.mem_append]
    rintro (h | h)
    · exact h1.nonzero h
    · exact h2.nonzero h
  · intro c hc
    rw [Function.update_of_ne hc, hothers c hc]

/-- Into another array. -/
theorem stringCombine_apart (h1 : HoldsString arraySize mem s1 a)
    (h2 : HoldsString arraySize mem s2 b) (hne1 : s1 ≠ res) (hne2 : s2 ≠ res)
    (hfits : a.length + b.length < arraySize res) :
    ∃ mem', stringCombine s1 s2 res mem = some mem' ∧
      HoldsString arraySize mem' res (a ++ b) ∧ ∀ c, c ≠ res → mem' c = mem c := by
  obtain ⟨mem₁, hcopy, hothers, hcells⟩ :=
    copyString_fits 0 h1 hne1 (Nat.zero_le _) h1.rounds (by omega)
  have hcopied : ∀ k, k < a.length → mem₁ res k = a.getD k 0 := by
    intro k hk
    rw [hcells, if_pos (by omega), Nat.sub_zero]
  obtain ⟨mem', hcombine, hholds, hsame⟩ :=
    combined (h1.congr (hothers s1 hne1)) (h2.congr (hothers s2 hne2)) hne2 hfits hcopied
  refine ⟨mem', ?_, hholds, fun c hc => (hsame c hc).trans (hothers c hc)⟩
  rw [stringCombine, hcopy]
  exact hcombine

/-- Behind the string that is there already. -/
theorem stringCombine_inPlace (h1 : HoldsString arraySize mem res a)
    (h2 : HoldsString arraySize mem s2 b) (hne : s2 ≠ res)
    (hfits : a.length + b.length < arraySize res) :
    ∃ mem', stringCombine res s2 res mem = some mem' ∧
      HoldsString arraySize mem' res (a ++ b) ∧ ∀ c, c ≠ res → mem' c = mem c := by
  obtain ⟨mem', hcombine, hholds, hsame⟩ :=
    combined h1 h2 hne hfits fun k hk => h1.cells k (Nat.le_of_lt hk)
  refine ⟨mem', ?_, hholds, hsame⟩
  rw [stringCombine, copyString_inPlace h1 (Nat.zero_le _) h1.rounds]
  exact hcombine

/-- Without room behind it a store leaves the array. -/
theorem stringCombine_overflows (h1 : HoldsString arraySize mem res a)
    (h2 : HoldsString arraySize mem s2 b) (hne : s2 ≠ res)
    (hover : arraySize res ≤ a.length + b.length) : stringCombine res s2 res mem = none := by
  have hfirst := h1.fits
  rw [stringCombine, copyString_inPlace h1 (Nat.zero_le _) h1.rounds]
  show (copyString arraySize s2 res a.length (arraySize s2 + 1) 0 mem).bind _ = none
  -- a character has no room, or only the NUL behind them
  by_cases hlast : arraySize res < a.length + b.length
  · rw [copyString_overflows h2 hne (by omega) (by omega) hlast]
    rfl
  · obtain ⟨mem₁, hcopy, -⟩ :=
      copyString_fits a.length h2 hne (Nat.zero_le _) h2.rounds (by omega)
    rw [hcopy, Option.bind_some]
    exact if_neg (by omega)

/-! ## The strings of the frame -/

/-- The ninth byte of every row of `DIR_NAME_STACK` is a NUL. -/
def Terminated (st : DirStack) : Prop := ∀ i, st.name i 8 = 0

/-- The arrays other than `home` are as they were. -/
def KeepsArrays (st : DirStack) (mem : HomeMemory) : Prop :=
  ∀ c, c ≠ .home → mem c = frame st (fun _ => 0) c

theorem frame_keeps (st : DirStack) (home : ℕ → UInt8) : KeepsArrays st (frame st home) := by
  intro c hc
  cases c with
  | home => exact absurd rfl hc
  | base | path | dirName => rfl

theorem KeepsArrays.holds_base (h : KeepsArrays st mem) :
    HoldsString arraySize mem .base (text "OSyikkk:") := by
  refine HoldsString.congr ?_ (h .base (by decide))
  exact ⟨by decide, fun _ _ => rfl, by decide⟩

theorem KeepsArrays.holds_path (h : KeepsArrays st mem) :
    HoldsString arraySize mem .path (text "/") := by
  refine HoldsString.congr ?_ (h .path (by decide))
  exact ⟨by decide, fun _ _ => rfl, by decide⟩

/-- A terminated row holds its name. -/
theorem KeepsArrays.holds_dirName (h : KeepsArrays st mem) (hterm : Terminated st) (i : UInt8) :
    HoldsString arraySize mem (.dirName i) (cString (List.ofFn (st.name i))) := by
  refine HoldsString.congr ?_ (h (.dirName i) (by simp))
  have h0 : 0 ∈ List.ofFn (st.name i) := List.mem_ofFn.mpr ⟨8, hterm i⟩
  obtain ⟨name, rest, heq, hname⟩ := List.eq_append_cons_of_mem h0
  have hlength : name.length < 9 := by
    have hnine := congrArg List.length heq
    rw [List.length_ofFn, List.length_append, List.length_cons] at hnine
    omega
  have hstring : cString (List.ofFn (st.name i)) = name := by
    rw [heq]
    exact cString_append_zero hname rest
  rw [hstring]
  refine ⟨hlength, fun k hk => ?_, hname⟩
  have hcell : frame st (fun _ => 0) (.dirName i) k = (List.ofFn (st.name i)).getD k 0 := by
    have hk9 : k < 9 := Nat.lt_of_le_of_lt hk hlength
    rw [List.getD_eq_getElem _ _ (by rwa [List.length_ofFn]), List.getElem_ofFn]
    exact dif_pos hk9
  rw [hcell, heq]
  rcases Nat.lt_or_eq_of_le hk with hlt | rfl
  · exact List.getD_append _ _ _ _ hlt
  · rw [List.getD_append_right _ _ _ _ (Nat.le_refl _), Nat.sub_self,
      List.getD_eq_default _ _ (Nat.le_refl _)]
    rfl

/-! ## The loop -/

theorem stringCombine_noNul (s1 s2 : List UInt8) : 0 ∉ OsyShell.stringCombine s1 s2 := by
  rw [OsyShell.stringCombine, List.mem_append]
  exact not_or.mpr ⟨zero_notMem_cString s1, zero_notMem_cString s2⟩

theorem homeRound_noNul (st : DirStack) (home : List UInt8) (i : ℕ) :
    0 ∉ OsyShell.homeRound st home i := by
  rw [OsyShell.homeRound]
  split_ifs <;> exact stringCombine_noNul _ _

theorem homeRounds_noNul (st : DirStack) (n : ℕ) :
    0 ∉ (List.range (n + 1)).foldl (OsyShell.homeRound st) [] := by
  rw [List.range_succ, List.foldl_append]
  exact homeRound_noNul st _ n

/-- What a round adds to a text. -/
theorem homeRound_text {i : ℕ} (hi : i ≠ 0) {home : List UInt8} (h0 : 0 ∉ home) :
    OsyShell.homeRound st home i = home ++ cString (List.ofFn (st.name (UInt8.ofNat i))) ++
      if i < st.length.toNat - 1 then text "/" else [] := by
  rw [OsyShell.homeRound, if_neg hi]
  split_ifs
  · have hslash : cString (text "/") = text "/" := by decide
    rw [OsyShell.stringCombine_eq (stringCombine_noNul _ _), OsyShell.stringCombine_eq h0, hslash]
  · rw [OsyShell.stringCombine_eq h0, List.append_nil]

/-- What a run of the loop is to be: the text, if it fits, and no outcome if it does not. -/
structure Refines (st : DirStack) (result : Option HomeMemory) (home : List UInt8) : Prop where
  fits : home.length < 256 →
    ∃ mem, result = some mem ∧ HoldsString arraySize mem .home home ∧ KeepsArrays st mem
  overflows : 256 ≤ home.length → result = none

/-- A text behind the one in `home`. -/
theorem stringCombine_refines (hkeeps : KeepsArrays st mem)
    (hhome : HoldsString arraySize mem .home a) (h2 : HoldsString arraySize mem s2 b)
    (hne : s2 ≠ .home) : Refines st (stringCombine .home s2 .home mem) (a ++ b) := by
  constructor
  · intro hlength
    rw [List.length_append] at hlength
    obtain ⟨mem₁, hcombine, hhome₁, hsame₁⟩ := stringCombine_inPlace hhome h2 hne hlength
    exact ⟨mem₁, hcombine, hhome₁, fun c hc => (hsame₁ c hc).trans (hkeeps c hc)⟩
  · intro hlength
    rw [List.length_append] at hlength
    exact stringCombine_overflows hhome h2 hne hlength

/-- **A round** in the array is the round over strings, as long as there is room. -/
theorem homeRound_refines (hterm : Terminated st) {i : ℕ} (hi : i ≠ 0) {home : List UInt8}
    (hkeeps : KeepsArrays st mem) (hhome : HoldsString arraySize mem .home home) :
    Refines st (homeRound st.length mem i) (OsyShell.homeRound st home i) := by
  have hname := hkeeps.holds_dirName hterm (UInt8.ofNat i)
  have hfirst := stringCombine_refines hkeeps hhome hname (by simp)
  rw [homeRound_text hi hhome.nonzero, homeRound, if_neg hi]
  by_cases hmid : i < st.length.toNat - 1
  · rw [if_pos hmid, if_pos hmid]
    by_cases hfits : (home ++ cString (List.ofFn (st.name (UInt8.ofNat i)))).length < 256
    · obtain ⟨mem₁, hcombine, hhome₁, hkeeps₁⟩ := hfirst.fits hfits
      rw [hcombine]
      exact stringCombine_refines hkeeps₁ hhome₁ hkeeps₁.holds_path (by decide)
    · rw [hfirst.overflows (Nat.not_lt.mp hfits)]
      refine ⟨fun hlength => absurd hlength ?_, fun _ => rfl⟩
      rw [List.length_append]
      omega
  · rw [if_neg hmid, if_neg hmid, List.append_nil]
    exact hfirst

/-- The rounds before any row. -/
theorem homeRounds_refine (hterm : Terminated st) (home : ℕ → UInt8) (n : ℕ) :
    Refines st (run (homeRound st.length) (frame st home) (List.range (n + 1)))
      ((List.range (n + 1)).foldl (OsyShell.homeRound st) []) := by
  induction n with
  | zero =>
      have hkeeps := frame_keeps st home
      obtain ⟨mem, hcombine, hhome, hsame⟩ :=
        stringCombine_apart hkeeps.holds_base hkeeps.holds_path
          (show HomeArray.base ≠ .home by decide) (show HomeArray.path ≠ .home by decide)
          (by decide)
      have hrun : run (homeRound st.length) (frame st home) (List.range 1) = some mem := by
        show (stringCombine .base .path .home (frame st home)).bind some = some mem
        rw [hcombine, Option.bind_some]
      have htext : (List.range 1).foldl (OsyShell.homeRound st) []
          = text "OSyikkk:" ++ text "/" := by
        show OsyShell.stringCombine (text "OSyikkk:") (text "/") = _
        decide
      rw [hrun, htext]
      refine ⟨fun _ => ⟨mem, rfl, hhome, fun c hc => (hsame c hc).trans (hkeeps c hc)⟩, ?_⟩
      exact fun hlength => absurd hlength (by decide)
  | succ n ih =>
      rw [List.range_succ (n := n + 1), List.foldl_append, run_append]
      by_cases hfits : ((List.range (n + 1)).foldl (OsyShell.homeRound st) []).length < 256
      · obtain ⟨mem, hrun, hhome, hkeeps⟩ := ih.fits hfits
        have hround := homeRound_refines hterm (Nat.succ_ne_zero n) hkeeps hhome
        rw [hrun, Option.bind_some]
        show Refines st ((homeRound st.length mem (n + 1)).bind some) _
        rw [Option.bind_fun_some]
        exact hround
      · -- a text that does not fit only grows
        rw [ih.overflows (Nat.not_lt.mp hfits), Option.bind_none]
        refine ⟨fun hlength => absurd hlength ?_, fun _ => rfl⟩
        show ¬ (OsyShell.homeRound st _ (n + 1)).length < 256
        rw [homeRound_text (Nat.succ_ne_zero n) (homeRounds_noNul st n), List.length_append,
          List.length_append]
        omega

/-- **`print_home`** in the array is `print_home` over strings. -/
theorem homeLoop_refines (hterm : Terminated st) (hlen : st.length ≠ 0) (home : ℕ → UInt8) :
    Refines st (homeLoop st home) (homeText st) := by
  obtain ⟨n, hn⟩ := Nat.exists_eq_succ_of_ne_zero (length_pos hlen).ne'
  rw [homeLoop, homeText, hn]
  exact homeRounds_refine hterm home n

/-! ## The text -/

/-- The name of level `i`. -/
def levelName (st : DirStack) (i : ℕ) : List UInt8 :=
  cString (List.ofFn (st.name (UInt8.ofNat i)))

theorem homeRounds_succ (st : DirStack) (n : ℕ) :
    (List.range (n + 2)).foldl (OsyShell.homeRound st) []
      = (List.range (n + 1)).foldl (OsyShell.homeRound st) [] ++ levelName st (n + 1) ++
        if n + 1 < st.length.toNat - 1 then text "/" else [] := by
  rw [List.range_succ (n := n + 1), List.foldl_append]
  exact homeRound_text (Nat.succ_ne_zero n) (homeRounds_noNul st n)

/-- The text in front of a name, while it is not the last one. -/
theorem homeRounds_text (st : DirStack) {n : ℕ} (hn : n + 1 < st.length.toNat) :
    (List.range (n + 1)).foldl (OsyShell.homeRound st) []
      = text "OSyikkk:/" ++ ((List.range' 1 n).map (levelName st)).flatMap (· ++ text "/") := by
  induction n with
  | zero =>
      show OsyShell.stringCombine (text "OSyikkk:") (text "/") = text "OSyikkk:/" ++ []
      decide
  | succ n ih =>
      have hprev := ih (Nat.lt_of_succ_lt hn)
      rw [homeRounds_succ, if_pos (by omega), hprev, List.range'_1_concat, List.map_append,
        List.flatMap_append, Nat.add_comm 1 n]
      simp only [List.map_cons, List.map_nil, List.flatMap_cons, List.flatMap_nil,
        List.append_nil, List.append_assoc]

/-- The strings of the loop are the text with the names of the levels. -/
theorem homeText_eq_homeString (hlen : st.length ≠ 0) : homeText st = homeString st := by
  obtain ⟨m, hm⟩ := Nat.exists_eq_succ_of_ne_zero (length_pos hlen).ne'
  rw [homeText, homeString, pathNames, hm]
  cases m with
  | zero =>
      show OsyShell.stringCombine (text "OSyikkk:") (text "/") = text "OSyikkk:/" ++ []
      decide
  | succ n =>
      have hprev := homeRounds_text st (n := n) (by omega)
      rw [Nat.succ_eq_add_one, homeRounds_succ, if_neg (by omega), List.append_nil, hprev,
        Nat.add_sub_cancel (n := n + 1) (m := 1), List.range'_1_concat, List.map_append,
        List.map_singleton, intercalate_concat, Nat.add_comm 1 n, List.append_assoc]
      rfl

theorem length_intercalate {names : List (List UInt8)} (hne : names ≠ []) :
    ((text "/").intercalate names).length + 1 = (names.map fun name => name.length + 1).sum := by
  induction names with
  | nil => exact absurd rfl hne
  | cons name names ih =>
      cases names with
      | nil => rw [List.intercalate_singleton, List.map_singleton, List.sum_singleton]
      | cons next rest =>
          have hrest := ih (List.cons_ne_nil _ _)
          have hslash : (text "/").length = 1 := rfl
          rw [List.intercalate_cons_cons, List.length_append, List.length_append, List.map_cons,
            List.sum_cons, ← hrest, hslash]
          omega

/-- The text fits in the array when the names do. -/
theorem homeString_fits_iff (st : DirStack) :
    (homeString st).length < 256 ↔ NamesFit st := by
  have hroot : (text "OSyikkk:/").length = 9 := by decide
  rw [homeString, List.length_append, hroot, NamesFit]
  by_cases hne : pathNames st = []
  · rw [hne]
    exact iff_of_true (by decide) (Nat.zero_le _)
  · have hlength := length_intercalate hne
    omega

/-- The array of a terminated stack. -/
theorem buildsHome_iff (hterm : Terminated st) :
    BuildsHome st ↔ st.length ≠ 0 ∧ NamesFit st := by
  rw [← homeString_fits_iff]
  constructor
  · intro h
    by_cases hlen : st.length = 0
    · -- nothing is stored, and the array may hold zeros
      obtain ⟨mem, hloop, hhome⟩ := h fun _ => 0
      rw [homeLoop, hlen] at hloop
      obtain rfl := Option.some.inj hloop
      have hfirst := hhome.cells 0 (Nat.zero_le _)
      refine absurd hfirst ?_
      rw [homeString, List.getD_append _ _ _ _ (by decide)]
      show ¬ (0 : UInt8) = (text "OSyikkk:/").getD 0 0
      decide
    · refine ⟨hlen, ?_⟩
      rw [← homeText_eq_homeString hlen]
      by_contra hno
      obtain ⟨mem, hloop, -⟩ := h fun _ => 0
      rw [(homeLoop_refines hterm hlen _).overflows (Nat.not_lt.mp hno)] at hloop
      exact absurd hloop.symm (Option.some_ne_none mem)
  · rintro ⟨hlen, hfits⟩ home
    rw [← homeText_eq_homeString hlen] at hfits ⊢
    obtain ⟨mem, hloop, hhome, -⟩ := (homeLoop_refines hterm hlen home).fits hfits
    exact ⟨mem, hloop, hhome⟩

/-- The prompt is printed from the array that the loop has built. -/
theorem printHome_isSome_iff {s : Shell} (hterm : Terminated s.stack) :
    (printHome s).isSome = true ↔ BuildsHome s.stack := by
  rw [buildsHome_iff hterm, printHome, ← homeString_fits_iff, Option.isSome_ite]
  exact and_congr_right fun hlen => by rw [homeText_eq_homeString hlen]

/-! ## The stacks that `cd` reaches -/

section Reached

variable {s s' : Shell} {cmd : TokenTable} {row : List UInt8}

theorem push_terminated (h : Terminated st) (name : EntryName) (number : UInt32) :
    Terminated (st.push name number) := by
  intro i
  show Function.update st.name st.length _ i 8 = 0
  by_cases hi : i = st.length
  · rw [hi, Function.update_self]
    rfl
  · rw [Function.update_of_ne hi]
    exact h i

/-- `change_directory` ends every name that it stores. -/
theorem changeDirectory_terminated (h : Terminated s.stack)
    (hstep : changeDirectory row s = some s') : Terminated s'.stack := by
  simp only [changeDirectory, Option.bind_eq_bind, Option.bind_eq_some_iff] at hstep
  obtain ⟨top, -, hstep⟩ := hstep
  split_ifs at hstep
  · exact Option.some.inj hstep ▸ h
  · exact Option.some.inj hstep ▸ h
  · exact Option.some.inj hstep ▸ h
  · exact Option.some.inj hstep ▸ h
  · exact Option.some.inj hstep ▸ push_terminated h _ _

theorem changeToRow_terminated (h : Terminated s.stack) (hstep : changeToRow row s = some s') :
    Terminated s'.stack := by
  rw [changeToRow] at hstep
  split_ifs at hstep <;> exact changeDirectory_terminated h hstep

theorem cdLine_terminated (h : Terminated s.stack) (hstep : cdLine s cmd = some s') :
    Terminated s'.stack := by
  obtain ⟨done, hexec, rfl⟩ := Option.map_eq_some_iff.mp hstep
  rw [executeCd] at hexec
  split_ifs at hexec
  · exact Option.some.inj hexec ▸ h
  · simp only [Option.bind_eq_bind, Option.bind_eq_some_iff] at hexec
    obtain ⟨used, -, ⟨j, s₁⟩, hwalk, hdone⟩ := hexec
    obtain rfl := Option.some.inj hdone
    obtain ⟨-, hrun⟩ := pathLoop_some hwalk
    -- `cd` alone changes the length, and no name
    have hstart : Terminated (if used = true then s.print (text "\n") white
        else { s.print (text "\n") white with stack := { s.stack with length := 1 } }).stack := by
      split_ifs <;> exact h
    have hstep : ∀ (s : Shell) (row : List UInt8) (s' : Shell), Terminated s.stack → True →
        changeToRow row s = some s' → Terminated s'.stack :=
      fun _ _ _ hs _ hk => changeToRow_terminated hs hk
    exact run_invariant _ hstep hstart (guarded_of_forall _ (fun _ _ _ => trivial) _) hrun

theorem startShell_terminated (fs : FileSystem) : Terminated (startShell fs).stack := by
  intro i
  show (if i = 0 then [82, 79, 79, 84].getD 8 0 else 0 : UInt8) = 0
  split_ifs <;> rfl

theorem run_terminated {fs : FileSystem} {lines : List TokenTable}
    (h : run cdLine (startShell fs) lines = some s) : Terminated s.stack := by
  have hstep : ∀ (s : Shell) (cmd : TokenTable) (s' : Shell), Terminated s.stack → True →
      cdLine s cmd = some s' → Terminated s'.stack :=
    fun _ _ _ hs _ hk => cdLine_terminated hs hk
  exact run_invariant cdLine hstep (startShell_terminated fs)
    (guarded_of_forall cdLine (fun _ _ _ => trivial) _) h

/-- A line that `execute_cmd` takes for `cd`. -/
theorem executeCmd_cdLine {locals : Locals} {behind : UInt8} {input : Buffer}
    (hcmd : commandOf behind input = some (.cd, cmd))
    (h : executeCmd locals behind input s = some s') :
    ∃ s₁, cdLine s cmd = some s₁ ∧ s'.stack = s₁.stack ∧ s'.fs = s₁.fs := by
  rw [executeCmd_eq, hcmd, Option.bind_some] at h
  obtain ⟨done, hexec, hfinish⟩ := Option.bind_eq_some_iff.mp h
  have hexec : executeCd cmd (s.print (text "\n") white) = some done := hexec
  obtain ⟨hstack, hfs, -⟩ := finish_some hfinish
  exact ⟨done.shell, by rw [cdLine, hexec, Option.map_some], hstack, hfs⟩

end Reached

/-- **The prompt is built** exactly while its names fit. -/
theorem printHome_builds_iff (fs : FileSystem) (lines : List TokenTable) (s : Shell)
    (h : run cdLine (startShell fs) lines = some s) :
    BuildsHome s.stack ↔ s.stack.length ≠ 0 ∧ NamesFit s.stack :=
  buildsHome_iff (run_terminated h)

/-! ## A prompt that does not fit -/

/-- The line `cd ROOT/…/ROOT`. -/
def rootsLine : List UInt8 := pathLine Branch.cd.word (List.replicate 30 rootWord)

/-- Its table. -/
def rootsTable : TokenTable := pathTable Branch.cd.word (List.replicate 30 rootWord)

theorem roots_isPath : IsPath (List.replicate 30 rootWord) where
  words c hc := by
    rw [List.eq_of_mem_replicate hc]
    decide
  first := by decide
  last := by decide
  nonempty := by decide

theorem tokenize_roots : tokenize rootsLine = some rootsTable :=
  tokenize_pathLine Branch.cd.word_isWord Branch.cd.word_ne_nil roots_isPath (by decide)

/-- A line adds 30 levels. -/
theorem cdLine_roots {s : Shell} {n : ℕ} (hfs : s.fs = blankFiles)
    (hlevels : s.stack.levels = List.replicate (n + 1) rootLevel) (hlen : s.stack.length ≠ 0)
    (hn : n + 31 < 256) :
    ∃ s', cdLine s rootsTable = some s' ∧ s'.fs = blankFiles ∧
      s'.stack.levels = List.replicate (n + 31) rootLevel ∧ s'.stack.length ≠ 0 := by
  have hnul : ∀ c ∈ List.replicate 30 rootWord, 0 ∉ c := fun c hc =>
    (roots_isPath.words c hc).zero_notMem
  have hroom : s.stack.levels.length + (List.replicate 30 rootWord).length < 256 := by
    rw [hlevels, List.length_replicate, List.length_replicate]
    omega
  obtain ⟨s', hrun, hlevels', hlen', hfs', -⟩ :=
    walk_levels (s := s.print (text "\n") white) hlen (hasRoom_of_length hroom)
  have hwords : ∀ c ∈ List.replicate 30 rootWord, IsWord c ∧ c ≠ [] := by
    intro c hc
    rw [List.eq_of_mem_replicate hc]
    decide
  refine ⟨s', ?_, hfs'.trans hfs, ?_, hlen'⟩
  · have hused : rowUsed rootsTable 1 = some true := by decide
    rw [cdLine, executeCd, if_neg (by decide), hused]
    simp only [Option.bind_eq_bind, Option.bind_some, if_true]
    rw [rootsTable, pathLoop_all hwords (by decide), hrun]
    rfl
  · rw [hlevels']
    show skipping (walkStep s.fs) s.stack.levels _ = _
    rw [hfs, hlevels, skipping_root]

theorem run_roots {n : ℕ} (hn : n ≤ 8) :
    ∃ s, run cdLine (startShell blankFiles) (List.replicate n rootsTable) = some s ∧
      s.fs = blankFiles ∧ s.stack.levels = List.replicate (30 * n + 1) rootLevel ∧
        s.stack.length ≠ 0 := by
  induction n with
  | zero => exact ⟨startShell blankFiles, rfl, rfl, rfl, by decide⟩
  | succ n ih =>
      obtain ⟨s, hrun, hfs, hlevels, hlen⟩ := ih (by omega)
      obtain ⟨s', hstep, hfs', hlevels', hlen'⟩ := cdLine_roots hfs hlevels hlen (by omega)
      rw [run_replicate_succ cdLine hrun]
      exact ⟨s', hstep, hfs', hlevels', hlen'⟩

/-- Every level below the last one takes five bytes. -/
theorem homePath_roots (n : ℕ) :
    (homePath (List.replicate (n + 1) rootLevel)).length = 5 * n + 9 := by
  induction n with
  | zero => rfl
  | succ n ih =>
      have hname : (cString (List.ofFn rootLevel.name)).length = 4 := by decide
      have hslash : (text "/").length = 1 := rfl
      rw [List.replicate_succ, List.replicate_succ, homePath, ← List.replicate_succ,
        List.length_append, List.length_append, ih, hname, hslash]
      · omega
      · exact List.cons_ne_nil _ _

/-- The names of `n + 1` entered roots fit as long as there are at most 49. -/
theorem namesFit_roots {n : ℕ} (hlen : st.length ≠ 0)
    (hlevels : st.levels = List.replicate (n + 2) rootLevel) : NamesFit st ↔ n < 49 := by
  have hname : (cString (List.ofFn rootLevel.name)).length = 4 := by decide
  have hprompt : (promptText (List.replicate (n + 2) rootLevel)).length = 5 * n + 13 := by
    rw [List.replicate_succ, List.replicate_succ, promptText, ← List.replicate_succ,
      List.length_append, homePath_roots, hname]
    exact List.cons_ne_nil _ _
  rw [← homeString_fits_iff, ← homeText_eq_homeString hlen, homeText_eq, hlevels, hprompt]
  omega

/-- After one line the prompt is built. -/
theorem printHome_builds_roots : ∃ s,
    run cdLine (startShell blankFiles) [rootsTable] = some s ∧ BuildsHome s.stack := by
  obtain ⟨s, hrun, -, hlevels, hlen⟩ := run_roots (show 1 ≤ 8 by decide)
  have hfit : NamesFit s.stack := (namesFit_roots (n := 29) hlen hlevels).mpr (by decide)
  exact ⟨s, hrun, (printHome_builds_iff blankFiles [rootsTable] s hrun).mpr ⟨hlen, hfit⟩⟩

/-- After two, 61 levels are open, and the next prompt is stored behind the array. -/
theorem deepStack_leavesHome : ∃ s, tokenize rootsLine = some rootsTable ∧
    run cdLine (startShell blankFiles) [rootsTable, rootsTable] = some s ∧
      (∀ home, homeLoop s.stack home = none) ∧ ¬ BuildsHome s.stack := by
  obtain ⟨s, hrun, -, hlevels, hlen⟩ := run_roots (show 2 ≤ 8 by decide)
  have hnames : ¬ NamesFit s.stack := by
    rw [namesFit_roots (n := 59) hlen hlevels]
    decide
  have hterm := run_terminated hrun
  refine ⟨s, tokenize_roots, hrun, fun home => ?_, ?_⟩
  · have hover : ¬ (homeText s.stack).length < 256 := by
      rwa [homeText_eq_homeString hlen, homeString_fits_iff]
    exact (homeLoop_refines hterm hlen home).overflows (Nat.not_lt.mp hover)
  · exact fun h => hnames ((buildsHome_iff hterm).mp h).2

end OsyPrompt
