import Osyikkk.FileNameProofs

/-!
# The arrays of a caller of `parse_file_cmd`

A caller's `target_name` lies right behind its `target_ext`, and all stores through `target_ext`
come after those through `target_name`. So a store behind the end of `target_ext` replaces a
character of the name (`parseTarget_eq`). A token is padded with zeros, and a dotted one of at
most six characters in front of its dot loses the first of them.
-/

namespace OsyShell

variable {file : ℕ → UInt8} {row : List UInt8} {j k : ℕ}

/-! ## The stores -/

/-- Two arrays as they lie behind each other, when `target_ext[k]` is the next store through
    `target_ext`. -/
def ParsedFile.overlay (p : ParsedFile) (k : ℕ) : TargetArrays where
  bytes := fun x => if x < 4 ∨ x < k then p.targetExt x else p.targetName (x - 4)
  nameTooLong := p.nameTooLong
  extTooLong := p.extTooLong

theorem overlay_putName (p : ParsedFile) (b : UInt8) :
    { p.overlay 0 with bytes := Function.update (p.overlay 0).bytes (4 + j) b }
      = ({ p with targetName := Function.update p.targetName j b } : ParsedFile).overlay 0 := by
  refine TargetArrays.mk.injEq .. |>.mpr ⟨funext fun x => ?_, rfl, rfl⟩
  by_cases hx : x = 4 + j
  · have hsub : x - 4 = j := by omega
    rw [hx, Function.update_self, ← hx]
    dsimp only [ParsedFile.overlay]
    rw [if_neg (by omega), hsub, Function.update_self]
  · rw [Function.update_of_ne hx]
    dsimp only [ParsedFile.overlay]
    by_cases hlow : x < 4
    · rw [if_pos (Or.inl hlow), if_pos (Or.inl hlow)]
    · rw [if_neg (by omega), if_neg (by omega), Function.update_of_ne (by omega)]

theorem overlay_putExt (p : ParsedFile) (b : UInt8) :
    { p.overlay k with bytes := Function.update (p.overlay k).bytes k b }
      = ({ p with targetExt := Function.update p.targetExt k b } : ParsedFile).overlay (k + 1) := by
  refine TargetArrays.mk.injEq .. |>.mpr ⟨funext fun x => ?_, rfl, rfl⟩
  by_cases hx : x = k
  · rw [hx, Function.update_self]
    dsimp only [ParsedFile.overlay]
    rw [if_pos (Or.inr (Nat.lt_succ_self k)), Function.update_self]
  · rw [Function.update_of_ne hx]
    dsimp only [ParsedFile.overlay]
    rw [Function.update_of_ne hx]
    exact if_congr (by omega) rfl rfl

/-- The loop on the caller's arrays, beside that on two arrays of their own. Once `target_ext` is
    stored to, `target_name` is not any more. -/
theorem parseLoopInPlace_eq (file : ℕ → UInt8) (n idx : ℕ) (extFound : Bool) (idxName idxExt : ℕ)
    (p : ParsedFile) (h0 : extFound = false → idxExt = 0) :
    parseLoopInPlace file n idx extFound idxName idxExt (p.overlay idxExt)
      = (parseLoop file n idx extFound idxName idxExt p).overlay
          (idxExt + (parseStores file n idx extFound idxName idxExt).2.length) := by
  have hno : ¬ true = false := by decide
  induction n generalizing idx extFound idxName idxExt p with
  | zero => rfl
  | succ n ih =>
      rw [parseLoopInPlace, parseLoop, parseStores]
      by_cases hdot : file idx = dot
      · rw [if_pos hdot, if_pos hdot, if_pos hdot]
        exact ih (idx + 1) true idxName idxExt p fun h => absurd h hno
      rw [if_neg hdot, if_neg hdot, if_neg hdot]
      cases extFound with
      | false =>
          -- nothing is in the extension yet, so the name has all its bytes
          obtain rfl := h0 rfl
          rw [if_pos rfl, if_pos rfl, if_pos rfl]
          by_cases hstop : idxName = 8 ∧ file idx ≠ 0
          · rw [if_pos hstop, if_pos hstop, if_pos hstop]
            rfl
          · rw [if_neg hstop, if_neg hstop, if_neg hstop, overlay_putName]
            exact ih (idx + 1) false (idxName + 1) 0 _ fun _ => rfl
      | true =>
          rw [if_neg hno, if_neg hno, if_neg hno]
          by_cases hstop : idxExt = 4 ∧ file idx ≠ 0
          · rw [if_pos hstop, if_pos hstop, if_pos hstop]
            rfl
          · rw [if_neg hstop, if_neg hstop, if_neg hstop, overlay_putExt,
              ih (idx + 1) true idxName (idxExt + 1) _ fun h => absurd h hno]
            refine congrArg _ ?_
            show _ = idxExt + (_ :: _).length
            rw [List.length_cons]
            omega

/-- **The caller's arrays.** The bytes that the call stores behind `target_ext[3]` are in front
    of the name. -/
theorem parseTarget_eq (file : ℕ → UInt8) : parseTarget file =
    { parseFileCmd file with
      targetName := fun j =>
        if 4 + j < (parseStores file 12 0 false 0 0).2.length then
          (parseFileCmd file).targetExt (4 + j)
        else (parseFileCmd file).targetName j
      targetExt := fun j => if j < 4 then (parseFileCmd file).targetExt j else 0 } := by
  have hloop := parseLoopInPlace_eq file 12 0 false 0 0
    ⟨fun _ => 0, fun _ => 0, false, false⟩ fun _ => rfl
  have hzero : (⟨fun _ => 0, fun _ => 0, false, false⟩ : ParsedFile).overlay 0
      = ⟨fun _ => 0, false, false⟩ :=
    TargetArrays.mk.injEq .. |>.mpr ⟨funext fun _ => ite_self _, rfl, rfl⟩
  rw [hzero, Nat.zero_add] at hloop
  rw [parseTarget, hloop]
  refine ParsedFile.mk.injEq .. |>.mpr ⟨funext fun j => ?_, funext fun j => ?_, rfl, rfl⟩
  · show (if 4 + j < 4 ∨ _ then _ else (parseFileCmd file).targetName (4 + j - 4)) = _
    rw [Nat.add_sub_cancel_left]
    exact if_congr (by omega) rfl rfl
  · by_cases hj : j < 4
    · rw [if_pos hj, if_pos hj]
      exact if_pos (Or.inl hj)
    · rw [if_neg hj, if_neg hj]

/-- With a NUL in it the extension is a string of its own. -/
theorem cString_extString {p : ParsedFile} (h : 0 ∈ p.ext) :
    cString p.extString = cString p.ext := by
  rw [ParsedFile.extString, cString_append, if_pos h]

end OsyShell
