import Osyikkk.LineEditorProofs
import Mathlib.Data.List.OfFn

/-!
# Enter, Backspace and Space under shift and caps lock

The two latched flags evolve with every scancode and choose the map that answers the next
one, a release included. The lower map has an entry for every byte. The upper one has 58
entries, and in it Enter is a question mark and Backspace and Space are NULs; so the control
keys work exactly when the flags cancel out, and nothing is read behind the upper map exactly
when it never answers a scancode from 58 on.
-/

namespace OsyConsole

/-- The upper map answers the next scancode. -/
def KeyboardDriverState.upper (kb : KeyboardDriverState) : Bool := kb.shiftPressed ^^ kb.capsCond

/-- The entries of the map that answers. -/
def KeyboardDriverState.mapLength (kb : KeyboardDriverState) : ℕ :=
  if kb.upper then scancodeCapitalLetters.length else 256

/-- The characters in front of the index. -/
def KeyboardDriverState.typed (kb : KeyboardDriverState) : List UInt8 :=
  List.ofFn fun j : Fin kb.bufferIndex.toNat =>
    kb.keyboardBuffer ⟨j, Nat.lt_trans j.isLt (UInt8.toNat_lt kb.bufferIndex)⟩

/-- The scancodes of Backspace and Space. -/
abbrev scancodeBackspace : UInt8 := 14
abbrev scancodeSpace : UInt8 := 57

/-- The input is on when each of the scancodes arrives, and behind them. -/
def ListensTo (behind : ℕ → UInt8) : Terminal → List UInt8 → Prop
  | t, [] => t.keyboard.keyboardInputOn = true
  | t, scancode :: rest =>
      t.keyboard.keyboardInputOn = true ∧ ListensTo behind (keyboardIsr behind t scancode) rest

/-- Each scancode is looked up inside the map that answers it. -/
def IndexesInside (behind : ℕ → UInt8) : Terminal → List UInt8 → Prop
  | _, [] => True
  | t, scancode :: rest =>
      scancode.toNat < (t.keyboard.modifiers scancode).mapLength ∧
        IndexesInside behind (keyboardIsr behind t scancode) rest

/-- The control keys work behind a sequence of scancodes, and the maps were indexed inside
    their bounds on the way. -/
structure ControlKeysWork (behind : ℕ → UInt8) (t : Terminal) (scancodes : List UInt8) :
    Prop where
  inside : IndexesInside behind t scancodes
  enter : (scancodes.foldl (keyboardIsr behind) t).tempCode ≠ scancodeEnter →
    (keyboardIsr behind (scancodes.foldl (keyboardIsr behind) t) scancodeEnter).keyboard
      = { (scancodes.foldl (keyboardIsr behind) t).keyboard with keyboardInputOn := false }
  backspace : (scancodes.foldl (keyboardIsr behind) t).tempCode ≠ scancodeBackspace →
    (scancodes.foldl (keyboardIsr behind) t).keyboard.typed ≠ [] →
    (keyboardIsr behind (scancodes.foldl (keyboardIsr behind) t) scancodeBackspace).keyboard.typed
      = (scancodes.foldl (keyboardIsr behind) t).keyboard.typed.dropLast
  space : (scancodes.foldl (keyboardIsr behind) t).tempCode ≠ scancodeSpace →
    (keyboardIsr behind (scancodes.foldl (keyboardIsr behind) t) scancodeSpace).keyboard.typed
      = (scancodes.foldl (keyboardIsr behind) t).keyboard.typed ++ [32]

/-- The upper map never answers a scancode behind its last entry. -/
def UpperInside : KeyboardDriverState → List UInt8 → Prop
  | _, [] => True
  | kb, scancode :: rest =>
      ((kb.modifiers scancode).upper = true → scancode < 58) ∧
        UpperInside (kb.modifiers scancode) rest

/-- The scancode before the next one. -/
def lastScancode (t : Terminal) (scancodes : List UInt8) : UInt8 :=
  scancodes.getLast?.getD t.tempCode

variable {behind : ℕ → UInt8} {t : Terminal} {kb : KeyboardDriverState} {scancode c : UInt8}
  {scancodes : List UInt8}

/-! ## The flags -/

/-- The same shift and caps lock. -/
def SameFlags (kb kb' : KeyboardDriverState) : Prop :=
  kb.shiftPressed = kb'.shiftPressed ∧ kb.capsCond = kb'.capsCond

theorem SameFlags.upper {kb kb' : KeyboardDriverState} (h : SameFlags kb kb') :
    kb.upper = kb'.upper := by
  rw [KeyboardDriverState.upper, h.1, h.2]
  rfl

theorem SameFlags.modifiers {kb kb' : KeyboardDriverState} (h : SameFlags kb kb')
    (scancode : UInt8) : SameFlags (kb.modifiers scancode) (kb'.modifiers scancode) := by
  obtain ⟨hshift, hcaps⟩ := h
  unfold KeyboardDriverState.modifiers
  split_ifs <;> exact ⟨by simp [hshift], by simp [hcaps]⟩

/-- A key changes no flag behind the modifier branches. -/
theorem pressed_sameFlags (t : Terminal) (row col scancode c : UInt8) :
    SameFlags (t.pressed row col scancode c).keyboard t.keyboard := by
  unfold Terminal.pressed
  simp only
  split_ifs <;> exact ⟨rfl, rfl⟩

theorem keyboardIsr_sameFlags {behind : ℕ → UInt8} {t : Terminal} {scancode : UInt8}
    (hon : t.keyboard.keyboardInputOn = true) :
    SameFlags (keyboardIsr behind t scancode).keyboard (t.keyboard.modifiers scancode) := by
  simp only [keyboardIsr, hon, Bool.not_true, Bool.false_eq_true, if_false]
  split_ifs
  · exact pressed_sameFlags _ _ _ _ _
  · exact ⟨rfl, rfl⟩
  · exact ⟨rfl, rfl⟩

/-- Every scancode becomes the last one. -/
theorem keyboardIsr_tempCode (hon : t.keyboard.keyboardInputOn = true) :
    (keyboardIsr behind t scancode).tempCode = scancode := by
  simp only [keyboardIsr, hon, Bool.not_true, Bool.false_eq_true, if_false]
  split_ifs with _ hnew
  · exact pressed_tempCode _ _
  · exact (not_not.mp hnew).symm
  · rfl

theorem foldl_sameFlags (hon : ListensTo behind t scancodes) (h : SameFlags t.keyboard kb) :
    SameFlags (scancodes.foldl (keyboardIsr behind) t).keyboard
      (scancodes.foldl KeyboardDriverState.modifiers kb) := by
  induction scancodes generalizing t kb with
  | nil => exact h
  | cons scancode rest ih =>
      obtain ⟨hkey, hrest⟩ := hon
      obtain ⟨hshift, hcaps⟩ := keyboardIsr_sameFlags hkey
      obtain ⟨hshift', hcaps'⟩ := h.modifiers scancode
      exact ih hrest ⟨hshift.trans hshift', hcaps.trans hcaps'⟩

theorem foldl_tempCode (hon : ListensTo behind t scancodes) :
    (scancodes.foldl (keyboardIsr behind) t).tempCode = lastScancode t scancodes := by
  induction scancodes generalizing t with
  | nil => rfl
  | cons scancode rest ih =>
      rw [List.foldl_cons, ih hon.2, lastScancode, lastScancode,
        keyboardIsr_tempCode hon.1]
      cases rest with
      | nil => rfl
      | cons scancode' rest =>
          rw [List.getLast?_cons_cons, List.getLast?_cons, Option.getD_some, Option.getD_some]

theorem ListensTo.on (hon : ListensTo behind t scancodes) :
    (scancodes.foldl (keyboardIsr behind) t).keyboard.keyboardInputOn = true := by
  induction scancodes generalizing t with
  | nil => exact hon
  | cons scancode rest ih => exact ih hon.2

/-- The lower map has an entry for every scancode. -/
theorem lt_mapLength_iff :
    scancode.toNat < kb.mapLength ↔ (kb.upper = true → scancode < 58) := by
  have hlt := UInt8.toNat_lt scancode
  rw [KeyboardDriverState.mapLength, UInt8.lt_iff_toNat_lt]
  by_cases hu : kb.upper = true
  · rw [if_pos hu]
    exact ⟨fun h _ => h, fun h => h hu⟩
  · rw [if_neg hu]
    exact iff_of_true hlt fun h => absurd h hu

theorem indexesInside_iff (hon : ListensTo behind t scancodes) (h : SameFlags t.keyboard kb) :
    IndexesInside behind t scancodes ↔ UpperInside kb scancodes := by
  induction scancodes generalizing t kb with
  | nil => exact Iff.rfl
  | cons scancode rest ih =>
      obtain ⟨hkey, hrest⟩ := hon
      have hflags := h.modifiers scancode
      obtain ⟨hshift, hcaps⟩ := keyboardIsr_sameFlags hkey
      rw [IndexesInside, UpperInside, lt_mapLength_iff, hflags.upper,
        ih hrest ⟨hshift.trans hflags.1, hcaps.trans hflags.2⟩]

/-! ## The line in front of the index -/

theorem typed_getElem {j : ℕ} (h : j < kb.typed.length) :
    kb.typed[j] = kb.keyboardBuffer ⟨j, Nat.lt_trans (by simpa [KeyboardDriverState.typed] using h)
      (UInt8.toNat_lt kb.bufferIndex)⟩ := by
  simp only [KeyboardDriverState.typed, List.getElem_ofFn]

@[simp] theorem typed_length (kb : KeyboardDriverState) :
    kb.typed.length = kb.bufferIndex.toNat := List.length_ofFn

theorem erase_typed (hi : 0 < t.keyboard.bufferIndex) (row col : UInt8) :
    (t.erase row col).keyboard.typed = t.keyboard.typed.dropLast := by
  have hpos : 0 < t.keyboard.bufferIndex.toNat := UInt8.lt_iff_toNat_lt.mp hi
  have hsub : (t.keyboard.bufferIndex - 1).toNat = t.keyboard.bufferIndex.toNat - 1 :=
    UInt8.toNat_sub_of_le _ _ (UInt8.le_iff_toNat_le.mpr hpos)
  refine List.ext_getElem ?_ fun j hj hj' => ?_
  · rw [typed_length, List.length_dropLast, typed_length]
    exact hsub
  · rw [typed_getElem, List.getElem_dropLast, typed_getElem]
    refine Function.update_of_ne ?_ _ _
    intro heq
    rw [typed_length] at hj
    exact absurd (congrArg Fin.val heq) (Nat.ne_of_lt hj)

/-- A character is appended while the index can count it. -/
theorem store_typed (hi : t.keyboard.bufferIndex ≠ 255) (row col c : UInt8) :
    (t.store row col c).keyboard.typed = t.keyboard.typed ++ [c] := by
  have hlt := UInt8.toNat_lt t.keyboard.bufferIndex
  have hne : t.keyboard.bufferIndex.toNat ≠ 255 := fun h => hi (UInt8.toNat_inj.mp h)
  have hadd : (t.keyboard.bufferIndex + 1).toNat = t.keyboard.bufferIndex.toNat + 1 := by
    rw [UInt8.toNat_add]
    exact Nat.mod_eq_of_lt (show t.keyboard.bufferIndex.toNat + 1 < 256 by omega)
  refine List.ext_getElem ?_ fun j hj hj' => ?_
  · rw [typed_length, List.length_append, typed_length]
    exact hadd
  · rw [typed_getElem]
    show Function.update t.keyboard.keyboardBuffer t.keyboard.current c _ = _
    by_cases hlast : j = t.keyboard.bufferIndex.toNat
    · subst hlast
      rw [List.getElem_append_right (Nat.le_of_eq (typed_length _))]
      simp only [typed_length, Nat.sub_self, List.getElem_cons_zero]
      exact Function.update_self _ _ _
    · have hj₂ : j < t.keyboard.typed.length := by
        rw [List.length_append, List.length_singleton] at hj'
        rw [typed_length] at hj' ⊢
        omega
      rw [List.getElem_append_left hj₂, typed_getElem]
      exact Function.update_of_ne (fun heq => hlast (congrArg Fin.val heq)) _ _

/-- The 256th character empties the line. -/
theorem store_typed_full (hi : t.keyboard.bufferIndex = 255) (row col c : UInt8) :
    (t.store row col c).keyboard.typed = [] := by
  refine List.length_eq_zero_iff.mp ?_
  rw [typed_length]
  show (t.keyboard.bufferIndex + 1).toNat = 0
  rw [hi]
  rfl

/-- A stored character is a space in front of the index only when it is a space. -/
theorem store_typed_iff (row col c : UInt8) :
    (t.store row col c).keyboard.typed = t.keyboard.typed ++ [32] ↔
      t.keyboard.bufferIndex ≠ 255 ∧ c = 32 := by
  by_cases hi : t.keyboard.bufferIndex = 255
  · rw [store_typed_full hi]
    refine iff_of_false ?_ fun h => h.1 hi
    exact fun h => List.append_ne_nil_of_right_ne_nil _ (List.cons_ne_nil _ _) h.symm
  · rw [store_typed hi, List.append_cancel_left_eq]
    exact ⟨fun h => ⟨hi, (List.cons.inj h).1⟩, fun h => congrArg (fun b => [b]) h.2⟩

/-! ## The three keys -/

/-- A key that is neither shift nor caps lock. -/
theorem modifiers_other (h : scancode ≠ scancodeLshift)
    (h' : scancode ≠ scancodeLshift + scancodeKeyupThreshold) (h'' : scancode ≠ scancodeCaps) :
    kb.modifiers scancode = kb := by
  rw [KeyboardDriverState.modifiers, if_neg h, if_neg h', if_neg h'']

section FreshKey

variable (behind : ℕ → UInt8) (hon : t.keyboard.keyboardInputOn = true)
include hon

theorem keyboardIsr_fresh (hkey : scancode < scancodeKeyupThreshold)
    (hl : scancode ≠ scancodeLshift) (hcaps : scancode ≠ scancodeCaps)
    (hnew : scancode ≠ t.tempCode) :
    keyboardIsr behind t scancode
      = t.pressed t.console.getCursor.row t.console.getCursor.col scancode
          (t.keyboard.mappedChar behind scancode) := by
  have hup : scancode ≠ scancodeLshift + scancodeKeyupThreshold := by
    rintro rfl
    exact absurd hkey (by decide)
  simp only [keyboardIsr, hon, modifiers_other hl hup hcaps, if_pos hnew,
    if_pos (show scancode < scancodeKeyupThreshold ∧ scancode ≠ scancodeLshift ∧
      scancode ≠ scancodeCaps from ⟨hkey, hl, hcaps⟩), Bool.not_true, Bool.false_eq_true, if_false]

/-- Enter, a NUL or a question mark: a key that is stored as the character `c`. -/
theorem keyboardIsr_stores (hkey : scancode < scancodeKeyupThreshold)
    (hl : scancode ≠ scancodeLshift) (hcaps : scancode ≠ scancodeCaps)
    (hleft : scancode ≠ scancodeLeftarrow) (hnew : scancode ≠ t.tempCode)
    (hc : t.keyboard.mappedChar behind scancode = c) (hb : c ≠ charBackspace)
    (hn : c ≠ charNewline) (he : c ≠ scancodeEsc) :
    (keyboardIsr behind t scancode).keyboard
      = (t.store t.console.getCursor.row t.console.getCursor.col c).keyboard := by
  rw [keyboardIsr_fresh behind hon hkey hl hcaps hnew, hc, pressed_stored _ _ hb hn hleft,
    if_neg he]

end FreshKey

theorem mappedChar_eq (kb : KeyboardDriverState) (behind : ℕ → UInt8) (scancode : UInt8) :
    kb.mappedChar behind scancode
      = if kb.upper then capitalLetter behind scancode else character scancode := by
  rw [KeyboardDriverState.mappedChar]
  cases hu : kb.shiftPressed ^^ kb.capsCond <;> simp [KeyboardDriverState.upper, hu, character]

/-- With the flags cancelling out the three keys work, Space as long as the index counts. -/
theorem lower_works (behind : ℕ → UInt8) (hon : t.keyboard.keyboardInputOn = true)
    (hu : t.keyboard.upper = false) :
    (t.tempCode ≠ scancodeEnter →
      (keyboardIsr behind t scancodeEnter).keyboard
        = { t.keyboard with keyboardInputOn := false }) ∧
    (t.tempCode ≠ scancodeBackspace → t.keyboard.typed ≠ [] →
      (keyboardIsr behind t scancodeBackspace).keyboard.typed = t.keyboard.typed.dropLast) ∧
    ((t.tempCode ≠ scancodeSpace →
      (keyboardIsr behind t scancodeSpace).keyboard.typed = t.keyboard.typed ++ [32]) ↔
      (t.tempCode ≠ scancodeSpace → t.keyboard.bufferIndex ≠ 255)) := by
  have hmap : ∀ scancode, t.keyboard.mappedChar behind scancode = character scancode := by
    intro scancode
    rw [mappedChar_eq, hu]
    rfl
  refine ⟨fun hnew => ?_, fun hnew hline => ?_, forall_congr' fun hnew => ?_⟩
  · rw [keyboardIsr_fresh behind hon (by decide) (by decide) (by decide) hnew.symm, hmap]
    rfl
  · have hi : 0 < t.keyboard.bufferIndex := by
      rw [UInt8.lt_iff_toNat_lt, ← typed_length]
      exact List.length_pos_iff.mpr hline
    have hpressed : (t.pressed t.console.getCursor.row t.console.getCursor.col scancodeBackspace
        charBackspace).keyboard
          = (t.erase t.console.getCursor.row t.console.getCursor.col).keyboard := by
      simp only [Terminal.pressed, hi, and_self, if_true,
        if_neg (show charBackspace ≠ scancodeEsc by decide)]
    rw [keyboardIsr_fresh behind hon (by decide) (by decide) (by decide) hnew.symm, hmap,
      show character scancodeBackspace = charBackspace by decide, hpressed, erase_typed hi]
  · have hspace : t.keyboard.mappedChar behind scancodeSpace = 32 := by
      rw [hmap]
      decide
    rw [keyboardIsr_stores behind hon (by decide) (by decide) (by decide) (by decide) hnew.symm
      hspace (by decide) (by decide) (by decide), store_typed_iff, and_iff_left rfl]

/-- With the upper map answering, Enter or Space is fresh and does not work. -/
theorem upper_fails (hon : t.keyboard.keyboardInputOn = true) (hu : t.keyboard.upper = true)
    (henter : t.tempCode ≠ scancodeEnter →
      (keyboardIsr behind t scancodeEnter).keyboard
        = { t.keyboard with keyboardInputOn := false })
    (hspace : t.tempCode ≠ scancodeSpace →
      (keyboardIsr behind t scancodeSpace).keyboard.typed = t.keyboard.typed ++ [32]) : False := by
  have hmap : ∀ scancode,
      t.keyboard.mappedChar behind scancode = capitalLetter behind scancode := by
    intro scancode
    rw [mappedChar_eq, hu]
    rfl
  by_cases hlast : t.tempCode = scancodeSpace
  · -- Enter is stored as a question mark
    have hnew : t.tempCode ≠ scancodeEnter := by
      rw [hlast]
      decide
    have hmark : t.keyboard.mappedChar behind scancodeEnter = 63 := by
      rw [hmap]
      rfl
    have hstored := keyboardIsr_stores behind hon (by decide) (by decide) (by decide) (by decide)
      hnew.symm hmark (by decide) (by decide) (by decide)
    have hoff := congrArg KeyboardDriverState.keyboardInputOn (hstored.symm.trans (henter hnew))
    exact absurd (show true = false from hon.symm.trans hoff) (by decide)
  · have hnul : t.keyboard.mappedChar behind scancodeSpace = 0 := by
      rw [hmap]
      rfl
    have hstored := keyboardIsr_stores behind hon (by decide) (by decide) (by decide) (by decide)
      (Ne.symm hlast) hnul (by decide) (by decide) (by decide)
    have hline := hspace hlast
    rw [hstored, store_typed_iff] at hline
    exact absurd hline.2 (by decide)

/-- **The control keys work** exactly when the flags cancel out behind the sequence, no
    scancode from 58 on met the upper map, and a fresh Space finds an index it can count. -/
theorem controlKeys_iff (behind : ℕ → UInt8) (t : Terminal) (scancodes : List UInt8)
    (hon : ListensTo behind t scancodes) :
    ControlKeysWork behind t scancodes ↔
      UpperInside t.keyboard scancodes ∧
        (scancodes.foldl KeyboardDriverState.modifiers t.keyboard).upper = false ∧
        (lastScancode t scancodes ≠ scancodeSpace →
          (scancodes.foldl (keyboardIsr behind) t).keyboard.bufferIndex ≠ 255) := by
  have hflags := (foldl_sameFlags hon ⟨rfl, rfl⟩).upper
  rw [← indexesInside_iff hon ⟨rfl, rfl⟩, ← hflags, ← foldl_tempCode hon]
  constructor
  · intro h
    have hu : (scancodes.foldl (keyboardIsr behind) t).keyboard.upper = false := by
      by_contra hu
      exact upper_fails hon.on (Bool.eq_true_of_not_eq_false hu) h.enter h.space
    exact ⟨h.inside, hu, (lower_works behind hon.on hu).2.2.mp h.space⟩
  · rintro ⟨hinside, hu, hspace⟩
    obtain ⟨henter, hback, hiff⟩ := lower_works behind hon.on hu
    exact ⟨hinside, henter, hback, hiff.mpr hspace⟩

/-- Shift goes down and up again. -/
theorem controlKeys_iff_shift :
    ControlKeysWork (fun _ => 0) listening [42, 170] ↔
      UpperInside listening.keyboard [42, 170] ∧
        ([42, 170].foldl KeyboardDriverState.modifiers listening.keyboard).upper = false ∧
        (lastScancode listening [42, 170] ≠ scancodeSpace →
          ([42, 170].foldl (keyboardIsr fun _ => 0) listening).keyboard.bufferIndex ≠ 255) :=
  controlKeys_iff (fun _ => 0) listening [42, 170] ⟨rfl, rfl, rfl⟩

/-- The press of caps lock is looked up behind the upper map, and Enter is then stored. -/
theorem capsLock_breaks :
    ListensTo (fun _ => 0) listening [58] ∧ ¬ ControlKeysWork (fun _ => 0) listening [58] := by
  refine ⟨⟨rfl, rfl⟩, fun h => ?_⟩
  exact absurd h.inside.1 (by decide)

end OsyConsole
