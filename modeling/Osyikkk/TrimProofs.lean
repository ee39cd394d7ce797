import Osyikkk.ReadLineProofs
import Osyikkk.TokenStoreProofs
import Mathlib.Algebra.Order.Group.Int

/-!
# Trimming the input buffer

The first loop of `execute_cmd` shifts the whole buffer for every leading space and reads one
byte behind it, the second one goes down from the end of the buffer to the last byte that is
not NUL and has no lower bound, and the third one clears the spaces it finds from there on.
They stay in the buffer exactly when the line begins with no space and the buffer is not
empty (`trimSafe_iff`).
-/

namespace OsyShell

open SeparatedWords OsyConsole

/-! ## The line in a buffer -/

/-- `input[0]` to `input[255]`. -/
def bytesOf (input : Buffer) : List UInt8 := (List.range 256).map fun i => input (UInt8.ofNat i)

/-- The line: the bytes before the first NUL, and all bytes of a full buffer. -/
def contentOf (input : Buffer) : List UInt8 := cString (bytesOf input)

/-- The buffer that the driver delivers, as the shell indexes it. -/
def inputOf (line : LineBuffer) : Buffer := fun i => line ⟨i.toNat, UInt8.toNat_lt i⟩

/-- The loops end, stay inside the buffer, and leave the line without the spaces at its
    ends. -/
def TrimSafe (around : ℤ → UInt8) (input : Buffer) : Prop :=
  ∃ n r, trimLoops n (.ofBuffer around input) = some r ∧
    (∀ i ∈ r.accesses, 0 ≤ i ∧ i < 256) ∧
    contentOf r.buffer = strip isSpace (contentOf input)

variable {around : ℤ → UInt8} {input : Buffer} {a r : InputArray} {n : ℕ} {k k' : ℤ}

theorem ofBuffer_bytes (around : ℤ → UInt8) (input : Buffer) {i : ℕ} (hi : i < 256) :
    (InputArray.ofBuffer around input).bytes i = input (UInt8.ofNat i) := by
  have hin : (0 : ℤ) ≤ i ∧ (i : ℤ) < 256 := by omega
  simp only [InputArray.ofBuffer, if_pos hin, Int.toNat_natCast]

theorem buffer_ofNat (a : InputArray) {i : ℕ} (hi : i < 256) :
    a.buffer (UInt8.ofNat i) = a.bytes i := by
  show a.bytes ((UInt8.ofNat i).toNat : ℕ) = a.bytes i
  rw [UInt8.toNat_ofNat', Nat.mod_eq_of_lt hi]

@[simp] theorem touch_bytes (a : InputArray) (i : ℤ) : (a.touch i).bytes = a.bytes := rfl

theorem put_bytes_self (a : InputArray) (i : ℤ) (c : UInt8) : (a.put i c).bytes i = c :=
  Function.update_self _ _ _

theorem put_bytes_of_ne (a : InputArray) {i k : ℤ} (h : i ≠ k) (c : UInt8) :
    (a.put k c).bytes i = a.bytes i := Function.update_of_ne h _ _

theorem mem_touch {i : ℤ} : i ∈ (a.touch k).accesses ↔ i ∈ a.accesses ∨ i = k := by
  rw [InputArray.touch, List.mem_append, List.mem_singleton]

theorem mem_put {i : ℤ} {c : UInt8} : i ∈ (a.put k c).accesses ↔ i ∈ a.accesses ∨ i = k := by
  rw [InputArray.put, List.mem_append, List.mem_singleton]

/-! ## One loop after the other -/

theorem pulls_accesses (is : List ℕ) (a : InputArray) {i : ℤ} (hi : i ∈ a.accesses) :
    i ∈ (is.foldl InputArray.pull a).accesses := by
  induction is generalizing a with
  | nil => exact hi
  | cons j is ih =>
      exact ih (a.pull j) (mem_put.mpr (Or.inl (mem_touch.mpr (Or.inl hi))))

/-- A shift of the buffer reads the byte behind it. -/
theorem shift_behind (a : InputArray) :
    256 ∈ ((List.range 256).foldl InputArray.pull a).accesses := by
  rw [List.range_succ, List.foldl_append]
  exact mem_put.mpr (Or.inl (mem_touch.mpr (Or.inr rfl)))

/-- The first loop leaves the buffer as it is, or it has read behind it. -/
theorem shiftSpaces_some (h : shiftSpaces n a = some r) :
    (a.bytes 0 ≠ space ∧ r = a.touch 0) ∨ (a.bytes 0 = space ∧ 256 ∈ r.accesses) := by
  have hkept : ∀ {n : ℕ} {a : InputArray}, 256 ∈ a.accesses → shiftSpaces n a = some r →
      256 ∈ r.accesses := by
    intro n
    induction n with
    | zero => exact fun _ h => absurd h.symm (Option.some_ne_none r)
    | succ n ih =>
        intro a ha h
        rw [shiftSpaces] at h
        by_cases h0 : a.bytes 0 = space
        · rw [if_pos h0] at h
          exact ih (pulls_accesses _ _ (mem_touch.mpr (Or.inl ha))) h
        · rw [if_neg h0] at h
          rw [← Option.some.inj h]
          exact mem_touch.mpr (Or.inl ha)
  cases n with
  | zero => exact absurd h.symm (Option.some_ne_none r)
  | succ n =>
      rw [shiftSpaces] at h
      by_cases h0 : a.bytes 0 = space
      · rw [if_pos h0] at h
        exact Or.inr ⟨h0, hkept (shift_behind _) h⟩
      · rw [if_neg h0] at h
        exact Or.inl ⟨h0, (Option.some.inj h).symm⟩

/-- What the second loop has seen when it ends. -/
structure SkippedNuls (a : InputArray) (k k' : ℤ) (r : InputArray) : Prop where
  le : k' ≤ k
  bytes : r.bytes = a.bytes
  nonzero : a.bytes k' ≠ 0
  zeros : ∀ i, k' < i → i ≤ k → a.bytes i = 0
  accesses : ∀ i, i ∈ r.accesses ↔ i ∈ a.accesses ∨ (k' ≤ i ∧ i ≤ k)

theorem skipNuls_some (h : skipNuls n k a = some (k', r)) : SkippedNuls a k k' r := by
  induction n generalizing k a with
  | zero => exact absurd h.symm (Option.some_ne_none _)
  | succ n ih =>
      rw [skipNuls] at h
      by_cases h0 : a.bytes k = 0
      · rw [if_pos h0] at h
        have hrest := ih h
        have hle := hrest.le
        refine ⟨by omega, hrest.bytes, hrest.nonzero, ?_, ?_⟩
        · intro i hlow hhigh
          by_cases hik : i = k
          · rw [hik]
            exact h0
          · exact hrest.zeros i hlow (by omega)
        · intro i
          rw [hrest.accesses, mem_touch, or_assoc]
          refine or_congr_right ?_
          omega
      · rw [if_neg h0] at h
        obtain ⟨rfl, rfl⟩ := Prod.mk.inj (Option.some.inj h)
        refine ⟨le_refl k, rfl, h0, fun i hlow hhigh => absurd hhigh (not_le.mpr hlow), ?_⟩
        intro i
        rw [mem_touch]
        refine or_congr_right ?_
        omega

/-- The second loop ends at a byte that is not NUL. -/
theorem skipNuls_ends {d : ℕ} (hd : a.bytes (k - d) ≠ 0) (hn : d < n) :
    ∃ k' r, skipNuls n k a = some (k', r) := by
  induction n generalizing k a d with
  | zero => exact absurd hn (Nat.not_lt_zero d)
  | succ n ih =>
      rw [skipNuls]
      by_cases h0 : a.bytes k = 0
      · rw [if_pos h0]
        cases d with
        | zero => exact absurd h0 (by simpa using hd)
        | succ d =>
            refine ih (d := d) ?_ (Nat.lt_of_succ_lt_succ hn)
            rw [show k - 1 - (d : ℤ) = k - ((d + 1 : ℕ) : ℤ) by push_cast; ring]
            exact hd
      · rw [if_neg h0]
        exact ⟨k, _, rfl⟩

/-- What the third loop has done when it ends, above the byte `j` it ends at. -/
structure ClearedSpaces (a : InputArray) (k j : ℤ) (r : InputArray) : Prop where
  le : j ≤ k
  stops : a.bytes j ≠ space
  spaces : ∀ i, j < i → i ≤ k → a.bytes i = space
  bytes : ∀ i, r.bytes i = if j < i ∧ i ≤ k then 0 else a.bytes i
  accesses : ∀ i, i ∈ r.accesses ↔ i ∈ a.accesses ∨ (j ≤ i ∧ i ≤ k)

theorem clearSpaces_some (h : clearSpaces n k a = some r) : ∃ j, ClearedSpaces a k j r := by
  induction n generalizing k a with
  | zero => exact absurd h.symm (Option.some_ne_none r)
  | succ n ih =>
      rw [clearSpaces] at h
      by_cases h0 : a.bytes k = space
      · rw [if_pos h0] at h
        obtain ⟨j, hrest⟩ := ih h
        have hle := hrest.le
        have hbelow : ∀ i, i < k → ((a.touch k).put k 0).bytes i = a.bytes i :=
          fun i hi => put_bytes_of_ne _ (ne_of_lt hi) 0
        refine ⟨j, by omega, ?_, ?_, ?_, ?_⟩
        · rw [← hbelow j (by omega)]
          exact hrest.stops
        · intro i hlow hhigh
          by_cases hik : i = k
          · rw [hik]
            exact h0
          · rw [← hbelow i (by omega)]
            exact hrest.spaces i hlow (by omega)
        · intro i
          rw [hrest.bytes]
          by_cases hik : i = k
          · subst hik
            rw [if_neg (by omega), if_pos (by omega), put_bytes_self]
          · rw [put_bytes_of_ne _ hik, touch_bytes]
            exact if_congr (by omega) rfl rfl
        · intro i
          rw [hrest.accesses, mem_put, mem_touch, or_assoc, or_assoc]
          refine or_congr_right ?_
          omega
      · rw [if_neg h0] at h
        obtain rfl := Option.some.inj h
        refine ⟨k, le_refl k, h0, fun i hlow hhigh => absurd hhigh (not_le.mpr hlow), ?_, ?_⟩
        · intro i
          exact (if_neg (by omega)).symm
        · intro i
          rw [mem_touch]
          refine or_congr_right ?_
          omega

/-- The third loop ends at a byte that is not a space. -/
theorem clearSpaces_ends {d : ℕ} (hd : a.bytes (k - d) ≠ space) (hn : d < n) :
    ∃ r, clearSpaces n k a = some r := by
  induction n generalizing k a d with
  | zero => exact absurd hn (Nat.not_lt_zero d)
  | succ n ih =>
      rw [clearSpaces]
      by_cases h0 : a.bytes k = space
      · rw [if_pos h0]
        cases d with
        | zero => exact absurd h0 (by simpa using hd)
        | succ d =>
            refine ih (d := d) ?_ (Nat.lt_of_succ_lt_succ hn)
            have hlow : k - 1 - (d : ℤ) ≠ k := by omega
            rw [put_bytes_of_ne _ hlow, touch_bytes,
              show k - 1 - (d : ℤ) = k - ((d + 1 : ℕ) : ℤ) by push_cast; ring]
            exact hd
      · rw [if_neg h0]
        exact ⟨_, rfl⟩

/-! ## The line they leave -/

theorem isSpace_eq_true {c : UInt8} : isSpace c = true ↔ c = space := by
  rw [isSpace, decide_eq_true_eq]

theorem isSpace_eq_false {c : UInt8} : isSpace c = false ↔ c ≠ space := by
  rw [isSpace, decide_eq_false_iff_not]

section Parts

variable {kept spaces zeros cleared : List UInt8}

/-- A NUL in front of the last byte of a text ends its line before that byte. -/
theorem behind_line {s z : List UInt8} (h0 : 0 ∈ s) (hend : ∀ c ∈ s.getLast?, c ≠ 0) :
    ¬ ∀ c ∈ (s ++ z).drop (cString s).length, c = 0 := by
  intro h
  rcases List.eq_nil_or_concat' s with rfl | ⟨init, c, rfl⟩
  · exact absurd h0 List.not_mem_nil
  have hc : c ≠ 0 := hend c List.getLast?_concat
  have hinit : 0 ∈ init := by
    rcases List.mem_append.mp h0 with h0 | h0
    · exact h0
    · exact absurd (List.mem_singleton.mp h0).symm hc
  have hle : (cString init).length ≤ init.length := (List.takeWhile_prefix _).length_le
  rw [cString_append, if_pos hinit, List.append_assoc, List.drop_append_of_le_length hle] at h
  exact hc (h c (List.mem_append_right _ (List.mem_append_left _ List.mem_cons_self)))

/-- The spaces in front of the zeros are the line's, unless a NUL stands before them. -/
theorem cleared_eq_strip_iff (hne : kept ≠ []) (hfirst : ∀ c ∈ kept.head?, c ≠ space)
    (hlast : ∀ c ∈ kept.getLast?, c ≠ space) (hspaces : ∀ c ∈ spaces, c = space)
    (hend : ∀ c ∈ (kept ++ spaces).getLast?, c ≠ 0) (hzeros : ∀ c ∈ zeros, c = 0)
    (hcleared : ∀ c ∈ cleared, c = 0) :
    cString (kept ++ cleared) = strip isSpace (cString (kept ++ spaces ++ zeros)) ↔
      ((cString (kept ++ spaces ++ zeros)).getLast? = some space →
        ∀ c ∈ (kept ++ spaces ++ zeros).drop (cString (kept ++ spaces ++ zeros)).length,
          c = 0) := by
  rw [cString_append_zeros kept hcleared, cString_append_zeros (kept ++ spaces) hzeros]
  by_cases h0 : 0 ∈ kept
  · -- the line ends at the NUL, and nothing of it was cleared
    have hbehind := behind_line (z := zeros) (List.mem_append_left spaces h0) hend
    have hhead : ∀ c ∈ (cString kept).head?, isSpace c = false := by
      obtain ⟨c, rest, rfl⟩ := List.exists_cons_of_ne_nil hne
      rw [cString_cons]
      split_ifs
      · exact fun b hb => absurd hb (Option.not_mem_none b)
      · intro b hb
        exact isSpace_eq_false.mpr (hfirst b hb)
    rw [cString_append, if_pos h0] at hbehind ⊢
    rw [eq_comm, strip_eq_self_iff hhead]
    constructor
    · intro h hspace
      exact absurd rfl (isSpace_eq_false.mp (h space hspace))
    · intro h c hc
      refine isSpace_eq_false.mpr fun hspace => hbehind (h ?_)
      rw [← hspace]
      exact hc
  · have hline : 0 ∉ kept ++ spaces := by
      rw [List.mem_append]
      rintro (h | h)
      · exact h0 h
      · exact absurd (hspaces 0 h) (by decide)
    have htrimmed : Trimmed isSpace kept :=
      ⟨fun c hc => isSpace_eq_false.mpr (hfirst c hc),
        fun c hc => isSpace_eq_false.mpr (hlast c hc)⟩
    rw [cString_eq_self h0, cString_eq_self hline,
      strip_append_gap htrimmed hne fun c hc => isSpace_eq_true.mpr (hspaces c hc)]
    refine iff_of_true rfl fun _ c hc => ?_
    rw [List.drop_left] at hc
    exact hzeros c hc

end Parts

/-! ## The buffer they leave -/

/-- The bytes of a buffer from index `start` on. -/
def cells (input : Buffer) (start count : ℕ) : List UInt8 :=
  (List.range' start count).map fun i => input (UInt8.ofNat i)

theorem mem_cells {start count : ℕ} {c : UInt8} :
    c ∈ cells input start count ↔
      ∃ i, start ≤ i ∧ i < start + count ∧ input (UInt8.ofNat i) = c := by
  simp only [cells, List.mem_map, List.mem_range'_1, and_assoc]

theorem cells_append (input : Buffer) (start m n : ℕ) :
    cells input start m ++ cells input (start + m) n = cells input start (m + n) := by
  rw [cells, cells, cells, ← List.map_append, List.range'_append_1]

theorem cells_head? (input : Buffer) (start count : ℕ) :
    (cells input start (count + 1)).head? = some (input (UInt8.ofNat start)) := by
  rw [cells, List.range'_succ]
  rfl

theorem cells_getLast? (input : Buffer) (start count : ℕ) :
    (cells input start (count + 1)).getLast? = some (input (UInt8.ofNat (start + count))) := by
  rw [cells, List.range'_1_concat, List.map_append]
  exact List.getLast?_concat

theorem bytesOf_eq_cells (input : Buffer) {j d e : ℕ} (h : j + 1 + d + e = 256) :
    bytesOf input
      = cells input 0 (j + 1) ++ cells input (j + 1) d ++ cells input (j + 1 + d) e := by
  have hfront := cells_append input 0 (j + 1) d
  have hall := cells_append input 0 (j + 1 + d) e
  simp only [Nat.zero_add, h] at hfront hall
  rw [hfront, hall, bytesOf, List.range_eq_range', cells]

/-- The last byte that is not NUL is at `j + d`, the last one before it that is no space at `j`,
    and `e` bytes are behind them. -/
structure LineEnd (input : Buffer) (j d e : ℕ) : Prop where
  total : j + 1 + d + e = 256
  stop : input (UInt8.ofNat j) ≠ space
  spaces : ∀ i, j < i → i ≤ j + d → input (UInt8.ofNat i) = space
  nonzero : input (UInt8.ofNat (j + d)) ≠ 0
  zeros : ∀ i, j + d < i → i < 256 → input (UInt8.ofNat i) = 0

/-- The `d` bytes behind `j` have been cleared. -/
def ClearedBehind (input out : Buffer) (j d : ℕ) : Prop :=
  ∀ i, i < 256 →
    out (UInt8.ofNat i) = if j < i ∧ i ≤ j + d then 0 else input (UInt8.ofNat i)

/-- The line that is left. -/
theorem LineEnd.content_iff {out : Buffer} {j d e : ℕ} (h : LineEnd input j d e)
    (hfirst : input 0 ≠ space) (hout : ClearedBehind input out j d) :
    contentOf out = strip isSpace (contentOf input) ↔
      ((contentOf input).getLast? = some space →
        ∀ c ∈ (bytesOf input).drop (contentOf input).length, c = 0) := by
  have h256 := h.total
  have hkept : cells out 0 (j + 1) = cells input 0 (j + 1) := by
    refine List.map_congr_left fun i hi => ?_
    have hle := (List.mem_range'_1.mp hi).2
    rw [hout i (by omega), if_neg (by omega)]
  have hcleared : ∀ c ∈ cells out (j + 1) d ++ cells out (j + 1 + d) e, c = 0 := by
    intro c hc
    rcases List.mem_append.mp hc with hc | hc
    · obtain ⟨i, hlow, hhigh, rfl⟩ := mem_cells.mp hc
      rw [hout i (by omega), if_pos (by omega)]
    · obtain ⟨i, hlow, hhigh, rfl⟩ := mem_cells.mp hc
      rw [hout i (by omega), if_neg (by omega)]
      exact h.zeros i (by omega) (by omega)
  rw [contentOf, contentOf, bytesOf_eq_cells input h256, bytesOf_eq_cells out h256,
    List.append_assoc, hkept]
  refine cleared_eq_strip_iff ?_ ?_ ?_ ?_ ?_ ?_ hcleared
  · exact List.ne_nil_of_length_pos (by
      rw [cells, List.length_map, List.length_range']
      exact Nat.succ_pos j)
  · intro c hc
    rw [cells_head?] at hc
    rw [← Option.some.inj hc]
    exact hfirst
  · intro c hc
    rw [cells_getLast?, Nat.zero_add] at hc
    rw [← Option.some.inj hc]
    exact h.stop
  · intro c hc
    obtain ⟨i, hlow, hhigh, rfl⟩ := mem_cells.mp hc
    exact h.spaces i (by omega) (by omega)
  · intro c hc
    have hcells := cells_append input 0 (j + 1) d
    have hlength : j + 1 + d = j + d + 1 := by omega
    rw [Nat.zero_add, hlength] at hcells
    rw [hcells, cells_getLast?, Nat.zero_add] at hc
    rw [← Option.some.inj hc]
    exact h.nonzero
  · intro c hc
    obtain ⟨i, hlow, hhigh, rfl⟩ := mem_cells.mp hc
    exact h.zeros i (by omega) (by omega)

/-! ## The three loops -/

/-- What the loops have done when they end inside the buffer. -/
theorem trimLoops_some (h : trimLoops n (.ofBuffer around input) = some r)
    (hinside : ∀ i ∈ r.accesses, 0 ≤ i ∧ i < 256) :
    input 0 ≠ space ∧
      ∃ j d e, LineEnd input j d e ∧ ClearedBehind input r.buffer j d := by
  simp only [trimLoops, Option.bind_eq_bind, Option.bind_eq_some_iff] at h
  obtain ⟨a₁, hshift, ⟨k, a₂⟩, hskip, hclear⟩ := h
  have hnuls := skipNuls_some hskip
  obtain ⟨j, hcleared⟩ := clearSpaces_some hclear
  rcases shiftSpaces_some hshift with ⟨hfirst, rfl⟩ | ⟨-, hbehind⟩
  swap
  · -- a shift has read behind the buffer, whatever the later loops do
    have hread := (hcleared.accesses 256).mpr (Or.inl ((hnuls.accesses 256).mpr (Or.inl hbehind)))
    exact absurd (hinside 256 hread).2 (lt_irrefl 256)
  have hj : 0 ≤ j := (hinside j ((hcleared.accesses j).mpr (Or.inr ⟨le_refl j, hcleared.le⟩))).1
  obtain ⟨j, rfl⟩ := Int.eq_ofNat_of_zero_le hj
  obtain ⟨d, rfl⟩ := Int.le.dest hcleared.le
  have hk := hnuls.le
  obtain ⟨e, he⟩ : ∃ e, j + 1 + d + e = 256 := ⟨255 - (j + d), by omega⟩
  have hbytes : ∀ i : ℕ, i < 256 → a₂.bytes i = input (UInt8.ofNat i) := by
    intro i hi
    rw [hnuls.bytes, touch_bytes, ofBuffer_bytes around input hi]
  have hbytes₁ : ∀ i : ℕ, i < 256 →
      ((InputArray.ofBuffer around input).touch 0).bytes i = input (UInt8.ofNat i) := by
    intro i hi
    rw [touch_bytes, ofBuffer_bytes around input hi]
  refine ⟨?_, j, d, e, ⟨he, ?_, ?_, ?_, ?_⟩, ?_⟩
  · rw [← Nat.cast_zero, ofBuffer_bytes around input (by decide)] at hfirst
    exact hfirst
  · rw [← hbytes j (by omega)]
    exact hcleared.stops
  · intro i hlow hhigh
    rw [← hbytes i (by omega)]
    exact hcleared.spaces i (by omega) (by omega)
  · rw [← hbytes₁ (j + d) (by omega)]
    push_cast
    exact hnuls.nonzero
  · intro i hlow hhigh
    rw [← hbytes₁ i hhigh]
    exact hnuls.zeros i (by omega) (by omega)
  · intro i hi
    rw [buffer_ofNat r hi, hcleared.bytes, hbytes i hi]
    exact if_congr (by omega) rfl rfl

/-- A buffer that is not empty and begins with no space lets the loops end inside it. -/
theorem trimLoops_ends (around : ℤ → UInt8) (hfirst : input 0 ≠ space) (hne : ∃ i, input i ≠ 0) :
    ∃ r, trimLoops 257 (.ofBuffer around input) = some r ∧
      ∀ i ∈ r.accesses, 0 ≤ i ∧ i < 256 := by
  obtain ⟨b, hb⟩ := hne
  have hlt := UInt8.toNat_lt b
  have hzero : (InputArray.ofBuffer around input).bytes 0 ≠ space := by
    rw [← Nat.cast_zero, ofBuffer_bytes around input (by decide)]
    exact hfirst
  have hshift : shiftSpaces 257 (.ofBuffer around input)
      = some ((InputArray.ofBuffer around input).touch 0) := by
    rw [shiftSpaces, if_neg hzero]
  have hbyte : ((InputArray.ofBuffer around input).touch 0).bytes b.toNat ≠ 0 := by
    rw [touch_bytes, ofBuffer_bytes around input hlt, UInt8.ofNat_toNat]
    exact hb
  obtain ⟨k, a₂, hskip⟩ : ∃ k a₂, skipNuls 257 255
      ((InputArray.ofBuffer around input).touch 0) = some (k, a₂) := by
    refine skipNuls_ends (d := 255 - b.toNat) ?_ (by omega)
    rw [show (255 : ℤ) - ((255 - b.toNat : ℕ) : ℤ) = (b.toNat : ℤ) by omega]
    exact hbyte
  have hnuls := skipNuls_some hskip
  -- the second loop stops at that byte at the latest, and the third one at the first byte
  have hk : (b.toNat : ℤ) ≤ k := by
    by_contra hno
    exact hbyte (hnuls.zeros b.toNat (not_le.mp hno) (by omega))
  have hstart : a₂.bytes 0 ≠ space := by
    rw [hnuls.bytes]
    exact hzero
  have hk255 := hnuls.le
  obtain ⟨r, hclear⟩ : ∃ r, clearSpaces 257 k a₂ = some r := by
    refine clearSpaces_ends (d := k.toNat) ?_ (by omega)
    rw [show k - (k.toNat : ℤ) = 0 by omega]
    exact hstart
  obtain ⟨j, hcleared⟩ := clearSpaces_some hclear
  have hj : 0 ≤ j := by
    by_contra hno
    exact hstart (hcleared.spaces 0 (not_le.mp hno) (by omega))
  refine ⟨r, ?_, fun i hi => ?_⟩
  · simp only [trimLoops, hshift, hskip, Option.bind_eq_bind, Option.bind_some, hclear]
  · rw [hcleared.accesses, hnuls.accesses, mem_touch] at hi
    rcases hi with ((hi | rfl) | hi) | hi
    · exact absurd hi List.not_mem_nil
    · decide
    · omega
    · omega

/-! ## The loops of the other results -/

theorem lastByte_eq {k m : ℕ} (hk : input (UInt8.ofNat k) ≠ 0) (hlt : k < m)
    (hzeros : ∀ i, k < i → i < m → input (UInt8.ofNat i) = 0) : lastByte input m = some k := by
  induction m with
  | zero => exact absurd hlt (Nat.not_lt_zero k)
  | succ m ih =>
      rw [lastByte]
      by_cases hkm : k = m
      · subst hkm
        exact if_neg hk
      · rw [if_pos (hzeros m (by omega) (Nat.lt_succ_self m))]
        exact ih (by omega) fun i hlow hhigh => hzeros i hlow (Nat.lt_succ_of_lt hhigh)

theorem trimBack_eq {j d : ℕ} (hd : j + d < 256) (hstop : input (UInt8.ofNat j) ≠ space)
    (hspaces : ∀ i, j < i → i ≤ j + d → input (UInt8.ofNat i) = space) :
    ∃ out, trimBack (j + d + 1) input = some out ∧ ClearedBehind input out j d := by
  induction d generalizing input with
  | zero =>
      refine ⟨input, ?_, fun i _ => (if_neg (by omega)).symm⟩
      rw [trimBack, if_neg (by simpa using hstop)]
  | succ d ih =>
      have hne : ∀ {i : ℕ}, i < 256 → i ≠ j + (d + 1) →
          UInt8.ofNat i ≠ UInt8.ofNat (j + (d + 1)) := by
        intro i hi hij heq
        have hnat := congrArg UInt8.toNat heq
        rw [UInt8.toNat_ofNat', UInt8.toNat_ofNat', Nat.mod_eq_of_lt hi,
          Nat.mod_eq_of_lt hd] at hnat
        exact hij hnat
      have hstop' : Function.update input (UInt8.ofNat (j + (d + 1))) 0 (UInt8.ofNat j)
          ≠ space := by
        rw [Function.update_of_ne (hne (by omega) (by omega))]
        exact hstop
      have hspaces' : ∀ i, j < i → i ≤ j + d →
          Function.update input (UInt8.ofNat (j + (d + 1))) 0 (UInt8.ofNat i) = space := by
        intro i hlow hhigh
        rw [Function.update_of_ne (hne (by omega) (by omega))]
        exact hspaces i hlow (by omega)
      obtain ⟨out, hback, hout⟩ := ih (by omega) hstop' hspaces'
      refine ⟨out, ?_, fun i hi => ?_⟩
      · rw [trimBack, if_pos (hspaces _ (by omega) (le_refl _))]
        exact hback
      · rw [hout i hi]
        by_cases hij : i = j + (d + 1)
        · subst hij
          rw [if_neg (by omega), if_pos (by omega), Function.update_self]
        · rw [Function.update_of_ne (hne hi hij)]
          exact if_congr (by omega) rfl rfl

/-- Where the loops stay inside the buffer, `trim` leaves what they leave. -/
theorem trim_of_inside (h : trimLoops n (.ofBuffer around input) = some r)
    (hinside : ∀ i ∈ r.accesses, 0 ≤ i ∧ i < 256) (behind : UInt8) :
    trim behind input = some r.buffer := by
  obtain ⟨hfirst, j, d, e, hend, hout⟩ := trimLoops_some h hinside
  have h256 := hend.total
  have hfront : trimFront behind 257 input = some input := by
    rw [trimFront]
    exact if_neg hfirst
  have hlast : lastByte input 256 = some (j + d) :=
    lastByte_eq hend.nonzero (by omega) hend.zeros
  obtain ⟨out, hback, hsame⟩ := trimBack_eq (by omega) hend.stop hend.spaces
  have heq : out = r.buffer := by
    funext i
    have hi := UInt8.toNat_lt i
    rw [← UInt8.ofNat_toNat (x := i), hsame _ hi, hout _ hi]
  simp only [trim, hfront, hlast, Option.bind_eq_bind, Option.bind_some, hback, heq]

/-- **Trimming** is safe exactly on the buffers that are not empty, begin with no space, and have
    only NULs behind a line that ends with one. -/
theorem trimSafe_iff (around : ℤ → UInt8) (input : Buffer) :
    TrimSafe around input ↔
      input 0 ≠ space ∧ (∃ i, input i ≠ 0) ∧
        ((contentOf input).getLast? = some space →
          ∀ c ∈ (bytesOf input).drop (contentOf input).length, c = 0) := by
  constructor
  · rintro ⟨n, r, hrun, hinside, hcontent⟩
    obtain ⟨hfirst, j, d, e, hend, hout⟩ := trimLoops_some hrun hinside
    exact ⟨hfirst, ⟨_, hend.nonzero⟩, (hend.content_iff hfirst hout).mp hcontent⟩
  · rintro ⟨hfirst, hne, hbehind⟩
    obtain ⟨r, hrun, hinside⟩ := trimLoops_ends around hfirst hne
    obtain ⟨-, j, d, e, hend, hout⟩ := trimLoops_some hrun hinside
    exact ⟨257, r, hrun, hinside, (hend.content_iff hfirst hout).mpr hbehind⟩

/-- Enter on an empty line: the second loop leaves the buffer. -/
theorem emptyLine_notTrimmed :
    (∃ events, (1, fun _ => 0) ∈
      (afterEvents (fun _ => 0) Console.blank (fun _ => 0) events).delivered) ∧
    ¬ TrimSafe (fun _ => 0) (inputOf fun _ => 0) := by
  constructor
  · refine ⟨[.kernel, .interrupt scancodeEnter, .kernel, .kernel, .kernel], ?_⟩
    exact List.mem_singleton.mpr rfl
  · rintro ⟨n, r, hrun, hinside, -⟩
    obtain ⟨-, j, d, e, hend, -⟩ := trimLoops_some hrun hinside
    exact hend.nonzero rfl

end OsyShell
