import Mathlib.Data.List.Basic
import Mathlib.Algebra.Order.Ring.Nat
import Mathlib.Tactic.Ring

/-!
# Packed bit fields

A packed structure of bit fields is a number: the first field is in its lowest bits. `bits`
takes a range of bits out of a number, the way a manual describes a format. A range that
begins and ends between fields holds these fields, packed (`bits_pack`); so a format that is
written as fields is read off range by range, also where one range spans several fields.
-/

namespace BitFields

/-- A field of `width` bits. -/
structure Field where
  width : ℕ
  value : BitVec width

/-- The fields as a number, the first one lowest. -/
def pack : List Field → ℕ
  | [] => 0
  | f :: fs => f.value.toNat + 2 ^ f.width * pack fs

/-- The number of bits. -/
def totalWidth : List Field → ℕ
  | [] => 0
  | f :: fs => f.width + totalWidth fs

/-- `width` bits from bit `low` on. -/
def bits (low width n : ℕ) : ℕ := n / 2 ^ low % 2 ^ width

variable {fs gs : List Field}

theorem pack_lt (fs : List Field) : pack fs < 2 ^ totalWidth fs := by
  induction fs with
  | nil => exact Nat.one_pos
  | cons f fs ih =>
      have hf := f.value.isLt
      calc f.value.toNat + 2 ^ f.width * pack fs
          < 2 ^ f.width + 2 ^ f.width * pack fs := by omega
        _ = 2 ^ f.width * (pack fs + 1) := by ring
        _ ≤ 2 ^ f.width * 2 ^ totalWidth fs := Nat.mul_le_mul_left _ ih
        _ = 2 ^ totalWidth (f :: fs) := by rw [totalWidth, pow_add]

theorem pack_append (fs gs : List Field) :
    pack (fs ++ gs) = pack fs + 2 ^ totalWidth fs * pack gs := by
  induction fs with
  | nil => simp only [List.nil_append, pack, totalWidth, pow_zero, one_mul, zero_add]
  | cons f fs ih =>
      rw [List.cons_append, pack, ih, pack, totalWidth, pow_add]
      ring

/-- **Reading fields.** The bits between two field boundaries are the fields there. -/
theorem bits_pack (fs gs hs : List Field) :
    bits (totalWidth fs) (totalWidth gs) (pack (fs ++ (gs ++ hs))) = pack gs := by
  rw [bits, pack_append, Nat.add_mul_div_left _ _ (Nat.two_pow_pos _),
    Nat.div_eq_of_lt (pack_lt fs), zero_add, pack_append, Nat.add_mul_mod_self_left,
    Nat.mod_eq_of_lt (pack_lt gs)]

/-- One field. -/
theorem bits_field (fs : List Field) (f : Field) (hs : List Field) :
    bits (totalWidth fs) f.width (pack (fs ++ f :: hs)) = f.value.toNat := by
  have hpack : pack [f] = f.value.toNat := by
    rw [pack, pack, Nat.mul_zero, Nat.add_zero]
  rw [← hpack, ← bits_pack fs [f] hs]
  rfl

end BitFields
