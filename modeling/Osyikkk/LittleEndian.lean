import Mathlib.Data.Nat.Basic
import Mathlib.Algebra.Order.Ring.Nat
import Mathlib.Tactic.Ring
import Mathlib.Tactic.Linarith

/-!
# Little-endian numbers in byte memory

`byteAt n i` is the byte of weight `256 ^ i` of `n`; `natOfBytes w f` is the number whose
`w` bytes are `f 0, f 1, …`. The two are inverse to each other on `w` bytes
(`natOfBytes_byteAt`, `byteAt_natOfBytes`).
-/

namespace LittleEndian

/-- The byte of weight `256 ^ i`. -/
def byteAt (n i : ℕ) : UInt8 := UInt8.ofNat (n / 256 ^ i)

/-- The number whose bytes, lowest first, are `f 0, …, f (w - 1)`. -/
def natOfBytes : ℕ → (ℕ → UInt8) → ℕ
  | 0, _ => 0
  | w + 1, f => (f 0).toNat + 256 * natOfBytes w fun i => f (i + 1)

theorem natOfBytes_congr {w : ℕ} {f g : ℕ → UInt8} (h : ∀ i < w, f i = g i) :
    natOfBytes w f = natOfBytes w g := by
  induction w generalizing f g with
  | zero => rfl
  | succ w ih =>
      have htail : ∀ i < w, f (i + 1) = g (i + 1) := fun i hi => h (i + 1) (by omega)
      simp only [natOfBytes, h 0 (by omega), ih htail]

theorem natOfBytes_lt (w : ℕ) (f : ℕ → UInt8) : natOfBytes w f < 256 ^ w := by
  induction w generalizing f with
  | zero => exact Nat.one_pos
  | succ w ih =>
      have h0 : (f 0).toNat < 256 := UInt8.toNat_lt (f 0)
      have hrest := ih fun i => f (i + 1)
      simp only [natOfBytes, pow_succ]
      omega

/-- Reading back the bytes of `n` gives `n`, up to the width. -/
theorem natOfBytes_byteAt (w n : ℕ) : natOfBytes w (byteAt n) = n % 256 ^ w := by
  induction w generalizing n with
  | zero => simp [natOfBytes, Nat.mod_one]
  | succ w ih =>
      have hshift : (fun i => byteAt n (i + 1)) = byteAt (n / 256) := by
        funext i
        simp only [byteAt, pow_succ', Nat.div_div_eq_div_mul]
      have hlow : (byteAt n 0).toNat = n % 256 := by
        simp [byteAt]
      simp only [natOfBytes, hshift, ih, hlow, pow_succ']
      exact (Nat.mod_mul).symm

/-- The bytes of a number assembled from bytes are these bytes. -/
theorem byteAt_natOfBytes {w i : ℕ} (f : ℕ → UInt8) (hi : i < w) :
    byteAt (natOfBytes w f) i = f i := by
  induction w generalizing i f with
  | zero => exact absurd hi (Nat.not_lt_zero _)
  | succ w ih =>
      have h0 : (f 0).toNat < 256 := UInt8.toNat_lt (f 0)
      cases i with
      | zero =>
          apply UInt8.toNat_inj.mp
          simp only [byteAt, natOfBytes, pow_zero, Nat.div_one, UInt8.toNat_ofNat']
          omega
      | succ i =>
          have hdiv : natOfBytes (w + 1) f / 256 ^ (i + 1)
              = natOfBytes w (fun j => f (j + 1)) / 256 ^ i := by
            rw [pow_succ', ← Nat.div_div_eq_div_mul]
            congr 1
            simp only [natOfBytes]
            omega
          have hrec := ih (fun j => f (j + 1)) (Nat.lt_of_succ_lt_succ hi)
          simpa only [byteAt, hdiv] using hrec

end LittleEndian
