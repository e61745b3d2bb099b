import Chime.Proofs.Single.Arithmetic

/-!
# Division

A quotient is rounded once as well. It is taken with enough digits for a full significand, and the
remainder tells whether the whole part of it is all there is.
-/

set_option autoImplicit false

namespace Chime.Single

open Float.Model (Format UnpackedFloat totalExponent)
open Float.Model.UnpackedFloat

theorem brackets_quotient (m : Nat) {n : Nat} (hn : 0 < n) (e : Int) :
    Brackets (.ofMantissaAndAccuracy (m / n) (accuracyOfFraction (m % n) n)) e (m / n * 2 ^ e) := by
  have hp : (0 : ℚ) < 2 ^ e := by positivity
  have hn' : (0 : ℚ) < n := by exact_mod_cast hn
  have hm := mantissa_ofMantissaAndAccuracy (m / n) (accuracyOfFraction (m % n) n)
  constructor
  · rw [hm]
    gcongr
    exact Nat.cast_div_le
  · rw [hm]
    gcongr
    rw [div_lt_iff₀ hn', mul_comm]
    exact_mod_cast Nat.lt_mul_div_succ m hn
  · intro hx
    rw [hm] at hx
    have hq : (m : ℚ) = (m / n : Nat) * n := (div_eq_iff hn'.ne').mp (mul_right_cancel₀ hp.ne' hx)
    have hd : m % n = 0 := Nat.mod_eq_zero_of_dvd ⟨m / n,by rw [mul_comm]; exact_mod_cast hq⟩
    rw [hd]
    exact ⟨rfl,rfl⟩

theorem divCore_eq (m n : Nat) (e f : Int) :
    let t := min (e - f) (max (m.log2 + e - (n.log2 + f) - 24) (-149))
    divCore .binary32 m e n f =
      (m * 2 ^ (e - f - t).toNat / n, t,
        accuracyOfFraction (m * 2 ^ (e - f - t).toNat % n) n) := by
  have ht : Format.binary32.targetExponent (totalExponent m e - totalExponent n f) =
      max (m.log2 + e - (n.log2 + f) - 24) (-149) := by
    simp only [Format.targetExponent, totalExponent, Format.mantissaBits, Format.minExponent]
    norm_num
    omega
  simp only [divCore, ht, Nat.shiftLeft_eq]

theorem exponent_div_le {m n : Nat} {e f t : Int} (hm : 0 < m) (hn : 0 < n)
    (ht : t = min (e - f) (max (m.log2 + e - (n.log2 + f) - 24) (-149))) :
    t ≤ max ((m * 2 ^ (e - f - t).toNat / n).log2 + t - 23) (-149) := by
  by_cases h : t ≤ -149
  · omega
  · have hq : 2 ^ 23 ≤ m * 2 ^ (e - f - t).toNat / n := by
      rw [Nat.le_div_iff_mul_le hn]
      calc 2 ^ 23 * n ≤ 2 ^ 23 * 2 ^ (n.log2 + 1) := Nat.mul_le_mul_left _ Nat.lt_log2_self.le
        _ = 2 ^ (n.log2 + 24) := by ring
        _ ≤ 2 ^ (m.log2 + (e - f - t).toNat) := Nat.pow_le_pow_right two_pos (by omega)
        _ = 2 ^ m.log2 * 2 ^ (e - f - t).toNat := pow_add _ _ _
        _ ≤ m * 2 ^ (e - f - t).toNat := Nat.mul_le_mul_right _ (Nat.log2_self_le hm.ne')
    have := (Nat.le_log2 (by omega)).mpr hq
    omega

theorem div_finite_rounds {m n : Nat} {e f : Int} (hm : 0 < m) (hn : 0 < n) (s t : Sign) :
    ∃ q, Rounds (m * 2 ^ e / (n * 2 ^ f)) q ∧
      Writes (s / t) q (UnpackedFloat.div .binary32 (.finite s m e hm) (.finite t n f hn)) := by
  obtain ⟨g,hg⟩ : ∃ g, g = min (e - f) (max ((m.log2 : Int) + e - (n.log2 + f) - 24) (-149)) :=
    ⟨_,rfl⟩
  have hv : (m : ℚ) * 2 ^ e / (n * 2 ^ f) = (m * 2 ^ (e - f - g).toNat : Nat) / n * 2 ^ g := by
    rw [div_mul_eq_mul_div, ← mul_zpow_of_le m (by omega : g ≤ e - f), zpow_sub₀ two_ne_zero]
    field_simp
  have hd := divCore_eq m n e f
  simp only [← hg] at hd
  rw [hv]
  simp only [UnpackedFloat.div, hd]
  exact roundWithAccuracy_rounds (s / t) (brackets_quotient _ hn g) (exponent_div_le hm hn hg)

theorem div_rounds {s t : Sign} {p q : ℚ} {u v : UnpackedFloat} (hu : Writes s p u)
    (hv : Writes t q v) (hq0 : q ≠ 0) :
    ∃ r, Rounds (p / q) r ∧ Writes (s / t) r (UnpackedFloat.div .binary32 u v) := by
  cases hv with
  | zero hq => exact absurd hq hq0
  | finite hn hq hqe =>
    cases hu with
    | zero hp => exact ⟨0,by rw [hp, zero_div]; exact rounds_self 0,.zero rfl⟩
    | finite hm hp hpe =>
      rw [hpe, hqe]
      exact div_finite_rounds hm hn s t

end Chime.Single
