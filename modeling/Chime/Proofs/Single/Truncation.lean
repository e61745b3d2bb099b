import Chime.Proofs.Single.Arithmetic

/-!
# Truncation

A single is cut to a whole number by dropping its fraction; what is negative, or no number, is
cut to zero, and what is too large to the largest word. Taking a part of a single, whatever it
is, never makes this whole number larger.
-/

set_option autoImplicit false

namespace Chime.Single

open Float.Model (Format UnpackedFloat)
open Float.Model.UnpackedFloat

theorem Brackets.floor {em : ExtendedMantissa} {x : ℚ} (h : Brackets em 0 x) :
    em.mantissa = ⌊x⌋₊ := by
  have hl := h.low
  have hh := h.high
  rw [zpow_zero, mul_one] at hl hh
  exact ((Nat.floor_eq_iff (le_trans (by positivity) hl)).mpr ⟨hl,hh⟩).symm

theorem roundToInt_eq (s : Sign) (m : Nat) (e : Int) :
    roundToInt s m e = s.apply ⌊(m : ℚ) * 2 ^ e⌋₊ := by
  have hb := (brackets_exact (m * 2 ^ e.toNat) (e - e.toNat)).shiftRight (0 - (e - e.toNat)).toNat
  have hz : e - (e.toNat : Int) + ((0 - (e - e.toNat)).toNat : Int) = 0 := by omega
  rw [← mul_zpow_sub m e.toNat e, hz] at hb
  simp only [roundToInt, decreaseExponent, shiftToExponent, Nat.shiftLeft_eq, sub_zero]
  rw [hb.floor]

theorem toInt_of_writes {s : Sign} {q : ℚ} {u : UnpackedFloat} (h : Writes s q u) (a b : Int) :
    u.toInt a b = s.apply ⌊q⌋₊ := by
  cases h with
  | zero hq =>
    rw [hq, Nat.floor_zero]
    cases s <;> rfl
  | finite hp hm hq =>
    rw [hq]
    exact roundToInt_eq s _ _

theorem toNat_ofNatClamp (n : Nat) : (UInt32.ofNatClamp n).toNat = min n (2 ^ 32 - 1) := by
  unfold UInt32.ofNatClamp
  split
  next h =>
    have h' : n < 2 ^ 32 := h
    change n = _
    omega
  next h =>
    have h' : ¬ n < 2 ^ 32 := h
    change 2 ^ 32 - 1 = _
    omega

theorem toUInt32_of_positive {q : ℚ} {u : UnpackedFloat} (h : Writes .positive q u) :
    u.toUInt32.toNat = min ⌊q⌋₊ (2 ^ 32 - 1) := by
  rw [UnpackedFloat.toUInt32, toInt_of_writes h, toNat_ofNatClamp]
  rfl

theorem toUInt32_of_negative {q : ℚ} {u : UnpackedFloat} (h : Writes .negative q u) :
    u.toUInt32.toNat = 0 := by
  rw [UnpackedFloat.toUInt32, toInt_of_writes h, toNat_ofNatClamp, Sign.apply,
    Int.toNat_neg_natCast]
  rfl

theorem toUInt32_ofModel_pack {u : UnpackedFloat} (h : Canonical u) :
    (Float32.ofModel (.pack u)).toUInt32 = u.toUInt32 :=
  congrArg UnpackedFloat.toUInt32 (unpack_ofModel_pack h)

theorem truncation_mul_le {u v : UnpackedFloat} {q : ℚ} (hu : Canonical u)
    (hv : Writes .positive q v) (hq0 : 0 < q) (hq1 : q ≤ 1) :
    Canonical (UnpackedFloat.mul .binary32 u v) ∧
      (UnpackedFloat.mul .binary32 u v).toUInt32.toNat ≤ u.toUInt32.toNat := by
  cases hv with
  | zero hq => exact absurd hq hq0.ne'
  | @finite n f hn hp hq =>
    cases u with
    | infinity s => cases s <;> exact ⟨trivial,le_rfl⟩
    | notANumber => exact ⟨trivial,le_rfl⟩
    | zero s => cases s <;> exact ⟨trivial,le_rfl⟩
    | finite s m e hm =>
      have hw : Writes s (m * 2 ^ e) (.finite s m e hm) := .finite hm hu.1 rfl
      obtain ⟨r,hr,hrw⟩ := mul_rounds hw (.finite hn hp hq : Writes .positive q _)
      have hle : r ≤ m * 2 ^ e :=
        (hr _ hw.onGrid).2 (mul_le_of_le_one_right (by positivity) hq1)
      have hb : (m : ℚ) * 2 ^ e < 2 ^ 128 := lt_of_canonical hw hu
      refine ⟨canonical_of_writes hrw (hle.trans_lt hb),?_⟩
      cases s with
      | negative => exact (toUInt32_of_negative hrw).trans_le (Nat.zero_le _)
      | positive =>
        rw [toUInt32_of_positive hrw, toUInt32_of_positive hw]
        exact min_le_min_right _ (Nat.floor_mono hle)

theorem toUInt32_mul_le {x y : Float32} {q : ℚ} (hy : Holds y q) (hq0 : 0 < q) (hq1 : q ≤ 1) :
    (x * y).toUInt32.toNat ≤ x.toUInt32.toNat := by
  have hx : Canonical x.toModel.unpack := canonical_unpack _
  have h := truncation_mul_le hx hy hq0 hq1
  change (Float32.ofModel (.pack (UnpackedFloat.mul .binary32 x.toModel.unpack
    y.toModel.unpack))).toUInt32.toNat ≤ _
  rw [toUInt32_ofModel_pack h.1]
  exact h.2

end Chime.Single
