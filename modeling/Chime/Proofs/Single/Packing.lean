import Mathlib

/-!
# Singles, packed and unpacked

A single is packed into 32 bits. Unpacked it is a significand of at most 24 bits with an exponent,
and has the full 24 bits unless the exponent is the least there is. In this form there is one way
to write each number, and packing loses nothing of it.
-/

set_option autoImplicit false

namespace Chime.Single

open Float.Model (Format UnpackedFloat)
open Float.Model.UnpackedFloat

/-- The form that a rounding leaves a number in; nothing is said yet of a largest exponent. -/
def Placed (m : Nat) (e : Int) : Prop := m < 2 ^ 24 ∧ -149 ≤ e ∧ (2 ^ 23 ≤ m ∨ e = -149)

/-- The form of what fits into 32 bits. -/
def Canonical : UnpackedFloat → Prop
  | .finite _ m e _ => Placed m e ∧ e ≤ 104
  | _ => True

theorem toNat_append_one (m : BitVec 23) : (1#1 ++ m).toNat = 2 ^ 23 + m.toNat := by
  rw [BitVec.toNat_append, ← Nat.shiftLeft_add_eq_or_of_lt m.isLt]
  rfl

theorem canonical_unpack (bits : BitVec 32) : Canonical (unpack .binary32 bits) := by
  have hm : (@unpackMantissa .binary32 bits).toNat < 2 ^ 23 := BitVec.isLt _
  have he : (@unpackExponent .binary32 bits).toNat < 2 ^ 8 := BitVec.isLt _
  unfold unpack
  dsimp only
  split
  · split <;> trivial
  next hi =>
    have hi' : (@unpackExponent .binary32 bits).toNat ≠ 255 := fun h =>
      hi (BitVec.eq_of_toNat_eq h)
    split
    next hz =>
      split
      · trivial
      · rw [hz]
        simp [Canonical, Placed, Format.exponentBias]
        omega
    next hz =>
      have hz' : (@unpackExponent .binary32 bits).toNat ≠ 0 := fun h =>
        hz (BitVec.eq_of_toNat_eq h)
      simp only [Canonical, Placed, toNat_append_one, Format.exponentBias]
      norm_num
      omega

theorem pack_of_normal {s : Sign} {m : Nat} {e : Int} (hp : 0 < m) (hm : 2 ^ 23 ≤ m)
    (hm' : m < 2 ^ 24) (he' : e ≤ 104) :
    pack .binary32 (.finite s m e hp) =
      packComponents .binary32 s (.ofNat 8 (e + 150).toNat) (.ofNat 23 m) := by
  have hl : m.log2 + 1 = Format.binary32.mantissaBits := by
    rw [(Nat.log2_eq_iff (by omega)).mpr ⟨hm,hm'⟩]
    rfl
  have hb : (e + Format.binary32.exponentBias + Format.binary32.mantissaBitsWithoutImplicit).toNat =
      (e + 150).toNat := by
    simp only [Format.exponentBias]
    omega
  have hn : ¬ 2 ^ Format.binary32.exponentBits ≤ (e + 150).toNat + 1 := by
    change ¬ 256 ≤ _
    omega
  simp only [pack, hb, if_neg hn, if_pos hl]

theorem pack_of_small {s : Sign} {m : Nat} (hp : 0 < m) (hm : m < 2 ^ 23) :
    pack .binary32 (.finite s m (-149) hp) = packComponents .binary32 s 0#8 (.ofNat 23 m) := by
  have hl : ¬ m.log2 + 1 = Format.binary32.mantissaBits := by
    have := (Nat.log2_lt (by omega)).mpr hm
    change ¬ _ = 24
    omega
  simp only [pack, if_neg hl]
  rw [if_neg (by decide)]

theorem unpack_pack_of_normal {s : Sign} {m : Nat} {e : Int} (hp : 0 < m) (hm : 2 ^ 23 ≤ m)
    (hm' : m < 2 ^ 24) (he : -149 ≤ e) (he' : e ≤ 104) :
    unpack .binary32 (pack .binary32 (.finite s m e hp)) = .finite s m e hp := by
  have ht : (BitVec.ofNat 8 (e + 150).toNat).toNat = (e + 150).toNat := by
    rw [BitVec.toNat_ofNat, Nat.mod_eq_of_lt (by omega)]
  have h1 : BitVec.ofNat 8 (e + 150).toNat ≠ -1#8 := by
    intro h
    have hv : (e + 150).toNat = 255 := ht.symm.trans (congrArg BitVec.toNat h)
    omega
  have h0 : BitVec.ofNat 8 (e + 150).toNat ≠ 0#8 := by
    intro h
    have hv : (e + 150).toNat = 0 := ht.symm.trans (congrArg BitVec.toNat h)
    omega
  rw [pack_of_normal hp hm hm' he', unpack]
  simp only [unpackMantissa_packComponents, unpackExponent_packComponents,
    unpackSign_packComponents, Sign.ofBitVec_toBitVec, if_neg h1, if_neg h0, toNat_append_one, ht]
  simp only [UnpackedFloat.finite.injEq, true_and, BitVec.toNat_ofNat, Format.exponentBias]
  omega

theorem unpack_pack_of_small {s : Sign} {m : Nat} (hp : 0 < m) (hm : m < 2 ^ 23) :
    unpack .binary32 (pack .binary32 (.finite s m (-149) hp)) = .finite s m (-149) hp := by
  have ht : (BitVec.ofNat 23 m).toNat = m := by
    rw [BitVec.toNat_ofNat, Nat.mod_eq_of_lt hm]
  have h0 : BitVec.ofNat 23 m ≠ 0#23 := by
    intro h
    have hv : m = 0 := ht.symm.trans (congrArg BitVec.toNat h)
    omega
  rw [pack_of_small hp hm, unpack]
  simp only [unpackMantissa_packComponents, unpackExponent_packComponents,
    unpackSign_packComponents, Sign.ofBitVec_toBitVec, h0, ht]
  rfl

theorem unpack_pack {u : UnpackedFloat} (h : Canonical u) :
    unpack .binary32 (pack .binary32 u) = u := by
  cases u with
  | infinity s => cases s <;> rfl
  | notANumber => rfl
  | zero s => cases s <;> rfl
  | finite s m e hp =>
    obtain ⟨⟨hm,he,hn⟩,he'⟩ := h
    by_cases hs : 2 ^ 23 ≤ m
    · exact unpack_pack_of_normal hp hs hm he he'
    · obtain rfl := hn.resolve_left hs
      exact unpack_pack_of_small hp (by omega)

end Chime.Single
