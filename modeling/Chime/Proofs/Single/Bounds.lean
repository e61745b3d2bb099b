import Chime.Proofs.Single.Division
import Chime.Proofs.Single.Truncation

/-!
# Bounds

Rounding keeps a bound that can be written, and a result that is too large becomes infinite. So two
kinds of bounds go through a calculation: a single is at least some number, infinity included, or it
is a number up to some other. No number is among neither, and neither has a sign.
-/

set_option autoImplicit false

namespace Chime.Single

open Float.Model (Format UnpackedFloat)
open Float.Model.UnpackedFloat

def infinity : Float32 := .ofBits 0x7f800000

theorem pack_of_large {m : Nat} {e : Int} (hm : 0 < m) (he : 104 < e) :
    Float32.ofModel (.pack (.finite .positive m e hm)) = infinity := by
  have hb : 2 ^ Format.binary32.exponentBits ≤ (e + Format.binary32.exponentBias +
      Format.binary32.mantissaBitsWithoutImplicit).toNat + 1 := by
    simp only [Format.exponentBias]
    omega
  simp only [Float32.Model.pack, pack, if_pos hb]
  rfl

theorem holds_or_infinity {q : ℚ} {u : UnpackedFloat} (h : Writes .positive q u) :
    Float32.ofModel (.pack u) = infinity ∨ Holds (.ofModel (.pack u)) q := by
  cases h with
  | zero hq => exact .inr (.zero hq)
  | @finite m e hm hp hq =>
    rcases lt_or_ge 104 e with he | he
    · exact .inl (pack_of_large hm he)
    · right
      rw [Holds, unpack_ofModel_pack (u := .finite .positive m e hm) ⟨hp,he⟩]
      exact .finite hm hp hq

namespace Writes

variable {s : Sign} {q : ℚ} {u : UnpackedFloat}

theorem nonneg (h : Writes s q u) : 0 ≤ q := by
  cases h with
  | zero hq => exact hq.ge
  | finite hm hp hq =>
    rw [hq]
    positivity

theorem isNaN (h : Writes s q u) : u.isNaN = false := by
  cases h <;> rfl

theorem isFinite (h : Writes s q u) : u.isFinite = true := by
  cases h <;> rfl

theorem le_infinity (h : Writes .positive q u) : u.le (.infinity .positive) = true := by
  cases h <;> rfl

theorem infinity_add (h : Writes .positive q u) :
    UnpackedFloat.add .binary32 (.infinity .positive) u = .infinity .positive := by
  cases h <;> rfl

theorem infinity_mul (h : Writes .positive q u) (hq : q ≠ 0) :
    UnpackedFloat.mul .binary32 (.infinity .positive) u = .infinity .positive := by
  cases h with
  | zero h0 => exact absurd h0 hq
  | finite => rfl

theorem div_infinity (h : Writes .positive q u) :
    UnpackedFloat.div .binary32 u (.infinity .positive) = .zero .positive := by
  cases h <;> rfl

end Writes

theorem Holds.nonneg {x : Float32} {q : ℚ} (h : Holds x q) : 0 ≤ q := Writes.nonneg h

theorem Holds.isNaN {x : Float32} {q : ℚ} (h : Holds x q) : x.isNaN = false := Writes.isNaN h

theorem Holds.isFinite {x : Float32} {q : ℚ} (h : Holds x q) : x.isFinite = true :=
  Writes.isFinite h

theorem Holds.lt {x : Float32} {q : ℚ} (h : Holds x q) : q < 2 ^ 128 :=
  lt_of_canonical h (canonical_unpack _)

theorem Holds.le_iff {x y : Float32} {p q : ℚ} (hx : Holds x p) (hy : Holds y q) :
    x ≤ y ↔ p ≤ q := by
  rw [← le_of_writes hx hy]
  exact decide_eq_true_iff

def AtLeast (b : ℚ) (x : Float32) : Prop := x = infinity ∨ ∃ q, b ≤ q ∧ Holds x q

def Within (b : ℚ) (x : Float32) : Prop := ∃ q, q ≤ b ∧ Holds x q

variable {x y : Float32} {b c p q : ℚ}

theorem atLeast_ofNat {n : Nat} (hn : 1 ≤ n) (h : n ≤ 2 ^ 24) : AtLeast 1 (.ofNat n) :=
  .inr ⟨n,by exact_mod_cast hn,holds_ofNat h⟩

theorem AtLeast.mono (h : AtLeast b x) (hc : c ≤ b) : AtLeast c x :=
  h.imp_right fun ⟨q,hq,hx⟩ => ⟨q,hc.trans hq,hx⟩

theorem Within.mono (h : Within b x) (hc : b ≤ c) : Within c x := by
  obtain ⟨q,hq,hx⟩ := h
  exact ⟨q,hq.trans hc,hx⟩

/-- A bound from below that can be written is kept by rounding. -/
theorem atLeast_of_rounds {u : UnpackedFloat} (hb : OnGrid b) (hq : b ≤ q)
    (h : ∃ r, Rounds q r ∧ Writes .positive r u) : AtLeast b (.ofModel (.pack u)) := by
  obtain ⟨r,hr,hw⟩ := h
  exact (holds_or_infinity hw).imp_right fun hx => ⟨r,(hr b hb).1 hq,hx⟩

theorem within_of_rounds {u : UnpackedFloat} (hb : OnGrid b) (hb' : b < 2 ^ 128) (hq : q ≤ b)
    (h : ∃ r, Rounds q r ∧ Writes .positive r u) : Within b (.ofModel (.pack u)) := by
  obtain ⟨r,hr,hw⟩ := h
  have hle : r ≤ b := (hr b hb).2 hq
  exact ⟨r,hle,holds_ofModel_pack hw (hle.trans_lt hb')⟩

theorem infinity_mul (hy : AtLeast b y) (hb : 0 < b) : infinity * y = infinity := by
  rcases hy with rfl | ⟨q,hq,hy⟩
  · rfl
  · exact congrArg (fun u => Float32.ofModel (.pack u))
      (Writes.infinity_mul hy (hb.trans_le hq).ne')

theorem infinity_add (hy : Holds y q) : infinity + y = infinity :=
  congrArg (fun u => Float32.ofModel (.pack u)) (Writes.infinity_add hy)

theorem div_infinity (hx : Holds x p) : x / infinity = 0 :=
  congrArg (fun u => Float32.ofModel (.pack u)) (Writes.div_infinity hx)

theorem AtLeast.mul (hx : AtLeast b x) (hb : OnGrid b) (hy : Holds y q) (hq : 1 ≤ q) :
    AtLeast b (x * y) := by
  rcases hx with rfl | ⟨p,hp,hx⟩
  · exact .inl (infinity_mul (.inr ⟨q,hq,hy⟩) one_pos)
  · exact atLeast_of_rounds hb (hp.trans (le_mul_of_one_le_right hx.nonneg hq)) (mul_rounds hx hy)

theorem AtLeast.add (hx : AtLeast b x) (hb : OnGrid b) (hy : Holds y q) : AtLeast b (x + y) := by
  rcases hx with rfl | ⟨p,hp,hx⟩
  · exact .inl (infinity_add hy)
  · exact atLeast_of_rounds hb (hp.trans (le_add_of_nonneg_right hy.nonneg)) (add_rounds hx hy)

theorem Within.mul {n : Nat} (hx : Within b x) (hy : Within c y) (hn : n ≤ 2 ^ 24)
    (h : b * c ≤ n) : Within n (x * y) := by
  obtain ⟨p,hp,hx⟩ := hx
  obtain ⟨q,hq,hy⟩ := hy
  have hle : p * q ≤ n := (mul_le_mul hp hq hy.nonneg (hx.nonneg.trans hp)).trans h
  exact within_of_rounds (onGrid_natCast hn) (natCast_lt hn) hle (mul_rounds hx hy)

theorem Holds.div (hx : Holds x p) (hy : AtLeast 1 y) : Within p (x / y) := by
  rcases hy with rfl | ⟨q,hq,hy⟩
  · exact ⟨0,hx.nonneg,div_infinity hx ▸ holds_zero⟩
  · have hq0 : q ≠ 0 := (one_pos.trans_le hq).ne'
    exact within_of_rounds (Writes.onGrid hx) hx.lt (div_le_self hx.nonneg hq)
      (div_rounds hx hy hq0)

theorem onGrid_least : OnGrid (2 ^ (-126 : Int)) := ⟨1,-126,by decide,by decide,by simp⟩

/-- A quotient of four or more is not lost to rounding. -/
theorem Holds.div_atLeast (hx : Holds x p) (hp : 4 ≤ p) (hy : Holds y q) (hq : 0 < q) :
    AtLeast (2 ^ (-126 : Int)) (x / y) := by
  refine atLeast_of_rounds onGrid_least ?_ (div_rounds hx hy hq.ne')
  rw [le_div_iff₀ hq]
  calc (2 : ℚ) ^ (-126 : Int) * q ≤ 2 ^ (-126 : Int) * 2 ^ 128 := by
        have := hy.lt.le
        gcongr
    _ = 4 := by norm_num
    _ ≤ p := hp

theorem AtLeast.le (h : AtLeast b y) (hx : Holds x b) : x ≤ y := by
  rcases h with rfl | ⟨q,hq,hy⟩
  · exact decide_eq_true (Writes.le_infinity hx)
  · exact (hx.le_iff hy).mpr hq

theorem AtLeast.isNaN (h : AtLeast b x) : x.isNaN = false := by
  rcases h with rfl | ⟨q,_,hx⟩
  · rfl
  · exact hx.isNaN

structure OneOrMore (x : Float32) : Prop where
  one_le : 1 ≤ x
  isNumber : x.isNaN = false
  zero_le : 0 ≤ x
  ne_negative_zero : x ≠ -0

theorem AtLeast.oneOrMore {x : Float32} (h : AtLeast 1 x) : OneOrMore x where
  one_le := h.le (by exact_mod_cast holds_ofNat (n := 1) (by decide))
  isNumber := h.isNaN
  zero_le := (h.mono zero_le_one).le holds_zero
  ne_negative_zero := by
    rintro rfl
    rcases h with h | ⟨q,hq,h⟩
    · cases h
    · cases h

theorem AtLeast.isFinite_or (h : AtLeast b x) : x.isFinite = true ∨ x = infinity := by
  rcases h with h | ⟨q,_,hx⟩
  · exact .inr h
  · exact .inl hx.isFinite

theorem Within.le (h : Within b x) (hy : Holds y b) : x ≤ y := by
  obtain ⟨q,hq,hx⟩ := h
  exact (hx.le_iff hy).mpr hq

theorem Within.zero_le (h : Within b x) : 0 ≤ x := by
  obtain ⟨q,_,hx⟩ := h
  exact (holds_zero.le_iff hx).mpr hx.nonneg

theorem Within.isNaN (h : Within b x) : x.isNaN = false := by
  obtain ⟨q,_,hx⟩ := h
  exact hx.isNaN

theorem Within.toUInt32_le {n : Nat} (h : Within n x) : x.toUInt32.toNat ≤ n := by
  obtain ⟨q,hq,hx⟩ := h
  have ht : x.toUInt32.toNat = min ⌊q⌋₊ (2 ^ 32 - 1) := toUInt32_of_positive hx
  rw [ht]
  exact (min_le_left _ _).trans (Nat.floor_le_of_le hq)

theorem toUInt32_of_isNaN (h : x.isNaN = true) : x.toUInt32 = 0 := by
  have hu : x.toModel.unpack.isNaN = true := h
  change x.toModel.unpack.toUInt32 = 0
  generalize x.toModel.unpack = u at hu ⊢
  cases u with
  | notANumber => rfl
  | _ => cases hu

end Chime.Single
