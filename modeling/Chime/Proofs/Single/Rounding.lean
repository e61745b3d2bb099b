import Chime.Proofs.Single.Packing

/-!
# Rounding

What is known of a rounded number is its order: rounding never passes a number that a single can
write, whatever lies between. So a number that can be written is rounded to itself, and a bound
that can be written still holds after rounding. Signs are kept apart from magnitudes; the largest
exponent is left to packing.
-/

set_option autoImplicit false

namespace Chime.Single

open Float.Model (Format UnpackedFloat totalExponent)
open Float.Model.UnpackedFloat

/-- What a significand of 24 bits can write. -/
def OnGrid (x : ℚ) : Prop := ∃ (m : Nat) (e : Int), m < 2 ^ 24 ∧ -149 ≤ e ∧ x = m * 2 ^ e

/-- `q` lies on no other side of a number on the grid than `x` does. -/
def Rounds (x q : ℚ) : Prop := ∀ y, OnGrid y → (y ≤ x → y ≤ q) ∧ (x ≤ y → q ≤ y)

theorem rounds_self (x : ℚ) : Rounds x x := fun _ _ => ⟨id,id⟩

theorem Rounds.eq_of_onGrid {x q : ℚ} (h : Rounds x q) (hx : OnGrid x) : q = x :=
  le_antisymm ((h x hx).2 le_rfl) ((h x hx).1 le_rfl)

inductive Writes (s : Sign) (q : ℚ) : UnpackedFloat → Prop
  | zero : q = 0 → Writes s q (.zero s)
  | finite {m : Nat} {e : Int} (hp : 0 < m) : Placed m e → q = m * 2 ^ e →
      Writes s q (.finite s m e hp)

theorem Writes.onGrid {s : Sign} {q : ℚ} {u : UnpackedFloat} (h : Writes s q u) : OnGrid q := by
  cases h with
  | zero hq => exact ⟨0,0,by decide,by decide,by simpa using hq⟩
  | finite hp hm hq => exact ⟨_,_,hm.1,hm.2.1,hq⟩

theorem Writes.eq_zero_iff {s : Sign} {q : ℚ} {u : UnpackedFloat} (h : Writes s q u) :
    q = 0 ↔ u = .zero s := by
  cases h with
  | zero hq => exact ⟨fun _ => rfl,fun _ => hq⟩
  | finite hp hm hq =>
    have hpos : 0 < q := by
      rw [hq]
      positivity
    exact ⟨fun hz => absurd hz hpos.ne',nofun⟩

/-! A shift to the right widens the interval that a significand stands for, and its two bits tell
whether the number is the lower end. -/

structure Brackets (em : ExtendedMantissa) (e : Int) (x : ℚ) : Prop where
  low : em.mantissa * 2 ^ e ≤ x
  high : x < (em.mantissa + 1) * 2 ^ e
  bits : x = em.mantissa * 2 ^ e → em.roundBit = false ∧ em.stickyBit = false

theorem mantissa_ofMantissaAndAccuracy (m : Nat) (a : Accuracy) :
    (ExtendedMantissa.ofMantissaAndAccuracy m a).mantissa = m := by
  cases a with
  | exact => rfl
  | inexact o => cases o <;> rfl

theorem brackets_exact (m : Nat) (e : Int) :
    Brackets (.ofMantissaAndAccuracy m .exact) e (m * 2 ^ e) := by
  have hp : (0 : ℚ) < 2 ^ e := by positivity
  refine ⟨le_rfl,?_,fun _ => ⟨rfl,rfl⟩⟩
  change (m : ℚ) * 2 ^ e < (m + 1) * 2 ^ e
  linarith

theorem Brackets.shiftRightOne {em : ExtendedMantissa} {e : Int} {x : ℚ}
    (h : Brackets em e x) : Brackets em.shiftRightOne (e + 1) x := by
  have hp : (0 : ℚ) < 2 ^ e := by positivity
  have he : (2 : ℚ) ^ (e + 1) = 2 * 2 ^ e := by rw [zpow_add₀ two_ne_zero, zpow_one, mul_comm]
  have hm : (em.mantissa : ℚ) = 2 * (em.mantissa / 2 : Nat) + (em.mantissa % 2 : Nat) := by
    exact_mod_cast (Nat.div_add_mod em.mantissa 2).symm
  have hr : ((em.mantissa % 2 : Nat) : ℚ) ≤ 1 := by
    exact_mod_cast Nat.le_of_lt_succ (Nat.mod_lt em.mantissa two_pos)
  have hr0 : (0 : ℚ) ≤ (em.mantissa % 2 : Nat) := by positivity
  have hl := h.low
  have hh := h.high
  rw [hm] at hl hh
  constructor
  · rw [he]
    change ((em.mantissa / 2 : Nat) : ℚ) * _ ≤ x
    nlinarith
  · rw [he]
    change x < (((em.mantissa / 2 : Nat) : ℚ) + 1) * _
    nlinarith
  · intro hx
    rw [he] at hx
    change x = ((em.mantissa / 2 : Nat) : ℚ) * _ at hx
    have hz : ((em.mantissa % 2 : Nat) : ℚ) ≤ 0 := by nlinarith
    have hz' : em.mantissa % 2 = 0 := by exact_mod_cast le_antisymm hz hr0
    have hb := h.bits (by rw [hm, hz', hx]; push_cast; ring)
    simp [ExtendedMantissa.shiftRightOne, hz', hb]

theorem Brackets.shiftRight {em : ExtendedMantissa} {e : Int} {x : ℚ} (h : Brackets em e x)
    (k : Nat) : Brackets (em >>> k) (e + k) x := by
  change Brackets (k.repeat ExtendedMantissa.shiftRightOne em) _ _
  induction k with
  | zero => simpa [Nat.repeat] using h
  | succ k ih =>
    rw [Nat.repeat, Nat.cast_succ, ← add_assoc]
    exact ih.shiftRightOne

/-- The least exponent with which the integral part of a number has no more than 24 bits. -/
theorem targetExponent_eq (m : Nat) (e : Int) :
    Format.binary32.targetExponent (totalExponent m e) = max (m.log2 + e - 23) (-149) := by
  simp only [Format.targetExponent, totalExponent, Format.mantissaBits, Format.minExponent]
  norm_num
  omega

theorem lt_of_mul_zpow_lt {a b : Nat} {e : Int} (h : (a : ℚ) * 2 ^ e < b * 2 ^ e) : a < b := by
  have hp : (0 : ℚ) < 2 ^ e := by positivity
  exact_mod_cast lt_of_mul_lt_mul_right h hp.le

theorem two_pow_mul_zpow (n : Nat) (e : Int) : ((2 ^ n : Nat) : ℚ) * 2 ^ e = 2 ^ (n + e : Int) := by
  rw [zpow_add₀ two_ne_zero, zpow_natCast]
  push_cast
  rfl

theorem mul_zpow_sub (c k : Nat) (e : Int) :
    (c : ℚ) * 2 ^ e = (c * 2 ^ k : Nat) * 2 ^ (e - k) := by
  push_cast
  rw [mul_assoc, ← zpow_natCast, ← zpow_add₀ two_ne_zero, add_sub_cancel]

theorem mul_zpow_of_le (c : Nat) {e f : Int} (h : e ≤ f) :
    (c : ℚ) * 2 ^ f = (c * 2 ^ (f - e).toNat : Nat) * 2 ^ e := by
  have he : f - (f - e).toNat = e := by omega
  rw [mul_zpow_sub c (f - e).toNat, he]

/-- After the shift the significand has 24 bits, or fewer at the least exponent. -/
theorem placed_of_brackets {em : ExtendedMantissa} {m : Nat} {e g : Int} {x : ℚ}
    (h : Brackets em g x) (hg : g = max (m.log2 + e - 23) (-149)) (he : e ≤ g)
    (hl : m * 2 ^ e ≤ x) (hh : x < (m + 1) * 2 ^ e) : Placed em.mantissa g := by
  refine ⟨?_,by omega,?_⟩
  · have hm : ((m + 1 : Nat) : ℚ) * 2 ^ e ≤ (2 ^ 24 : Nat) * 2 ^ g := by
      calc ((m + 1 : Nat) : ℚ) * 2 ^ e ≤ (2 ^ (m.log2 + 1) : Nat) * 2 ^ e := by
            have hm : m + 1 ≤ 2 ^ (m.log2 + 1) := Nat.lt_log2_self
            gcongr
        _ = 2 ^ ((m.log2 + 1 : Nat) + e : Int) := two_pow_mul_zpow _ _
        _ ≤ 2 ^ ((24 : Nat) + g : Int) := zpow_le_zpow_right₀ one_le_two (by push_cast; omega)
        _ = (2 ^ 24 : Nat) * 2 ^ g := (two_pow_mul_zpow _ _).symm
    refine lt_of_mul_zpow_lt (h.low.trans_lt (hh.trans_le ?_))
    exact_mod_cast hm
  · by_cases hs : g = -149
    · exact .inr hs
    · have hm : m ≠ 0 := by
        rintro rfl
        have : Nat.log2 0 = 0 := rfl
        omega
      have hm' : ((2 ^ 23 : Nat) : ℚ) * 2 ^ g ≤ m * 2 ^ e := by
        calc ((2 ^ 23 : Nat) : ℚ) * 2 ^ g = 2 ^ ((23 : Nat) + g : Int) := two_pow_mul_zpow _ _
          _ = 2 ^ ((m.log2 : Nat) + e : Int) := by
              congr 1
              push_cast
              omega
          _ = (2 ^ m.log2 : Nat) * 2 ^ e := (two_pow_mul_zpow _ _).symm
          _ ≤ m * 2 ^ e := by
              have hm : 2 ^ m.log2 ≤ m := Nat.log2_self_le hm
              gcongr
      have hx : ((2 ^ 23 : Nat) : ℚ) * 2 ^ g < (em.mantissa + 1 : Nat) * 2 ^ g := by
        push_cast at hm' ⊢
        exact (hm'.trans hl).trans_lt h.high
      exact .inl (Nat.le_of_lt_succ (lt_of_mul_zpow_lt hx))

theorem shiftToTargetExponent_eq {m : Nat} {e : Int} (a : Accuracy)
    (he : e ≤ max (m.log2 + e - 23) (-149)) :
    shiftToTargetExponent .binary32 m e a =
      (ExtendedMantissa.ofMantissaAndAccuracy m a >>> (max (m.log2 + e - 23) (-149) - e).toNat,
        max (m.log2 + e - 23) (-149)) := by
  have hk : e + ((max (m.log2 + e - 23) (-149) - e).toNat : Int) =
      max (m.log2 + e - 23) (-149) := by omega
  simp only [shiftToTargetExponent, targetExponent_eq, shiftToExponent, hk]

theorem roundedMantissa_bounds (em : ExtendedMantissa) :
    em.mantissa ≤ em.roundedMantissa ∧ em.roundedMantissa ≤ em.mantissa + 1 := by
  obtain ⟨m,r,s⟩ := em
  cases r <;> cases s <;>
    simp [ExtendedMantissa.roundedMantissa, ExtendedMantissa.accuracy,
      Accuracy.roundToNearestEven]
  omega

theorem roundedMantissa_of_bits {em : ExtendedMantissa}
    (h : em.roundBit = false ∧ em.stickyBit = false) : em.roundedMantissa = em.mantissa := by
  obtain ⟨m,r,s⟩ := em
  obtain ⟨rfl,rfl⟩ := h
  rfl

/-- Where the significand has its full length, or the exponent is the least, no number on the grid
lies strictly between two neighbours. -/
theorem rounds_of_brackets {em : ExtendedMantissa} {g : Int} {x : ℚ} (h : Brackets em g x)
    (hp : Placed em.mantissa g) : Rounds x (em.roundedMantissa * 2 ^ g) := by
  have hg : (0 : ℚ) < 2 ^ g := by positivity
  obtain ⟨hr,hr'⟩ := roundedMantissa_bounds em
  rintro y ⟨c,f,hc,hf,rfl⟩
  by_cases hfg : g ≤ f
  · -- a whole number of steps of this exponent, so not between two neighbours
    rw [mul_zpow_of_le c hfg]
    generalize c * 2 ^ (f - g).toNat = d
    constructor
    · intro hy
      have hd : d < em.mantissa + 1 := by
        refine lt_of_mul_zpow_lt (hy.trans_lt ?_)
        exact_mod_cast h.high
      have hd' : d ≤ em.roundedMantissa := by omega
      gcongr
    · intro hy
      have hd : em.roundedMantissa ≤ d := by
        rcases (h.low.trans hy).eq_or_lt with hd | hd
        · have hx : x = em.mantissa * 2 ^ g := le_antisymm (hy.trans hd.ge) h.low
          have hd' : (em.mantissa : ℚ) = d := mul_right_cancel₀ hg.ne' hd
          rw [roundedMantissa_of_bits (h.bits hx)]
          exact_mod_cast hd'.le
        · have := lt_of_mul_zpow_lt hd
          omega
      gcongr
  · -- finer steps are only made below the full length of the significand
    have hm : 2 ^ 23 ≤ em.mantissa := hp.2.2.resolve_right (by omega)
    have hy : (c : ℚ) * 2 ^ f < em.mantissa * 2 ^ g := by
      calc (c : ℚ) * 2 ^ f < (2 ^ 24 : Nat) * 2 ^ f := by gcongr
        _ = 2 ^ ((24 : Nat) + f : Int) := two_pow_mul_zpow _ _
        _ ≤ 2 ^ ((23 : Nat) + g : Int) := zpow_le_zpow_right₀ one_le_two (by push_cast; omega)
        _ = (2 ^ 23 : Nat) * 2 ^ g := (two_pow_mul_zpow _ _).symm
        _ ≤ em.mantissa * 2 ^ g := by gcongr
    constructor
    · intro _
      refine hy.le.trans ?_
      gcongr
    · intro hx
      exact absurd (h.low.trans hx) hy.not_ge

/-- One more shift is due where rounding up has made a 25th bit, and it loses nothing. -/
theorem shiftToTargetExponent_exact {r : Nat} {g : Int} (hr : r ≤ 2 ^ 24) (hg : -149 ≤ g)
    (hn : 2 ^ 23 ≤ r ∨ g = -149) :
    Placed (shiftToTargetExponent .binary32 r g .exact).1.mantissa
        (shiftToTargetExponent .binary32 r g .exact).2 ∧
      (r : ℚ) * 2 ^ g = (shiftToTargetExponent .binary32 r g .exact).1.mantissa *
        2 ^ (shiftToTargetExponent .binary32 r g .exact).2 := by
  by_cases h24 : r = 2 ^ 24
  · have ht : max ((r.log2 : Int) + g - 23) (-149) = g + 1 := by
      rw [h24, Nat.log2_two_pow]
      omega
    rw [shiftToTargetExponent_eq .exact (by omega), ht, h24, add_sub_cancel_left]
    refine ⟨⟨by change 2 ^ 23 < 2 ^ 24; decide,by omega,.inl le_rfl⟩,?_⟩
    change ((2 ^ 24 : Nat) : ℚ) * 2 ^ g = (2 ^ 23 : Nat) * 2 ^ (g + 1)
    rw [two_pow_mul_zpow, two_pow_mul_zpow]
    congr 1
    push_cast
    ring
  · have ht : max ((r.log2 : Int) + g - 23) (-149) = g := by
      have hl : r.log2 < 24 := by
        rcases Nat.eq_zero_or_pos r with rfl | h0
        · decide
        · exact (Nat.log2_lt h0.ne').mpr (by omega)
      rcases hn with h23 | h149
      · rw [(Nat.log2_eq_iff (by omega)).mpr ⟨h23,by omega⟩]
        omega
      · omega
    rw [shiftToTargetExponent_eq .exact (by omega), ht, sub_self]
    exact ⟨⟨by change r < _; omega,hg,hn⟩,rfl⟩

theorem writes_of_shift {q : ℚ} {shifted : ExtendedMantissa × Int} (s : Sign)
    (hp : Placed shifted.1.mantissa shifted.2)
    (hq : q = shifted.1.mantissa * 2 ^ shifted.2) :
    Writes s q (if h : shifted.1.mantissa = 0 then .zero s
      else .finite s shifted.1.mantissa shifted.2 (Nat.pos_of_ne_zero h)) := by
  split
  next h => exact .zero (by rw [hq, h]; simp)
  next h => exact .finite _ hp hq

theorem roundWithAccuracy_rounds {m : Nat} {e : Int} {a : Accuracy} {x : ℚ} (s : Sign)
    (h : Brackets (.ofMantissaAndAccuracy m a) e x) (he : e ≤ max (m.log2 + e - 23) (-149)) :
    ∃ q, Rounds x q ∧ Writes s q (roundWithAccuracy .binary32 s m e a) := by
  have hk : e + ((max (m.log2 + e - 23) (-149) - e).toNat : Int) =
      max (m.log2 + e - 23) (-149) := by omega
  have hb := h.shiftRight (max (m.log2 + e - 23) (-149) - e).toNat
  rw [hk] at hb
  have hl := h.low
  have hh := h.high
  rw [mantissa_ofMantissaAndAccuracy m a] at hl hh
  have hp := placed_of_brackets hb rfl he hl hh
  obtain ⟨hr,hr'⟩ := roundedMantissa_bounds
    (ExtendedMantissa.ofMantissaAndAccuracy m a >>> (max (m.log2 + e - 23) (-149) - e).toNat)
  have hs := shiftToTargetExponent_exact (by have := hp.1; omega) hp.2.1
    (hp.2.2.imp_left fun h => h.trans hr)
  refine ⟨_,rounds_of_brackets hb hp,?_⟩
  simp only [roundWithAccuracy, shiftToTargetExponent_eq a he]
  exact writes_of_shift s hs.1 hs.2

end Chime.Single
