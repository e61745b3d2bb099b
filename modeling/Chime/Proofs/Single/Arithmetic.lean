import Chime.Proofs.Single.Rounding

/-!
# Arithmetic

Sums and products of singles are rounded once. `Holds x q` says that the single `x` is the number
`q`, which is never negative here; a result that is on the grid and small enough is therefore
exact, as all whole numbers up to 2^24 are.
-/

set_option autoImplicit false

namespace Chime.Single

open Float.Model (Format UnpackedFloat totalExponent)
open Float.Model.UnpackedFloat

theorem log2_mul_two_pow {m : Nat} (hm : m ≠ 0) (k : Nat) : (m * 2 ^ k).log2 = m.log2 + k := by
  have hl := Nat.log2_self_le hm
  have hh := @Nat.lt_log2_self m
  have hk : 0 < 2 ^ k := Nat.two_pow_pos k
  refine (Nat.log2_eq_iff (by positivity)).mpr ⟨?_,?_⟩
  · rw [pow_add]
    exact Nat.mul_le_mul_right _ hl
  · rw [Nat.add_right_comm, pow_add]
    exact Nat.mul_lt_mul_of_pos_right hh hk

theorem round_rounds {m : Nat} (hm : m ≠ 0) (e : Int) (s : Sign) :
    ∃ q, Rounds (m * 2 ^ e) q ∧ Writes s q (UnpackedFloat.round .binary32 s m e) := by
  have hl := log2_mul_two_pow hm (e - max (m.log2 + e - 23) (-149)).toNat
  simp only [UnpackedFloat.round, targetExponent_eq, decreaseExponent, Nat.shiftLeft_eq]
  rw [mul_zpow_sub m (e - max (m.log2 + e - 23) (-149)).toNat e]
  refine roundWithAccuracy_rounds s (brackets_exact _ _) ?_
  rw [hl]
  push_cast
  omega

theorem mul_finite_rounds {m n : Nat} {e f : Int} (hm : 0 < m) (hn : 0 < n) (s t : Sign)
    (he : e + f ≤ max ((m * n).log2 + (e + f) - 23) (-149)) :
    ∃ q, Rounds (m * 2 ^ e * (n * 2 ^ f)) q ∧
      Writes (s * t) q (UnpackedFloat.mul .binary32 (.finite s m e hm) (.finite t n f hn)) := by
  have hv : (m : ℚ) * 2 ^ e * (n * 2 ^ f) = (m * n : Nat) * 2 ^ (e + f) := by
    rw [zpow_add₀ two_ne_zero]
    push_cast
    ring
  rw [hv]
  exact roundWithAccuracy_rounds (s * t) (brackets_exact _ _) he

theorem exponent_mul_le {m n : Nat} {e f : Int} (hm : 0 < m) (hn : 0 < n) (hp : Placed m e)
    (hq : Placed n f) : e + f ≤ max ((m * n).log2 + (e + f) - 23) (-149) := by
  by_cases h : 2 ^ 23 ≤ m * n
  · have := (Nat.le_log2 (Nat.mul_pos hm hn).ne').mpr h
    omega
  · have hm' : m ≤ m * n := Nat.le_mul_of_pos_right m hn
    have hn' : n ≤ m * n := Nat.le_mul_of_pos_left n hm
    have he := hp.2.2.resolve_left (by omega)
    have hf := hq.2.2.resolve_left (by omega)
    omega

theorem mul_rounds {s t : Sign} {p q : ℚ} {u v : UnpackedFloat} (hu : Writes s p u)
    (hv : Writes t q v) :
    ∃ r, Rounds (p * q) r ∧ Writes (s * t) r (UnpackedFloat.mul .binary32 u v) := by
  cases hu with
  | zero hp =>
    refine ⟨0,by rw [hp, zero_mul]; exact rounds_self 0,?_⟩
    cases hv with
    | zero => exact .zero rfl
    | finite => exact .zero rfl
  | finite hm hp hpe =>
    cases hv with
    | zero hq => exact ⟨0,by rw [hq, mul_zero]; exact rounds_self 0,.zero rfl⟩
    | finite hn hq hqe =>
      rw [hpe, hqe]
      exact mul_finite_rounds hm hn s t (exponent_mul_le hm hn hp hq)

theorem add_rounds {p q : ℚ} {u v : UnpackedFloat} (hu : Writes .positive p u)
    (hv : Writes .positive q v) :
    ∃ r, Rounds (p + q) r ∧ Writes .positive r (UnpackedFloat.add .binary32 u v) := by
  cases hu with
  | zero hp =>
    refine ⟨q,by rw [hp, zero_add]; exact rounds_self q,?_⟩
    cases hv with
    | zero hq => exact .zero hq
    | finite hn hq hqe => exact .finite hn hq hqe
  | @finite m e hm hp hpe =>
    cases hv with
    | zero hq => exact ⟨p,by rw [hq, add_zero]; exact rounds_self p,.finite hm hp hpe⟩
    | @finite n f hn hq hqe =>
      have hs : p + q = (m * 2 ^ (e - min e f).toNat + n * 2 ^ (f - min e f).toNat : Nat) *
          2 ^ min e f := by
        rw [hpe, hqe, mul_zpow_of_le m (min_le_left e f), mul_zpow_of_le n (min_le_right e f)]
        push_cast
        ring
      have hpos : 0 < m * 2 ^ (e - min e f).toNat + n * 2 ^ (f - min e f).toNat := by positivity
      have hc : compare ((m * 2 ^ (e - min e f).toNat : Nat) +
          (n * 2 ^ (f - min e f).toNat : Nat) : Int) 0 = .gt := by
        rw [Int.compare_eq_gt]
        omega
      simp only [UnpackedFloat.add, decreaseExponent, Nat.shiftLeft_eq, Sign.apply,
        UnpackedFloat.normalize, hc]
      rw [hs]
      exact round_rounds hpos.ne' _ _

theorem ofNat_rounds (n : Nat) :
    ∃ q, Rounds n q ∧ Writes .positive q (UnpackedFloat.ofNat .binary32 n) := by
  rcases Nat.eq_zero_or_pos n with rfl | hn
  · exact ⟨0,by simpa using rounds_self 0,.zero rfl⟩
  · have hc : compare (n : Int) 0 = .gt := by
      rw [Int.compare_eq_gt]
      omega
    have hr := round_rounds hn.ne' 0 .positive
    simp only [UnpackedFloat.ofNat, ofInt, UnpackedFloat.normalize, hc, Int.toNat_natCast]
    simpa using hr

theorem ofScientific_rounds (n : Nat) (hn : n ≠ 0) :
    ∃ q, Rounds n q ∧ Writes .positive q (UnpackedFloat.ofScientific .binary32 n 0) := by
  have hp : 0 < n <<< 24 := by
    rw [Nat.shiftLeft_eq]
    positivity
  have hv : (n : ℚ) = (n <<< 24 : Nat) * 2 ^ (-24 : Int) * ((10 ^ 0 : Nat) * 2 ^ (0 : Int)) := by
    rw [Nat.shiftLeft_eq]
    push_cast
    norm_num
    ring
  have he : UnpackedFloat.ofScientific .binary32 n 0 =
      UnpackedFloat.mul .binary32 (.finite .positive (n <<< 24) (-24) hp)
        (.finite .positive (10 ^ 0) 0 (by decide)) := by
    have hb : (0 : Int) < 2 ^ Format.binary32.exponentBits := by decide
    rw [UnpackedFloat.ofScientific, dif_neg hn, if_neg (by decide), if_neg (by omega),
      if_pos le_rfl]
    rfl
  have hl : ((n <<< 24) * 10 ^ 0).log2 = n.log2 + 24 := by
    rw [pow_zero, mul_one, Nat.shiftLeft_eq, log2_mul_two_pow hn]
  rw [he, hv]
  exact mul_finite_rounds hp (by decide) .positive .positive (by rw [hl]; push_cast; omega)

/-! From here on packed. -/

/-- The single `x` is the number `q`. -/
def Holds (x : Float32) (q : ℚ) : Prop := Writes .positive q x.toModel.unpack

theorem canonical_of_writes {s : Sign} {q : ℚ} {u : UnpackedFloat} (h : Writes s q u)
    (hq : q < 2 ^ 128) : Canonical u := by
  cases h with
  | zero => trivial
  | @finite m e hp hm hqe =>
    refine ⟨hm,?_⟩
    by_contra he
    have hl : 2 ^ 23 ≤ m := hm.2.2.resolve_right (by omega)
    have hb : (2 : ℚ) ^ 128 ≤ m * 2 ^ e := by
      calc (2 : ℚ) ^ 128 = 2 ^ ((128 : Nat) : Int) := (zpow_natCast _ _).symm
        _ ≤ 2 ^ ((23 : Nat) + e : Int) := zpow_le_zpow_right₀ one_le_two (by push_cast; omega)
        _ = (2 ^ 23 : Nat) * 2 ^ e := (two_pow_mul_zpow _ _).symm
        _ ≤ m * 2 ^ e := by gcongr
    rw [hqe] at hq
    exact absurd hq hb.not_gt

theorem lt_of_canonical {s : Sign} {q : ℚ} {u : UnpackedFloat} (h : Writes s q u)
    (hc : Canonical u) : q < 2 ^ 128 := by
  cases h with
  | zero hq =>
    rw [hq]
    positivity
  | @finite m e hp hm hq =>
    calc q = m * 2 ^ e := hq
      _ < (2 ^ 24 : Nat) * 2 ^ e := by
          have := hm.1
          gcongr
      _ = 2 ^ ((24 : Nat) + e : Int) := two_pow_mul_zpow _ _
      _ ≤ 2 ^ ((128 : Nat) : Int) :=
          zpow_le_zpow_right₀ one_le_two (by have := hc.2; push_cast; omega)
      _ = 2 ^ 128 := zpow_natCast _ _

theorem unpack_ofModel_pack {u : UnpackedFloat} (h : Canonical u) :
    (Float32.ofModel (.pack u)).toModel.unpack = u := unpack_pack h

theorem holds_ofModel_pack {q : ℚ} {u : UnpackedFloat} (h : Writes .positive q u)
    (hq : q < 2 ^ 128) : Holds (.ofModel (.pack u)) q := by
  rw [Holds, unpack_ofModel_pack (canonical_of_writes h hq)]
  exact h

/-- What is rounded to a number on the grid is that number. -/
theorem holds_of_rounds {x : ℚ} {u : UnpackedFloat} (hx : OnGrid x) (hb : x < 2 ^ 128)
    (h : ∃ q, Rounds x q ∧ Writes .positive q u) : Holds (.ofModel (.pack u)) x := by
  obtain ⟨q,hr,hw⟩ := h
  obtain rfl := hr.eq_of_onGrid hx
  exact holds_ofModel_pack hw hb

theorem holds_mul {x y : Float32} {p q : ℚ} (hx : Holds x p) (hy : Holds y q)
    (hg : OnGrid (p * q)) (hb : p * q < 2 ^ 128) : Holds (x * y) (p * q) :=
  holds_of_rounds hg hb (mul_rounds hx hy)

theorem holds_add {x y : Float32} {p q : ℚ} (hx : Holds x p) (hy : Holds y q)
    (hg : OnGrid (p + q)) (hb : p + q < 2 ^ 128) : Holds (x + y) (p + q) :=
  holds_of_rounds hg hb (add_rounds hx hy)

theorem onGrid_natCast {n : Nat} (h : n ≤ 2 ^ 24) : OnGrid n := by
  rcases h.eq_or_lt with rfl | h
  · exact ⟨2 ^ 23,1,by decide,by decide,by norm_num⟩
  · exact ⟨n,0,h,by decide,by simp⟩

theorem onGrid_one : OnGrid 1 := by exact_mod_cast onGrid_natCast (n := 1) (by decide)

theorem natCast_lt {n : Nat} (h : n ≤ 2 ^ 24) : (n : ℚ) < 2 ^ 128 := by
  have h' : n < 2 ^ 128 := h.trans_lt (by decide)
  exact_mod_cast h'

theorem holds_ofUInt8 (n : UInt8) : Holds n.toFloat32 n.toNat := by
  have hn : n.toNat ≤ 2 ^ 24 := n.toNat_lt.le.trans (by decide)
  exact holds_of_rounds (onGrid_natCast hn) (natCast_lt hn) (ofNat_rounds n.toNat)

theorem holds_ofUInt64 {n : UInt64} (hn : n.toNat ≤ 2 ^ 24) : Holds n.toFloat32 n.toNat :=
  holds_of_rounds (onGrid_natCast hn) (natCast_lt hn) (ofNat_rounds n.toNat)

theorem mul_zpow_lt_of_exponent_lt {m n : Nat} {e f : Int} (hp : Placed m e) (hq : Placed n f)
    (h : e < f) : (m : ℚ) * 2 ^ e < n * 2 ^ f := by
  have hn : 2 ^ 23 ≤ n := hq.2.2.resolve_right (by have := hp.2.1; omega)
  have hm : m < 2 ^ 24 := hp.1
  calc (m : ℚ) * 2 ^ e < (2 ^ 24 : Nat) * 2 ^ e := by gcongr
    _ = 2 ^ ((24 : Nat) + e : Int) := two_pow_mul_zpow _ _
    _ ≤ 2 ^ ((23 : Nat) + f : Int) := zpow_le_zpow_right₀ one_le_two (by push_cast; omega)
    _ = (2 ^ 23 : Nat) * 2 ^ f := (two_pow_mul_zpow _ _).symm
    _ ≤ n * 2 ^ f := by gcongr

theorem exponent_le_of_placed {m n : Nat} {e f : Int} (hp : Placed m e) (hq : Placed n f)
    (h : (m : ℚ) * 2 ^ e = n * 2 ^ f) : f ≤ e := by
  by_contra hef
  exact (mul_zpow_lt_of_exponent_lt hp hq (not_le.mp hef)).ne h

theorem writes_unique {s : Sign} {q : ℚ} {u v : UnpackedFloat} (hu : Writes s q u)
    (hv : Writes s q v) : u = v := by
  by_cases hz : q = 0
  · rw [hu.eq_zero_iff.mp hz, hv.eq_zero_iff.mp hz]
  · cases hu with
    | zero hq => exact absurd hq hz
    | @finite m e hm hp hqe =>
      cases hv with
      | zero hq => exact absurd hq hz
      | @finite n f hn hq hqf =>
        have h := hqe.symm.trans hqf
        obtain rfl :=
          le_antisymm (exponent_le_of_placed hq hp h.symm) (exponent_le_of_placed hp hq h)
        have hp0 : (2 : ℚ) ^ e ≠ 0 := by positivity
        obtain rfl : m = n := by exact_mod_cast mul_right_cancel₀ hp0 h
        rfl

theorem Holds.unique {x y : Float32} {q : ℚ} (hx : Holds x q) (hy : Holds y q) : x = y := by
  have hb := (unpack_inj_of_valid x.toModel.valid y.toModel.valid).mp (writes_unique hx hy)
  exact Float32.toBits_inj.mp (UInt32.toBitVec_inj.mp hb)

theorem unpack_one :
    (Float32.ofBits 0x3f800000).toModel.unpack = .finite .positive (2 ^ 23) (-23) (by decide) := by
  rfl

theorem holds_one : Holds (Float32.ofBits 0x3f800000) 1 := by
  rw [Holds, unpack_one]
  exact .finite _ ⟨by decide,by decide,.inl le_rfl⟩ (by norm_num)

theorem holds_ofNat {n : Nat} (hn : n ≤ 2 ^ 24) : Holds (Float32.ofNat n) n := by
  have hg := onGrid_natCast hn
  have hb := natCast_lt hn
  change Holds (Float32.ofScientific n false 0) n
  unfold Float32.ofScientific
  split
  next h =>
    have hu : n.toUInt64.toNat = n := by
      rw [Nat.toUInt64, UInt64.toNat_ofNat']
      omega
    have h64 : Holds n.toUInt64.toFloat32 n := by
      simpa only [hu] using holds_ofUInt64 (hu.le.trans hn)
    have hm := holds_mul h64 holds_one (by rwa [mul_one]) (by rwa [mul_one])
    rw [mul_one] at hm
    exact hm
  next h => exact holds_of_rounds hg hb (ofScientific_rounds n (by omega))

theorem holds_zero : Holds 0 0 := by exact_mod_cast holds_ofNat (Nat.zero_le (2 ^ 24))

theorem Holds.beq_zero_iff {x : Float32} {q : ℚ} (h : Holds x q) : (x == 0) = true ↔ q = 0 := by
  have h0 : (0 : Float32).toModel.unpack = .zero .positive :=
    writes_unique holds_zero (.zero rfl)
  change (UnpackedFloat.beq x.toModel.unpack (0 : Float32).toModel.unpack) = true ↔ q = 0
  have hw : Writes .positive q x.toModel.unpack := h
  rw [h0, hw.eq_zero_iff]
  generalize x.toModel.unpack = u at hw ⊢
  cases hw with
  | zero => exact ⟨fun _ => rfl,fun _ => rfl⟩
  | finite => exact ⟨nofun,nofun⟩

/-- Unpacked numbers are ordered by exponent, then by significand. -/
theorem le_of_writes {p q : ℚ} {u v : UnpackedFloat} (hu : Writes .positive p u)
    (hv : Writes .positive q v) : u.le v = true ↔ p ≤ q := by
  cases hu with
  | zero hp =>
    rw [hp]
    cases hv with
    | zero hq => simp [UnpackedFloat.le, UnpackedFloat.compare, hq]
    | finite hn hq hqe =>
      have hq0 : (0 : ℚ) ≤ q := by
        rw [hqe]
        positivity
      simp [UnpackedFloat.le, UnpackedFloat.compare, hq0]
  | @finite m e hm hp hpe =>
    have hp0 : 0 < p := by
      rw [hpe]
      positivity
    cases hv with
    | zero hq =>
      rw [hq]
      simp [UnpackedFloat.le, UnpackedFloat.compare, hp0.not_ge]
    | @finite n f hn hq hqe =>
      rcases lt_trichotomy e f with h | rfl | h
      · have hlt := mul_zpow_lt_of_exponent_lt hp hq h
        rw [← hpe, ← hqe] at hlt
        simp [UnpackedFloat.le, UnpackedFloat.compare, Int.compare_eq_lt.mpr h, hlt.le]
      · have hs : (0 : ℚ) < 2 ^ e := by positivity
        have hc : p ≤ q ↔ m ≤ n := by rw [hpe, hqe, mul_le_mul_iff_left₀ hs, Nat.cast_le]
        simp [UnpackedFloat.le, UnpackedFloat.compare, hc, Nat.isLE_compare]
      · have hlt := mul_zpow_lt_of_exponent_lt hq hp h
        rw [← hpe, ← hqe] at hlt
        simp [UnpackedFloat.le, UnpackedFloat.compare, Int.compare_eq_gt.mpr h, hlt.not_ge]

end Chime.Single
