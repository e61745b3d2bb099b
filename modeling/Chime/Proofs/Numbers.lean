import Chime.Proofs.Limits

/-!
# What a run of digits is read as

A run of digits is read as zero only if all its digits are zeros, and then an `L` sets nothing: a
length of that kind is as good as none. Up to 2^24 the number that is read is the number that is
written. Beyond, it is one or more, however long the run is.
-/

set_option autoImplicit false

namespace Chime

theorem Byte.decimalValue_of_zeros {digits : Bytes} (h : ∀ byte ∈ digits, byte = 0x30) :
    decimalValue digits = 0 := by
  induction digits using List.reverseRecOn with
  | nil => rfl
  | append_singleton digits byte ih =>
    obtain ⟨hs,hb⟩ := List.forall_mem_append.mp h
    rw [decimalValue_concat, ih hs, hb byte List.mem_cons_self]
    rfl

namespace Lexeme

theorem numeral_beq_zero (digits : Bytes) : (numeral digits == 0) = digits.all (· == 0x30) := by
  have ha : digits.all (· == 0x30) = true ↔ ∀ byte ∈ digits, byte = 0x30 := by
    simp only [List.all_eq_true, beq_iff_eq]
  by_cases h : ∀ byte ∈ digits, byte = 0x30
  · rw [numeral_of_zeros h, ha.mpr h]
    rfl
  · rw [Bool.eq_false_iff.mpr (mt ha.mp h)]
    rcases atLeast_numeral h with hi | ⟨q,hq,hn⟩
    · rw [hi]
      rfl
    · exact Bool.eq_false_iff.mpr (mt hn.beq_zero_iff.mp (one_pos.trans_le hq).ne')

theorem numeral_eq_zero_iff (digits : Bytes) :
    numeral digits = 0 ↔ ∀ byte ∈ digits, byte = 0x30 := by
  refine ⟨fun h => ?_,numeral_of_zeros⟩
  have hz := numeral_beq_zero digits
  rw [h] at hz
  exact fun byte hm => beq_iff_eq.mp (List.all_eq_true.mp hz.symm byte hm)

theorem number_eq_digits (bytes : Bytes) :
    bytes.takeWhile Byte.isDigit ++ (number bytes).2 = bytes ∧
      ∀ byte, (number bytes).2.head? = some byte → Byte.isDigit byte = false := by
  refine ⟨List.takeWhile_append_dropWhile,fun byte h => ?_⟩
  have hn := List.head?_dropWhile_not Byte.isDigit bytes
  rw [show bytes.dropWhile Byte.isDigit = (number bytes).2 from rfl, h] at hn
  simpa using hn

end Lexeme

theorem Token.number_beq_zero {digits : Bytes} (h : Byte.decimalValue digits ≠ 0) :
    (number digits == 0) = false := by
  rw [number_eq, Lexeme.numeral_beq_zero, Bool.eq_false_iff]
  intro ha
  exact h (Byte.decimalValue_of_zeros fun byte hm => beq_iff_eq.mp (List.all_eq_true.mp ha byte hm))

/-- The number of an `L` counts if and only if one of its digits is no zero. -/
theorem Directive.apply_read_length (bytes : Bytes) (s : Settings) :
    s.apply (read 0x4c bytes).1 =
      if (bytes.takeWhile Byte.isDigit).all (· == 0x30) then s
      else { s with defaultLength := (Lexeme.number bytes).1 } := by
  have hr : (read 0x4c bytes).1 = .length (Lexeme.number bytes).1 := by
    change Directive.length (control bytes).1 = _
    rw [Token.control_eq]
    rfl
  have hz : ((Lexeme.number bytes).1 == 0) = (bytes.takeWhile Byte.isDigit).all (· == 0x30) :=
    Lexeme.numeral_beq_zero _
  simp only [hr, Settings.apply, hz]

/-- The digits at the front are read whole, whatever follows them and however many they are. The
number is zero, and an `L` with it sets nothing, if and only if every digit is a zero; it is exact
up to 2^24; and it is one or more, perhaps infinite, wherever a digit is no zero. -/
theorem numbers_are_exact_to_24_bits (bytes : Bytes) :
    let digits := bytes.takeWhile Byte.isDigit
    let written := Byte.decimalValue digits
    let read := Lexeme.number bytes
    (digits ++ read.2 = bytes ∧
      ∀ byte, read.2.head? = some byte → Byte.isDigit byte = false) ∧
    Guarded.number bytes = .ok read ∧
    (read.1 = 0 ↔ ∀ byte ∈ digits, byte = 0x30) ∧
    (∀ s : Settings, s.apply (Directive.read 0x4c bytes).1 =
      if digits.all (· == 0x30) then s else { s with defaultLength := read.1 }) ∧
    (written ≤ 16777216 → Single.Holds read.1 written) ∧
    (written ≠ 0 → Single.OneOrMore read.1) := by
  intro digits written read
  have hd : ∀ byte ∈ digits, Byte.isDigit byte = true := fun _ => List.mem_takeWhile_imp
  exact ⟨Lexeme.number_eq_digits bytes,Guarded.number_eq bytes,Lexeme.numeral_eq_zero_iff digits,
    Directive.apply_read_length bytes,Lexeme.holds_numeral hd,
    fun h => (Lexeme.atLeast_numeral (mt Byte.decimalValue_of_zeros h)).oneOrMore⟩

/-- `0016777216 C` is read exactly, and forty nines are infinite. -/
theorem numbers_are_exact_to_24_bits_and_grow_to_infinity :
    let exact : Bytes := [0x30, 0x30, 0x31, 0x36, 0x37, 0x37, 0x37, 0x32, 0x31, 0x36, 0x20, 0x43]
    let long : Bytes := List.replicate 40 0x39
    Single.Holds (Lexeme.number exact).1 (16777216 : Nat) ∧
      Single.OneOrMore (Lexeme.number long).1 ∧ (Lexeme.number long).1 = Single.infinity := by
  intro exact long
  obtain ⟨_,_,_,_,he,_⟩ := numbers_are_exact_to_24_bits exact
  obtain ⟨_,_,_,_,_,hl⟩ := numbers_are_exact_to_24_bits long
  exact ⟨he (by decide +kernel),hl (by decide +kernel),by decide +kernel⟩

end Chime
