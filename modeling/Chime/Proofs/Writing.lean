import Chime.Notation.Script
import Chime.Proofs.Joining
import Chime.Proofs.Single.Arithmetic

/-!
# Reading back what was written

A script is read as it was meant, with gaps or without. Each directive is one token that ends
where the next directive or a gap begins, since neither starts with a byte that could carry it
on. Its number is read whole, and without rounding on the way, because every number that a reader
passes through is no larger.
-/

set_option autoImplicit false

namespace Chime

theorem Lexeme.numeral_concat (digits : Bytes) (byte : UInt8) :
    numeral (digits ++ [byte]) = numeral digits * 10 + (Byte.digitValue byte).toFloat32 := by
  simp [numeral]

/-- Digits are read exactly as long as their value has no more than 24 bits. -/
theorem Lexeme.holds_numeral {digits : Bytes} (hd : ∀ byte ∈ digits, Byte.isDigit byte = true)
    (h : Byte.decimalValue digits ≤ 2 ^ 24) :
    Single.Holds (numeral digits) (Byte.decimalValue digits) := by
  induction digits using List.reverseRecOn with
  | nil => exact Single.holds_ofNat (Nat.zero_le (2 ^ 24))
  | append_singleton digits byte ih =>
    obtain ⟨hs,hb⟩ := List.forall_mem_append.mp hd
    rw [Byte.decimalValue_concat, ← Byte.toNat_digitValue (hb byte List.mem_cons_self)] at h ⊢
    rw [numeral_concat]
    have hm : Single.Holds (numeral digits * 10) (Byte.decimalValue digits * 10 : Nat) := by
      have h10 : Single.Holds 10 (10 : Nat) := Single.holds_ofNat (by decide)
      have hle : Byte.decimalValue digits * 10 ≤ 2 ^ 24 := by omega
      rw [Nat.cast_mul]
      apply Single.holds_mul (ih hs (by omega)) h10
      · exact_mod_cast Single.onGrid_natCast hle
      · exact_mod_cast Single.natCast_lt hle
    rw [Nat.cast_add]
    apply Single.holds_add hm (Single.holds_ofUInt8 _)
    · exact_mod_cast Single.onGrid_natCast h
    · exact_mod_cast Single.natCast_lt h

namespace Numeral

theorem number_digits (n : Numeral) : Token.number n.digits = .ofNat n.value := by
  rw [Token.number_eq]
  exact (Lexeme.holds_numeral n.isDigit n.value_le).unique (Single.holds_ofNat n.value_le)

theorem isDigit_digitsOf (n : Option Numeral) :
    ∀ byte ∈ digitsOf n, Byte.isDigit byte = true := by
  cases n with
  | none => simp [digitsOf]
  | some n => exact n.isDigit

theorem valueOf_le (n : Option Numeral) : valueOf n ≤ 2 ^ 24 := by
  cases n with
  | none => exact Nat.zero_le _
  | some n => exact n.value_le

theorem number_digitsOf (n : Option Numeral) : Token.number (digitsOf n) = .ofNat (valueOf n) := by
  cases n with
  | none => rfl
  | some n => exact n.number_digits

end Numeral

theorem ofNat_beq_zero {n : Nat} (h : n ≤ 2 ^ 24) : (Float32.ofNat n == 0) = decide (n = 0) := by
  have hi := (Single.holds_ofNat h).beq_zero_iff
  rw [Nat.cast_eq_zero] at hi
  exact Bool.eq_iff_iff.mpr (hi.trans decide_eq_true_iff.symm)

namespace Token

theorem digitsOf_word {digits : Bytes} (h : ∀ byte ∈ digits, Byte.isDigit byte = true)
    (dotted : Bool) : digitsOf (digits ++ dotBytes dotted) = digits := by
  rw [digitsOf_eq, List.takeWhile_append_of_pos h]
  cases dotted <;> simp [dotBytes, Byte.isDigit]

theorem digitsOf_of_digits {digits : Bytes} (h : ∀ byte ∈ digits, Byte.isDigit byte = true) :
    digitsOf digits = digits := by
  simpa [dotBytes] using digitsOf_word h false

theorem dottedOf_word {digits : Bytes} (h : ∀ byte ∈ digits, Byte.isDigit byte = true)
    (dotted : Bool) : dottedOf (digits ++ dotBytes dotted) = dotted := by
  rw [dottedOf_eq, List.dropWhile_append_of_pos h]
  cases dotted <;> simp [dotBytes, Byte.isDigit]

/-- A sign is not taken from what a length starts with. -/
theorem signOf_word {digits : Bytes} (h : ∀ byte ∈ digits, Byte.isDigit byte = true)
    (sign : Accidental) (dotted : Bool) :
    signOf (signBytes sign ++ (digits ++ dotBytes dotted)) = sign := by
  cases sign with
  | flat => rfl
  | sharp => rfl
  | natural =>
    cases digits with
    | nil => cases dotted <;> rfl
    | cons digit digits =>
      have hd := h digit List.mem_cons_self
      have hm : digit ≠ 0x2d := by
        rintro rfl
        cases hd
      have hp : digit ≠ 0x2b := by
        rintro rfl
        cases hd
      simp [signOf, signBytes, hm, hp]

end Token

namespace Written

theorem first_written (w : Written) :
    ∃ byte body, w.bytes = byte :: body ∧ Token.first byte body = w.token ∧
      Opening.ofByte byte ≠ .nothing ∧ (body = [] → byte ≠ 0x4c ∧ byte ≠ 0x54) := by
  cases w with
  | lower => exact ⟨_,_,rfl,rfl,by decide,by simp⟩
  | raise => exact ⟨_,_,rfl,rfl,by decide,by simp⟩
  | octave o =>
    refine ⟨_,_,rfl,?_,by decide,by simp⟩
    simp [Token.first, Token.octaveOf?_digit, token]
  | length n =>
    refine ⟨_,_,rfl,?_,by decide,by simp [n.ne_nil]⟩
    simp [Token.first, Token.lostOf, Token.digitsOf_of_digits n.isDigit, n.ne_nil, token]
  | tempo n =>
    refine ⟨_,_,rfl,?_,by decide,by simp [n.ne_nil]⟩
    simp [Token.first, Token.lostOf, Token.digitsOf_of_digits n.isDigit, n.ne_nil, token]
  | pause n dotted =>
    have hd := Numeral.isDigit_digitsOf n
    refine ⟨_,_,rfl,?_,by decide,by simp⟩
    simp [Token.first, Token.digitsOf_word hd, Token.dottedOf_word hd, token]
  | note p n dotted =>
    have hd := Numeral.isDigit_digitsOf n
    refine ⟨_,_,rfl,?_,?_,?_⟩
    · rw [Token.first_letter, Token.signOf_word hd, List.drop_left, Token.digitsOf_word hd,
        Token.dottedOf_word hd]
      rfl
    · cases p.letter <;> decide
    · intro _
      cases p.letter <;> decide

theorem digits_ne_zero {digits : Bytes} (h : ∀ byte ∈ digits, Byte.isDigit byte = true) :
    0 ∉ digits := by
  intro hm
  cases h 0 hm

theorem octave_ne_zero (o : Octave) : 0 ≠ o.number + 0x30 := by
  intro hz
  have hb := o.bounds
  have hn := congrArg UInt8.toNat hz
  rw [UInt8.toNat_add] at hn
  simp only [UInt8.reduceToNat] at hn
  omega

theorem ne_zero_of_mem {w : Written} {byte : UInt8} (h : byte ∈ w.bytes) : byte ≠ 0 := by
  have ht : ∀ dotted, 0 ∉ Token.dotBytes dotted := by decide
  rintro rfl
  cases w with
  | lower => simp [bytes, token, Token.bytes] at h
  | raise => simp [bytes, token, Token.bytes] at h
  | octave o => simp [bytes, token, Token.bytes, octave_ne_zero] at h
  | length n => simp [bytes, token, Token.bytes, digits_ne_zero n.isDigit] at h
  | tempo n => simp [bytes, token, Token.bytes, digits_ne_zero n.isDigit] at h
  | pause n dotted =>
    simp [bytes, token, Token.bytes, digits_ne_zero (Numeral.isDigit_digitsOf n), ht] at h
  | note p n dotted =>
    have hs : ∀ sign, 0 ∉ Token.signBytes sign := by
      intro sign
      cases sign <;> decide
    have hl : ∀ l : Letter, 0 ≠ l.byte := by
      intro l
      cases l <;> decide
    simp [bytes, token, Token.bytes, digits_ne_zero (Numeral.isDigit_digitsOf n), ht, hs, hl] at h

/-- A directive is cut off whole where nothing carries it on. -/
theorem cut_bytes (w : Written) {rest : Bytes} (hf : Token.Fresh rest) :
    Token.cut (w.bytes ++ rest) = w.token :: Token.cut rest := by
  obtain ⟨byte,body,hb,ht,_,hn⟩ := w.first_written
  have hl : w.token.bytes.length - 1 = body.length := by
    rw [show w.token.bytes = w.bytes from rfl, hb]
    rfl
  rw [hb, List.cons_append, Token.cut_append hf hn, ht, hl, List.drop_length]
  rfl

end Written

theorem Token.fresh_of_opening {byte : UInt8} (h : Opening.ofByte byte ≠ .nothing)
    (bytes : Bytes) : Fresh (byte :: bytes) := by
  rintro _ ⟨⟩
  refine ⟨?_,?_,?_,?_⟩
  · cases hd : Byte.isDigit byte with
    | false => rfl
    | true => exact absurd (Opening.ofByte_of_isDigit hd) h
  all_goals
    rintro rfl
    exact h rfl

theorem Gap.evaluate_cut (gap : Gap) (rest : Bytes) (s : Settings) :
    Token.evaluate (Token.cut (gap.bytes ++ rest)) s = Token.evaluate (Token.cut rest) s := by
  obtain ⟨bytes,hb⟩ := gap
  induction bytes with
  | nil => rfl
  | cons byte bytes ih =>
    have ho := Opening.ofByte_of_not_isSignificant (hb byte List.mem_cons_self).2
    rw [List.cons_append, Token.evaluate_cut_of_nothing ho]
    exact ih fun b hm => hb b (List.mem_cons_of_mem byte hm)

namespace Script

theorem bytes_cons (lead : Gap) (w : Written) (gap : Gap) (script : Script) :
    bytes lead ((w, gap) :: script) = lead.bytes ++ (w.bytes ++ bytes gap script) := by
  simp [bytes]

theorem fresh_bytes (gap : Gap) (script : Script) : Token.Fresh (bytes gap script) := by
  obtain ⟨blank,hb⟩ := gap
  cases blank with
  | cons byte blank => exact Token.fresh_cons (hb byte List.mem_cons_self).2 _
  | nil =>
    cases script with
    | nil => exact Token.fresh_nil
    | cons item script =>
      obtain ⟨byte,body,hw,_,ho,_⟩ := item.1.first_written
      rw [bytes_cons, hw]
      exact Token.fresh_of_opening ho _

theorem ne_zero_of_mem {lead : Gap} {script : Script} {byte : UInt8}
    (h : byte ∈ bytes lead script) : byte ≠ 0 := by
  induction script generalizing lead with
  | nil =>
    rw [bytes, List.flatMap_nil, List.append_nil] at h
    exact (lead.blank byte h).1
  | cons item script ih =>
    obtain ⟨w,gap⟩ := item
    rw [bytes_cons, List.mem_append, List.mem_append] at h
    rcases h with hl | hw | hr
    · exact (lead.blank byte hl).1
    · exact Written.ne_zero_of_mem hw
    · exact ih hr

theorem bytes_ofBytes (lead : Gap) (script : Script) :
    (Tune.ofBytes (bytes lead script)).bytes = bytes lead script :=
  congrArg Tune.bytes (Tune.ofBytes_bytes ⟨bytes lead script, fun _ h => ne_zero_of_mem h⟩)

end Script

namespace Intent

theorem duration_settings (i : Intent) (n : Option Numeral) (dotted : Bool) :
    Token.duration i.settings (Numeral.digitsOf n) dotted = i.millis n dotted := by
  simp only [Token.duration, Numeral.number_digitsOf, ofNat_beq_zero (Numeral.valueOf_le n),
    decide_eq_true_eq, settings]
  rw [← apply_ite Float32.ofNat]
  rfl

theorem event?_token (i : Intent) (w : Written) : w.token.event? i.settings = i.event? w := by
  cases w with
  | pause n dotted => simp only [Written.token, Token.event?, event?, duration_settings]
  | note p n dotted =>
    simp only [Written.token, Token.event?, event?, duration_settings]
    rfl
  | _ => rfl

theorem settings_token (i : Intent) (w : Written) :
    w.token.settings i.settings = (i.apply w).settings := by
  cases w with
  | length n =>
    have hz : (Float32.ofNat n.value == 0) = decide (n.value = 0) := ofNat_beq_zero n.value_le
    simp only [Written.token, Token.settings, n.number_digits, hz, decide_eq_true_eq, apply]
    split <;> rfl
  | tempo n =>
    simp only [Written.token, Token.settings, n.number_digits]
    rfl
  | _ => rfl

/-- The tokens of a script come to what is meant by it, one directive after the other. -/
theorem evaluate_cut_bytes (lead : Gap) (script : Script) (i : Intent) :
    let evaluated := Token.evaluate (Token.cut (Script.bytes lead script)) i.settings
    let performed := perform (script.map Prod.fst) i
    evaluated.1.map Prod.fst = performed.1 ∧ evaluated.2 = performed.2.settings := by
  induction script generalizing lead i with
  | nil =>
    have hb : Script.bytes lead [] = lead.bytes ++ [] := rfl
    rw [hb, lead.evaluate_cut, Token.cut_nil]
    exact ⟨rfl,rfl⟩
  | cons item script ih =>
    obtain ⟨w,gap⟩ := item
    obtain ⟨he,hs⟩ := ih gap (i.apply w)
    rw [Script.bytes_cons, lead.evaluate_cut, w.cut_bytes (Script.fresh_bytes gap script),
      Token.evaluate_cons, i.event?_token, i.settings_token]
    refine ⟨?_,hs⟩
    have hm : (i.event? w).toList.map (Prod.fst ∘ fun event => (event, i.settings)) =
        (i.event? w).toList := List.map_id' _
    rw [List.map_append, List.map_map, hm, he]
    rfl

def Small (i : Intent) : Prop := i.tempo ≤ 2 ^ 24 ∧ i.length ≤ 2 ^ 24

theorem small_apply {i : Intent} (h : i.Small) (w : Written) : (i.apply w).Small := by
  cases w with
  | length n =>
    by_cases hn : n.value = 0
    · rwa [apply, if_pos hn]
    · rw [apply, if_neg hn]
      exact ⟨h.1,n.value_le⟩
  | tempo n => exact ⟨n.value_le,h.2⟩
  | _ => exact h

theorem small_perform {i : Intent} (h : i.Small) (ws : List Written) : (perform ws i).2.Small := by
  induction ws generalizing i with
  | nil => exact h
  | cons w ws ih => exact ih (small_apply h w)

end Intent

/-- A script yields the events that are meant by it and leaves the settings that are meant. The
numbers in it are exact wherever they are used, and only the arithmetic of the durations rounds. -/
theorem script_is_performed (lead : Gap) (script : Script) :
    let text := Script.bytes lead script
    let c := Cursor.start (.ofBytes text)
    let performed := Intent.perform (script.map Prod.fst) .initial
    c.tune.bytes = text ∧ c.events = performed.1 ∧ c.finish.settings = performed.2.settings ∧
    (∀ ws : List Written, let i := (Intent.perform ws .initial).2
      Single.Holds i.settings.tempo i.tempo ∧ Single.Holds i.settings.defaultLength i.length) ∧
    (∀ n : Numeral, Single.Holds (.ofNat n.value) n.value) ∧
    ∀ (i : Intent) (n : Option Numeral) (dotted : Bool), i.millis n dotted =
      let denominator := Float32.ofNat
        (if Numeral.valueOf n = 0 then i.length else Numeral.valueOf n)
      let beats := if dotted then 4 / denominator * 1.5 else 4 / denominator
      60 / Float32.ofNat i.tempo * beats * 1000 := by
  intro text c performed
  have ht : c.tune.bytes = text := Script.bytes_ofBytes lead script
  have hc := c.evaluate_cut
  rw [show c.rest = text from ht] at hc
  obtain ⟨he,hs⟩ := Intent.evaluate_cut_bytes lead script .initial
  refine ⟨ht,?_,?_,?_,?_,?_⟩
  · rw [c.events_eq_map, ← he]
    exact congrArg (fun evaluated => evaluated.1.map Prod.fst) hc.symm
  · rw [← hs]
    exact congrArg Prod.snd hc.symm
  · intro ws
    have hsmall : Intent.initial.Small := ⟨by decide,by decide⟩
    obtain ⟨h1,h2⟩ := Intent.small_perform hsmall ws
    exact ⟨Single.holds_ofNat h1,Single.holds_ofNat h2⟩
  · exact fun n => Single.holds_ofNat n.value_le
  · intro i n dotted
    cases dotted <;> rfl

end Chime
