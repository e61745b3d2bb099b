import Chime.Notation.Token
import Chime.Proofs.Update

/-!
# Two readings of the notation

A cursor never cuts a tune into tokens: it reads a directive where it stands, and after a length
with digits it stands on the last byte of that length. Cutting first and evaluating afterwards
comes to the same. Reading a directive takes the bytes of one token, or all of them but a last
byte that opens nothing, and such a byte is a token of its own without an effect.
-/

set_option autoImplicit false

namespace Chime

theorem Opening.ofByte_of_isDigit {byte : UInt8} (h : Byte.isDigit byte = true) :
    ofByte byte = nothing := by
  rw [ofByte_eq_nothing_iff]
  intro opening ho
  cases opening with
  | letter l => cases l <;> cases ho <;> cases h
  | nothing => cases ho
  | _ => cases ho; cases h

theorem Opening.eq_of_ofByte {opening : Opening} {byte b : UInt8} (h : ofByte byte = opening)
    (hb : opening.byte? = some b) : byte = b := by
  have hn : ofByte byte ≠ nothing := by
    rw [h]
    rintro rfl
    cases hb
  have hs := byte?_ofByte hn
  rw [h, hb] at hs
  exact (Option.some.inj hs).symm

theorem drop_length_sub_one {word bytes : Bytes} (hp : word <+: bytes) (hn : word ≠ []) :
    bytes.drop (word.length - 1) = word.getLast hn :: bytes.drop word.length := by
  obtain ⟨after,rfl⟩ := hp
  have hw := List.dropLast_concat_getLast hn
  have hl : word.length - 1 = word.dropLast.length := List.length_dropLast.symm
  rw [hl, List.drop_left]
  calc (word ++ after).drop word.dropLast.length
      = (word.dropLast ++ (word.getLast hn :: after)).drop word.dropLast.length := by
        rw [List.append_cons, hw]
    _ = word.getLast hn :: after := List.drop_left

namespace Token

def directive : Token → Directive
  | lower => .lower
  | raise => .raise
  | octave o => .octave o
  | length digits _ => .length (Lexeme.numeral digits)
  | tempo digits _ => .tempo (Lexeme.numeral digits)
  | pause digits dotted => .pause ⟨Lexeme.numeral digits, dotted⟩
  | note l sign digits dotted => .note ⟨l, sign⟩ ⟨Lexeme.numeral digits, dotted⟩
  | other _ => .nothing

theorem number_eq (digits : Bytes) : number digits = Lexeme.numeral digits := rfl

theorem apply_directive (s : Settings) (token : Token) :
    s.apply token.directive = token.settings s := by
  cases token with
  | lower => exact congrArg (Settings.mk s.tempo · s.defaultLength) s.octave.lower_eq_clamp
  | raise => exact congrArg (Settings.mk s.tempo · s.defaultLength) s.octave.raise_eq_clamp
  | _ => rfl

theorem event?_directive (s : Settings) (token : Token) :
    s.event? token.directive = token.event? s := by
  cases token <;> rfl

/-- Where a reading may stop that takes a token off the front of `after`. -/
def Stops (left after : Bytes) : Prop :=
  left = after ∨ ∃ byte, Opening.ofByte byte = .nothing ∧ left = byte :: after

theorem digitsOf_cons_of_not_isDigit {byte : UInt8} (h : Byte.isDigit byte = false)
    (rest : Bytes) : digitsOf (byte :: rest) = [] := by
  simp [digitsOf_eq, h]

theorem control_eq (bytes : Bytes) :
    Directive.control bytes = (Lexeme.numeral (digitsOf bytes),
      bytes.drop (digitsOf bytes ++ (lostOf bytes).toList).length) := by
  cases bytes with
  | nil => rfl
  | cons byte rest =>
    cases h : Byte.isDigit byte with
    | true =>
      have hd : digitsOf (byte :: rest) ≠ [] := by simp [digitsOf_eq, h]
      have hl : lostOf (byte :: rest) = none := if_neg hd
      rw [hl, Option.toList_none, List.append_nil, Directive.control, if_pos h, digitsOf_eq,
        drop_length_takeWhile]
      rfl
    | false =>
      have hd := digitsOf_cons_of_not_isDigit h rest
      simp [Directive.control, h, lostOf, hd, Lexeme.numeral]

theorem dotted_eq (bytes : Bytes) :
    Lexeme.dotted bytes = (decide (bytes.head? = some 0x2e),
      bytes.drop (dotBytes (decide (bytes.head? = some 0x2e))).length) := by
  cases bytes with
  | nil => rfl
  | cons byte rest =>
    by_cases h : byte = 0x2e
    · subst h; rfl
    · simp [Lexeme.dotted, dotBytes, Byte.dot, h]

theorem accidental_eq (bytes : Bytes) :
    Lexeme.accidental bytes = (signOf bytes, bytes.drop (signBytes (signOf bytes)).length) := by
  cases bytes with
  | nil => rfl
  | cons byte rest =>
    by_cases h1 : byte = 0x2d
    · subst h1; rfl
    · by_cases h2 : byte = 0x2b
      · subst h2; rfl
      · simp [Lexeme.accidental, signOf, signBytes, Byte.minus, Byte.plus, h1, h2]

theorem length_eq (bytes : Bytes) :
    Lexeme.length bytes = (⟨Lexeme.numeral (digitsOf bytes), dottedOf bytes⟩,
      bytes.drop (digitsOf bytes ++ dotBytes (dottedOf bytes)).length) := by
  have hn : Lexeme.number bytes = (Lexeme.numeral (digitsOf bytes), bytes.dropWhile Byte.isDigit) :=
    rfl
  rw [Lexeme.length, hn, dotted_eq, List.length_append, ← List.drop_drop, digitsOf_eq,
    drop_length_takeWhile, dottedOf_eq]

theorem ofByte_of_mem_operand {bytes : Bytes} {byte : UInt8}
    (h : byte ∈ digitsOf bytes ++ dotBytes (dottedOf bytes)) : Opening.ofByte byte = .nothing := by
  rcases List.mem_append.mp h with hd | hd
  · exact Opening.ofByte_of_isDigit (List.all_eq_true.mp List.all_takeWhile byte hd)
  · unfold dotBytes at hd
    split at hd
    · rw [List.mem_singleton.mp hd]
      rfl
    · cases hd

theorem operand_fst (bytes : Bytes) :
    (Directive.operand bytes).1 = ⟨Lexeme.numeral (digitsOf bytes), dottedOf bytes⟩ := by
  rw [Directive.operand, length_eq]

theorem operand_snd_of_no_digits {bytes : Bytes} (h : digitsOf bytes = []) :
    (Directive.operand bytes).2 =
      bytes.drop (digitsOf bytes ++ dotBytes (dottedOf bytes)).length := by
  have h0 : (bytes.takeWhile Byte.isDigit).length = 0 := by simpa [digitsOf_eq] using h
  simp only [Directive.operand, h0, if_true, length_eq]

theorem operand_snd_of_digits {bytes : Bytes} (h : digitsOf bytes ≠ []) :
    (Directive.operand bytes).2 =
      bytes.drop ((digitsOf bytes ++ dotBytes (dottedOf bytes)).length - 1) := by
  have h0 : (bytes.takeWhile Byte.isDigit).length ≠ 0 := by simpa [digitsOf_eq] using h
  have hw : (dotBytes (dottedOf bytes)).length = if dottedOf bytes then 1 else 0 := by
    unfold dotBytes
    split <;> rfl
  simp only [Directive.operand, if_neg h0, length_eq, List.length_append, hw, digitsOf_eq]

/-- A length with digits is not left behind altogether. -/
theorem operand_stops (bytes : Bytes) :
    Stops (Directive.operand bytes).2
      (bytes.drop (digitsOf bytes ++ dotBytes (dottedOf bytes)).length) := by
  by_cases hd : digitsOf bytes = []
  · exact .inl (operand_snd_of_no_digits hd)
  · right
    have hn : digitsOf bytes ++ dotBytes (dottedOf bytes) ≠ [] := by simp [hd]
    refine ⟨_,ofByte_of_mem_operand (List.getLast_mem hn),?_⟩
    rw [operand_snd_of_digits hd, drop_length_sub_one (digitsOf_append_dotBytes bytes) hn]

theorem first_letter (l : Letter) (rest : Bytes) :
    first l.byte rest =
      note l (signOf rest) (digitsOf (rest.drop (signBytes (signOf rest)).length))
        (dottedOf (rest.drop (signBytes (signOf rest)).length)) := by
  cases l <;> rfl

theorem first_of_nothing {byte : UInt8} (h : Opening.ofByte byte = .nothing) (rest : Bytes) :
    first byte rest = other byte := by
  unfold first
  split
  · cases h
  · cases h
  · cases h
  · cases h
  · cases h
  · cases h
  · cases hl : Letter.ofByte byte with
    | error e => rfl
    | ok l =>
      have hb : (Opening.letter l).byte? = some byte := by
        rw [Letter.eq_byte_of_ofByte hl]
        rfl
      rw [Opening.ofByte_of_byte? hb] at h
      cases h

theorem isDigit_of_octave {byte : UInt8} (h : 1 ≤ byte - 0x30 ∧ byte - 0x30 ≤ 7) :
    Byte.isDigit byte = true := by
  have h1 := UInt8.le_iff_toNat_le.mp h.1
  have h2 := UInt8.le_iff_toNat_le.mp h.2
  have hb := byte.toNat_lt
  rw [UInt8.toNat_sub] at h1 h2
  simp only [Byte.isDigit, Bool.and_eq_true, decide_eq_true_eq, UInt8.le_iff_toNat_le]
  simp only [UInt8.reduceToNat] at h1 h2 ⊢
  omega

theorem octaveOf?_digit (o : Octave) (rest : Bytes) :
    octaveOf? ((o.number + 0x30) :: rest) = some o := by
  rw [octaveOf?_cons, UInt8.add_sub_cancel, o.ofNumber_number]
  rfl

theorem octave_of_some {bytes : Bytes} {o : Octave} (h : octaveOf? bytes = some o) :
    Lexeme.octave bytes = .ok (o, bytes.drop 1) := by
  cases bytes with
  | nil => cases h
  | cons byte rest =>
    rw [octaveOf?_cons] at h
    by_cases hr : 1 ≤ byte - 0x30 ∧ byte - 0x30 ≤ 7
    · have ho : Octave.ofNumber (byte - 0x30) = .ok ⟨byte - 0x30, hr.1, hr.2⟩ := by
        simp [Octave.ofNumber, hr]
      rw [ho] at h
      cases h
      simp [Lexeme.octave, isDigit_of_octave hr, Byte.digitValue, ho]
    · simp [Octave.ofNumber, hr, Except.toOption] at h

theorem octave_of_none {bytes : Bytes} (h : octaveOf? bytes = none) :
    ∃ failure, Lexeme.octave bytes = .error failure := by
  cases bytes with
  | nil => exact ⟨_,rfl⟩
  | cons byte rest =>
    rw [octaveOf?_cons] at h
    cases hd : Byte.isDigit byte with
    | false => exact ⟨⟨.notADigit, byte :: rest⟩,by simp [Lexeme.octave, hd]⟩
    | true =>
      cases ho : Octave.ofNumber (byte - 0x30) with
      | ok o => simp [ho, Except.toOption] at h
      | error e => exact ⟨⟨.rejected e, byte :: rest⟩,by simp [Lexeme.octave, hd, Byte.digitValue, ho]⟩

/-- Reading a directive reads the token that starts there. -/
theorem read_first (byte : UInt8) (rest : Bytes) :
    (Directive.read byte rest).1 = (first byte rest).directive ∧
      Stops (Directive.read byte rest).2
        (rest.drop ((first byte rest).bytes.length - 1)) := by
  cases ho : Opening.ofByte byte with
  | lower =>
    obtain rfl := Opening.eq_of_ofByte ho rfl
    exact ⟨rfl,.inl rfl⟩
  | raise =>
    obtain rfl := Opening.eq_of_ofByte ho rfl
    exact ⟨rfl,.inl rfl⟩
  | octave =>
    obtain rfl := Opening.eq_of_ofByte ho rfl
    cases h : octaveOf? rest with
    | some o =>
      have hf : first 0x4f rest = octave o := by simp [first, h]
      rw [hf, Directive.read, ho, octave_of_some h]
      exact ⟨rfl,.inl rfl⟩
    | none =>
      obtain ⟨failure,he⟩ := octave_of_none h
      have hf : first 0x4f rest = other 0x4f := by simp [first, h]
      rw [hf, Directive.read, ho, he]
      exact ⟨rfl,.inl rfl⟩
  | length =>
    obtain rfl := Opening.eq_of_ofByte ho rfl
    have hc := control_eq rest
    exact ⟨congrArg Directive.length (congrArg Prod.fst hc),.inl (congrArg Prod.snd hc)⟩
  | tempo =>
    obtain rfl := Opening.eq_of_ofByte ho rfl
    have hc := control_eq rest
    exact ⟨congrArg Directive.tempo (congrArg Prod.fst hc),.inl (congrArg Prod.snd hc)⟩
  | pause =>
    obtain rfl := Opening.eq_of_ofByte ho rfl
    exact ⟨congrArg Directive.pause (operand_fst rest),operand_stops rest⟩
  | letter l =>
    obtain rfl := Opening.eq_of_ofByte ho rfl
    rw [first_letter, Directive.read, ho, accidental_eq]
    constructor
    · exact congrArg (Directive.note _) (operand_fst _)
    · have hs := operand_stops (rest.drop (signBytes (signOf rest)).length)
      rw [List.drop_drop, ← List.length_append] at hs
      exact hs
  | nothing =>
    rw [first_of_nothing ho, Directive.read, ho]
    exact ⟨rfl,.inl rfl⟩

theorem cut_cons (byte : UInt8) (rest : Bytes) :
    cut (byte :: rest) =
      first byte rest :: cut (rest.drop ((first byte rest).bytes.length - 1)) := by
  rw [cut]

theorem evaluate_cons (token : Token) (tokens : List Token) (s : Settings) :
    evaluate (token :: tokens) s =
      ((token.event? s).toList.map (·, s) ++ (evaluate tokens (token.settings s)).1,
        (evaluate tokens (token.settings s)).2) := by
  rw [evaluate]
  cases token.event? s <;> rfl

theorem cut_of_nothing {byte : UInt8} (h : Opening.ofByte byte = .nothing) (bytes : Bytes) :
    cut (byte :: bytes) = other byte :: cut bytes := by
  rw [cut_cons, first_of_nothing h]
  rfl

theorem evaluate_cut_of_nothing {byte : UInt8} (h : Opening.ofByte byte = .nothing)
    (bytes : Bytes) (s : Settings) :
    evaluate (cut (byte :: bytes)) s = evaluate (cut bytes) s := by
  rw [cut_of_nothing h, evaluate_cons]
  rfl

/-- What a reading leaves standing has no effect on what follows. -/
theorem evaluate_cut_of_stops {left after : Bytes} (h : Stops left after) (s : Settings) :
    evaluate (cut left) s = evaluate (cut after) s := by
  rcases h with rfl | ⟨byte,hb,rfl⟩
  · rfl
  · exact evaluate_cut_of_nothing hb after s

theorem evaluate_cut_read (byte : UInt8) (rest : Bytes) (s : Settings) :
    let read := Directive.read byte rest
    evaluate (cut (byte :: rest)) s =
      ((s.event? read.1).toList.map (·, s) ++ (evaluate (cut read.2) (s.apply read.1)).1,
        (evaluate (cut read.2) (s.apply read.1)).2) := by
  obtain ⟨hd,hs⟩ := read_first byte rest
  simp only [hd, event?_directive, apply_directive, evaluate_cut_of_stops hs]
  rw [cut_cons, evaluate_cons]

theorem evaluate_cut_advance (s : Settings) (bytes : Bytes) :
    let passage := advance s bytes
    evaluate (cut bytes) s =
      (passage.event?.toList.map (·, passage.settings) ++
        (evaluate (cut passage.rest) passage.settings).1,
        (evaluate (cut passage.rest) passage.settings).2) := by
  fun_induction advance s bytes with
  | case1 s => simp [cut, evaluate]
  | case2 s byte bytes read event h =>
    rw [evaluate_cut_read]
    simp only [read] at h ⊢
    rw [h, Settings.apply_of_event? h]
  | case3 s byte bytes read h ih =>
    rw [evaluate_cut_read]
    simp only [read] at h ih ⊢
    rw [h, ih]
    rfl

end Token

namespace Cursor

theorem evaluate_cut (c : Cursor) :
    Token.evaluate (Token.cut c.rest) c.settings =
      (c.drain.map fun item => (item.1, item.2.settings), c.finish.settings) := by
  have ha := Token.evaluate_cut_advance c.settings c.rest
  fun_induction drain c with
  | case1 c event behind h ih =>
    have hi := ih (Token.evaluate_cut_advance behind.settings behind.rest)
    rw [advance_of_next h] at ha
    rw [ha, finish_of_some h, List.map_cons, hi]
    rfl
  | case2 c behind h =>
    rw [advance_of_next h, rest_of_not_isPlaying (not_isPlaying_of_none h)] at ha
    rw [ha, finish_of_none h]
    simp [Token.cut, Token.evaluate]

end Cursor

end Chime
