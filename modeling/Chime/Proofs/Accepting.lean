import Chime.Notation.Grammar
import Chime.Proofs.Progress

/-!
# What the readers accept

Each reader takes the longest word of its kind and gives back what is behind it. A word read on its
own is read whole, a word that is taken is the longest there is, and where nothing is taken there
is no word: these three say all of a reader. A length and a pitch are read in two parts, and as the
second has one byte at most, taking the first as long as it can be loses nothing.
-/

set_option autoImplicit false

namespace Chime.Lexeme

namespace Grammar

variable {α β γ : Type} {g : Grammar α} {h : Grammar β}

theorem Longest.eq {word rest other left input : Bytes} {v w : α} (hv : g.Longest word rest v)
    (hw : g.Longest other left w) (h1 : input = word ++ rest) (h2 : input = other ++ left) :
    word = other ∧ rest = left := by
  have ha : word ++ rest = other ++ left := h1.symm.trans h2
  refine List.append_inj ha (Nat.le_antisymm ?_ ?_)
  · exact hw.le word v (ha ▸ List.prefix_append word rest) hv.isWord
  · exact hv.le other w (ha ▸ List.prefix_append other left) hw.isWord

theorem reads_of {read : Bytes → Except Failure (α × Bytes)}
    (whole : ∀ word v, g word v → read word = .ok (v, []))
    (sound : ∀ input v rest, read input = .ok (v, rest) → g.Takes input v rest)
    (refuses : ∀ input failure word v, read input = .error failure → word <+: input →
      ¬g word v) :
    g.Reads read := by
  have hu : ∀ word v w, g word v → g word w → v = w := by
    intro word v w hv hw
    have hr := (whole word v hv).symm.trans (whole word w hw)
    exact congrArg Prod.fst (Except.ok.inj hr)
  refine ⟨hu,fun input v rest => ⟨sound input v rest,?_⟩⟩
  rintro ⟨word,hi,hl⟩
  have hp : word <+: input := hi ▸ List.prefix_append word rest
  cases hr : read input with
  | error failure => exact absurd hl.isWord (refuses input failure word v hr hp)
  | ok taken =>
    obtain ⟨w,left⟩ := taken
    obtain ⟨other,hi2,hl2⟩ := sound input w left hr
    obtain ⟨rfl,rfl⟩ := hl.eq hl2 hi hi2
    rw [hu word v w hl.isWord hl2.isWord]

/-- The second part may have grown by no more than the first one has shrunk. -/
theorem Longest.seq {front back rest : Bytes} {x : α} {y : β} (join : α → β → γ)
    (hg : g.Longest front (back ++ rest) x) (hh : h.Longest back rest y)
    (short : ∀ word w, h word w → word.length ≤ 1) :
    (Seq g h join).Longest (front ++ back) rest (join x y) := by
  refine ⟨.both hg.isWord hh.isWord,?_⟩
  rintro longer v hp ⟨first,second⟩
  rename_i a b xa yb
  rw [List.append_assoc] at hp
  have ha : a.length ≤ front.length := hg.le a xa ((List.prefix_append a b).trans hp) first
  have hb : b.length ≤ 1 := short b yb second
  rw [List.length_append, List.length_append]
  by_cases he : a.length = front.length
  · obtain ⟨more,hm⟩ := hp
    rw [List.append_assoc] at hm
    have hle := hh.le b yb ⟨more,(List.append_inj hm he).2⟩ second
    omega
  · omega

theorem takes_nil {bytes : Bytes} {v : α} (hv : g [] v)
    (hn : ∀ byte more w, bytes.head? = some byte → ¬g (byte :: more) w) :
    g.Takes bytes v bytes := by
  refine ⟨[],rfl,hv,?_⟩
  intro longer w hp hw
  cases longer with
  | nil => exact Nat.le_refl 0
  | cons byte more =>
    obtain ⟨after,ha⟩ := hp
    have hb : bytes.head? = some byte := congrArg List.head? ha.symm
    exact absurd hw (hn byte more w hb)

theorem takes_singleton {byte : UInt8} {rest : Bytes} {v : α} (hv : g [byte] v)
    (short : ∀ word w, g word w → word.length ≤ 1) : g.Takes (byte :: rest) v rest :=
  ⟨[byte],rfl,hv,fun longer w _ hw => short longer w hw⟩

theorem length_dot {word : Bytes} {dotted : Bool} (hd : Dot word dotted) : word.length ≤ 1 := by
  cases hd <;> decide

theorem length_sign {word : Bytes} {sign : Accidental} (hs : Sign word sign) :
    word.length ≤ 1 := by
  cases hs <;> decide

end Grammar

open Grammar

theorem number_longest (bytes : Bytes) :
    Number.Longest (bytes.takeWhile Byte.isDigit) (number bytes).2 (number bytes).1 := by
  refine ⟨.digits fun byte hm => List.all_eq_true.mp List.all_takeWhile byte hm,?_⟩
  rintro longer v ⟨more,hm⟩ ⟨hd⟩
  have hb : longer ++ more = bytes := hm.trans List.takeWhile_append_dropWhile
  rw [← hb, List.takeWhile_append_of_pos hd, List.length_append]
  exact Nat.le_add_right _ _

theorem reads_number : Number.Reads fun bytes => .ok (number bytes) := by
  refine reads_of ?_ ?_ nofun
  · rintro word v ⟨hd⟩
    have hn : number (word ++ []) = (numeral word, []) := number_append hd nofun
    rw [List.append_nil] at hn
    rw [hn]
  · rintro input v rest hr
    cases hr
    exact ⟨_,List.takeWhile_append_dropWhile.symm,number_longest input⟩

theorem dotted_takes (bytes : Bytes) : Dot.Takes bytes (dotted bytes).1 (dotted bytes).2 := by
  cases bytes with
  | nil => exact takes_nil .absent nofun
  | cons byte rest =>
    by_cases hb : byte = 0x2e
    · subst hb
      exact takes_singleton .present fun _ _ => length_dot
    · have hr : dotted (byte :: rest) = (false, byte :: rest) := if_neg hb
      rw [hr]
      refine takes_nil .absent ?_
      rintro _ more w ⟨⟩ ⟨⟩
      exact hb rfl

theorem reads_dot : Dot.Reads fun bytes => .ok (dotted bytes) := by
  refine reads_of ?_ ?_ nofun
  · rintro word v ⟨⟩ <;> rfl
  · intro input v rest hr
    obtain ⟨rfl,rfl⟩ := Prod.mk.inj (Except.ok.inj hr).symm
    exact dotted_takes input

theorem accidental_takes (bytes : Bytes) :
    Sign.Takes bytes (accidental bytes).1 (accidental bytes).2 := by
  cases bytes with
  | nil => exact takes_nil .absent nofun
  | cons byte rest =>
    by_cases hm : byte = 0x2d
    · subst hm
      exact takes_singleton .minus fun _ _ => length_sign
    · by_cases hp : byte = 0x2b
      · subst hp
        exact takes_singleton .plus fun _ _ => length_sign
      · have hr : accidental (byte :: rest) = (.natural, byte :: rest) :=
          (if_neg hm).trans (if_neg hp)
        rw [hr]
        refine takes_nil .absent ?_
        rintro _ more w ⟨⟩ ⟨⟩
        · exact hm rfl
        · exact hp rfl

theorem reads_sign : Sign.Reads fun bytes => .ok (accidental bytes) := by
  refine reads_of ?_ ?_ nofun
  · rintro word v ⟨⟩ <;> rfl
  · intro input v rest hr
    obtain ⟨rfl,rfl⟩ := Prod.mk.inj (Except.ok.inj hr).symm
    exact accidental_takes input

theorem length_of_parts {digits dot : Bytes} {x : Float32} {y : Bool} (hn : Number digits x)
    (hd : Dot dot y) : length (digits ++ dot) = (⟨x, y⟩, []) := by
  obtain ⟨hall⟩ := hn
  have hr : number (digits ++ dot) = (numeral digits, dot) := by
    refine number_append hall ?_
    cases hd with
    | absent => exact nofun
    | present =>
      rintro _ ⟨⟩
      rfl
  rw [length, hr]
  cases hd <;> rfl

theorem reads_numberDot : NumberDot.Reads fun bytes => .ok (length bytes) := by
  refine reads_of ?_ ?_ nofun
  · rintro word v ⟨hn,hd⟩
    rw [length_of_parts hn hd]
  · rintro input v rest hr
    cases hr
    obtain ⟨dot,hs,hd⟩ := dotted_takes (number input).2
    have hn := number_longest input
    rw [hs] at hn
    refine ⟨input.takeWhile Byte.isDigit ++ dot,?_,hn.seq Operand.mk hd fun _ _ => length_dot⟩
    rw [List.append_assoc]
    exact List.takeWhile_append_dropWhile.symm.trans (congrArg _ hs)

theorem octave_digit (o : Octave) (rest : Bytes) :
    octave ((o.number + 0x30) :: rest) = .ok (o, rest) :=
  Token.octave_of_some (Token.octaveOf?_digit o rest)

theorem reads_of_byte {α : Type} {g : Grammar α} {read : Bytes → Except Failure (α × Bytes)}
    (one : ∀ word v, g word v → word.length = 1)
    (complete : ∀ word v rest, g word v → read (word ++ rest) = .ok (v, rest))
    (sound : ∀ input v rest, read input = .ok (v, rest) → ∃ word, input = word ++ rest ∧ g word v) :
    g.Reads read := by
  refine reads_of ?_ ?_ ?_
  · intro word v hw
    have hr := complete word v [] hw
    rwa [List.append_nil] at hr
  · intro input v rest hr
    obtain ⟨word,hi,hw⟩ := sound input v rest hr
    refine ⟨word,hi,hw,fun longer w _ hl => ?_⟩
    exact Nat.le_of_eq ((one longer w hl).trans (one word v hw).symm)
  · rintro input failure word v hr ⟨rest,rfl⟩ hw
    rw [complete word v rest hw] at hr
    cases hr

theorem reads_octaveDigit : OctaveDigit.Reads octave := by
  refine reads_of_byte ?_ ?_ ?_
  · rintro word v ⟨⟩
    rfl
  · rintro word v rest ⟨⟩
    exact octave_digit v rest
  · intro input v rest hr
    obtain ⟨byte,rfl,_,hv⟩ := octave_eq_cons hr
    have hb : byte = v.number + 0x30 := by rw [← hv, Byte.digitValue, UInt8.sub_add_cancel]
    exact ⟨[byte],rfl,hb ▸ .digit v⟩

theorem letter_eq_cons {input rest : Bytes} {l : Letter} (h : letter input = .ok (l, rest)) :
    input = l.byte :: rest := by
  cases input with
  | nil => cases h
  | cons byte tail =>
    cases hl : Letter.ofByte byte with
    | error e => simp [letter, hl] at h
    | ok found =>
      simp only [letter, hl, Except.ok.injEq, Prod.mk.injEq] at h
      obtain ⟨rfl,rfl⟩ := h
      rw [Letter.eq_byte_of_ofByte hl]

theorem reads_letterByte : LetterByte.Reads letter := by
  refine reads_of_byte ?_ ?_ ?_
  · rintro word v ⟨⟩
    rfl
  · rintro word v rest ⟨⟩
    exact letter_byte v rest
  · intro input v rest hr
    exact ⟨[v.byte],letter_eq_cons hr,.byte v⟩

theorem pitch_eq_cons {input rest : Bytes} {p : Pitch} (h : pitch input = .ok (p, rest)) :
    ∃ mid, input = p.letter.byte :: mid ∧ accidental mid = (p.accidental, rest) := by
  cases hl : letter input with
  | error e => simp [pitch, hl] at h
  | ok read =>
    simp only [pitch, hl, Except.ok.injEq, Prod.mk.injEq] at h
    obtain ⟨rfl,rfl⟩ := h
    exact ⟨read.2,letter_eq_cons hl,rfl⟩

theorem letterByte_longest (l : Letter) (rest : Bytes) : LetterByte.Longest [l.byte] rest l := by
  refine ⟨.byte l,?_⟩
  rintro longer v _ ⟨⟩
  exact Nat.le_refl 1

theorem reads_letterSign : LetterSign.Reads pitch := by
  refine reads_of ?_ ?_ ?_
  · rintro _ _ ⟨⟨l⟩,hs⟩
    rw [List.singleton_append, pitch_byte]
    cases hs <;> rfl
  · intro input v rest hr
    obtain ⟨mid,rfl,ha⟩ := pitch_eq_cons hr
    obtain ⟨sign,hm,hs⟩ := accidental_takes mid
    rw [ha] at hm hs
    refine ⟨v.letter.byte :: sign,congrArg _ hm,?_⟩
    exact (letterByte_longest v.letter (sign ++ rest)).seq Pitch.mk hs fun _ _ => length_sign
  · rintro input failure _ _ hr ⟨rest,rfl⟩ ⟨⟨l⟩,hs⟩
    rw [List.append_assoc, List.singleton_append, pitch_byte] at hr
    cases hr

theorem exists_octave {byte : UInt8} (hlow : 0x31 ≤ byte) (hhigh : byte ≤ 0x37) :
    ∃ o : Octave, byte = o.number + 0x30 := by
  simp only [UInt8.le_iff_toNat_le, UInt8.reduceToNat] at hlow hhigh
  have hs : (byte - 0x30).toNat = byte.toNat - 0x30 :=
    UInt8.toNat_sub_of_le byte 0x30 (UInt8.le_iff_toNat_le.mpr (Nat.le_of_succ_le hlow))
  refine ⟨⟨byte - 0x30,?_,?_⟩,(UInt8.sub_add_cancel byte 0x30).symm⟩ <;>
    simp only [UInt8.le_iff_toNat_le, UInt8.reduceToNat, hs] <;> omega

theorem digit_cases {byte : UInt8} (h : Byte.isDigit byte = true) :
    (0x31 ≤ byte ∧ byte ≤ 0x37) ∨ byte = 0x30 ∨ byte = 0x38 ∨ byte = 0x39 := by
  simp only [Byte.isDigit, Bool.and_eq_true, decide_eq_true_eq] at h
  simp only [UInt8.le_iff_toNat_le, ← UInt8.toNat_inj, UInt8.reduceToNat] at h ⊢
  omega

/-- A reader fails as it is told if for all that it does not take there is a cause. -/
theorem eq_error_iff {α : Type} {read : Bytes → Except Failure (α × Bytes)}
    {no : Bytes → Cause → Prop}
    (refuses : ∀ bytes cause, no bytes cause → read bytes = .error ⟨cause, bytes⟩)
    (covers : ∀ bytes, (∃ taken, read bytes = .ok taken) ∨ ∃ cause, no bytes cause)
    (bytes : Bytes) (failure : Failure) :
    read bytes = .error failure ↔ failure.rest = bytes ∧ no bytes failure.cause := by
  constructor
  · intro h
    rcases covers bytes with ⟨taken,ht⟩ | ⟨cause,hc⟩
    · rw [ht] at h
      cases h
    · obtain rfl := Except.error.inj ((refuses bytes cause hc).symm.trans h)
      exact ⟨rfl,hc⟩
  · rintro ⟨rfl,hc⟩
    exact refuses failure.rest failure.cause hc

theorem octave_of_noOctave (bytes : Bytes) (cause : Cause) (h : NoOctave bytes cause) :
    octave bytes = .error ⟨cause, bytes⟩ := by
  cases h with
  | missing h =>
    cases bytes with
    | nil => rfl
    | cons byte rest => simp [octave, h byte rfl]
  | outOfRange h => rcases h with rfl | rfl | rfl <;> rfl

theorem octave_or_noOctave (bytes : Bytes) :
    (∃ taken, octave bytes = .ok taken) ∨ ∃ cause, NoOctave bytes cause := by
  cases bytes with
  | nil => exact .inr ⟨_,.missing nofun⟩
  | cons byte rest =>
    by_cases hd : Byte.isDigit byte = true
    · rcases digit_cases hd with ⟨hlow,hhigh⟩ | hout
      · obtain ⟨o,rfl⟩ := exists_octave hlow hhigh
        exact .inl ⟨_,octave_digit o rest⟩
      · exact .inr ⟨_,.outOfRange hout⟩
    · refine .inr ⟨_,.missing ?_⟩
      rintro _ ⟨⟩
      exact eq_false_of_ne_true hd

theorem ofByte_of_not_le {byte : UInt8} (h : ¬(0x41 ≤ byte ∧ byte ≤ 0x47)) :
    Letter.ofByte byte = .error .notALetter := by
  unfold Letter.ofByte
  split
  case h_8 => rfl
  all_goals exact absurd (by decide) h

theorem letter_of_noLetter (bytes : Bytes) (cause : Cause) (h : NoLetter bytes cause) :
    letter bytes = .error ⟨cause, bytes⟩ := by
  cases h with
  | atEnd => rfl
  | other hn => simp [letter, ofByte_of_not_le hn]

theorem letter_or_noLetter (bytes : Bytes) :
    (∃ taken, letter bytes = .ok taken) ∨ ∃ cause, NoLetter bytes cause := by
  cases bytes with
  | nil => exact .inr ⟨_,.atEnd⟩
  | cons byte rest =>
    by_cases hb : 0x41 ≤ byte ∧ byte ≤ 0x47
    · obtain ⟨l,hl⟩ := Letter.ofByte_of_le hb.1 hb.2
      exact .inl ⟨(l, rest),by rw [letter, hl]⟩
    · exact .inr ⟨_,.other hb⟩

theorem pitch_eq_error_iff (bytes : Bytes) (failure : Failure) :
    pitch bytes = .error failure ↔ letter bytes = .error failure := by
  unfold pitch
  cases letter bytes <;> simp

theorem exists_noOctave_iff (bytes : Bytes) :
    (∃ cause, NoOctave bytes cause) ↔
      ∀ byte, bytes.head? = some byte → ¬(0x31 ≤ byte ∧ byte ≤ 0x37) := by
  constructor
  · rintro ⟨cause,hc⟩ byte hb hr
    obtain ⟨o,rfl⟩ := exists_octave hr.1 hr.2
    obtain ⟨rest,rfl⟩ := List.head?_eq_some_iff.mp hb
    have he := octave_of_noOctave _ cause hc
    rw [octave_digit] at he
    cases he
  · intro h
    by_cases hd : ∃ byte, bytes.head? = some byte ∧ Byte.isDigit byte = true
    · obtain ⟨byte,hb,hd⟩ := hd
      obtain ⟨rest,rfl⟩ := List.head?_eq_some_iff.mp hb
      exact ⟨_,.outOfRange ((digit_cases hd).resolve_left (h byte rfl))⟩
    · exact ⟨_,.missing fun byte hb => eq_false_of_ne_true fun ht => hd ⟨byte,hb,ht⟩⟩

theorem exists_noLetter_iff (bytes : Bytes) :
    (∃ cause, NoLetter bytes cause) ↔
      ∀ byte, bytes.head? = some byte → ¬(0x41 ≤ byte ∧ byte ≤ 0x47) := by
  constructor
  · rintro ⟨_,hc⟩ byte hb
    cases hc with
    | atEnd => cases hb
    | other hn =>
      cases hb
      exact hn
  · intro h
    cases bytes with
    | nil => exact ⟨_,.atEnd⟩
    | cons byte rest => exact ⟨_,.other (h byte rfl)⟩

theorem exists_failure_iff {α : Type} {read : Bytes → Except Failure (α × Bytes)}
    {no : Bytes → Cause → Prop}
    (h : ∀ bytes failure, read bytes = .error failure ↔
      failure.rest = bytes ∧ no bytes failure.cause) (bytes : Bytes) :
    (∃ failure, read bytes = .error failure) ↔ ∃ cause, no bytes cause := by
  constructor
  · rintro ⟨failure,hf⟩
    exact ⟨failure.cause,((h bytes failure).mp hf).2⟩
  · rintro ⟨cause,hc⟩
    exact ⟨⟨cause,bytes⟩,(h bytes _).mpr ⟨rfl,hc⟩⟩

/-- Each of the seven readers takes the longest word of its kind off the front, and the word alone
says what is read. Numbers, dots, signs and lengths are always read. An octave, a letter or a pitch
is read unless the first byte is none of those that it may start with; then nothing is taken, and
the cause tells what is there instead. -/
theorem readers_take_the_longest_word :
    (Number.Reads fun bytes => .ok (number bytes)) ∧
    (Dot.Reads fun bytes => .ok (dotted bytes)) ∧
    (Sign.Reads fun bytes => .ok (accidental bytes)) ∧
    (NumberDot.Reads fun bytes => .ok (length bytes)) ∧
    OctaveDigit.Reads octave ∧ LetterByte.Reads letter ∧ LetterSign.Reads pitch ∧
    (∀ bytes : Bytes,
      ((∃ failure, octave bytes = .error failure) ↔
        ∀ byte, bytes.head? = some byte → ¬(0x31 ≤ byte ∧ byte ≤ 0x37)) ∧
      ((∃ failure, letter bytes = .error failure) ↔
        ∀ byte, bytes.head? = some byte → ¬(0x41 ≤ byte ∧ byte ≤ 0x47)) ∧
      ((∃ failure, pitch bytes = .error failure) ↔
        ∀ byte, bytes.head? = some byte → ¬(0x41 ≤ byte ∧ byte ≤ 0x47))) ∧
    ∀ (bytes : Bytes) (failure : Failure),
      (octave bytes = .error failure ↔
        failure.rest = bytes ∧ NoOctave bytes failure.cause) ∧
      (letter bytes = .error failure ↔
        failure.rest = bytes ∧ NoLetter bytes failure.cause) ∧
      (pitch bytes = .error failure ↔
        failure.rest = bytes ∧ NoLetter bytes failure.cause) := by
  have ho := eq_error_iff octave_of_noOctave octave_or_noOctave
  have hl := eq_error_iff letter_of_noLetter letter_or_noLetter
  have hp : ∀ bytes failure, pitch bytes = .error failure ↔
      failure.rest = bytes ∧ NoLetter bytes failure.cause := fun bytes failure =>
    (pitch_eq_error_iff bytes failure).trans (hl bytes failure)
  refine ⟨reads_number,reads_dot,reads_sign,reads_numberDot,reads_octaveDigit,reads_letterByte,
    reads_letterSign,fun bytes => ⟨?_,?_,?_⟩,fun bytes failure =>
    ⟨ho bytes failure,hl bytes failure,hp bytes failure⟩⟩
  · exact (exists_failure_iff ho bytes).trans (exists_noOctave_iff bytes)
  · exact (exists_failure_iff hl bytes).trans (exists_noLetter_iff bytes)
  · exact (exists_failure_iff hp bytes).trans (exists_noLetter_iff bytes)

/-- One dot ends a length, and a byte beyond ASCII ends a number though it is a digit elsewhere. -/
example : length [0x38, 0x2e, 0x2e] = (⟨8, true⟩, [0x2e]) ∧
    length [0x38, 0xb2, 0x2e] = (⟨8, false⟩, [0xb2, 0x2e]) := by
  decide +kernel

end Chime.Lexeme
