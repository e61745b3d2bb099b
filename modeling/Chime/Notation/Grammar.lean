import Chime.Notation.Lexeme

/-!
# The grammar of lexemes

The words of each kind of lexeme and what each word says. A reader takes the longest word of its
kind that stands at the front, and it is told here without any reading.
-/

set_option autoImplicit false

namespace Chime.Lexeme

/-- The words of a kind, each with its value. -/
abbrev Grammar (α : Type) := Bytes → α → Prop

namespace Grammar

variable {α β γ : Type}

inductive Number : Grammar Float32
  | digits {word : Bytes} (isDigit : ∀ byte ∈ word, Byte.isDigit byte = true) :
      Number word (numeral word)

inductive Dot : Grammar Bool
  | absent : Dot [] false
  | present : Dot [0x2e] true

inductive Sign : Grammar Accidental
  | absent : Sign [] .natural
  | minus : Sign [0x2d] .flat
  | plus : Sign [0x2b] .sharp

inductive OctaveDigit : Grammar Octave
  | digit (o : Octave) : OctaveDigit [o.number + 0x30] o

inductive LetterByte : Grammar Letter
  | byte (l : Letter) : LetterByte [l.byte] l

inductive Seq (g : Grammar α) (h : Grammar β) (join : α → β → γ) : Grammar γ
  | both {front back : Bytes} {x : α} {y : β} (first : g front x) (second : h back y) :
      Seq g h join (front ++ back) (join x y)

def NumberDot : Grammar Operand := Seq Number Dot Operand.mk

def LetterSign : Grammar Pitch := Seq LetterByte Sign Pitch.mk

/-- A word of the kind before `rest`, and no longer one starts where it starts. -/
structure Longest (g : Grammar α) (word rest : Bytes) (value : α) : Prop where
  isWord : g word value
  le : ∀ longer v, longer <+: word ++ rest → g longer v → longer.length ≤ word.length

def Takes (g : Grammar α) (input : Bytes) (value : α) (rest : Bytes) : Prop :=
  ∃ word, input = word ++ rest ∧ g.Longest word rest value

/-- A reader that takes the longest word wherever there is one, and whose value depends on the word
alone. -/
structure Reads (g : Grammar α) (read : Bytes → Except Failure (α × Bytes)) : Prop where
  unique : ∀ word v w, g word v → g word w → v = w
  takes : ∀ input v rest, read input = .ok (v, rest) ↔ g.Takes input v rest

inductive NoOctave : Bytes → Cause → Prop
  | missing {bytes : Bytes} (h : ∀ byte, bytes.head? = some byte → Byte.isDigit byte = false) :
      NoOctave bytes .notADigit
  | outOfRange {byte : UInt8} {rest : Bytes} (h : byte = 0x30 ∨ byte = 0x38 ∨ byte = 0x39) :
      NoOctave (byte :: rest) (.rejected .octaveOutOfRange)

inductive NoLetter : Bytes → Cause → Prop
  | atEnd : NoLetter [] .endOfInput
  | other {byte : UInt8} {rest : Bytes} (h : ¬(0x41 ≤ byte ∧ byte ≤ 0x47)) :
      NoLetter (byte :: rest) (.rejected .notALetter)

end Grammar

end Chime.Lexeme
