import Chime.NoteValue
import Chime.Notation.Byte

/-!
# Lexemes

Readers for the pieces of a directive. Each takes the bytes that are left and gives back a value
with the bytes after it; what it gives back is always a suffix of what it took. Numbers, signs,
dots and lengths may be absent and never fail; an octave, a letter and a pitch have to be there.
-/

set_option autoImplicit false

namespace Chime.Lexeme

inductive Cause where
  | endOfInput
  | notADigit
  | rejected (error : PitchError)
  deriving DecidableEq, Repr

structure Failure where
  cause : Cause
  rest : Bytes
  deriving DecidableEq, Repr

/-- A denominator, zero if none is written, with its dot. -/
structure Operand where
  denominator : Float32
  dotted : Bool
  deriving DecidableEq

def numeral (digits : Bytes) : Float32 :=
  digits.foldl (fun n byte => n * 10 + (Byte.digitValue byte).toFloat32) 0

def number (bytes : Bytes) : Float32 × Bytes :=
  (numeral (bytes.takeWhile Byte.isDigit), bytes.dropWhile Byte.isDigit)

theorem number_suffix (bytes : Bytes) : (number bytes).2 <:+ bytes :=
  List.dropWhile_suffix _

theorem number_of_not_isDigit {byte : UInt8} (rest : Bytes) (h : Byte.isDigit byte = false) :
    number (byte :: rest) = (0, byte :: rest) := by
  simp [number, numeral, h]

theorem number_append {digits rest : Bytes} (hd : ∀ byte ∈ digits, Byte.isDigit byte = true)
    (hr : ∀ byte, rest.head? = some byte → Byte.isDigit byte = false) :
    number (digits ++ rest) = (numeral digits, rest) := by
  have ht : rest.takeWhile Byte.isDigit = [] ∧ rest.dropWhile Byte.isDigit = rest := by
    cases rest with
    | nil => exact ⟨rfl, rfl⟩
    | cons b bs => simp [hr b rfl]
  rw [number, List.takeWhile_append_of_pos hd, List.dropWhile_append_of_pos hd, ht.1, ht.2,
    List.append_nil]

def octave : Bytes → Except Failure (Octave × Bytes)
  | [] => .error ⟨.notADigit, []⟩
  | byte :: rest =>
    if Byte.isDigit byte then
      match Octave.ofNumber (Byte.digitValue byte) with
      | .ok o => .ok (o, rest)
      | .error e => .error ⟨.rejected e, byte :: rest⟩
    else .error ⟨.notADigit, byte :: rest⟩

theorem octave_eq_cons {bytes rest : Bytes} {o : Octave} (h : octave bytes = .ok (o, rest)) :
    ∃ byte, bytes = byte :: rest ∧ Byte.isDigit byte = true ∧ Byte.digitValue byte = o.number := by
  cases bytes with
  | nil => cases h
  | cons byte tail =>
    simp only [octave] at h
    split at h
    next hd =>
      cases ho : Octave.ofNumber (Byte.digitValue byte) with
      | error e => simp [ho] at h
      | ok o' =>
        simp only [ho, Except.ok.injEq, Prod.mk.injEq] at h
        obtain ⟨rfl, rfl⟩ := h
        refine ⟨byte, rfl, hd, ?_⟩
        unfold Octave.ofNumber at ho
        split at ho <;> cases ho
        rfl
    next => cases h

theorem octave_suffix {bytes rest : Bytes} {o : Octave} (h : octave bytes = .ok (o, rest)) :
    rest <:+ bytes := by
  obtain ⟨byte, rfl, _⟩ := octave_eq_cons h
  exact List.suffix_cons byte rest

def letter : Bytes → Except Failure (Letter × Bytes)
  | [] => .error ⟨.endOfInput, []⟩
  | byte :: rest =>
    match Letter.ofByte byte with
    | .ok l => .ok (l, rest)
    | .error e => .error ⟨.rejected e, byte :: rest⟩

theorem letter_byte (l : Letter) (rest : Bytes) : letter (l.byte :: rest) = .ok (l, rest) := by
  simp [letter, Letter.ofByte_byte]

def accidental : Bytes → Accidental × Bytes
  | [] => (.natural, [])
  | byte :: rest =>
    if byte = Byte.minus then (.flat, rest)
    else if byte = Byte.plus then (.sharp, rest)
    else (.natural, byte :: rest)

theorem accidental_suffix (bytes : Bytes) : (accidental bytes).2 <:+ bytes := by
  unfold accidental
  split
  · exact List.suffix_rfl
  · split
    · exact List.suffix_cons _ _
    · split
      · exact List.suffix_cons _ _
      · exact List.suffix_rfl

def dotted : Bytes → Bool × Bytes
  | [] => (false, [])
  | byte :: rest => if byte = Byte.dot then (true, rest) else (false, byte :: rest)

theorem dotted_suffix (bytes : Bytes) : (dotted bytes).2 <:+ bytes := by
  unfold dotted
  split
  · exact List.suffix_rfl
  · split
    · exact List.suffix_cons _ _
    · exact List.suffix_rfl

def pitch (bytes : Bytes) : Except Failure (Pitch × Bytes) :=
  match letter bytes with
  | .ok (l, rest) => .ok (⟨l, (accidental rest).1⟩, (accidental rest).2)
  | .error e => .error e

theorem pitch_byte (l : Letter) (rest : Bytes) :
    pitch (l.byte :: rest) = .ok (⟨l, (accidental rest).1⟩, (accidental rest).2) := by
  simp [pitch, letter_byte]

def length (bytes : Bytes) : Operand × Bytes :=
  (⟨(number bytes).1, (dotted (number bytes).2).1⟩, (dotted (number bytes).2).2)

theorem length_suffix (bytes : Bytes) : (length bytes).2 <:+ bytes :=
  (dotted_suffix _).trans (number_suffix _)

end Chime.Lexeme
