import Chime.Pitch.Basic

/-!
# Bytes of the notation

A tune is written in bytes. A byte may open a directive, or be a digit, a sign or a dot inside
one; every other byte is insignificant. `ofByte_eq_nothing_iff` says exactly which bytes open
nothing.
-/

set_option autoImplicit false

namespace Chime

abbrev Bytes := List UInt8

namespace Byte

def minus : UInt8 := 0x2d
def plus : UInt8 := 0x2b
def dot : UInt8 := 0x2e

def isDigit (byte : UInt8) : Bool := 0x30 ≤ byte && byte ≤ 0x39

def digitValue (byte : UInt8) : UInt8 := byte - 0x30

theorem toNat_digitValue {byte : UInt8} (h : isDigit byte = true) :
    (digitValue byte).toNat = byte.toNat - 48 := by
  simp only [isDigit, Bool.and_eq_true, decide_eq_true_eq] at h
  exact UInt8.toNat_sub_of_le byte 0x30 h.1

end Byte

inductive Opening where
  | lower
  | raise
  | octave
  | length
  | tempo
  | pause
  | letter (letter : Letter)
  | nothing
  deriving DecidableEq, Repr

namespace Opening

def ofByte (byte : UInt8) : Opening :=
  match byte with
  | 0x3c => lower
  | 0x3e => raise
  | 0x4f => octave
  | 0x4c => length
  | 0x54 => tempo
  | 0x50 => pause
  | _ =>
    match Letter.ofByte byte with
    | .ok l => letter l
    | .error _ => nothing

def byte? : Opening → Option UInt8
  | lower => some 0x3c
  | raise => some 0x3e
  | octave => some 0x4f
  | length => some 0x4c
  | tempo => some 0x54
  | pause => some 0x50
  | letter l => some l.byte
  | nothing => none

theorem ofByte_of_byte? {opening : Opening} {byte : UInt8} (h : opening.byte? = some byte) :
    ofByte byte = opening := by
  cases opening with
  | letter l => cases h; cases l <;> rfl
  | nothing => cases h
  | _ => cases h; rfl

theorem byte?_ofByte {byte : UInt8} (h : ofByte byte ≠ nothing) :
    (ofByte byte).byte? = some byte := by
  unfold ofByte at h ⊢
  split <;> try rfl
  next h1 h2 h3 h4 h5 h6 =>
    cases hl : Letter.ofByte byte with
    | ok l => simp [byte?, Letter.eq_byte_of_ofByte hl]
    | error e => simp [hl] at h

theorem ofByte_eq_nothing_iff (byte : UInt8) :
    ofByte byte = nothing ↔ ∀ opening : Opening, opening.byte? ≠ some byte := by
  constructor
  · intro h opening ho
    have := ofByte_of_byte? ho
    rw [h] at this
    subst this
    cases ho
  · intro h
    by_cases hn : ofByte byte = nothing
    · exact hn
    · exact absurd (byte?_ofByte hn) (h _)

end Opening

def Byte.isSignificant (byte : UInt8) : Bool :=
  Opening.ofByte byte != .nothing || isDigit byte || byte == minus || byte == plus || byte == dot

end Chime
