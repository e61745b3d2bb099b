import Chime.Notation.Numeral
import Chime.Notation.Token

/-!
# Scripts

What someone writes who means the notation: directives with whole numbers in them, and gaps of
bytes that mean nothing between them. A script has a text, and its events follow from the exact
numbers without a look at that text.
-/

set_option autoImplicit false

namespace Chime

inductive Written where
  | lower
  | raise
  | octave (octave : Octave)
  | length (n : Numeral)
  | tempo (n : Numeral)
  | pause (n : Option Numeral) (dotted : Bool)
  | note (pitch : Pitch) (n : Option Numeral) (dotted : Bool)

def Numeral.digitsOf : Option Numeral → Bytes
  | some n => n.digits
  | none => []

def Numeral.valueOf : Option Numeral → Nat
  | some n => n.value
  | none => 0

def Written.token : Written → Token
  | lower => .lower
  | raise => .raise
  | octave o => .octave o
  | length n => .length n.digits none
  | tempo n => .tempo n.digits none
  | pause n dotted => .pause (Numeral.digitsOf n) dotted
  | note p n dotted => .note p.letter p.accidental (Numeral.digitsOf n) dotted

def Written.bytes (w : Written) : Bytes := w.token.bytes

structure Gap where
  bytes : Bytes
  blank : ∀ byte ∈ bytes, byte ≠ 0 ∧ Byte.isSignificant byte = false

abbrev Script := List (Written × Gap)

def Script.bytes (lead : Gap) (script : Script) : Bytes :=
  lead.bytes ++ script.flatMap fun item => item.1.bytes ++ item.2.bytes

structure Intent where
  tempo : Nat
  octave : Octave
  length : Nat
  deriving DecidableEq

namespace Intent

def initial : Intent := ⟨120, .clamp 4, 4⟩

def settings (i : Intent) : Settings := ⟨.ofNat i.tempo, i.octave, .ofNat i.length⟩

def apply (i : Intent) : Written → Intent
  | .lower => { i with octave := .clamp (i.octave.number.toNat - 1) }
  | .raise => { i with octave := .clamp (i.octave.number.toNat + 1) }
  | .octave o => { i with octave := o }
  | .length n => if n.value = 0 then i else { i with length := n.value }
  | .tempo n => { i with tempo := n.value }
  | .pause _ _ => i
  | .note _ _ _ => i

def millis (i : Intent) (n : Option Numeral) (dotted : Bool) : Float32 :=
  let denominator := if Numeral.valueOf n = 0 then i.length else Numeral.valueOf n
  NoteValue.millis ⟨.ofNat denominator, dotted⟩ (.ofNat i.tempo)

def event? (i : Intent) : Written → Option Event
  | .pause n dotted => some (.rest (i.millis n dotted))
  | .note p n dotted => some (.tone ⟨p, i.octave⟩ (i.millis n dotted))
  | _ => none

def perform : List Written → Intent → List Event × Intent
  | [], i => ([], i)
  | w :: ws, i =>
    let others := perform ws (i.apply w)
    ((i.event? w).toList ++ others.1, others.2)

end Intent

end Chime
