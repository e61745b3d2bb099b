import Chime.Playback

/-!
# Guarded playback

Playback once more, over positions, slices and machine words. Each operation that is not defined
everywhere checks its operands and faults outside its domain: a slice that ends behind the
bytes, a difference below zero, a row that the table of frequencies lacks, a shift that loses
bits. A play that ends without a fault has stayed inside every domain.
-/

set_option autoImplicit false

namespace Chime.Guarded

inductive Fault where
  | slice
  | difference
  | table
  | shift
  | octave
  | unending
  deriving DecidableEq, Repr

abbrev Checked (α : Type) := Except Fault α

def suffix (bytes : Bytes) (start : Nat) : Checked Bytes :=
  if start ≤ bytes.length then .ok (bytes.drop start) else .error .slice

def span (bytes : Bytes) (start stop : Nat) : Checked Bytes :=
  if start ≤ stop ∧ stop ≤ bytes.length then .ok ((bytes.drop start).take (stop - start))
  else .error .slice

def difference (a b : Nat) : Checked Nat :=
  if b ≤ a then .ok (a - b) else .error .difference

def byteDifference (a b : UInt8) : Checked UInt8 :=
  if b ≤ a then .ok (a - b) else .error .difference

/-- Hertz in the middle octave: a row for each letter, natural, flat and sharp. -/
def frequencies : List (List Hertz) :=
  [[440, 415, 466], [494, 466, 523], [262, 247, 277], [294, 277, 311],
    [330, 311, 349], [349, 330, 370], [392, 370, 415]]

def lookUp (row column : Nat) : Checked Hertz :=
  match frequencies[row]?.bind (·[column]?) with
  | some hz => .ok hz
  | none => .error .table

def shiftRight (hz : Hertz) (places : UInt8) : Checked Hertz :=
  if places < 32 then .ok (hz >>> places.toUInt32) else .error .shift

def shiftLeft (hz : Hertz) (places : UInt8) : Checked Hertz :=
  if places < 32 ∧ (hz <<< places.toUInt32) >>> places.toUInt32 = hz then
    .ok (hz <<< places.toUInt32)
  else .error .shift

def row : Letter → Nat
  | .a => 0
  | .b => 1
  | .c => 2
  | .d => 3
  | .e => 4
  | .f => 5
  | .g => 6

def column : Accidental → Nat
  | .natural => 0
  | .flat => 1
  | .sharp => 2

def frequency (pitch : Pitch) (octave : UInt8) : Checked Hertz := do
  if octave < 1 ∨ 7 < octave then throw .octave
  let base ← lookUp (row pitch.letter) (column pitch.accidental)
  if octave < 4 then shiftRight base (← byteDifference 4 octave)
  else if 4 < octave then shiftLeft base (← byteDifference octave 4)
  else return base

def number (bytes : Bytes) : Checked (Float32 × Bytes) := do
  let value ← (bytes.takeWhile Byte.isDigit).foldlM
    (fun n byte => do return n * 10 + (← byteDifference byte 0x30).toFloat32) (0 : Float32)
  return (value, bytes.dropWhile Byte.isDigit)

def octaveDigit (bytes : Bytes) : Checked (Option (UInt8 × Bytes)) := do
  match bytes with
  | [] => return none
  | byte :: rest =>
    if Byte.isDigit byte then
      let digit ← byteDifference byte 0x30
      return if 1 ≤ digit ∧ digit ≤ 7 then some (digit, rest) else none
    else return none

structure Reader where
  bytes : Bytes
  pos : Nat
  tempo : Float32
  octave : UInt8
  defaultLength : Float32
  deriving DecidableEq

namespace Reader

def start (tune : Tune) : Reader := ⟨tune.bytes, 0, 120, 4, 4⟩

def moveTo (r : Reader) (rest : Bytes) : Checked Reader := do
  let input ← suffix r.bytes r.pos
  let taken ← difference input.length rest.length
  return { r with pos := r.pos + taken }

def control (r : Reader) : Checked (Float32 × Reader) := do
  let (value, rest) ← number (← suffix r.bytes r.pos)
  let moved ← r.moveTo rest
  return (value, if moved.pos = r.pos ∧ moved.pos < r.bytes.length then
    { moved with pos := moved.pos + 1 } else moved)

def duration (r : Reader) : Checked (Float32 × Reader) := do
  let (value, afterNumber) ← number (← suffix r.bytes r.pos)
  let (dotted, rest) := Lexeme.dotted afterNumber
  let moved ← r.moveTo rest
  let taken ← span r.bytes r.pos moved.pos
  let pos ← if taken.head?.any Byte.isDigit then difference moved.pos 1 else pure moved.pos
  let _ ← difference pos r.pos
  let millis := (NoteValue.resolve value r.defaultLength dotted).millis r.tempo
  return (millis, { moved with pos := pos })

def directive (r : Reader) (byte : UInt8) : Checked (Reader × Option Event) := do
  let behind : Reader := { r with pos := r.pos + 1 }
  match Opening.ofByte byte with
  | .lower =>
    if 1 < r.octave then return ({ behind with octave := ← byteDifference r.octave 1 }, none)
    else return (behind, none)
  | .raise =>
    if r.octave < 7 then return ({ behind with octave := r.octave + 1 }, none)
    else return (behind, none)
  | .octave =>
    match ← octaveDigit (← suffix behind.bytes behind.pos) with
    | some (digit, rest) => return ({ ← behind.moveTo rest with octave := digit }, none)
    | none => return (behind, none)
  | .length =>
    let (value, moved) ← behind.control
    return (if value == 0 then moved else { moved with defaultLength := value }, none)
  | .tempo =>
    let (value, moved) ← behind.control
    return ({ moved with tempo := value }, none)
  | .pause =>
    let (millis, moved) ← behind.duration
    return (moved, some (.rest millis))
  | .letter l =>
    let (sign, rest) := Lexeme.accidental (← suffix behind.bytes behind.pos)
    let signed ← behind.moveTo rest
    let (millis, moved) ← signed.duration
    let _ ← frequency ⟨l, sign⟩ r.octave
    match Octave.ofNumber r.octave with
    | .ok octave => return (moved, some (.tone ⟨⟨l, sign⟩, octave⟩ millis))
    | .error _ => throw .octave
  | .nothing => return (behind, none)

/-- The next event, within so many directives. -/
def next : Nat → Reader → Checked (Reader × Option Event)
  | 0, _ => .error .unending
  | n + 1, r => do
    match (← suffix r.bytes r.pos).head? with
    | none => return (r, none)
    | some byte =>
      match ← r.directive byte with
      | (moved, some event) => return (moved, some event)
      | (moved, none) => next n moved

end Reader

structure Player where
  reader : Reader
  deadline : Instant
  deriving DecidableEq

namespace Player

def initial : Player := ⟨.start .empty, .zero⟩

def step (command : Command) (p : Player) : Checked Player := do
  match command with
  | .play tune now => return ⟨.start tune, now⟩
  | .stop => return { p with reader := .start .empty }
  | .update now =>
    if now.isBefore p.deadline ∨ p.reader.bytes.length ≤ p.reader.pos then return p
    match ← p.reader.next (p.reader.bytes.length + 1) with
    | (reader, some event) => return ⟨reader, now + event.slot⟩
    | (reader, none) => return { p with reader := reader }

def run : List Command → Player → Checked Player
  | [], p => .ok p
  | c :: cs, p => do run cs (← p.step c)

end Player

end Chime.Guarded
