import Chime.Event

/-!
# Tokens

The plain reading of the notation in two phases: a tune is cut into tokens from left to right,
each as long as it can be, and the tokens are evaluated in order. `flatMap_bytes_cut` says that
cutting loses nothing and adds nothing. Ranges, steps and lengths are written out in numbers; no
reader of the notation is asked for them.
-/

set_option autoImplicit false

namespace Chime

inductive Token where
  | lower
  | raise
  | octave (octave : Octave)
  | length (digits : Bytes) (lost : Option UInt8)
  | tempo (digits : Bytes) (lost : Option UInt8)
  | pause (digits : Bytes) (dotted : Bool)
  | note (letter : Letter) (sign : Accidental) (digits : Bytes) (dotted : Bool)
  | other (byte : UInt8)
  deriving DecidableEq, Repr

theorem drop_length_takeWhile (p : UInt8 → Bool) (bytes : Bytes) :
    bytes.drop (bytes.takeWhile p).length = bytes.dropWhile p := by
  have h := List.takeWhile_append_dropWhile (p := p) (l := bytes)
  calc bytes.drop (bytes.takeWhile p).length
      = (bytes.takeWhile p ++ bytes.dropWhile p).drop (bytes.takeWhile p).length := by rw [h]
    _ = bytes.dropWhile p := List.drop_left

namespace Token

def signBytes : Accidental → Bytes
  | .natural => []
  | .flat => [0x2d]
  | .sharp => [0x2b]

def dotBytes (dotted : Bool) : Bytes := if dotted then [0x2e] else []

def bytes : Token → Bytes
  | lower => [0x3c]
  | raise => [0x3e]
  | octave o => [0x4f, o.number + 0x30]
  | length digits lost => 0x4c :: (digits ++ lost.toList)
  | tempo digits lost => 0x54 :: (digits ++ lost.toList)
  | pause digits dotted => 0x50 :: (digits ++ dotBytes dotted)
  | note l sign digits dotted => l.byte :: (signBytes sign ++ (digits ++ dotBytes dotted))
  | other byte => [byte]

def digitsOf (bytes : Bytes) : Bytes := bytes.takeWhile fun byte => 0x30 ≤ byte && byte ≤ 0x39

/-- The byte that is lost where a number is missing. -/
def lostOf (bytes : Bytes) : Option UInt8 := if digitsOf bytes = [] then bytes.head? else none

def dottedOf (bytes : Bytes) : Bool := (bytes.drop (digitsOf bytes).length).head? = some 0x2e

def signOf (bytes : Bytes) : Accidental :=
  if bytes.head? = some 0x2d then .flat
  else if bytes.head? = some 0x2b then .sharp
  else .natural

def octaveOf? (bytes : Bytes) : Option Octave :=
  bytes.head?.bind fun byte =>
    if 0x31 ≤ byte ∧ byte ≤ 0x37 then some (.clamp (byte.toNat - 0x30)) else none

def first (byte : UInt8) (rest : Bytes) : Token :=
  match byte with
  | 0x3c => lower
  | 0x3e => raise
  | 0x4f =>
    match octaveOf? rest with
    | some o => octave o
    | none => other byte
  | 0x4c => length (digitsOf rest) (lostOf rest)
  | 0x54 => tempo (digitsOf rest) (lostOf rest)
  | 0x50 => pause (digitsOf rest) (dottedOf rest)
  | _ =>
    match Letter.ofByte byte with
    | .ok l =>
      let sign := signOf rest
      let operand := rest.drop (signBytes sign).length
      note l sign (digitsOf operand) (dottedOf operand)
    | .error _ => other byte

theorem digitsOf_eq (bytes : Bytes) : digitsOf bytes = bytes.takeWhile Byte.isDigit := rfl

theorem dottedOf_eq (bytes : Bytes) :
    dottedOf bytes = decide ((bytes.dropWhile Byte.isDigit).head? = some 0x2e) := by
  rw [dottedOf, digitsOf_eq, drop_length_takeWhile]

theorem digitsOf_append_lostOf (bytes : Bytes) :
    digitsOf bytes ++ (lostOf bytes).toList <+: bytes := by
  unfold lostOf
  split
  next h =>
    rw [h]
    cases bytes with
    | nil => exact List.prefix_rfl
    | cons b bs => exact ⟨bs, rfl⟩
  next => simpa [digitsOf_eq] using List.takeWhile_prefix Byte.isDigit

theorem digitsOf_append_dotBytes (bytes : Bytes) :
    digitsOf bytes ++ dotBytes (dottedOf bytes) <+: bytes := by
  have h := List.takeWhile_append_dropWhile (p := Byte.isDigit) (l := bytes)
  rw [dottedOf_eq, digitsOf_eq, dotBytes]
  cases hd : bytes.dropWhile Byte.isDigit with
  | nil => simpa using List.takeWhile_prefix _
  | cons b bs =>
    rw [hd] at h
    by_cases hb : b = 0x2e
    · subst hb
      exact ⟨bs, by simpa using h⟩
    · simpa [hb] using List.takeWhile_prefix _

theorem signBytes_signOf (bytes : Bytes) : signBytes (signOf bytes) <+: bytes := by
  cases bytes with
  | nil => exact List.prefix_rfl
  | cons b bs =>
    by_cases h1 : b = 0x2d
    · subst h1; exact ⟨bs, rfl⟩
    · by_cases h2 : b = 0x2b
      · subst h2; exact ⟨bs, rfl⟩
      · simp [signOf, signBytes, h1, h2]

theorem octaveOf?_cons (byte : UInt8) (rest : Bytes) :
    octaveOf? (byte :: rest) = (Octave.ofNumber (byte - 0x30)).toOption := by
  have hb := byte.toNat_lt
  have hr : (1 ≤ byte - 0x30 ∧ byte - 0x30 ≤ 7) ↔ 0x31 ≤ byte ∧ byte ≤ 0x37 := by
    simp only [UInt8.le_iff_toNat_le, UInt8.toNat_sub, UInt8.reduceToNat]
    omega
  simp only [octaveOf?, List.head?_cons, Option.bind_some, Octave.ofNumber, hr]
  split
  next h =>
    have ho : (⟨byte - 0x30, (hr.mpr h).1, (hr.mpr h).2⟩ : Octave) =
        .clamp (byte.toNat - 0x30) := by
      apply Octave.eq_clamp
      simp only [UInt8.le_iff_toNat_le, UInt8.reduceToNat] at h
      simp only [UInt8.toNat_sub, UInt8.reduceToNat]
      omega
    rw [← ho]
    rfl
  next => rfl

theorem number_of_octaveOf? {bytes : Bytes} {o : Octave} (h : octaveOf? bytes = some o) :
    [o.number + 0x30] <+: bytes := by
  cases bytes with
  | nil => cases h
  | cons b bs =>
    rw [octaveOf?_cons, Octave.ofNumber] at h
    split at h
    · cases h
      exact ⟨bs, by simp⟩
    · cases h

theorem bytes_first_prefix (byte : UInt8) (rest : Bytes) :
    (first byte rest).bytes <+: byte :: rest := by
  unfold first
  split
  · exact ⟨rest, rfl⟩
  · exact ⟨rest, rfl⟩
  · cases h : octaveOf? rest with
    | none => exact ⟨rest, rfl⟩
    | some o => exact List.cons_prefix_cons.mpr ⟨rfl, number_of_octaveOf? h⟩
  · exact List.cons_prefix_cons.mpr ⟨rfl, digitsOf_append_lostOf rest⟩
  · exact List.cons_prefix_cons.mpr ⟨rfl, digitsOf_append_lostOf rest⟩
  · exact List.cons_prefix_cons.mpr ⟨rfl, digitsOf_append_dotBytes rest⟩
  · cases h : Letter.ofByte byte with
    | error e => exact ⟨rest, rfl⟩
    | ok l =>
      refine List.cons_prefix_cons.mpr ⟨(Letter.eq_byte_of_ofByte h).symm, ?_⟩
      obtain ⟨after, ha⟩ := signBytes_signOf rest
      have hd : rest.drop (signBytes (signOf rest)).length = after :=
        calc rest.drop (signBytes (signOf rest)).length
            = (signBytes (signOf rest) ++ after).drop (signBytes (signOf rest)).length := by rw [ha]
          _ = after := List.drop_left
      have h2 := (List.prefix_append_right_inj (signBytes (signOf rest))).mpr
        (digitsOf_append_dotBytes after)
      rw [ha] at h2
      simpa [hd] using h2

theorem length_bytes_pos (token : Token) : 0 < token.bytes.length := by
  cases token <;> simp [bytes]

theorem append_drop_first (byte : UInt8) (rest : Bytes) :
    (first byte rest).bytes ++ rest.drop ((first byte rest).bytes.length - 1) = byte :: rest := by
  obtain ⟨after, ha⟩ := bytes_first_prefix byte rest
  have hp := length_bytes_pos (first byte rest)
  have hd : rest.drop ((first byte rest).bytes.length - 1) =
      (byte :: rest).drop (first byte rest).bytes.length := by
    rw [← Nat.succ_pred_eq_of_pos hp, List.drop_succ_cons]
    rfl
  rw [hd, ← ha, List.drop_left]

def cut : Bytes → List Token
  | [] => []
  | byte :: rest =>
    let token := first byte rest
    token :: cut (rest.drop (token.bytes.length - 1))
termination_by bytes => bytes.length
decreasing_by simp only [List.length_drop, List.length_cons]; omega

theorem flatMap_bytes_cut (tune : Bytes) : (cut tune).flatMap bytes = tune := by
  fun_induction cut tune with
  | case1 => rfl
  | case2 byte rest token ih =>
    rw [List.flatMap_cons, ih]
    exact append_drop_first byte rest

def number (digits : Bytes) : Float32 :=
  digits.foldl (fun n byte => n * 10 + (byte - 0x30).toFloat32) 0

def settings (s : Settings) : Token → Settings
  | lower => { s with octave := .clamp (s.octave.number.toNat - 1) }
  | raise => { s with octave := .clamp (s.octave.number.toNat + 1) }
  | octave o => { s with octave := o }
  | length digits _ => if number digits == 0 then s else { s with defaultLength := number digits }
  | tempo digits _ => { s with tempo := number digits }
  | pause _ _ => s
  | note _ _ _ _ => s
  | other _ => s

def duration (s : Settings) (digits : Bytes) (dotted : Bool) : Float32 :=
  let denominator := if number digits == 0 then s.defaultLength else number digits
  let beats := if dotted then 4 / denominator * 1.5 else 4 / denominator
  60 / s.tempo * beats * 1000

def event? (s : Settings) : Token → Option Event
  | pause digits dotted => some (.rest (duration s digits dotted))
  | note l sign digits dotted => some (.tone ⟨⟨l, sign⟩, s.octave⟩ (duration s digits dotted))
  | _ => none

/-- The events of the tokens, each with the settings at that point, and the settings at the end. -/
def evaluate : List Token → Settings → List (Event × Settings) × Settings
  | [], s => ([], s)
  | token :: tokens, s =>
    let others := evaluate tokens (token.settings s)
    match token.event? s with
    | some event => ((event, s) :: others.1, others.2)
    | none => others

end Token

end Chime
