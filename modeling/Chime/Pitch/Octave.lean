/-!
# Octaves

A register from one to seven. Stepping past either end stays at that end, so every octave that
can be built is one of the seven.
-/

set_option autoImplicit false

namespace Chime

inductive PitchError where
  | notALetter
  | octaveOutOfRange
  deriving DecidableEq, Repr

def PitchError.message : PitchError → String
  | .notALetter => "note letter must be one of A..G"
  | .octaveOutOfRange => "octave must be between 1 and 7"

structure Octave where
  number : UInt8
  low : 1 ≤ number
  high : number ≤ 7
  deriving DecidableEq, Repr

namespace Octave

@[ext] theorem ext {a b : Octave} (h : a.number = b.number) : a = b := by
  cases a; cases b; cases h; rfl

def lowest : Octave := ⟨1, by decide, by decide⟩
def middle : Octave := ⟨4, by decide, by decide⟩
def highest : Octave := ⟨7, by decide, by decide⟩

instance : Inhabited Octave := ⟨middle⟩

instance : Ord Octave := ⟨fun a b => compare a.number b.number⟩

theorem bounds (o : Octave) : 1 ≤ o.number.toNat ∧ o.number.toNat ≤ 7 :=
  ⟨UInt8.le_iff_toNat_le.mp o.low, UInt8.le_iff_toNat_le.mp o.high⟩

def ofNumber (number : UInt8) : Except PitchError Octave :=
  if h : 1 ≤ number ∧ number ≤ 7 then .ok ⟨number, h.1, h.2⟩ else .error .octaveOutOfRange

theorem ofNumber_number (o : Octave) : ofNumber o.number = .ok o := by
  simp [ofNumber, o.low, o.high]

theorem toNat_pred {n : UInt8} (h : 1 < n) : (n - 1).toNat = n.toNat - 1 := by
  have h' : 1 < n.toNat := UInt8.lt_iff_toNat_lt.mp h
  rw [UInt8.toNat_sub_of_le n 1 (UInt8.le_iff_toNat_le.mpr (Nat.le_of_lt h'))]
  rfl

theorem toNat_succ {n : UInt8} (h : n < 7) : (n + 1).toNat = n.toNat + 1 := by
  have h' : n.toNat < 7 := UInt8.lt_iff_toNat_lt.mp h
  rw [UInt8.toNat_add, show (1 : UInt8).toNat = 1 from rfl]
  omega

def lower (o : Octave) : Octave :=
  if h : 1 < o.number then
    ⟨o.number - 1,
      UInt8.le_iff_toNat_le.mpr (by
        have h' : 1 < o.number.toNat := UInt8.lt_iff_toNat_lt.mp h
        rw [toNat_pred h, show (1 : UInt8).toNat = 1 from rfl]; omega),
      UInt8.le_iff_toNat_le.mpr (by
        have := o.bounds
        rw [toNat_pred h, show (7 : UInt8).toNat = 7 from rfl]; omega)⟩
  else o

def raise (o : Octave) : Octave :=
  if h : o.number < 7 then
    ⟨o.number + 1,
      UInt8.le_iff_toNat_le.mpr (by
        rw [toNat_succ h, show (1 : UInt8).toNat = 1 from rfl]; omega),
      UInt8.le_iff_toNat_le.mpr (by
        have h' : o.number.toNat < 7 := UInt8.lt_iff_toNat_lt.mp h
        rw [toNat_succ h, show (7 : UInt8).toNat = 7 from rfl]; omega)⟩
  else o

theorem toNat_number_lower (o : Octave) : o.lower.number.toNat = max 1 (o.number.toNat - 1) := by
  have hb := o.bounds
  unfold lower
  split
  next h =>
    have h' : 1 < o.number.toNat := UInt8.lt_iff_toNat_lt.mp h
    rw [toNat_pred h]; omega
  next h =>
    have h' : ¬ 1 < o.number.toNat := fun hh => h (UInt8.lt_iff_toNat_lt.mpr hh)
    omega

theorem toNat_number_raise (o : Octave) : o.raise.number.toNat = min 7 (o.number.toNat + 1) := by
  have hb := o.bounds
  unfold raise
  split
  next h =>
    have h' : o.number.toNat < 7 := UInt8.lt_iff_toNat_lt.mp h
    rw [toNat_succ h]; omega
  next h =>
    have h' : ¬ o.number.toNat < 7 := fun hh => h (UInt8.lt_iff_toNat_lt.mpr hh)
    omega

theorem toNat_ofNat_clamp (n : Nat) :
    (UInt8.ofNat (max 1 (min 7 n))).toNat = max 1 (min 7 n) := by
  rw [UInt8.toNat_ofNat']
  omega

def clamp (n : Nat) : Octave :=
  ⟨.ofNat (max 1 (min 7 n)),
    UInt8.le_iff_toNat_le.mpr (by
      rw [toNat_ofNat_clamp, show (1 : UInt8).toNat = 1 from rfl]; omega),
    UInt8.le_iff_toNat_le.mpr (by
      rw [toNat_ofNat_clamp, show (7 : UInt8).toNat = 7 from rfl]; omega)⟩

theorem eq_clamp {o : Octave} {n : Nat} (h : o.number.toNat = max 1 (min 7 n)) : o = clamp n :=
  Octave.ext (UInt8.toNat_inj.mp (h.trans (toNat_ofNat_clamp n).symm))

theorem lower_eq_clamp (o : Octave) : o.lower = clamp (o.number.toNat - 1) := by
  have hb := o.bounds
  apply eq_clamp
  rw [toNat_number_lower]
  omega

theorem raise_eq_clamp (o : Octave) : o.raise = clamp (o.number.toNat + 1) := by
  have hb := o.bounds
  apply eq_clamp
  rw [toNat_number_raise]
  omega

def text (o : Octave) : String := toString o.number.toNat

end Octave

end Chime
