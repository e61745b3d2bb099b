import Chime.Tune

/-!
# Melodies

The built-in tunes, and the order in which the device plays them.
-/

set_option autoImplicit false

namespace Chime

inductive Melody where
  | happyBirthday
  | powerUp
  | alert
  deriving DecidableEq, Repr

namespace Melody

def text : Melody → String
  | happyBirthday => "T140 O4 L4
    C C8 D. C. F. E2.
    C C8 D. C. G. F2.
    C C8 >C.< A. F. E. D.
    A+ A+8 A. F. G. F2."
  | powerUp => "T200 O5 L16 C E G >C8"
  | alert => "T180 O6 A8 P8 A8"

def tune (melody : Melody) : Tune := .ofString melody.text

def playlist : List Melody := [happyBirthday, powerUp, alert]

end Melody

end Chime
