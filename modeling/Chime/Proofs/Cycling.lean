import Chime.Proofs.Calls

/-!
# Going round the playlist

Only button A on its own moves on to the next melody, so the device counts those presses around
the playlist. What is loaded is the melody of the last of them, unless button B was held since;
polls and edges leave both alone.
-/

set_option autoImplicit false

namespace Chime

namespace Device

def Step.plays : Step → Bool
  | buttons true false _ => true
  | _ => false

end Device

end Chime
