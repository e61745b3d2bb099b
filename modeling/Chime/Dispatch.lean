import Chime.Device

/-!
# Dispatch

The device together with the requests that are in flight. A task runs only if it was asked for
and uses up one request of its kind; an edge on a button comes on its own. Delays order nothing
here: any request may be the next to be served.
-/

set_option autoImplicit false

namespace Chime

structure Dispatch where
  device : Device
  inFlight : List Request

namespace Dispatch

inductive Turn where
  | poll (now : Instant)
  | edge
  | buttons (a b : Bool) (now : Instant)
  deriving DecidableEq

def Turn.task? : Turn → Option Task
  | poll _ => some .poll
  | edge => none
  | buttons _ _ _ => some .buttons

def Turn.step : Turn → Device.Step
  | poll now => .poll now
  | edge => .edge
  | buttons a b now => .buttons a b now

def boot : Dispatch := ⟨.initial, Device.bootOutcome.requests⟩

def pending (d : Dispatch) (task : Task) : List Request :=
  d.inFlight.filter fun r => r.task = task

def serve? (task : Task) (requests : List Request) : Option (List Request) :=
  if requests.any fun r => r.task = task then
    some (requests.eraseP fun r => r.task = task)
  else none

def turn? (t : Turn) (d : Dispatch) : Option Dispatch :=
  let left : Option (List Request) :=
    match t.task? with
    | some task => serve? task d.inFlight
    | none => some d.inFlight
  left.map fun requests =>
    let stepped := d.device.step t.step
    ⟨stepped.1, requests ++ stepped.2.requests⟩

def run? : List Turn → Dispatch → Option Dispatch
  | [], d => some d
  | t :: ts, d => (d.turn? t).bind (run? ts)

end Dispatch

end Chime
