import Chime.Event

/-!
# The journal

What is reported while tunes are played, and the line that each report is written as. Playback
and the device keep separate channels; their reports are told apart by the constructor, not by
the text.
-/

set_option autoImplicit false

namespace Chime

inductive Level where
  | trace
  | debug
  | info
  deriving DecidableEq, Repr

def Level.text : Level → String
  | trace => "TRACE"
  | debug => "DEBUG"
  | info => "INFO"

inductive Message where
  | started (bytes : Nat)
  | stopped (position : Nat)
  | took (event : Event) (now : Instant)
  | finished
  deriving DecidableEq

namespace Message

def level : Message → Level
  | took _ _ => .trace
  | _ => .debug

def text : Message → String
  | started bytes => "play: " ++ toString bytes ++ " bytes"
  | stopped position => "stop at " ++ toString position
  | took event now => event.text ++ " at " ++ toString now.ticks.toNat
  | finished => "tune finished"

end Message

inductive Notice where
  | ready
  | edge
  | melody (index : Nat)
  | silence
  | tone (hz : Hertz) (duration : Duration)
  deriving DecidableEq, Repr

namespace Notice

def level : Notice → Level
  | ready => .debug
  | edge => .debug
  | melody _ => .info
  | silence => .info
  | tone _ _ => .trace

def text : Notice → String
  | ready => "init tunebox"
  | edge => "gpiote interrupt"
  | melody index => "A: melody " ++ toString index
  | silence => "B: stop"
  | tone hz duration =>
    "tone: " ++ toString hz.toNat ++ "Hz for " ++ toString duration.millis.toNat ++ "ms"

end Notice

inductive Entry where
  | playback (message : Message)
  | device (notice : Notice)
  deriving DecidableEq

def Entry.line : Entry → String
  | playback message => message.level.text ++ " " ++ message.text
  | device notice => notice.level.text ++ " " ++ notice.text

end Chime
