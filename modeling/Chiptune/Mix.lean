import Chiptune.Channel
import Chiptune.Scale

/-! The balance of the channels in the output. -/

namespace Chiptune

/-- The scales of the channels.  Both pulses share one. -/
structure Mix where
  pulse : Scale := .create 15
  triangle : Scale := .create 15
  noise : Scale := .create 15
  dmc : Scale := .create 127
  deriving DecidableEq, Repr

namespace Mix

/-- The scale of a channel. -/
def scale (mix : Mix) : Channel → Scale
  | .pulse1 | .pulse2 => mix.pulse
  | .triangle => mix.triangle
  | .noise => mix.noise
  | .dmc => mix.dmc

/-- The balance of the hardware at a volume. -/
def ofVolume (volume : Float) : Mix :=
  let silent : Mix := {}
  { pulse := silent.pulse.setVolume (0.1128 * volume)
    triangle := silent.triangle.setVolume (0.12765 * volume)
    noise := silent.noise.setVolume (0.0741 * volume)
    dmc := silent.dmc.setVolume (0.42545 * volume) }

end Mix

end Chiptune
