/-! The two timing standards that consoles were built for.  A region fixes the processor clock, the
period of the frame sequencer and the length of a video frame. -/

namespace Chiptune

/-- A console timing standard: `ntsc` runs at 60 video frames a second and `pal` at 50. -/
inductive Region where
  | ntsc
  | pal
  deriving DecidableEq, Repr, Inhabited

namespace Region

/-- The processor clock in Hz. -/
def clockRate : Region → Nat
  | ntsc => 1789773
  | pal => 1662607

/-- The clocks between two steps of the frame sequencer. -/
def stepPeriod : Region → Nat
  | ntsc => 7458
  | pal => 8314

/-- The whole clocks in one video frame. -/
def frameClocks : Region → Nat
  | ntsc => 29780
  | pal => 33247

/-- The name of the region in a configuration text. -/
def label : Region → String
  | ntsc => "ntsc"
  | pal => "pal"

/-- The name of the region in a description of a chip. -/
def title : Region → String
  | ntsc => "Ntsc"
  | pal => "Pal"

/-- The region that `label` names. -/
def ofLabel? (text : String) : Option Region :=
  [ntsc, pal].find? (·.label == text)

end Region

end Chiptune
