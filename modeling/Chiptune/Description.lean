import Chiptune.Console

/-! Descriptions of a console and its parts, for diagnosis: the name of each part with its fields in
braces. -/

namespace Chiptune.Description

/-- A part with its fields.  One that has more fields than are shown ends in two dots. -/
def part (name : String) (fields : List (String × String)) (complete : Bool) : String :=
  let shown := fields.map fun (field, text) => field ++ ": " ++ text
  let items := if complete then shown else shown ++ [".."]
  name ++ " \x7b " ++ String.intercalate ", " items ++ " \x7d"

/-- A value that may be missing. -/
def optional : Option Int → String
  | some n => s!"Some({n})"
  | none => "None"

/-- The flags that are set in a status. -/
def status (s : Status) : String :=
  let names := if s.names = [] then "0x0" else String.intercalate " | " s.names
  s!"StatusFlags({names})"

/-- Switches, in the order of the channels. -/
def switches (values : ByChannel Bool) : String :=
  "[" ++ String.intercalate ", " (values.toList.map toString) ++ "]"

/-- The frame sequencer. -/
def sequencer (s : Sequencer) : String :=
  part "FrameSequencer"
    [("region", s.region.title), ("period", toString s.period), ("delay", toString s.delay),
      ("step", toString s.next.toNat), ("mode", toString s.mode.toNat),
      ("irq_flag", toString s.irqFlag), ("next_irq", optional s.nextIrq)] true

/-- A chip on its board. -/
def board (b : Board) : String :=
  part "NesApu"
    [("region", b.chip.region.title), ("last_time", toString b.chip.time),
      ("enables", status { channels := b.chip.enables }), ("muted", switches b.muted),
      ("frame", sequencer b.chip.sequencer), ("earliest_irq", optional b.chip.earliestIrq)] false

/-- The output buffer. -/
def buffer (b : StepBuffer) : String :=
  part "BlipBuffer"
    [("sample_rate", toString b.sampleRate), ("clock_rate", toString b.clockRate),
      ("size", toString b.size), ("samples_avail", toString b.available)] false

/-- The settings. -/
def configuration (c : Configuration) : String :=
  part "ApuConfig"
    [("sample_rate", toString c.sampleRate), ("clock_rate", toString c.clockRate),
      ("output_block_size", toString c.blockSize), ("buffer_length_ms", toString c.bufferLengthMs),
      ("volume", Configuration.describedVolume.text c.volume), ("region", c.region.title)] true

/-- The console. -/
def console (c : Console) : String :=
  part "NesSound"
    [("apu", board c.board), ("buffer", buffer c.buffer),
      ("config", configuration c.configuration)] false

end Chiptune.Description
