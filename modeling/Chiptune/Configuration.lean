import Chiptune.Decimal.Layout
import Chiptune.Fault
import Chiptune.Json.Decode
import Chiptune.Region
import Chiptune.StepBuffer

/-! The settings of a console: which they are, when they are valid, and their JSON text. -/

namespace Chiptune

/-- The settings of a console, fixed for its lifetime.  Rates are in Hz, `blockSize` is the most
samples that one frame hands out, and volume one is the level of the hardware. -/
structure Configuration where
  sampleRate : Nat
  clockRate : Nat
  blockSize : Nat
  bufferLengthMs : Nat
  volume : Float
  region : Region

namespace Configuration

/-- The sample rate unless a setting says otherwise. -/
def defaultSampleRate : Nat := 44100

/-- The block size unless a setting says otherwise. -/
def defaultBlockSize : Nat := 4096

/-- The settings for a region at a sample rate. -/
def preset (region : Region) (sampleRate : Nat) : Configuration :=
  { sampleRate
    clockRate := region.clockRate
    blockSize := defaultBlockSize
    bufferLengthMs := StepBuffer.defaultLengthMs
    volume := 1.0
    region }

/-- The settings of an NTSC console at the default sample rate. -/
def standard : Configuration := preset .ntsc defaultSampleRate

/-- The whole samples in one video frame. -/
def samplesPerFrame (configuration : Configuration) : Nat :=
  configuration.sampleRate * configuration.region.frameClocks / max configuration.clockRate 1

/-! ### Text -/

/-- Volumes in a JSON text: no exponent for leading digits from `10 ^ -5` to `10 ^ 15`, at least one
digit after the point, and an exponent always with its sign. -/
def jsonVolume : Decimal.Layout :=
  { least := some (-5)
    greatest := some 15
    pointZero := true
    plusSign := true
    tie := .even
    notANumber := "null"
    infinity := "null"
    negativeInfinity := "null" }

/-- Volumes in a message: never an exponent. -/
def messageVolume : Decimal.Layout :=
  { least := none
    greatest := none
    pointZero := false
    plusSign := false
    tie := .up
    notANumber := "NaN"
    infinity := "inf"
    negativeInfinity := "-inf" }

/-- Volumes in a description: no exponent for leading digits from `10 ^ -4` to `10 ^ 15`, and at least
one digit after the point. -/
def describedVolume : Decimal.Layout :=
  { least := some (-4)
    greatest := some 15
    pointZero := true
    plusSign := false
    tie := .up
    notANumber := "NaN"
    infinity := "inf"
    negativeInfinity := "-inf" }

/-- The names of the settings in a JSON text. -/
def fieldNames : List String :=
  ["sample_rate", "clock_rate", "output_block_size", "buffer_length_ms", "volume", "region"]

/-- The JSON text of each setting, in the order of their names. -/
def fieldTexts (configuration : Configuration) : List String :=
  [toString configuration.sampleRate, toString configuration.clockRate,
    toString configuration.blockSize, toString configuration.bufferLengthMs,
    jsonVolume.text configuration.volume, "\"" ++ configuration.region.label ++ "\""]

/-- The JSON text of the settings, one on each line. -/
def text (configuration : Configuration) : String :=
  let lines := List.zipWith (fun name value => "  \"" ++ name ++ "\": " ++ value)
    fieldNames configuration.fieldTexts
  "\x7b\n" ++ String.intercalate ",\n" lines ++ "\n\x7d"

/-- A region: its name, or an object whose only member has that name and is null. -/
def region? : Json → Option Region
  | .string (some name) => Region.ofLabel? name
  | .object [(some name, .null)] => Region.ofLabel? name
  | _ => none

/-- Settings from a JSON value.  A setting that is missing is as in `standard`. -/
def ofJson? (json : Json) : Option Configuration := do
  match ← json.fields? fieldNames with
  | [sampleRate, clockRate, blockSize, bufferLengthMs, volume, region] =>
    return {
      sampleRate := ← Json.optional standard.sampleRate (Json.nat? (twoTo 32)) sampleRate
      clockRate := ← Json.optional standard.clockRate (Json.nat? (twoTo 32)) clockRate
      blockSize := ← Json.optional standard.blockSize (Json.nat? (twoTo 64)) blockSize
      bufferLengthMs := ←
        Json.optional standard.bufferLengthMs (Json.nat? (twoTo 32)) bufferLengthMs
      volume := ← Json.optional standard.volume Json.float? volume
      region := ← Json.optional standard.region region? region }
  | _ => none

/-! ### Validity -/

/-- Whether a volume is a number that is not negative. -/
def isVolume (volume : Float) : Bool := volume.isFinite && !(volume < 0)

/-- Checks the settings one after the other. -/
def validate (configuration : Configuration) : Except Fault Unit :=
  let { sampleRate, clockRate, blockSize, bufferLengthMs, volume, .. } := configuration
  let refuse reason := .error (.invalidConfiguration reason)
  if sampleRate = 0 then refuse "sample_rate must be > 0"
  else if clockRate = 0 then refuse "clock_rate must be > 0"
  else if clockRate < sampleRate then
    refuse s!"clock_rate {clockRate} must not be below sample_rate {sampleRate}"
  else if blockSize = 0 then refuse "output_block_size must be > 0"
  else if bufferLengthMs = 0 then refuse "buffer_length_ms must be > 0"
  else if !isVolume volume then
    refuse s!"volume {messageVolume.text volume} must be a non-negative number"
  else if StepBuffer.maxRatio < clockRate / sampleRate then
    refuse s!"clock_rate {clockRate} is more than {StepBuffer.maxRatio} times sample_rate {sampleRate}"
  else .ok ()

/-- Reads settings from a JSON text and checks them. -/
def ofText (text : String) : Except Fault Configuration :=
  match (Json.ofText? text).bind ofJson? with
  | none => .error .malformedText
  | some configuration => configuration.validate.map fun _ => configuration

end Configuration

end Chiptune
