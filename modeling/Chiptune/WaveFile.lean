import Chiptune.Power

/-! Wave files with one channel of samples of 16 bits. -/

namespace Chiptune.WaveFile

/-- Adds the two bytes of `n`, the low one first. -/
def push16 (out : ByteArray) (n : Nat) : ByteArray :=
  (out.push (.ofNat n)).push (.ofNat (n / twoTo 8))

/-- Adds the four bytes of `n`, the low one first. -/
def push32 (out : ByteArray) (n : Nat) : ByteArray :=
  push16 (push16 out n) (n / twoTo 16)

/-- Adds a tag of four letters. -/
def pushTag (out : ByteArray) (tag : String) : ByteArray :=
  out ++ tag.toUTF8

/-- The length of the header in bytes. -/
def headerLength : Nat := 44

/-- The header of a file with `count` samples at `sampleRate` Hz. -/
def header (count sampleRate : Nat) : ByteArray :=
  let dataLength := 2 * count
  let out := push32 (pushTag .empty "RIFF") (headerLength - 8 + dataLength)
  let out := pushTag (pushTag out "WAVE") "fmt "
  let out := push16 (push16 (push32 out 16) 1) 1
  let out := push32 (push32 out sampleRate) (2 * sampleRate)
  let out := push16 (push16 out 2) 16
  push32 (pushTag out "data") dataLength

/-- The file that holds `samples` at `sampleRate` Hz. -/
def bytes (samples : Array Int16) (sampleRate : Nat) : ByteArray :=
  samples.foldl (fun out sample => push16 out sample.toUInt16.toNat)
    (header samples.size sampleRate)

end Chiptune.WaveFile
