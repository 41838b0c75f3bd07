import Chiptune.Description
import Chiptune.Main
import Chiptune.Proofs.Activity
import Chiptune.Proofs.BitPlayer
import Chiptune.Proofs.Capacity
import Chiptune.Proofs.Clearing
import Chiptune.Proofs.DirectLoad
import Chiptune.Proofs.Expiry
import Chiptune.Proofs.Extraction
import Chiptune.Proofs.FrameBoundary
import Chiptune.Proofs.Interrupt
import Chiptune.Proofs.LookAhead
import Chiptune.Proofs.Notices
import Chiptune.Proofs.Parity
import Chiptune.Proofs.PulseWave
import Chiptune.Proofs.Ranges
import Chiptune.Proofs.RecordingText
import Chiptune.Proofs.Refusal
import Chiptune.Proofs.ReplayOrder
import Chiptune.Proofs.Restart
import Chiptune.Proofs.SampleWalk
import Chiptune.Proofs.Silence
import Chiptune.Proofs.StatusRead
import Chiptune.Proofs.Stranded
import Chiptune.Proofs.UnusedAddress
import Chiptune.Proofs.Sweep
import Chiptune.Proofs.Decay
