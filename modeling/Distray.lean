import Distray.DrpCodec
import Distray.Proofs.Agreement
import Distray.Proofs.Conservation
import Distray.Proofs.Stopping
import Distray.Proofs.Access
import Distray.Proofs.Script
import Distray.Proofs.Rendering
import Distray.Proofs.Failures
import Distray.Proofs.Accepts
import Distray.Proofs.FrameNumbers
import Distray.Proofs.Copies
import Distray.Proofs.Requests
import Distray.Proofs.Confined
import Distray.Lib.Progression
import Distray.Proofs.Digits
import Distray.Proofs.Numerals
import Distray.Proofs.Specifications
import Distray.Proofs.Enumeration
import Distray.Proofs.Storage
import Distray.Proofs.Waits
import Distray.Endpoints
import Distray.Proofs.Ports
import Distray.Proofs.Grammar
import Distray.Lib.Occurrences
import Distray.Proofs.Scanning
import Distray.Proofs.Substitution
import Distray.Lib.History
import Distray.Record
import Distray.Lib.Inevitable
import Distray.Proofs.Carried
import Distray.Proofs.Composition
import Distray.Proofs.Progress
import Distray.Lib.Returns
import Distray.Lib.Simulation
import Distray.Network
import Distray.Proofs.Proxied
import Distray.Proofs.Schedule
import Distray.Proofs.Serving
import Distray.Proofs.Turns
import Distray.Proofs.Uploads
import Distray.Proofs.Wakeup
import Distray.Proofs.Advance
import Distray.Proofs.Completion
import Distray.Proofs.Success
import Distray.Proofs.Draining
import Distray.Proofs.Invocation
import Distray.Proofs.Arrival
