import Bitwire.Settings
import Bitwire.Session.Workspace
import Bitwire.Session.Shelf
import Bitwire.Proofs.Image
import Bitwire.Proofs.RawWrite
import Bitwire.Proofs.Message
import Bitwire.Proofs.Interleaving
import Bitwire.Proofs.Session
import Bitwire.Proofs.ReadSafety
import Bitwire.Proofs.Wire.Codec
import Bitwire.Proofs.Twin.Alike
import Bitwire.Proofs.Twin.Face
import Bitwire.Proofs.Twin.History
import Bitwire.Proofs.Twin.Order
import Bitwire.Proofs.Wire.Write
import Bitwire.Proofs.Transfer
import Bitwire.Proofs.Embedding
import Bitwire.Proofs.Delta
import Bitwire.Proofs.Ownership.Turn
import Bitwire.Proofs.Ownership.Pool
import Bitwire.Proofs.Ownership.Session
import Bitwire.Proofs.Reserve
import Bitwire.Proofs.Growth
import Bitwire.Proofs.Views
import Bitwire.Proofs.Ownership.Refusal
import Bitwire.Proofs.Ranged
import Bitwire.Proofs.Twin.Strict
import Bitwire.Proofs.RangedRead
import Bitwire.Proofs.Memory
import Bitwire.Proofs.Offset
import Bitwire.Proofs.Canonical
import Bitwire.Proofs.BoundedRun
import Bitwire.Proofs.FastPath
import Bitwire.Proofs.Accounting
import Bitwire.Proofs.Synchrony
import Bitwire.Proofs.Dump.Locate
import Bitwire.Proofs.Dump.Roundtrip
import Bitwire.Proofs.Dump.ShortGroups
