import Positional.Main
import Positional.Proofs.Codec.Bounds
import Positional.Proofs.Codec.Branches
import Positional.Proofs.Codec.Content
import Positional.Proofs.Codec.Delimited
import Positional.Proofs.Codec.Guards
import Positional.Proofs.Codec.Limits
import Positional.Proofs.Codec.Markers
import Positional.Proofs.Codec.Matching
import Positional.Proofs.Codec.Overlay
import Positional.Proofs.Codec.Presence
import Positional.Proofs.Codec.RoundTrip
import Positional.Proofs.Codec.Shape
import Positional.Proofs.Codec.Transport
import Positional.Proofs.Codec.Unions
import Positional.Proofs.Command.Atomic
import Positional.Proofs.Document.Conversion
import Positional.Proofs.Document.Equivalence
import Positional.Proofs.Document.Reordered
import Positional.Proofs.Program.Flags
import Positional.Proofs.Schema.Kinds
import Positional.Proofs.Schema.Moved
import Positional.Proofs.Schema.Order
import Positional.Proofs.Schema.Supported
import Positional.Proofs.Wire.Coercions
