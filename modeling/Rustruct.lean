import Rustruct.Bindings
import Rustruct.Compile
import Rustruct.Digest
import Rustruct.Error
import Rustruct.Expr
import Rustruct.Formats.MsgPack
import Rustruct.Frontend
import Rustruct.Inheritance
import Rustruct.Lib.BitStream
import Rustruct.Lib.Exec
import Rustruct.Lib.OnesComplement
import Rustruct.Lib.OrderedDict
import Rustruct.Lib.Remainder
import Rustruct.Lib.SharedBuffer
import Rustruct.Lowering
import Rustruct.Machine
import Rustruct.Names
import Rustruct.Pack
import Rustruct.Program
import Rustruct.Proofs.Advancing
import Rustruct.Proofs.BitRuns
import Rustruct.Proofs.CRC
import Rustruct.Proofs.Carried
import Rustruct.Proofs.Checksum
import Rustruct.Proofs.Compound
import Rustruct.Proofs.DNSBitmaps
import Rustruct.Proofs.DNSClasses
import Rustruct.Proofs.DNSFields
import Rustruct.Proofs.DNSInside
import Rustruct.Proofs.DNSLabels
import Rustruct.Proofs.DNSMessages
import Rustruct.Proofs.DNSNames
import Rustruct.Proofs.DNSRData
import Rustruct.Proofs.DNSRecords
import Rustruct.Proofs.DNSWriters
import Rustruct.Proofs.DNSWriting
import Rustruct.Proofs.Declaring
import Rustruct.Proofs.Depth
import Rustruct.Proofs.Derived
import Rustruct.Proofs.Elements
import Rustruct.Proofs.Everywhere
import Rustruct.Proofs.ExactSizes
import Rustruct.Proofs.Expressions
import Rustruct.Proofs.Faithful
import Rustruct.Proofs.FieldReads
import Rustruct.Proofs.FieldWrites
import Rustruct.Proofs.Finishing
import Rustruct.Proofs.FixedWrites
import Rustruct.Proofs.FlagWrites
import Rustruct.Proofs.Flags
import Rustruct.Proofs.Index
import Rustruct.Proofs.Inheriting
import Rustruct.Proofs.Inputs
import Rustruct.Proofs.Integers
import Rustruct.Proofs.Inversion
import Rustruct.Proofs.Items
import Rustruct.Proofs.KeyCaching
import Rustruct.Proofs.Leaving
import Rustruct.Proofs.Lowered
import Rustruct.Proofs.Maximal
import Rustruct.Proofs.Meaning
import Rustruct.Proofs.Missing
import Rustruct.Proofs.MsgPackDecode
import Rustruct.Proofs.MsgPackRoundTrip
import Rustruct.Proofs.Open
import Rustruct.Proofs.Patching
import Rustruct.Proofs.Piecewise
import Rustruct.Proofs.Position
import Rustruct.Proofs.ReadBack
import Rustruct.Proofs.Readers
import Rustruct.Proofs.References
import Rustruct.Proofs.Resolved
import Rustruct.Proofs.Returns
import Rustruct.Proofs.Roles
import Rustruct.Proofs.RoundTrip
import Rustruct.Proofs.Runs
import Rustruct.Proofs.Safety
import Rustruct.Proofs.ScopeReads
import Rustruct.Proofs.ScopeWrites
import Rustruct.Proofs.Scopes
import Rustruct.Proofs.Sizes
import Rustruct.Proofs.Slots
import Rustruct.Proofs.Sound
import Rustruct.Proofs.Streaming
import Rustruct.Proofs.Tasks
import Rustruct.Proofs.Texts
import Rustruct.Proofs.TypeWrites
import Rustruct.Proofs.Verified
import Rustruct.Proofs.Windows
import Rustruct.Proofs.Withheld
import Rustruct.Proofs.Writers
import Rustruct.Protocols.DNS
import Rustruct.Protocols.DNSName
import Rustruct.Reading
import Rustruct.Schema
import Rustruct.Unpack
import Rustruct.Value
import Rustruct.Visits
