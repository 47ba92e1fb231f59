import Offload.Main
import Offload.Proofs.Source.Safety
import Offload.Proofs.Split.Apart
import Offload.Proofs.Pipeline.Progress
import Offload.Proofs.Compiled.RoundTrip
import Offload.Proofs.Compiled.Attachment
import Offload.Proofs.Edit.Order
import Offload.Proofs.C.Space
import Offload.Proofs.C.Conversion
import Offload.Proofs.C.Access
import Offload.Proofs.Compiled.Literal
import Offload.Proofs.Split.Stub
import Offload.Proofs.Source.Record
import Offload.Proofs.Split.ElementType
import Offload.Proofs.Split.HashInput
import Offload.Proofs.Compiled.Escape
import Offload.Proofs.CommandLine.DefaultOutput
import Offload.Proofs.Document
import Offload.Proofs.Compiled.Progress
import Offload.Proofs.Source.Rescan
import Offload.Proofs.Source.Scoping
import Offload.Proofs.Source.Grouping
