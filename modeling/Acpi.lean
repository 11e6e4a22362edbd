import Acpi.Name.Path.Printer
import Acpi.Name.Path.Reader
import Acpi.Opcode.Mnemonic
import Acpi.Session
import Acpi.Proofs.Name.Segment
import Acpi.Proofs.Name.Path.Grammar
import Acpi.Proofs.Name.Path.RoundTrip
import Acpi.Proofs.Name.Path.Joined
import Acpi.Proofs.Name.Path.Listed
import Acpi.Proofs.Namespace.Edit
import Acpi.Proofs.Namespace.WellFormed
import Acpi.Proofs.Namespace.Lookup
import Acpi.Proofs.Namespace.Growth
import Acpi.Proofs.Binding.Links
import Acpi.Proofs.Binding.Unbound
import Acpi.Proofs.Run
import Acpi.Proofs.Namespace.Attach
import Acpi.Proofs.Namespace.Address
import Acpi.Proofs.Binding.Pending
import Acpi.Proofs.Binding.Holder
import Acpi.Proofs.Binding.Scope
import Acpi.Proofs.Binding.Pass
import Acpi.Proofs.Binding.Fault
import Acpi.Proofs.Binding.Repeat
import Acpi.Proofs.Run.Identity
import Acpi.Proofs.Run.Connection
import Acpi.Proofs.Binding.Safe
import Acpi.Proofs.Session
import Acpi.Proofs.Session.Fault
import Acpi.Proofs.Session.Repeat
import Acpi.Proofs.Namespace.Composition
import Acpi.Proofs.Session.Single
import Acpi.Proofs.Session.Stray
import Acpi.Proofs.Session.Connection
import Acpi.Proofs.Session.Atomic
import Acpi.Proofs.Rework
import Acpi.Proofs.Raw.Ascent
import Acpi.Proofs.Raw.Lookup
import Acpi.Proofs.Raw.Tree
import Acpi.Proofs.Raw.Binding
import Acpi.Proofs.Raw.Pending
import Acpi.Proofs.Raw.Walk
import Acpi.Proofs.Rework.Ascent
import Acpi.Proofs.Rework.Slots
import Acpi.Proofs.Name.Path.Plain
import Acpi.Proofs.Namespace.Search
import Acpi.Proofs.Namespace.Walk
import Acpi.Proofs.Namespace.Obstacle
import Acpi.Proofs.Namespace.Detach
import Acpi.Proofs.Object.Signature
import Acpi.Proofs.Object.Intake
import Acpi.Proofs.Object.Terms
import Acpi.Proofs.Object.Request
import Acpi.Proofs.Object.Limits
