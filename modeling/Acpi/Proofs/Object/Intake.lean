import Acpi.Proofs.Object.Fresh
import Acpi.Proofs.Object.Signature

namespace Acpi

/-- What of the operands that match a signature is kept as a list: for an untyped operation all but
its name, and all for a call. -/
def Kind.listed : Kind → List Operand → List Operand
  | .generic, operands | .invocation, operands => operands
  | .namedGeneric, operands => operands.tail
  | _, _ => []

namespace Object

variable {o : Object} {operands : List Operand} {a : Operand} {index : Nat}

end Object

end Acpi
