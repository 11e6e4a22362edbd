import Acpi.Proofs.Object.Intake

namespace Acpi

variable {sig : Signature} {slot : Slot} {operands : List Operand} {a : Operand} {o : Object}

namespace Signature

end Signature

namespace Object

end Object

end Acpi
