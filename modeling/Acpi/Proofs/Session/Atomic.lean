import Acpi.Proofs.Binding.Fault
import Acpi.Proofs.Binding.Repeat
import Acpi.Proofs.Session

namespace Acpi

namespace Namespace

variable {ns : Namespace} {id scope subject : ObjectId} {o : Object}
  {refs : List (Role × String)} {links : List (Role × ObjectId)}

end Namespace

namespace Session

variable {s : Session} {id : ObjectId} {o : Object}

end Session

end Acpi
