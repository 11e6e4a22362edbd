namespace Acpi

inductive Kind
  | generic
  | namedGeneric
  | constant
  | scope
  | device
  | thermalZone
  | processor
  | powerResource
  | method
  | buffer
  | bufferField
  | region
  | mutex
  | event
  | field
  | indexField
  | bankField
  | fieldUnit
  | reference
  | invocation
  deriving DecidableEq

namespace Kind

def text : Kind → String
  | .generic => "Generic"
  | .namedGeneric => "GenericNamed"
  | .constant => "Const"
  | .scope => "Scope"
  | .device => "Device"
  | .thermalZone => "ThermalZone"
  | .processor => "Processor"
  | .powerResource => "PowerResource"
  | .method => "Method"
  | .buffer => "Buffer"
  | .bufferField => "BufferField"
  | .region => "Region"
  | .mutex => "Mutex"
  | .event => "Event"
  | .field => "Field"
  | .indexField => "IndexField"
  | .bankField => "BankField"
  | .fieldUnit => "FieldUnit"
  | .reference => "Reference"
  | .invocation => "Invocation"

/-- The kinds whose objects hold children. -/
def isContainer : Kind → Bool
  | .scope | .device | .thermalZone | .processor | .powerResource | .method => true
  | _ => false

end Kind

end Acpi
