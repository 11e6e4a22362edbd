namespace Acpi

inductive AddressSpace
  | systemMemory
  | systemIo
  | pciConfig
  | embeddedControl
  | smBus
  | systemCmos
  | pciBarTarget
  | ipmi
  | generalPurposeIo
  | genericSerialBus
  | platformChannel
  /-- A space of the manufacturer, or a reserved one. -/
  | other (code : UInt8)
  deriving DecidableEq

namespace AddressSpace

def ofCode (code : UInt8) : AddressSpace :=
  match code.toNat with
  | 0 => .systemMemory
  | 1 => .systemIo
  | 2 => .pciConfig
  | 3 => .embeddedControl
  | 4 => .smBus
  | 5 => .systemCmos
  | 6 => .pciBarTarget
  | 7 => .ipmi
  | 8 => .generalPurposeIo
  | 9 => .genericSerialBus
  | 10 => .platformChannel
  | _ => .other code

def text : AddressSpace → String
  | .systemMemory => "SystemMemory"
  | .systemIo => "SystemIo"
  | .pciConfig => "PciConfig"
  | .embeddedControl => "EmbeddedControl"
  | .smBus => "SmBus"
  | .systemCmos => "SystemCmos"
  | .pciBarTarget => "PciBarTarget"
  | .ipmi => "Ipmi"
  | .generalPurposeIo => "GeneralPurposeIo"
  | .genericSerialBus => "GenericSerialBus"
  | .platformChannel => "Pcc"
  | .other code => s!"Other({code.toNat})"

end AddressSpace

end Acpi
