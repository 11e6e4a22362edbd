namespace Acpi

structure MethodFlags where
  bits : UInt8 := 0
  deriving DecidableEq

namespace MethodFlags

def argCount (f : MethodFlags) : UInt8 := f.bits &&& 0x07

def serialized (f : MethodFlags) : Bool := f.bits &&& 0x08 != 0

def syncLevel (f : MethodFlags) : UInt8 := f.bits >>> 4

end MethodFlags

/-- The width of the accesses to a field. -/
inductive AccessWidth
  | any
  | byte
  | word
  | dword
  | qword
  | buffer
  | reserved (code : UInt8)
  deriving DecidableEq

def AccessWidth.text : AccessWidth → String
  | .any => "Any"
  | .byte => "Byte"
  | .word => "Word"
  | .dword => "DWord"
  | .qword => "QWord"
  | .buffer => "Buffer"
  | .reserved code => s!"Reserved({code.toNat})"

/-- What a write does to the bits around a field. -/
inductive UpdateRule
  | preserve
  | writeOnes
  | writeZeros
  | reserved
  deriving DecidableEq

def UpdateRule.text : UpdateRule → String
  | .preserve => "Preserve"
  | .writeOnes => "WriteAsOnes"
  | .writeZeros => "WriteAsZeros"
  | .reserved => "Reserved"

/-- The byte as it was read, the bit without a meaning included. -/
structure FieldFlags where
  bits : UInt8 := 0
  deriving DecidableEq

namespace FieldFlags

def access (f : FieldFlags) : AccessWidth :=
  match (f.bits &&& 0x0F).toNat with
  | 0 => .any
  | 1 => .byte
  | 2 => .word
  | 3 => .dword
  | 4 => .qword
  | 5 => .buffer
  | _ => .reserved (f.bits &&& 0x0F)

/-- The global lock is held during an access. -/
def lock (f : FieldFlags) : Bool := f.bits &&& 0x10 != 0

def update (f : FieldFlags) : UpdateRule :=
  match ((f.bits &&& 0x60) >>> 5).toNat with
  | 0 => .preserve
  | 1 => .writeOnes
  | 2 => .writeZeros
  | _ => .reserved

end FieldFlags

end Acpi
