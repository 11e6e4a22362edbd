namespace Acpi

structure Opcode where
  code : UInt16
  deriving DecidableEq

namespace Opcode

/-- The lead byte of a two-byte operation. -/
def leadByte : UInt8 := 0x5B

def extended (second : UInt8) : Opcode := ⟨leadByte.toUInt16 <<< 8 ||| second.toUInt16⟩

def isExtended (op : Opcode) : Bool := op.code >>> 8 == leadByte.toUInt16

/-- The first number without an encoding. -/
def firstSynthetic : UInt16 := 0xFF00

def isSynthetic (op : Opcode) : Bool := firstSynthetic ≤ op.code

def scope : Opcode := ⟨0x10⟩
def buffer : Opcode := ⟨0x11⟩
def method : Opcode := ⟨0x14⟩
def createDWordField : Opcode := ⟨0x8A⟩
def createWordField : Opcode := ⟨0x8B⟩
def createByteField : Opcode := ⟨0x8C⟩
def createBitField : Opcode := ⟨0x8D⟩
def createQWordField : Opcode := ⟨0x8F⟩
def mutex : Opcode := extended 0x01
def event : Opcode := extended 0x02
def region : Opcode := extended 0x80
def field : Opcode := extended 0x81
def device : Opcode := extended 0x82
def processor : Opcode := extended 0x83
def powerResource : Opcode := extended 0x84
def thermalZone : Opcode := extended 0x85
def indexField : Opcode := extended 0x86
def bankField : Opcode := extended 0x87
def fieldUnit : Opcode := ⟨firstSynthetic⟩
def invocation : Opcode := ⟨firstSynthetic + 1⟩
def reference : Opcode := ⟨firstSynthetic + 2⟩

/-- The width in bits of the buffer field that an operation creates, where the operation fixes
it. -/
def fieldWidth? (op : Opcode) : Option UInt8 :=
  if op = createBitField then some 1
  else if op = createByteField then some 8
  else if op = createWordField then some 16
  else if op = createDWordField then some 32
  else if op = createQWordField then some 64
  else none

end Opcode

end Acpi
