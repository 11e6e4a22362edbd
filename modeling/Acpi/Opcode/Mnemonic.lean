import Acpi.Opcode.Basic

namespace Acpi.Opcode

/-- One-byte operations. -/
def shortNames : List (UInt8 × String) :=
  [(0x00, "Zero"), (0x01, "One"), (0x06, "Alias"), (0x08, "Name"), (0x0A, "BytePrefix"),
   (0x0B, "WordPrefix"), (0x0C, "DwordPrefix"), (0x0D, "StringPrefix"), (0x0E, "QwordPrefix"),
   (0x10, "Scope"), (0x11, "Buffer"), (0x12, "Package"), (0x13, "VarPackage"), (0x14, "Method"),
   (0x15, "External"), (0x60, "Local0"), (0x61, "Local1"), (0x62, "Local2"), (0x63, "Local3"),
   (0x64, "Local4"), (0x65, "Local5"), (0x66, "Local6"), (0x67, "Local7"), (0x68, "Arg0"),
   (0x69, "Arg1"), (0x6A, "Arg2"), (0x6B, "Arg3"), (0x6C, "Arg4"), (0x6D, "Arg5"), (0x6E, "Arg6"),
   (0x70, "Store"), (0x71, "RefOf"), (0x72, "Add"), (0x73, "Concat"), (0x74, "Subtract"),
   (0x75, "Increment"), (0x76, "Decrement"), (0x77, "Multiply"), (0x78, "Divide"),
   (0x79, "ShiftLeft"), (0x7A, "ShiftRight"), (0x7B, "And"), (0x7C, "Nand"), (0x7D, "Or"),
   (0x7E, "Nor"), (0x7F, "Xor"), (0x80, "Not"), (0x81, "FindSetLeftBit"), (0x82, "FindSetRightBit"),
   (0x83, "DerefOf"), (0x84, "ConcatRes"), (0x85, "Mod"), (0x86, "Notify"), (0x87, "SizeOf"),
   (0x88, "Index"), (0x89, "Match"), (0x8A, "CreateDWordField"), (0x8B, "CreateWordField"),
   (0x8C, "CreateByteField"), (0x8D, "CreateBitField"), (0x8E, "ObjectType"),
   (0x8F, "CreateQWordField"), (0x90, "Land"), (0x91, "Lor"), (0x92, "Lnot"), (0x93, "LEqual"),
   (0x94, "LGreater"), (0x95, "LLess"), (0x96, "ToBuffer"), (0x97, "ToDecimalString"),
   (0x98, "ToHexString"), (0x99, "ToInteger"), (0x9C, "ToString"), (0x9D, "CopyObject"),
   (0x9E, "Mid"), (0x9F, "Continue"), (0xA0, "If"), (0xA1, "Else"), (0xA2, "While"), (0xA3, "Noop"),
   (0xA4, "Return"), (0xA5, "Break"), (0xCC, "BreakPoint"), (0xFF, "Ones")]

/-- Two-byte operations, by their second byte. -/
def extendedNames : List (UInt8 × String) :=
  [(0x01, "Mutex"), (0x02, "Event"), (0x12, "CondRefOf"), (0x13, "CreateField"),
   (0x1F, "LoadTable"), (0x20, "Load"), (0x21, "Stall"), (0x22, "Sleep"), (0x23, "Acquire"),
   (0x24, "Signal"), (0x25, "Wait"), (0x26, "Reset"), (0x27, "Release"), (0x28, "FromBCD"),
   (0x29, "ToBCD"), (0x2A, "Unload"), (0x30, "Revision"), (0x31, "Debug"), (0x32, "Fatal"),
   (0x33, "Timer"), (0x80, "OpRegion"), (0x81, "Field"), (0x82, "Device"), (0x83, "Processor"),
   (0x84, "PowerRes"), (0x85, "ThermalZone"), (0x86, "IndexField"), (0x87, "BankField"),
   (0x88, "DataRegion")]

/-- Objects without an encoding, by their distance from the first such number. -/
def syntheticNames : List (UInt8 × String) :=
  [(0x00, "FieldUnit"), (0x01, "MethodInvocation"), (0x02, "NameReference")]

def mnemonic? (op : Opcode) : Option String :=
  let low := op.code.toUInt8
  if op.isExtended then extendedNames.lookup low
  else if op.isSynthetic then syntheticNames.lookup low
  else if op.code < 0x100 then shortNames.lookup low
  else none

def mnemonic (op : Opcode) : String := op.mnemonic?.getD "unknown"

/-- Lower-case hexadecimal with at least four digits. -/
def hex4 (n : Nat) : String :=
  let digits := Nat.toDigits 16 n
  String.ofList (List.replicate (4 - digits.length) '0' ++ digits)

def describe (op : Opcode) : String := s!"AmlOpcode({op.mnemonic}, 0x{hex4 op.code.toNat})"

example : device.mnemonic = "Device" ∧ reference.mnemonic = "NameReference" := by decide

example : (Opcode.mk 0x9A).mnemonic = "unknown" := by decide

end Acpi.Opcode
