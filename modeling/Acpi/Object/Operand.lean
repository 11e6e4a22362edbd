import Acpi.Object.Id

namespace Acpi

inductive Operand
  | absent
  | integer (value : UInt64)
  /-- A string constant, or a name still to be looked up. -/
  | text (value : String)
  | bytes (value : List UInt8)
  /-- An object that computes the value. -/
  | term (id : ObjectId)
  deriving DecidableEq

namespace Operand

def integer? : Operand → Option UInt64
  | .integer v => some v
  | _ => none

def text? : Operand → Option String
  | .text s => some s
  | _ => none

def term? : Operand → Option ObjectId
  | .term id => some id
  | _ => none

/-- An integer below `bound`. -/
def below? (bound : Nat) (a : Operand) : Option Nat :=
  match a with
  | .integer v => if v.toNat < bound then some v.toNat else none
  | _ => none

def byte? (a : Operand) : Option UInt8 := (a.below? 0x100).map UInt8.ofNat

def word? (a : Operand) : Option UInt16 := (a.below? 0x10000).map UInt16.ofNat

def dword? (a : Operand) : Option UInt32 := (a.below? 0x100000000).map UInt32.ofNat

end Operand

end Acpi
