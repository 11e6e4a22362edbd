import Acpi.Object.AddressSpace
import Acpi.Object.Flags
import Acpi.Object.Kind
import Acpi.Object.Operand

namespace Acpi

/-- An object named in a table, and the object it was bound to. -/
structure Symbol where
  name : String := ""
  target : Option ObjectId := none
  deriving DecidableEq

def Symbol.bindTo (s : Symbol) (id : ObjectId) : Symbol := { s with target := some id }

structure Processor where
  id : UInt8 := 0
  blockAddress : UInt32 := 0
  blockLength : UInt8 := 0
  deriving DecidableEq

structure PowerResource where
  systemLevel : UInt8 := 0
  order : UInt16 := 0
  deriving DecidableEq

structure Buffer where
  size : Operand := .absent
  data : List UInt8 := []
  deriving DecidableEq

/-- A field carved out of a buffer. -/
structure BufferField where
  source : Operand := .absent
  index : Operand := .absent
  width : Operand := .absent
  /-- The width that the operation fixes, if it does. -/
  fixedWidth : Option UInt8
  deriving DecidableEq

namespace BufferField

def ofWidth : Option UInt8 → BufferField
  | some w => { width := .integer w.toUInt64, fixedWidth := some w }
  | none => { fixedWidth := none }

/-- The index counts bits rather than bytes. -/
def bitIndexed (f : BufferField) : Bool :=
  match f.fixedWidth with
  | none => true
  | some w => w == 1

end BufferField

structure Region where
  space : AddressSpace := .systemMemory
  offset : Operand := .absent
  length : Operand := .absent
  deriving DecidableEq

/-- A field whose units lie in a region. -/
structure RegionField where
  region : Symbol := {}
  flags : FieldFlags := {}
  deriving DecidableEq

/-- A field reached through a pair of registers. -/
structure IndexField where
  indexRegister : Symbol := {}
  dataRegister : Symbol := {}
  flags : FieldFlags := {}
  deriving DecidableEq

/-- A field that a write to a bank register selects. -/
structure BankField where
  region : Symbol := {}
  bankRegister : Symbol := {}
  bankValue : Operand := .absent
  flags : FieldFlags := {}
  deriving DecidableEq

/-- A named unit of a field. Its connection stays bound when its name is taken back. -/
structure FieldUnit where
  bitOffset : UInt32 := 0
  bitWidth : UInt32 := 0
  flags : FieldFlags := {}
  accessAttribute : Option UInt8 := none
  connectionName : Option String := none
  connection : Option ObjectId := none
  deriving DecidableEq

inductive Body
  | generic (operands : List Operand)
  | namedGeneric (operands : List Operand)
  | constant (value : Operand)
  | scope
  | device
  | thermalZone
  | processor (p : Processor)
  | powerResource (p : PowerResource)
  | method (flags : MethodFlags)
  | buffer (b : Buffer)
  | bufferField (f : BufferField)
  | region (r : Region)
  | mutex (syncLevel : UInt8)
  | event
  | field (f : RegionField)
  | indexField (f : IndexField)
  | bankField (f : BankField)
  | fieldUnit (u : FieldUnit)
  | reference (target : Symbol)
  | invocation (callee : Symbol) (operands : List Operand)
  deriving DecidableEq

namespace Body

def kind : Body → Kind
  | .generic _ => .generic
  | .namedGeneric _ => .namedGeneric
  | .constant _ => .constant
  | .scope => .scope
  | .device => .device
  | .thermalZone => .thermalZone
  | .processor _ => .processor
  | .powerResource _ => .powerResource
  | .method _ => .method
  | .buffer _ => .buffer
  | .bufferField _ => .bufferField
  | .region _ => .region
  | .mutex _ => .mutex
  | .event => .event
  | .field _ => .field
  | .indexField _ => .indexField
  | .bankField _ => .bankField
  | .fieldUnit _ => .fieldUnit
  | .reference _ => .reference
  | .invocation _ _ => .invocation

/-- The operands that were kept as a list. -/
def listed : Body → List Operand
  | .generic operands | .namedGeneric operands | .invocation _ operands => operands
  | _ => []

/-- Every operand held, the listed ones first. -/
def operands : Body → List Operand
  | .constant value => [value]
  | .buffer b => [b.size]
  | .bufferField f => [f.source, f.index, f.width]
  | .region r => [r.offset, r.length]
  | .bankField f => [f.bankValue]
  | b => b.listed

/-- The objects held as operands. -/
def terms (b : Body) : List ObjectId := b.operands.filterMap Operand.term?

end Body

end Acpi
