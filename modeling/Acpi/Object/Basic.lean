import Acpi.Name.Segment
import Acpi.Object.Body
import Acpi.Opcode.Basic

namespace Acpi

structure Object where
  opcode : Opcode
  table : TableId
  name : Option NameSeg := none
  parent : Option ObjectId := none
  children : List ObjectId := []
  /-- An operand was refused; no other is taken. -/
  closed : Bool := false
  body : Body
  deriving DecidableEq

namespace Object

def kind (o : Object) : Kind := o.body.kind

def isContainer (o : Object) : Bool := o.kind.isContainer

def terms (o : Object) : List ObjectId := o.body.terms

def lastChild? (o : Object) : Option ObjectId := o.children.getLast?

/-- The top of every tree. -/
def root : Object :=
  { opcode := .scope, table := .root, name := some .root, body := .scope }

def generic (opcode : Opcode) (table : TableId) : Object :=
  { opcode, table, body := .generic [] }

def namedGeneric (opcode : Opcode) (table : TableId) : Object :=
  { opcode, table, body := .namedGeneric [] }

def constant (opcode : Opcode) (table : TableId) (value : Operand) : Object :=
  { opcode, table, body := .constant value }

def scope (table : TableId) (name : NameSeg) : Object :=
  { opcode := .scope, table, name := some name, body := .scope }

def device (table : TableId) (name : NameSeg) : Object :=
  { opcode := .device, table, name := some name, body := .device }

def thermalZone (table : TableId) (name : NameSeg) : Object :=
  { opcode := .thermalZone, table, name := some name, body := .thermalZone }

def processor (table : TableId) (name : NameSeg) : Object :=
  { opcode := .processor, table, name := some name, body := .processor {} }

def powerResource (table : TableId) (name : NameSeg) : Object :=
  { opcode := .powerResource, table, name := some name, body := .powerResource {} }

def method (table : TableId) (name : NameSeg) : Object :=
  { opcode := .method, table, name := some name, body := .method {} }

def buffer (table : TableId) : Object :=
  { opcode := .buffer, table, body := .buffer {} }

/-- The width is an operand unless the operation fixes it. -/
def bufferField (opcode : Opcode) (table : TableId) : Object :=
  { opcode, table, body := .bufferField (.ofWidth opcode.fieldWidth?) }

def region (table : TableId) : Object :=
  { opcode := .region, table, body := .region {} }

def mutex (table : TableId) : Object :=
  { opcode := .mutex, table, body := .mutex 0 }

def event (table : TableId) : Object :=
  { opcode := .event, table, body := .event }

def field (table : TableId) : Object :=
  { opcode := .field, table, body := .field {} }

def indexField (table : TableId) : Object :=
  { opcode := .indexField, table, body := .indexField {} }

def bankField (table : TableId) : Object :=
  { opcode := .bankField, table, body := .bankField {} }

def fieldUnit (table : TableId) (name : NameSeg) : Object :=
  { opcode := .fieldUnit, table, name := some name, body := .fieldUnit {} }

def reference (table : TableId) (target : String) : Object :=
  { opcode := .reference, table, body := .reference { name := target } }

def invocation (table : TableId) (method : String) : Object :=
  { opcode := .invocation, table, body := .invocation { name := method } [] }

end Object

end Acpi
