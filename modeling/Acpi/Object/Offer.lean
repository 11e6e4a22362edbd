import Acpi.Object.Basic

namespace Acpi

/-- What a body makes of an operand. -/
inductive Response
  | fills (body : Body)
  | names (seg : NameSeg)
  | refused

namespace Response

/-- A string that reads as one segment. -/
def ofName (a : Operand) : Response :=
  match a with
  | .text s =>
    match NameSeg.ofText s with
    | .ok seg => .names seg
    | .error _ => .refused
  | _ => .refused

def ofValue {α : Type} (value? : Option α) (fill : α → Body) : Response :=
  match value? with
  | some v => .fills (fill v)
  | none => .refused

end Response

/-- A call takes at most this many operands. -/
def maxCallOperands : Nat := 7

/-- The highest synchronization level of a mutex. -/
def maxSyncLevel : UInt8 := 15

def MethodFlags.of? (a : Operand) : Option MethodFlags := a.byte?.map .mk

def FieldFlags.of? (a : Operand) : Option FieldFlags := a.byte?.map .mk

namespace Body

/-- The response to an operand at a position, counted from zero. -/
def respond (index : Nat) (a : Operand) : Body → Response
  | .generic operands => .fills (.generic (operands ++ [a]))
  | .namedGeneric operands =>
    if index = 0 then .ofName a else .fills (.namedGeneric (operands ++ [a]))
  | .constant _ => if index = 0 then .fills (.constant a) else .refused
  | .scope => if index = 0 then .fills .scope else .refused
  | .device => if index = 0 then .fills .device else .refused
  | .thermalZone => if index = 0 then .fills .thermalZone else .refused
  | .processor p =>
    match index with
    | 0 => .ofValue a.byte? fun v => .processor { p with id := v }
    | 1 => .ofValue a.dword? fun v => .processor { p with blockAddress := v }
    | 2 => .ofValue a.byte? fun v => .processor { p with blockLength := v }
    | _ => .refused
  | .powerResource p =>
    match index with
    | 0 => .ofValue a.byte? fun v => .powerResource { p with systemLevel := v }
    | 1 => .ofValue a.word? fun v => .powerResource { p with order := v }
    | _ => .refused
  | .method flags =>
    match index with
    | 0 => .fills (.method flags)
    | 1 => .ofValue (MethodFlags.of? a) .method
    | _ => .refused
  | .buffer b =>
    match index, a with
    | 0, _ => .fills (.buffer { b with size := a })
    | 1, .bytes data => .fills (.buffer { b with data })
    | _, _ => .refused
  | .bufferField f =>
    match index with
    | 0 => .fills (.bufferField { f with source := a })
    | 1 => .fills (.bufferField { f with index := a })
    | 2 =>
      match f.fixedWidth with
      | some _ => .ofName a
      | none => .fills (.bufferField { f with width := a })
    | 3 =>
      match f.fixedWidth with
      | some _ => .refused
      | none => .ofName a
    | _ => .refused
  | .region r =>
    match index with
    | 0 => .ofName a
    | 1 => .ofValue a.byte? fun v => .region { r with space := .ofCode v }
    | 2 => .fills (.region { r with offset := a })
    | 3 => .fills (.region { r with length := a })
    | _ => .refused
  | .mutex _ =>
    match index with
    | 0 => .ofName a
    | 1 => .ofValue (a.byte?.filter (· ≤ maxSyncLevel)) .mutex
    | _ => .refused
  | .event => if index = 0 then .ofName a else .refused
  | .field f =>
    match index with
    | 0 => .ofValue a.text? fun s => .field { f with region.name := s }
    | 1 => .ofValue (FieldFlags.of? a) fun v => .field { f with flags := v }
    | _ => .refused
  | .indexField f =>
    match index with
    | 0 => .ofValue a.text? fun s => .indexField { f with indexRegister.name := s }
    | 1 => .ofValue a.text? fun s => .indexField { f with dataRegister.name := s }
    | 2 => .ofValue (FieldFlags.of? a) fun v => .indexField { f with flags := v }
    | _ => .refused
  | .bankField f =>
    match index with
    | 0 => .ofValue a.text? fun s => .bankField { f with region.name := s }
    | 1 => .ofValue a.text? fun s => .bankField { f with bankRegister.name := s }
    | 2 => .fills (.bankField { f with bankValue := a })
    | 3 => .ofValue (FieldFlags.of? a) fun v => .bankField { f with flags := v }
    | _ => .refused
  | .fieldUnit _ => .refused
  | .reference _ => .refused
  | .invocation callee operands =>
    if operands.length < maxCallOperands then .fills (.invocation callee (operands ++ [a]))
    else .refused

end Body

namespace Object

/-- Names an object that has no name. -/
def giveName? (o : Object) (seg : NameSeg) : Option Object :=
  if o.name = none then some { o with name := some seg } else none

def close (o : Object) : Object := { o with closed := true }

/-- Offers the operand at a position, and tells whether it was taken. -/
def offer (o : Object) (index : Nat) (a : Operand) : Bool × Object :=
  if o.closed then (false, o)
  else
    match o.body.respond index a with
    | .fills body => (true, { o with body })
    | .names seg =>
      match o.giveName? seg with
      | some named => (true, named)
      | none => (false, o.close)
    | .refused => (false, o.close)

theorem offer_closed {o : Object} (h : o.closed = true) (index : Nat) (a : Operand) :
    o.offer index a = (false, o) := by
  simp [offer, h]

/-- A refusal changes nothing but the mark it leaves. -/
theorem offer_refused {o : Object} {index : Nat} {a : Operand} (h : (o.offer index a).1 = false) :
    (o.offer index a).2 = o.close := by
  simp only [offer] at h ⊢
  split
  next hc => simp [close, ← hc]
  next hc =>
    rw [if_neg hc] at h
    split <;> simp_all
    next seg _ => split <;> simp_all

/-- Offers operands at the positions from `index` on. -/
def offerFrom (o : Object) (index : Nat) : List Operand → List Bool × Object
  | [] => ([], o)
  | a :: rest =>
    let (taken, o) := o.offer index a
    let (others, o) := o.offerFrom (index + 1) rest
    (taken :: others, o)

def offerAll (o : Object) (operands : List Operand) : List Bool × Object :=
  o.offerFrom 0 operands

end Object

/-- The parts of a field unit to write; those left out stay. -/
structure UnitEdit where
  bitOffset : Option UInt32 := none
  bitWidth : Option UInt32 := none
  flags : Option FieldFlags := none
  accessAttribute : Option (Option UInt8) := none
  connectionName : Option (Option String) := none

def FieldUnit.edit (u : FieldUnit) (e : UnitEdit) : FieldUnit :=
  { u with
    bitOffset := e.bitOffset.getD u.bitOffset
    bitWidth := e.bitWidth.getD u.bitWidth
    flags := e.flags.getD u.flags
    accessAttribute := e.accessAttribute.getD u.accessAttribute
    connectionName := e.connectionName.getD u.connectionName }

/-- Writes to a field unit; any other object is refused. -/
def Object.editUnit? (o : Object) (e : UnitEdit) : Option Object :=
  match o.body with
  | .fieldUnit u => some { o with body := .fieldUnit (u.edit e) }
  | _ => none

end Acpi
