import Acpi.Binding.Role
import Acpi.Object.Offer

namespace Acpi

/-- A body that is filled in has the property. -/
def Response.Fills (P : Body → Prop) : Response → Prop
  | .fills body => P body
  | .names _ | .refused => True

theorem Response.fills_ofName (P : Body → Prop) (a : Operand) : (ofName a).Fills P := by
  cases a with
  | text s =>
    rw [ofName]
    split <;> trivial
  | _ => trivial

theorem Response.fills_ofValue {α : Type} {P : Body → Prop} (value? : Option α) {fill : α → Body}
    (h : ∀ v, value? = some v → P (fill v)) : (ofValue value? fill).Fills P := by
  cases value? with
  | none => trivial
  | some v => exact h v rfl

namespace Body

/-- A body of the same kind with the same links. -/
def Alike (b b' : Body) : Prop := b'.kind = b.kind ∧ ∀ role, b'.linked? role = b.linked? role

/-- An operand fills in a part of a body, and that is never its kind or a link. -/
theorem fills_respond (b : Body) (index : Nat) (a : Operand) :
    (b.respond index a).Fills b.Alike := by
  -- each position of each kind takes its operand, in whole or by its value, or reads a name, or
  -- refuses
  cases b <;> simp only [respond]
  all_goals
    repeat' split
    all_goals first
      | exact Response.fills_ofName _ _
      | exact Response.fills_ofValue _ fun _ _ => ⟨rfl, fun role => by cases role <;> rfl⟩
      | exact ⟨rfl, fun role => by cases role <;> rfl⟩
      | trivial

theorem alike_of_respond {b b' : Body} {index : Nat} {a : Operand}
    (h : b.respond index a = .fills b') : b.Alike b' := by
  have hf := b.fills_respond index a
  rwa [h] at hf

end Body

namespace Object

/-- An object after a change that leaves its place in the tree, its identity and its links: only a
name may be new, where there was none. -/
structure Keeps (o o' : Object) : Prop where
  opcode : o'.opcode = o.opcode
  table : o'.table = o.table
  kind : o'.kind = o.kind
  parent : o'.parent = o.parent
  children : o'.children = o.children
  links : ∀ role, o'.body.linked? role = o.body.linked? role
  name : ∀ seg, o.name = some seg → o'.name = some seg

theorem Keeps.refl (o : Object) : o.Keeps o :=
  ⟨rfl, rfl, rfl, rfl, rfl, fun _ => rfl, fun _ h => h⟩

theorem Keeps.trans {o o' o'' : Object} (k : o.Keeps o') (k' : o'.Keeps o'') : o.Keeps o'' :=
  ⟨k'.opcode.trans k.opcode, k'.table.trans k.table, k'.kind.trans k.kind,
    k'.parent.trans k.parent, k'.children.trans k.children,
    fun role => (k'.links role).trans (k.links role), fun seg h => k'.name seg (k.name seg h)⟩

theorem keeps_close (o : Object) : o.Keeps o.close :=
  ⟨rfl, rfl, rfl, rfl, rfl, fun _ => rfl, fun _ h => h⟩

theorem giveName?_eq_some {o named : Object} {seg : NameSeg} :
    o.giveName? seg = some named ↔ o.name = none ∧ named = { o with name := some seg } := by
  rw [giveName?]
  split
  next hn => simp [hn, eq_comm]
  next hn => simp [hn]

theorem keeps_giveName? {o named : Object} {seg : NameSeg} (h : o.giveName? seg = some named) :
    o.Keeps named := by
  obtain ⟨hnone, rfl⟩ := giveName?_eq_some.1 h
  refine ⟨rfl, rfl, rfl, rfl, rfl, fun _ => rfl, ?_⟩
  intro old ho
  rw [hnone] at ho
  cases ho

/-- An operand is refused, or fills in a part of the body, or names the object. -/
theorem offer_cases (o : Object) (index : Nat) (a : Operand) :
    (o.offer index a).2 = o ∨ (o.offer index a).2 = o.close ∨
      (∃ body, o.body.respond index a = .fills body ∧ (o.offer index a).2 = { o with body }) ∨
      ∃ seg named, o.body.respond index a = .names seg ∧ o.giveName? seg = some named ∧
        (o.offer index a).2 = named := by
  simp only [offer]
  split
  · exact .inl rfl
  · cases hr : o.body.respond index a with
    | fills body => exact .inr (.inr (.inl ⟨body, rfl, rfl⟩))
    | refused => exact .inr (.inl rfl)
    | names seg =>
      cases hn : o.giveName? seg with
      | some named => exact .inr (.inr (.inr ⟨seg, named, rfl, hn, by simp [hn]⟩))
      | none => exact .inr (.inl (by simp [hn]))

theorem keeps_offer (o : Object) (index : Nat) (a : Operand) : o.Keeps (o.offer index a).2 := by
  rcases o.offer_cases index a with h | h | ⟨body, hr, h⟩ | ⟨seg, named, -, hn, h⟩
  · rw [h]
    exact .refl o
  · rw [h]
    exact keeps_close o
  · obtain ⟨hkind, hlinks⟩ := Body.alike_of_respond hr
    rw [h]
    exact ⟨rfl, rfl, hkind, rfl, rfl, hlinks, fun _ h => h⟩
  · rw [h]
    exact keeps_giveName? hn

theorem keeps_editUnit? {o edited : Object} {e : UnitEdit} (h : o.editUnit? e = some edited) :
    o.Keeps edited := by
  simp only [editUnit?] at h
  split at h
  next u hb =>
    cases h
    refine ⟨rfl, rfl, by simp [kind, hb, Body.kind], rfl, rfl, fun role => ?_, fun _ h => h⟩
    rw [hb]
    cases role <;> rfl
  · cases h

/-- An object as its constructor makes it. -/
inductive Constructed : Object → Prop
  | generic (opcode : Opcode) (table : TableId) : Constructed (.generic opcode table)
  | namedGeneric (opcode : Opcode) (table : TableId) : Constructed (.namedGeneric opcode table)
  | constant (opcode : Opcode) (table : TableId) (value : Operand) :
    Constructed (.constant opcode table value)
  | scope (table : TableId) (name : NameSeg) : Constructed (.scope table name)
  | device (table : TableId) (name : NameSeg) : Constructed (.device table name)
  | thermalZone (table : TableId) (name : NameSeg) : Constructed (.thermalZone table name)
  | processor (table : TableId) (name : NameSeg) : Constructed (.processor table name)
  | powerResource (table : TableId) (name : NameSeg) : Constructed (.powerResource table name)
  | method (table : TableId) (name : NameSeg) : Constructed (.method table name)
  | buffer (table : TableId) : Constructed (.buffer table)
  | bufferField (opcode : Opcode) (table : TableId) : Constructed (.bufferField opcode table)
  | region (table : TableId) : Constructed (.region table)
  | mutex (table : TableId) : Constructed (.mutex table)
  | event (table : TableId) : Constructed (.event table)
  | field (table : TableId) : Constructed (.field table)
  | indexField (table : TableId) : Constructed (.indexField table)
  | bankField (table : TableId) : Constructed (.bankField table)
  | fieldUnit (table : TableId) (name : NameSeg) : Constructed (.fieldUnit table name)
  | reference (table : TableId) (target : String) : Constructed (.reference table target)
  | invocation (table : TableId) (method : String) : Constructed (.invocation table method)

/-- An object that was never in an arena: constructed, then offered operands, named or edited any
number of times. -/
inductive Fresh : Object → Prop
  | constructed {o : Object} (h : o.Constructed) : Fresh o
  | offer {o : Object} (index : Nat) (a : Operand) (h : o.Fresh) : Fresh (o.offer index a).2
  | giveName {o named : Object} {seg : NameSeg} (h : o.Fresh) (hn : o.giveName? seg = some named) :
    Fresh named
  | editUnit {o edited : Object} {e : UnitEdit} (h : o.Fresh) (he : o.editUnit? e = some edited) :
    Fresh edited

attribute [simp] Constructed.generic Constructed.namedGeneric Constructed.constant
  Constructed.scope Constructed.device Constructed.thermalZone Constructed.processor
  Constructed.powerResource Constructed.method Constructed.buffer Constructed.bufferField
  Constructed.region Constructed.mutex Constructed.event Constructed.field Constructed.indexField
  Constructed.bankField Constructed.fieldUnit Constructed.reference Constructed.invocation
  Fresh.constructed

theorem Constructed.alone {o : Object} (h : o.Constructed) : o.parent = none ∧ o.children = [] := by
  cases h <;> exact ⟨rfl, rfl⟩

theorem Constructed.linked?_eq_none {o : Object} (h : o.Constructed) (role : Role) :
    o.body.linked? role = none := by
  cases h <;> cases role <;> rfl

theorem Keeps.alone {o o' : Object} (k : o.Keeps o') (h : o.parent = none ∧ o.children = []) :
    o'.parent = none ∧ o'.children = [] :=
  ⟨k.parent.trans h.1, k.children.trans h.2⟩

theorem Fresh.alone {o : Object} (h : o.Fresh) : o.parent = none ∧ o.children = [] := by
  induction h with
  | constructed h => exact h.alone
  | offer index a _ ih => exact (keeps_offer _ index a).alone ih
  | giveName _ hn ih => exact (keeps_giveName? hn).alone ih
  | editUnit _ he ih => exact (keeps_editUnit? he).alone ih

theorem Fresh.linked?_eq_none {o : Object} (h : o.Fresh) (role : Role) :
    o.body.linked? role = none := by
  induction h with
  | constructed h => exact h.linked?_eq_none role
  | offer index a _ ih => exact ((keeps_offer _ index a).links role).trans ih
  | giveName _ hn ih => exact ((keeps_giveName? hn).links role).trans ih
  | editUnit _ he ih => exact ((keeps_editUnit? he).links role).trans ih

end Object

end Acpi
