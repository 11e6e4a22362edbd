import Acpi.Binding.Role

namespace Acpi

namespace Role

/-- The kind of object that a place requires. The others take an object of any kind. -/
inductive Requires : Role → Kind → Prop
  | fieldRegion : Requires .fieldRegion .region
  | indexRegister : Requires .indexRegister .fieldUnit
  | dataRegister : Requires .dataRegister .fieldUnit
  | bankRegion : Requires .bankRegion .region
  | bankRegister : Requires .bankRegister .fieldUnit
  | callee : Requires .callee .method

/-- An object of this kind may stand at the place. -/
def Admits (role : Role) (kind : Kind) : Prop :=
  ∀ required, role.Requires required → kind = required

theorem requires_iff {role : Role} {kind : Kind} :
    role.Requires kind ↔ role.required? = some kind := by
  constructor
  · intro h
    cases h <;> rfl
  · intro h
    cases role <;> cases h <;> constructor

theorem admits_of_none {role : Role} (h : role.required? = none) (kind : Kind) :
    role.Admits kind := by
  intro required hr
  rw [requires_iff, h] at hr
  cases hr

theorem admits_iff {role : Role} {kind required : Kind} (h : role.required? = some required) :
    role.Admits kind ↔ kind = required := by
  constructor
  · intro ha
    exact ha required (requires_iff.2 h)
  · rintro rfl other hr
    rw [requires_iff, h, Option.some.injEq] at hr
    exact hr

end Role

def Symbol.unbound (s : Symbol) : Symbol := { s with target := none }

namespace Body

/-- The body without its links; names and operands stay. -/
def unbound : Body → Body
  | .field f => .field { f with region := f.region.unbound }
  | .indexField f =>
    .indexField
      { f with indexRegister := f.indexRegister.unbound, dataRegister := f.dataRegister.unbound }
  | .bankField f =>
    .bankField { f with region := f.region.unbound, bankRegister := f.bankRegister.unbound }
  | .fieldUnit u => .fieldUnit { u with connection := none }
  | .reference target => .reference target.unbound
  | .invocation callee operands => .invocation callee.unbound operands
  | b => b

@[simp] theorem kind_unbound (b : Body) : b.unbound.kind = b.kind := by
  cases b <;> rfl

@[simp] theorem terms_unbound (b : Body) : b.unbound.terms = b.terms := by
  cases b <;> rfl

@[simp] theorem references_unbound (b : Body) : b.unbound.references = b.references := by
  cases b <;> rfl

@[simp] theorem hasReferences_unbound (b : Body) : b.unbound.hasReferences = b.hasReferences := by
  cases b <;> rfl

@[simp] theorem linked?_unbound (b : Body) (role : Role) : b.unbound.linked? role = none := by
  cases b <;> cases role <;> rfl

@[simp] theorem unbound_link (b : Body) (role : Role) (id : ObjectId) :
    (b.link role id).unbound = b.unbound := by
  cases b <;> cases role <;> rfl

/-- The places of a body where links can stand. -/
def slots : Body → List Role
  | .field _ => [.fieldRegion]
  | .indexField _ => [.indexRegister, .dataRegister]
  | .bankField _ => [.bankRegion, .bankRegister]
  | .fieldUnit _ => [.connection]
  | .reference _ => [.target]
  | .invocation _ _ => [.callee]
  | _ => []

theorem linked?_eq_none {b : Body} {role : Role} (h : role ∉ b.slots) : b.linked? role = none := by
  cases b <;> cases role <;> simp [slots, linked?] at h ⊢

/-- A body with references has one for each of its places. -/
theorem map_fst_references {b : Body} (h : b.hasReferences = true) :
    b.references.map Prod.fst = b.slots := by
  cases b with
  | fieldUnit u =>
    obtain ⟨name, hn⟩ := Option.isSome_iff_exists.1 h
    simp [references, slots, hn]
  | _ => simp [references, slots, hasReferences] at h ⊢

theorem nodup_references (b : Body) : (b.references.map Prod.fst).Nodup := by
  cases b with
  | fieldUnit u => cases h : u.connectionName <;> simp [references, h]
  | _ => simp [references]

theorem linked?_link_self {b : Body} {role : Role} (h : role ∈ b.references.map Prod.fst)
    (id : ObjectId) : (b.link role id).linked? role = some id := by
  cases b <;> cases role <;> first | rfl | simp [references] at h

theorem linked?_link_other (b : Body) {role other : Role} (h : other ≠ role) (id : ObjectId) :
    (b.link role id).linked? other = b.linked? other := by
  cases b <;> cases role <;> cases other <;> first | rfl | exact absurd rfl h

@[simp] theorem linkAll_cons (b : Body) (l : Role × ObjectId) (links : List (Role × ObjectId)) :
    b.linkAll (l :: links) = (b.link l.1 l.2).linkAll links := rfl

@[simp] theorem unbound_linkAll (b : Body) (links : List (Role × ObjectId)) :
    (b.linkAll links).unbound = b.unbound := by
  induction links generalizing b with
  | nil => rfl
  | cons l links ih => rw [linkAll_cons, ih, unbound_link]

@[simp] theorem references_linkAll (b : Body) (links : List (Role × ObjectId)) :
    (b.linkAll links).references = b.references := by
  rw [← references_unbound, unbound_linkAll, references_unbound]

theorem linked?_linkAll_other (b : Body) {links : List (Role × ObjectId)} {role : Role}
    (h : role ∉ links.map Prod.fst) : (b.linkAll links).linked? role = b.linked? role := by
  induction links generalizing b with
  | nil => rfl
  | cons l links ih =>
    rw [List.map_cons, List.mem_cons, not_or] at h
    rw [linkAll_cons, ih _ h.2, linked?_link_other b h.1]

/-- Of links set at distinct places of a body none is lost. -/
theorem linked?_linkAll {b : Body} {links : List (Role × ObjectId)}
    (hn : (links.map Prod.fst).Nodup)
    (hb : ∀ l ∈ links, l.1 ∈ b.references.map Prod.fst) {l : Role × ObjectId} (hl : l ∈ links) :
    (b.linkAll links).linked? l.1 = some l.2 := by
  induction links generalizing b with
  | nil => cases hl
  | cons first links ih =>
    rw [List.map_cons, List.nodup_cons] at hn
    rw [linkAll_cons]
    rcases List.mem_cons.1 hl with rfl | hl
    · rw [linked?_linkAll_other _ hn.1]
      exact linked?_link_self (hb l List.mem_cons_self) l.2
    · refine ih hn.2 ?_ hl
      intro m hm
      rw [references_link]
      exact hb m (List.mem_cons_of_mem _ hm)

end Body

/-- The object without its links to what it names; parent and children stay. -/
def Object.unbound (o : Object) : Object := { o with body := o.body.unbound }

end Acpi
