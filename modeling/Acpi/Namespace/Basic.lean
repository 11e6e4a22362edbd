import Acpi.Object.Offer

/-!
The namespace: an arena of objects, of which the first is the root scope. Objects are never taken
out, so an id stays good; an id past the arena names nothing. The arena is read through `get?`.
-/

namespace Acpi

@[ext] structure Namespace where
  objects : Array Object
  size_pos : 0 < objects.size

namespace Namespace

def initial : Namespace := ⟨#[Object.root], by decide⟩

def size (ns : Namespace) : Nat := ns.objects.size

def get? (ns : Namespace) (id : ObjectId) : Option Object := ns.objects[id.index]?

def contains (ns : Namespace) (id : ObjectId) : Bool := (ns.get? id).isSome

/-- The ids of the arena in order. Objects past the last id have none. -/
def ids (ns : Namespace) : List ObjectId :=
  (List.range (min ns.size (ObjectId.last + 1))).map ObjectId.ofIndex

/-- The id of the object that is put in next. -/
def nextId (ns : Namespace) : ObjectId := .ofIndex ns.size

/-- Puts an object in as it is. -/
def insert (ns : Namespace) (o : Object) : Namespace := ⟨ns.objects.push o, by simp⟩

def update (ns : Namespace) (id : ObjectId) (f : Object → Object) : Namespace :=
  ⟨ns.objects.modify id.index f, by simpa using ns.size_pos⟩

@[simp] theorem size_insert (ns : Namespace) (o : Object) : (ns.insert o).size = ns.size + 1 := by
  simp [insert, size]

@[simp] theorem size_update (ns : Namespace) (id : ObjectId) (f : Object → Object) :
    (ns.update id f).size = ns.size := by
  simp [update, size]

theorem contains_iff {ns : Namespace} {id : ObjectId} :
    ns.contains id = true ↔ id.index < ns.size := by
  simp [contains, get?, size]

theorem mem_ids {ns : Namespace} {id : ObjectId} : id ∈ ns.ids ↔ ns.contains id = true := by
  have hle := id.index_le
  simp only [ids, List.mem_map, List.mem_range, contains_iff]
  constructor
  · rintro ⟨n, hn, rfl⟩
    rw [ObjectId.index_ofIndex (by omega)]
    omega
  · intro h
    exact ⟨id.index, by omega, id.ofIndex_index⟩

theorem nodup_ids (ns : Namespace) : ns.ids.Nodup := by
  refine List.pairwise_map.2 (List.nodup_range.imp_of_mem ?_)
  intro m n hm hn hne he
  have hm' := List.mem_range.1 hm
  have hn' := List.mem_range.1 hn
  have hi := congrArg ObjectId.index he
  rw [ObjectId.index_ofIndex (by omega), ObjectId.index_ofIndex (by omega)] at hi
  exact hne hi

theorem get?_insert {ns : Namespace} {o : Object} {id : ObjectId} :
    (ns.insert o).get? id = if id.index = ns.size then some o else ns.get? id := by
  simp only [insert, get?, size, Array.getElem?_push]
  congr

theorem get?_update {ns : Namespace} {id other : ObjectId} {f : Object → Object} :
    (ns.update id f).get? other = if other = id then (ns.get? id).map f else ns.get? other := by
  obtain ⟨i, hi⟩ := id
  obtain ⟨j, hj⟩ := other
  by_cases h : j = i
  · simp [update, get?, Array.getElem?_modify, h]
  · simp [update, get?, Array.getElem?_modify, h, Ne.symm h]

def parent? (ns : Namespace) (id : ObjectId) : Option ObjectId := (ns.get? id).bind Object.parent

def children (ns : Namespace) (id : ObjectId) : List ObjectId :=
  ((ns.get? id).map Object.children).getD []

def lastChild? (ns : Namespace) (id : ObjectId) : Option ObjectId :=
  (ns.get? id).bind Object.lastChild?

def name? (ns : Namespace) (id : ObjectId) : Option NameSeg := (ns.get? id).bind Object.name

def kind? (ns : Namespace) (id : ObjectId) : Option Kind := (ns.get? id).map Object.kind

def terms (ns : Namespace) (id : ObjectId) : List ObjectId :=
  ((ns.get? id).map Object.terms).getD []

/-- The first child with a name. -/
def child? (ns : Namespace) (scope : ObjectId) (name : NameSeg) : Option ObjectId :=
  (ns.children scope).find? fun c => ns.name? c == some name

/-- Two objects hold the same, bound links included. -/
def sameBody? (ns : Namespace) (a b : ObjectId) : Option Bool := do
  let a ← ns.get? a
  let b ← ns.get? b
  return a.body == b.body

/-- Puts in a copy of an object, its links to parent and children included. -/
def copy? (ns : Namespace) (id : ObjectId) : Option (ObjectId × Namespace) :=
  (ns.get? id).map fun o => (ns.nextId, ns.insert o)

/-- Writes over an object; the links of others to it stay. -/
def replace? (ns : Namespace) (id : ObjectId) (o : Object) : Option Namespace :=
  if ns.contains id then some (ns.update id fun _ => o) else none

/-- Offers an operand to an object of the arena. -/
def offer? (ns : Namespace) (id : ObjectId) (index : Nat) (a : Operand) :
    Option (Bool × Namespace) :=
  (ns.get? id).map fun o =>
    let (taken, o) := o.offer index a
    (taken, ns.update id fun _ => o)

/-- Names an object of the arena, and tells whether it had no name. -/
def giveName? (ns : Namespace) (id : ObjectId) (name : NameSeg) : Option (Bool × Namespace) :=
  (ns.get? id).map fun o =>
    match o.giveName? name with
    | some o => (true, ns.update id fun _ => o)
    | none => (false, ns)

/-- Writes to a field unit of the arena, and tells whether the object is one. -/
def editUnit? (ns : Namespace) (id : ObjectId) (e : UnitEdit) : Option (Bool × Namespace) :=
  (ns.get? id).map fun o =>
    match o.editUnit? e with
    | some o => (true, ns.update id fun _ => o)
    | none => (false, ns)

end Namespace

end Acpi
