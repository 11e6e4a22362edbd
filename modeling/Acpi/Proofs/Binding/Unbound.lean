import Acpi.Binding.Pass
import Acpi.Proofs.Binding.Links
import Acpi.Proofs.Namespace.WellFormed

namespace Acpi.Namespace

def unbound (ns : Namespace) : Namespace :=
  ⟨ns.objects.map Object.unbound, by simpa using ns.size_pos⟩

variable (ns : Namespace)

@[simp] theorem size_unbound : ns.unbound.size = ns.size := by
  simp [unbound, size]

@[simp] theorem get?_unbound (id : ObjectId) :
    ns.unbound.get? id = (ns.get? id).map Object.unbound := by
  simp [unbound, get?]

@[simp] theorem contains_unbound : ns.unbound.contains = ns.contains := by
  funext id
  simp [contains]

@[simp] theorem parent?_unbound : ns.unbound.parent? = ns.parent? := by
  funext id
  cases h : ns.get? id <;> simp [parent?, h, Object.unbound]

@[simp] theorem children_unbound : ns.unbound.children = ns.children := by
  funext id
  cases h : ns.get? id <;> simp [children, h, Object.unbound]

@[simp] theorem name?_unbound : ns.unbound.name? = ns.name? := by
  funext id
  cases h : ns.get? id <;> simp [name?, h, Object.unbound]

@[simp] theorem kind?_unbound : ns.unbound.kind? = ns.kind? := by
  funext id
  cases h : ns.get? id <;> simp [kind?, h, Object.unbound, Object.kind]

@[simp] theorem climb_unbound : ns.unbound.climb = ns.climb := by
  funext steps
  induction steps with
  | zero => rfl
  | succ steps ih =>
    funext id
    simp [climb, ih]

@[simp] theorem ancestors_unbound : ns.unbound.ancestors = ns.ancestors := by
  funext id
  simp [ancestors]

@[simp] theorem lineage_unbound : ns.unbound.lineage = ns.lineage := by
  funext id
  simp [lineage]

@[simp] theorem pathTo_unbound : ns.unbound.pathTo = ns.pathTo := by
  funext id
  simp [pathTo]

@[simp] theorem holder?_unbound : ns.unbound.holder? = ns.holder? := by
  funext term
  simp only [holder?, unbound, Array.findIdx?_map]
  congr 2
  funext o
  exact decide_eq_decide.2 (by simp [Object.terms, Object.unbound])

@[simp] theorem scopeWithin_unbound : ns.unbound.scopeWithin = ns.scopeWithin := by
  funext hops
  induction hops with
  | zero => rfl
  | succ hops ih =>
    funext id
    simp [scopeWithin, ih]

@[simp] theorem scopeOf_unbound : ns.unbound.scopeOf = ns.scopeOf := by
  funext id
  simp [scopeOf]

@[simp] theorem child?_unbound : ns.unbound.child? = ns.child? := by
  funext scope name
  simp [child?]

@[simp] theorem follow?_unbound : ns.unbound.follow? = ns.follow? := by
  funext start segs
  induction segs generalizing start with
  | nil => rfl
  | cons seg rest ih => simp [follow?, ih]

@[simp] theorem anchored?_unbound : ns.unbound.anchored? = ns.anchored? := by
  funext scope anchor
  cases anchor with
  | parent levels => cases levels <;> simp [anchored?]
  | _ => simp [anchored?]

@[simp] theorem lookupPath?_unbound : ns.unbound.lookupPath? = ns.lookupPath? := by
  funext scope path
  simp [lookupPath?, search?]

@[simp] theorem lookup?_unbound : ns.unbound.lookup? = ns.lookup? := by
  funext scope text
  simp [lookup?]

@[simp] theorem target_unbound : ns.unbound.target = ns.target := by
  funext scope subject role symbol
  simp [target]

@[simp] theorem targets_unbound : ns.unbound.targets = ns.targets := by
  funext scope subject refs
  induction refs with
  | nil => rfl
  | cons r refs ih => simp [targets, ih]

variable {ns} {ns' : Namespace}

/-- What does not read links is the same in namespaces that differ in links only. -/
theorem eq_of_unbound {α : Type} {f : Namespace → α} (hf : ∀ ns, f ns.unbound = f ns)
    (h : ns'.unbound = ns.unbound) : f ns' = f ns := by
  rw [← hf ns', h, hf ns]

theorem unbound_setLinks (id : ObjectId) (links : List (Role × ObjectId)) :
    (ns.setLinks id links).unbound = ns.unbound := by
  apply Namespace.ext
  apply Array.ext
  · simp [unbound, setLinks, update]
  · intro i h₁ h₂
    simp only [unbound, setLinks, update, Array.getElem_map, Array.getElem_modify]
    by_cases he : id.index = i
    · rw [if_pos he]
      simp [Object.unbound]
    · rw [if_neg he]

theorem unbound_bindIn {scope id : ObjectId} (h : ns.bindIn scope id = .ok ns') :
    ns'.unbound = ns.unbound := by
  simp only [bindIn] at h
  split at h
  · cases h
    rfl
  · split at h
    · cases h
      exact unbound_setLinks _ _
    · cases h

theorem unbound_bindEach (ns : Namespace) (pending : List (ObjectId × ObjectId)) :
    (ns.bindEach pending).2.unbound = ns.unbound := by
  induction pending generalizing ns with
  | nil => rfl
  | cons p rest ih =>
    obtain ⟨id, scope⟩ := p
    cases h : ns.bindIn scope id with
    | error c => simp [bindEach, h]
    | ok bound =>
      rw [bindEach, h]
      exact (ih bound).trans (unbound_bindIn h)

theorem unbound_of_bindEach {result : Except Complaint Unit}
    {pending : List (ObjectId × ObjectId)} (h : ns.bindEach pending = (result, ns')) :
    ns'.unbound = ns.unbound := by
  have hu := unbound_bindEach ns pending
  rwa [h] at hu

theorem Grounded.of_unbound (g : ns.Grounded) (h : ns'.unbound = ns.unbound) : ns'.Grounded :=
  g.congr (eq_of_unbound parent?_unbound h) (eq_of_unbound children_unbound h)
    (eq_of_unbound contains_unbound h)

theorem WellFormed.of_unbound (w : ns.WellFormed) (h : ns'.unbound = ns.unbound) :
    ns'.WellFormed :=
  w.congr (eq_of_unbound parent?_unbound h) (eq_of_unbound children_unbound h)
    (by rw [eq_of_unbound kind?_unbound h]; exact fun hk => hk)

end Acpi.Namespace
