import Acpi.Namespace.Tree
import Acpi.Proofs.Object.Fresh

namespace Acpi.Namespace

variable {ns : Namespace} {id : ObjectId} {o : Object} {f : Object → Object}

theorem get?_eq_none (h : ns.size ≤ id.index) : ns.get? id = none := by
  simpa [get?, size] using h

theorem contains_root (ns : Namespace) : ns.contains .root = true := contains_iff.2 ns.size_pos

theorem contains_of_get? (h : ns.get? id = some o) : ns.contains id = true := by
  simp [contains, h]

theorem get?_of_contains (h : ns.contains id = true) : ∃ o, ns.get? id = some o :=
  Option.isSome_iff_exists.1 h

theorem parent?_of_get? (h : ns.get? id = some o) : ns.parent? id = o.parent := by
  simp [parent?, h]

theorem children_of_get? (h : ns.get? id = some o) : ns.children id = o.children := by
  simp [children, h]

theorem contains_of_mem_children {c : ObjectId} (h : c ∈ ns.children id) :
    ns.contains id = true := by
  cases ho : ns.get? id with
  | none => simp [children, ho] at h
  | some o => exact contains_of_get? ho

theorem kind?_of_get? (h : ns.get? id = some o) : ns.kind? id = some o.kind := by
  simp [kind?, h]

theorem get?_insert_of_get? {new : Object} (h : ns.get? id = some o) :
    (ns.insert new).get? id = some o := by
  have hlt := contains_iff.1 (contains_of_get? h)
  rw [get?_insert, if_neg (Nat.ne_of_lt hlt), h]

theorem map_get?_insert {α : Type} (g : Object → α) (hid : id.index ≠ ns.size) :
    ((ns.insert o).get? id).map g = (ns.get? id).map g := by
  rw [get?_insert, if_neg hid]

theorem map_get?_update {α : Type} {g : Object → α}
    (h : ∀ o, ns.get? id = some o → g (f o) = g o) (other : ObjectId) :
    ((ns.update id f).get? other).map g = (ns.get? other).map g := by
  rw [get?_update]
  by_cases he : other = id
  · rw [if_pos he, he]
    cases ho : ns.get? id with
    | none => rfl
    | some o => simp [h o ho]
  · rw [if_neg he]

theorem parent?_eq (ns : Namespace) (id : ObjectId) :
    ns.parent? id = ((ns.get? id).map Object.parent).join := by
  cases h : ns.get? id <;> simp [parent?, h]

theorem name?_eq (ns : Namespace) (id : ObjectId) :
    ns.name? id = ((ns.get? id).map Object.name).join := by
  cases h : ns.get? id <;> simp [name?, h]

theorem parent?_insert (h : o.parent = none) : (ns.insert o).parent? = ns.parent? := by
  funext id
  by_cases hid : id.index = ns.size
  · rw [parent?, get?_insert, if_pos hid, parent?, get?_eq_none (Nat.le_of_eq hid.symm)]
    exact h
  · rw [parent?_eq, parent?_eq, map_get?_insert _ hid]

theorem children_insert (h : o.children = []) : (ns.insert o).children = ns.children := by
  funext id
  by_cases hid : id.index = ns.size
  · rw [children, get?_insert, if_pos hid, children, get?_eq_none (Nat.le_of_eq hid.symm)]
    exact h
  · rw [children, children, map_get?_insert _ hid]

theorem parent?_insert_new (hid : id.index = ns.size) : (ns.insert o).parent? id = o.parent := by
  rw [parent?, get?_insert, if_pos hid, Option.bind_some]

theorem parent?_insert_other (hid : id.index ≠ ns.size) :
    (ns.insert o).parent? id = ns.parent? id := by
  rw [parent?_eq, parent?_eq, map_get?_insert _ hid]

theorem children_insert_new (hid : id.index = ns.size) :
    (ns.insert o).children id = o.children := by
  rw [children, get?_insert, if_pos hid, Option.map_some, Option.getD_some]

theorem children_insert_other (hid : id.index ≠ ns.size) :
    (ns.insert o).children id = ns.children id := by
  rw [children, children, map_get?_insert _ hid]

theorem contains_insert (h : ns.contains id = true) : (ns.insert o).contains id = true := by
  have hlt := contains_iff.1 h
  rw [contains_iff, size_insert]
  omega

theorem kind?_insert {k : Kind} (h : ns.kind? id = some k) : (ns.insert o).kind? id = some k := by
  obtain ⟨old, ho, rfl⟩ := Option.map_eq_some_iff.1 h
  rw [kind?, get?_insert_of_get? ho]
  rfl

theorem name?_insert (h : ns.contains id = true) : (ns.insert o).name? id = ns.name? id := by
  have hid : id.index ≠ ns.size := Nat.ne_of_lt (contains_iff.1 h)
  rw [name?_eq, name?_eq, map_get?_insert _ hid]

theorem index_nextId (h : ns.size ≤ ObjectId.last) : ns.nextId.index = ns.size :=
  ObjectId.index_ofIndex h

theorem contains_nextId (h : ns.size ≤ ObjectId.last) : ns.contains ns.nextId = false := by
  rw [← Bool.not_eq_true, contains_iff, index_nextId h]
  exact Nat.lt_irrefl _

theorem parent?_update (h : ∀ o, ns.get? id = some o → (f o).parent = o.parent) :
    (ns.update id f).parent? = ns.parent? := by
  funext other
  rw [parent?_eq, parent?_eq, map_get?_update h]

theorem children_update (h : ∀ o, ns.get? id = some o → (f o).children = o.children) :
    (ns.update id f).children = ns.children := by
  funext other
  rw [children, children, map_get?_update h]

theorem kind?_update (h : ∀ o, ns.get? id = some o → (f o).kind = o.kind) :
    (ns.update id f).kind? = ns.kind? := by
  funext other
  exact map_get?_update h other

theorem name?_update (h : ∀ o, ns.get? id = some o → (f o).name = o.name) :
    (ns.update id f).name? = ns.name? := by
  funext other
  rw [name?_eq, name?_eq, map_get?_update h]

theorem update_congr {g : Object → Object} (ho : ns.get? id = some o) (h : f o = g o) :
    ns.update id f = ns.update id g := by
  obtain ⟨hlt, hget⟩ := Array.getElem?_eq_some_iff.1 ho
  apply Namespace.ext
  apply Array.ext
  · simp [update]
  · intro i _ _
    simp only [update, Array.getElem_modify]
    by_cases hid : id.index = i
    · subst hid
      rw [if_pos rfl, if_pos rfl, hget, h]
    · rw [if_neg hid, if_neg hid]

theorem update_of_get? (ho : ns.get? id = some o) (h : f o = o) : ns.update id f = ns := by
  have hsame : ns.update id (fun o => o) = ns := by
    apply Namespace.ext
    apply Array.ext
    · simp [update]
    · intro i _ _
      simp [update, Array.getElem_modify]
  exact (update_congr ho h).trans hsame

section Keeps

variable {o' : Object}

theorem keeps_of_get? (h : ns.get? id = some o) (hk : o.Keeps o') :
    ∀ old, ns.get? id = some old → old.Keeps o' := by
  intro old hold
  rw [h] at hold
  cases hold
  exact hk

theorem parent?_update_keeps (h : ns.get? id = some o) (hk : o.Keeps o') :
    (ns.update id fun _ => o').parent? = ns.parent? :=
  parent?_update fun old hold => (keeps_of_get? h hk old hold).parent

theorem children_update_keeps (h : ns.get? id = some o) (hk : o.Keeps o') :
    (ns.update id fun _ => o').children = ns.children :=
  children_update fun old hold => (keeps_of_get? h hk old hold).children

theorem kind?_update_keeps (h : ns.get? id = some o) (hk : o.Keeps o') :
    (ns.update id fun _ => o').kind? = ns.kind? :=
  kind?_update fun old hold => (keeps_of_get? h hk old hold).kind

end Keeps

theorem parent?_update_other {other : ObjectId} (h : other ≠ id) :
    (ns.update id f).parent? other = ns.parent? other := by
  rw [parent?, get?_update, if_neg h, parent?]

theorem children_update_other {other : ObjectId} (h : other ≠ id) :
    (ns.update id f).children other = ns.children other := by
  rw [children, get?_update, if_neg h, children]

theorem get?_update_self (h : ns.get? id = some o) : (ns.update id f).get? id = some (f o) := by
  rw [get?_update, if_pos rfl, h]
  rfl

variable {p c : ObjectId}

theorem kind?_withParent (p : Option ObjectId) :
    (ns.update c (·.withParent p)).kind? = ns.kind? := kind?_update fun _ _ => rfl

theorem children_withParent (p : Option ObjectId) :
    (ns.update c (·.withParent p)).children = ns.children := children_update fun _ _ => rfl

theorem name?_withParent (p : Option ObjectId) :
    (ns.update c (·.withParent p)).name? = ns.name? := name?_update fun _ _ => rfl

theorem kind?_addChild : (ns.update p (·.addChild c)).kind? = ns.kind? :=
  kind?_update fun _ _ => rfl

theorem parent?_addChild : (ns.update p (·.addChild c)).parent? = ns.parent? :=
  parent?_update fun _ _ => rfl

theorem name?_addChild : (ns.update p (·.addChild c)).name? = ns.name? :=
  name?_update fun _ _ => rfl

theorem kind?_dropChild : (ns.update p (·.dropChild c)).kind? = ns.kind? :=
  kind?_update fun _ _ => rfl

theorem parent?_dropChild : (ns.update p (·.dropChild c)).parent? = ns.parent? :=
  parent?_update fun _ _ => rfl

theorem parent?_withParent (hc : ns.contains c = true) (p : Option ObjectId) (id : ObjectId) :
    (ns.update c (·.withParent p)).parent? id = if id = c then p else ns.parent? id := by
  by_cases he : id = c
  · obtain ⟨o, ho⟩ := get?_of_contains hc
    rw [if_pos he, he, parent?_of_get? (get?_update_self ho)]
    rfl
  · rw [if_neg he, parent?_update_other he]

theorem children_addChild (hp : ns.contains p = true) (id : ObjectId) :
    (ns.update p (·.addChild c)).children id =
      if id = p then ns.children p ++ [c] else ns.children id := by
  by_cases he : id = p
  · obtain ⟨o, ho⟩ := get?_of_contains hp
    rw [if_pos he, he, children_of_get? (get?_update_self ho), children_of_get? ho]
    rfl
  · rw [if_neg he, children_update_other he]

theorem children_dropChild (hp : ns.contains p = true) (id : ObjectId) :
    (ns.update p (·.dropChild c)).children id =
      if id = p then (ns.children p).erase c else ns.children id := by
  by_cases he : id = p
  · obtain ⟨o, ho⟩ := get?_of_contains hp
    rw [if_pos he, he, children_of_get? (get?_update_self ho), children_of_get? ho]
    rfl
  · rw [if_neg he, children_update_other he]

theorem kind?_link (ns : Namespace) (p c : ObjectId) : (ns.link p c).kind? = ns.kind? := by
  rw [link, kind?_addChild, kind?_withParent]

theorem kind?_unlink (ns : Namespace) (p c : ObjectId) : (ns.unlink p c).kind? = ns.kind? := by
  rw [unlink, kind?_withParent, kind?_dropChild]

theorem name?_link (ns : Namespace) (p c : ObjectId) : (ns.link p c).name? = ns.name? := by
  rw [link, name?_addChild, name?_withParent]

theorem contains_update {other : ObjectId} :
    (ns.update id f).contains other = ns.contains other := by
  rw [Bool.eq_iff_iff, contains_iff, contains_iff, size_update]

theorem size_link (ns : Namespace) (p c : ObjectId) : (ns.link p c).size = ns.size := by
  rw [link, size_update, size_update]

theorem contains_link (ns : Namespace) (p c id : ObjectId) :
    (ns.link p c).contains id = ns.contains id := by
  rw [link, contains_update, contains_update]

theorem contains_unlink (ns : Namespace) (p c id : ObjectId) :
    (ns.unlink p c).contains id = ns.contains id := by
  rw [unlink, contains_update, contains_update]

theorem parent?_link (hc : ns.contains c = true) (id : ObjectId) :
    (ns.link p c).parent? id = if id = c then some p else ns.parent? id := by
  rw [link, parent?_addChild, parent?_withParent hc]

theorem parent?_unlink (hc : ns.contains c = true) (id : ObjectId) :
    (ns.unlink p c).parent? id = if id = c then none else ns.parent? id := by
  rw [unlink, parent?_withParent (contains_update.trans hc), parent?_dropChild]

theorem children_link (hp : ns.contains p = true) (id : ObjectId) :
    (ns.link p c).children id = if id = p then ns.children p ++ [c] else ns.children id := by
  rw [link, children_addChild (contains_update.trans hp), children_withParent]

theorem children_unlink (hp : ns.contains p = true) (id : ObjectId) :
    (ns.unlink p c).children id =
      if id = p then (ns.children p).erase c else ns.children id := by
  rw [unlink, children_withParent, children_dropChild hp]

theorem eq_of_slots {ns ns' : Namespace} (h : ∀ i : Nat, ns'.objects[i]? = ns.objects[i]?) :
    ns' = ns :=
  Namespace.ext (Array.ext_getElem? h)

theorem slots_update (ns : Namespace) (id : ObjectId) (f : Object → Object) (i : Nat) :
    (ns.update id f).objects[i]? =
      (ns.objects[i]?).map fun o => if i = id.index then f o else o := by
  rw [update, Array.getElem?_modify]
  by_cases hi : id.index = i
  · simp [hi]
  · simp [hi, Ne.symm hi]

theorem slots_link (ns : Namespace) (p c : ObjectId) (i : Nat) :
    (ns.link p c).objects[i]? = (ns.objects[i]?).map fun o =>
      { o with
        parent := if i = c.index then some p else o.parent
        children := if i = p.index then o.children ++ [c] else o.children } := by
  rw [link, slots_update, slots_update, Option.map_map]
  congr 1
  funext o
  by_cases hp : i = p.index
  · simp only [Function.comp_apply, if_pos hp]
    split <;> rfl
  · simp only [Function.comp_apply, if_neg hp]
    split <;> rfl

theorem slots_unlink (ns : Namespace) (p c : ObjectId) (i : Nat) :
    (ns.unlink p c).objects[i]? = (ns.objects[i]?).map fun o =>
      { o with
        parent := if i = c.index then none else o.parent
        children := if i = p.index then o.children.erase c else o.children } := by
  rw [unlink, slots_update, slots_update, Option.map_map]
  congr 1
  funext o
  by_cases hp : i = p.index
  · simp only [Function.comp_apply, if_pos hp]
    split <;> rfl
  · simp only [Function.comp_apply, if_neg hp]
    split <;> rfl

theorem attach_eq_ok {ns' : Namespace} :
    ns.attach p c = .ok ns' ↔ ns.obstacle? p c = none ∧ ns.link p c = ns' := by
  cases h : ns.obstacle? p c <;> simp [attach, h]

end Acpi.Namespace
