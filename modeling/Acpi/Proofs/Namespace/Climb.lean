import Mathlib.Data.List.Perm.Subperm
import Mathlib.Logic.Relation
import Mathlib.Tactic.SplitIfs
import Acpi.Proofs.Namespace.Edit

namespace Acpi.Namespace

open Relation

variable {ns ns' : Namespace} {id a p q c d found : ObjectId} {o : Object}

/-- One step up, from an object to its parent. -/
def Up (ns : Namespace) (id p : ObjectId) : Prop := ns.parent? id = some p

/-- Parents are in the arena, and no way up comes back to its start. -/
structure Climbs (ns : Namespace) : Prop where
  contains_parent : ∀ {id p}, ns.parent? id = some p → ns.contains p = true
  acyclic : ∀ id, ¬TransGen ns.Up id id

theorem contains_of_kind? {k : Kind} (h : ns.kind? id = some k) : ns.contains id = true := by
  obtain ⟨o, ho, -⟩ := Option.map_eq_some_iff.1 h
  exact contains_of_get? ho

theorem contains_of_parent? (h : ns.parent? id = some p) : ns.contains id = true := by
  obtain ⟨o, ho, -⟩ := Option.bind_eq_some_iff.1 h
  exact contains_of_get? ho

theorem length_le_size {ids : List ObjectId} (hn : ids.Nodup)
    (h : ∀ id ∈ ids, ns.contains id = true) : ids.length ≤ ns.size := by
  have hsub : ids ⊆ ns.ids := fun id hid => mem_ids.2 (h id hid)
  have hle := (List.subperm_of_subset hn hsub).length_le
  have hlen : ns.ids.length = min ns.size (ObjectId.last + 1) := by simp [Namespace.ids]
  omega

theorem climb_of_parent? {steps : Nat} (h : ns.parent? id = some p) :
    ns.climb (steps + 1) id = p :: ns.climb steps p := by
  simp [climb, h]

theorem ancestors_of_top (h : ns.parent? id = none) : ns.ancestors id = [] := by
  simp [ancestors, climb, h]

theorem transGen_of_mem_climb {steps : Nat} (h : a ∈ ns.climb steps id) :
    TransGen ns.Up id a := by
  induction steps generalizing id with
  | zero => cases h
  | succ steps ih =>
    cases hp : ns.parent? id with
    | none => simp [climb, hp] at h
    | some p =>
      rw [climb_of_parent? hp] at h
      rcases List.mem_cons.1 h with rfl | h
      · exact .single hp
      · exact .head hp (ih h)

/-- A climb that did not use all its steps left nothing out. -/
theorem mem_climb_of_transGen {steps : Nat} (h : TransGen ns.Up id a)
    (hl : (ns.climb steps id).length < steps) : a ∈ ns.climb steps id := by
  induction steps generalizing id with
  | zero => cases hl
  | succ steps ih =>
    obtain ⟨p, hp, ha⟩ := TransGen.head'_iff.1 h
    rw [climb_of_parent? hp] at hl ⊢
    rcases reflTransGen_iff_eq_or_transGen.1 ha with rfl | ha
    · exact List.mem_cons_self
    · exact List.mem_cons_of_mem _ (ih ha (by simpa using hl))

theorem climb_succ {steps : Nat} (hl : (ns.climb steps id).length < steps) :
    ns.climb (steps + 1) id = ns.climb steps id := by
  induction steps generalizing id with
  | zero => cases hl
  | succ steps ih =>
    cases hp : ns.parent? id with
    | none => simp [climb, hp]
    | some p =>
      rw [climb_of_parent? hp] at hl
      rw [climb_of_parent? hp, climb_of_parent? hp, ih (by simpa using hl)]

namespace Climbs

theorem nodup_climb (k : ns.Climbs) (steps : Nat) (id : ObjectId) :
    (id :: ns.climb steps id).Nodup := by
  induction steps generalizing id with
  | zero => simp [climb]
  | succ steps ih =>
    refine List.nodup_cons.2 ⟨fun h => k.acyclic id (transGen_of_mem_climb h), ?_⟩
    cases hp : ns.parent? id with
    | none => simp [climb, hp]
    | some p =>
      rw [climb_of_parent? hp]
      exact ih p

theorem contains_climb (k : ns.Climbs) {steps : Nat} (h : a ∈ ns.climb steps id) :
    ns.contains a = true := by
  obtain ⟨b, -, hb⟩ := TransGen.tail'_iff.1 (transGen_of_mem_climb h)
  exact k.contains_parent hb

theorem length_climb_lt (k : ns.Climbs) (hid : ns.contains id = true) (steps : Nat) :
    (ns.climb steps id).length < ns.size := by
  refine length_le_size (k.nodup_climb steps id) ?_
  intro x hx
  rcases List.mem_cons.1 hx with rfl | hx
  · exact hid
  · exact k.contains_climb hx

theorem mem_ancestors_iff (k : ns.Climbs) : a ∈ ns.ancestors id ↔ TransGen ns.Up id a := by
  refine ⟨transGen_of_mem_climb, fun h => ?_⟩
  obtain ⟨p, hp, -⟩ := TransGen.head'_iff.1 h
  have hl := k.length_climb_lt (contains_of_parent? hp) (ns.size + 1)
  exact mem_climb_of_transGen h (by omega)

theorem mem_lineage_iff (k : ns.Climbs) : a ∈ ns.lineage id ↔ ReflTransGen ns.Up id a := by
  rw [lineage, List.mem_cons, k.mem_ancestors_iff, reflTransGen_iff_eq_or_transGen]

theorem nodup_lineage (k : ns.Climbs) (id : ObjectId) : (ns.lineage id).Nodup :=
  k.nodup_climb _ id

theorem ancestors_of_parent? (k : ns.Climbs) (h : ns.parent? id = some p) :
    ns.ancestors id = ns.lineage p := by
  have hl := k.length_climb_lt (k.contains_parent h) ns.size
  rw [ancestors, climb_of_parent? h, lineage, ancestors, climb_succ hl]

/-- The root is in the arena too, so there is room for a way up from nowhere. -/
theorem length_ancestors_lt (k : ns.Climbs) (id : ObjectId) :
    (ns.ancestors id).length < ns.size := by
  cases hp : ns.parent? id with
  | none =>
    rw [ancestors_of_top hp]
    exact ns.size_pos
  | some p => exact k.length_climb_lt (contains_of_parent? hp) (ns.size + 1)

theorem contains_of_mem_lineage (k : ns.Climbs) (hid : ns.contains id = true)
    (h : found ∈ ns.lineage id) : ns.contains found = true := by
  rcases List.mem_cons.1 h with rfl | h
  · exact hid
  · exact k.contains_climb h

end Climbs

theorem parent?_initial (id : ObjectId) : initial.parent? id = none := by
  cases h : initial.get? id with
  | none => simp [parent?, h]
  | some o =>
    have hid := contains_iff.1 (contains_of_get? h)
    have he : id = .root := ObjectId.ext (Nat.lt_one_iff.1 hid)
    subst he
    rfl

theorem children_initial (id : ObjectId) : initial.children id = [] := by
  cases h : initial.get? id with
  | none => simp [children, h]
  | some o =>
    have hid := contains_iff.1 (contains_of_get? h)
    have he : id = .root := ObjectId.ext (Nat.lt_one_iff.1 hid)
    subst he
    rfl

theorem climbs_initial : initial.Climbs where
  contains_parent h := by simp [parent?_initial] at h
  acyclic id h := by
    obtain ⟨p, hp, -⟩ := TransGen.head'_iff.1 h
    simp [Up, parent?_initial] at hp

/-- A way along old edges and one new edge goes along old edges only, or first to the start of the
new edge and at last from its end. -/
theorem transGen_add_edge {r r' : ObjectId → ObjectId → Prop} {x y : ObjectId}
    (hr : ∀ u v, r' u v → r u v ∨ u = c ∧ v = p) (h : TransGen r' x y) :
    TransGen r x y ∨ ReflTransGen r x c ∧ ReflTransGen r p y := by
  induction h with
  | single h =>
    rcases hr _ _ h with h | ⟨rfl, rfl⟩
    · exact .inl (.single h)
    · exact .inr ⟨.refl, .refl⟩
  | tail _ h ih =>
    rcases hr _ _ h with h | ⟨rfl, rfl⟩
    · rcases ih with ih | ⟨hx, hy⟩
      · exact .inl (ih.tail h)
      · exact .inr ⟨hx, hy.tail h⟩
    · rcases ih with ih | ⟨hx, -⟩
      · exact .inr ⟨ih.to_reflTransGen, .refl⟩
      · exact .inr ⟨hx, .refl⟩

theorem up_of_up_unlink (hc : ns.contains c = true) (h : (ns.unlink p c).Up d q) : ns.Up d q := by
  rw [Up, parent?_unlink hc] at h
  by_cases he : d = c
  · simp [he] at h
  · rwa [if_neg he] at h

theorem parent?_of_overwritten (ho : o.parent = none)
    (h : (ns.update id fun _ => o).parent? d = some q) : ns.parent? d = some q := by
  have hne : d ≠ id := by
    intro he
    obtain ⟨old, hold⟩ := get?_of_contains (contains_update.symm.trans (contains_of_parent? h))
    rw [he] at hold h
    rw [parent?_of_get? (get?_update_self hold), ho] at h
    cases h
  rwa [parent?_update_other hne] at h

namespace Climbs

theorem of_parent? (k : ns.Climbs)
    (hup : ∀ {id p}, ns'.parent? id = some p → ns.parent? id = some p)
    (hc : ∀ {id}, ns.contains id = true → ns'.contains id = true) : ns'.Climbs where
  contains_parent h := hc (k.contains_parent (hup h))
  acyclic id h := k.acyclic id (TransGen.mono (fun _ _ => hup) id id h)

theorem congr (k : ns.Climbs) (hp : ns'.parent? = ns.parent?) (hc : ns'.contains = ns.contains) :
    ns'.Climbs := by
  refine k.of_parent? (fun h => ?_) fun h => ?_
  · rwa [hp] at h
  · rwa [hc]

/-- A cycle past the new object would come back to it, but what is a parent was there before. -/
theorem insert (k : ns.Climbs) (ho : ∀ p, o.parent = some p → ns.contains p = true) :
    (ns.insert o).Climbs := by
  have hin : ∀ {u v}, (ns.insert o).Up u v → ns.contains v = true := by
    intro u v huv
    by_cases hu : u.index = ns.size
    · rw [Up, parent?_insert_new hu] at huv
      exact ho v huv
    · rw [Up, parent?_insert_other hu] at huv
      exact k.contains_parent huv
  have hold : ∀ {u v}, ns.contains u = true → (ns.insert o).Up u v → ns.Up u v := by
    intro u v hu huv
    rwa [Up, parent?_insert_other (Nat.ne_of_lt (contains_iff.1 hu))] at huv
  have hway : ∀ {u v}, ns.contains u = true → TransGen (ns.insert o).Up u v →
      TransGen ns.Up u v := by
    intro u v hu huv
    induction huv with
    | single h => exact .single (hold hu h)
    | tail huw h ih =>
      obtain ⟨x, -, hx⟩ := TransGen.tail'_iff.1 huw
      exact ih.tail (hold (hin hx) h)
  refine ⟨fun h => contains_insert (hin h), fun id hid => ?_⟩
  obtain ⟨x, -, hx⟩ := TransGen.tail'_iff.1 hid
  exact k.acyclic id (hway (hin hx) hid)

/-- A new cycle would pass the new edge, and so come from `p` to `c` along old ones. -/
theorem link (k : ns.Climbs) (hp : ns.contains p = true) (hc : ns.contains c = true)
    (hline : c ∉ ns.lineage p) : (ns.link p c).Climbs := by
  have hedge : ∀ u v, (ns.link p c).Up u v → ns.Up u v ∨ u = c ∧ v = p := by
    intro u v huv
    rw [Up, parent?_link hc] at huv
    by_cases he : u = c
    · rw [if_pos he, Option.some.injEq] at huv
      exact .inr ⟨he, huv.symm⟩
    · rw [if_neg he] at huv
      exact .inl huv
  refine ⟨fun {u v} huv => ?_, fun id hid => ?_⟩
  · rw [contains_link]
    rcases hedge u v huv with huv | ⟨-, rfl⟩
    · exact k.contains_parent huv
    · exact hp
  · rcases transGen_add_edge hedge hid with hid | ⟨hidc, hpid⟩
    · exact k.acyclic id hid
    · exact hline (k.mem_lineage_iff.2 (hpid.trans hidc))

theorem unlink (k : ns.Climbs) (hc : ns.contains c = true) : (ns.unlink p c).Climbs := by
  refine k.of_parent? ?_ fun h => ?_
  · intro d q hd
    exact up_of_up_unlink hc hd
  · rwa [contains_unlink]

theorem replace (k : ns.Climbs) (ho : o.parent = none) : (ns.update id fun _ => o).Climbs := by
  refine k.of_parent? ?_ fun h => ?_
  · intro d q hd
    exact parent?_of_overwritten ho hd
  · rwa [contains_update]

end Climbs

end Acpi.Namespace
