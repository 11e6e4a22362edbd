import Acpi.Proofs.Raw.Lookup
import Acpi.Proofs.Raw.Tree
import Acpi.Proofs.Rework

namespace Acpi.Namespace

open Relation

variable {ns ns' : Namespace} {r : Rework}

/-- Ways up end, and none goes past the root. -/
structure Rooted (ns : Namespace) : Prop where
  grounded : ns.Grounded
  parent_root : ns.parent? .root = none

theorem rooted_initial : initial.Rooted :=
  ⟨wellFormed_initial.grounded, wellFormed_initial.parent_root⟩

namespace Rooted

theorem parent_root_insert (t : ns.Rooted) (o : Object) : (ns.insert o).parent? .root = none := by
  have hne : ObjectId.root.index ≠ ns.size := Nat.ne_of_lt ns.size_pos
  rw [parent?_insert_other hne, t.parent_root]

theorem move (t : ns.Rooted) (h : ns.Move ns') : ns'.Rooted := by
  refine ⟨t.grounded.move h, ?_⟩
  rcases h.reshapes with ⟨o, -, rfl⟩ | ⟨p, c, hob, rfl⟩ | ⟨p, c, hc, rfl⟩ | ⟨hp, -, -⟩
  · exact t.parent_root_insert o
  · obtain ⟨-, hne, hc, -⟩ := obstacle?_eq_none.1 hob
    rw [parent?_link hc, if_neg (Ne.symm hne), t.parent_root]
  · rw [parent?_unlink (t.grounded.contains_child hc), t.parent_root, ite_self]
  · rw [hp, t.parent_root]

theorem rework (t : ns.Rooted) (hr : r.Allowed) (h : ns.rework? r = some ns') : ns'.Rooted := by
  refine ⟨t.grounded.rework hr h, ?_⟩
  rcases rework?_cases hr h with hm | ⟨id, o, -, -, rfl⟩ | ⟨id, o, -, ho, rfl⟩
  · exact (keeps_of_moves Rooted.move hm t).parent_root
  · exact t.parent_root_insert o
  · rw [Option.eq_none_iff_forall_ne_some]
    intro p hp
    have hold : ns.parent? .root = some p := parent?_of_overwritten ho.alone.1 hp
    rw [t.parent_root] at hold
    cases hold

end Rooted

theorem Reworked.rooted (h : ns.Reworked) : ns.Rooted := by
  obtain ⟨rs, hr, hrun⟩ := h
  exact keeps_of_foldlM Rooted.rework hr rooted_initial hrun

/-- Whatever is done, the way up from an object, known or not, meets fewer objects than there are,
each of them once, and the root is the last that it can meet. So attaching, looking names up and
telling paths and scopes all come to an end, after as many steps on a way up as there are objects
at most. -/
theorem ascents_end_of_reworked (h : ns.Reworked) :
    ns.parent? .root = none ∧
    (∀ id, (ns.ancestors id).length < ns.size ∧ (ns.ancestors id).Nodup ∧
      ∀ a ∈ ns.ancestors id, ns.contains a = true) ∧
    ∀ steps, ns.size ≤ steps →
      (∀ id, (ns.ascent id).collect ns steps = .ok (ns.ancestors id)) ∧
      (∀ p c, ns.attachRaw steps p c = .ok ((ns.attach p c).map fun attached =>
        (attached, attached.pathTo c, attached.pathTo p))) ∧
      (∀ scope text, ns.lookupRaw steps scope text = .ok (ns.lookup? scope text)) ∧
      (∀ scope text, ns.placeRaw steps scope text = .ok (ns.place? scope text)) ∧
      (∀ id, ns.pathRaw steps id = .ok (ns.pathTo id)) ∧
      ∀ id, ns.scopeRaw steps id = .ok (ns.scopeOf id) := by
  have t := h.rooted
  have g := t.grounded
  have k := g.climbs
  refine ⟨t.parent_root, fun id => ⟨k.length_ancestors_lt id, ?_, ?_⟩, fun steps hsteps => ?_⟩
  · exact (List.nodup_cons.1 (k.nodup_lineage id)).2
  · intro a ha
    exact k.contains_climb ha
  · refine ⟨fun id => ?_, fun p c => ?_, fun scope text => ?_, fun scope text => ?_, fun id => ?_,
      fun id => ?_⟩
    · exact (k.yields_collect steps id).eq_ok hsteps
    · exact (g.yields_attachRaw steps p c).eq_ok hsteps
    · exact (g.yields_lookupRaw steps scope text).eq_ok hsteps
    · exact (g.yields_placeRaw steps scope text).eq_ok hsteps
    · exact (k.yields_pathRaw steps id).eq_ok hsteps
    · exact (ns.yields_scopeRaw steps id).eq_ok hsteps

/-- The copy of a scope gives up a child, which then has no parent though the scope still lists it,
and takes it back, so that it is listed twice. The root is written over in between, and two calls
hold each other. -/
def partedScopes : List Rework :=
  let table : TableId := ⟨1⟩
  let outer := ObjectId.ofIndex 1
  let inner := ObjectId.ofIndex 2
  let copied := ObjectId.ofIndex 3
  [.act (.declare .root (.scope table (.ofFour 0x41 0x41 0x41 0x41))),
   .act (.declare outer (.scope table (.ofFour 0x42 0x42 0x42 0x42))), .copy outer,
   .act (.detach copied inner), .replace .root (.method table (.ofFour 0x4D 0x4D 0x4D 0x4D)),
   .act (.attach copied inner), .act (.insert (.device table (.ofFour 0x44 0x45 0x56 0x30))),
   .act (.insert (.invocation table "NONE")), .act (.insert (.invocation table "NONE")),
   .act (.offer (.ofIndex 5) 0 (.term (.ofIndex 6))),
   .act (.offer (.ofIndex 6) 0 (.term (.ofIndex 5)))]

theorem allowed_partedScopes : ∀ r ∈ partedScopes, r.Allowed := by
  simp [partedScopes, Rework.Allowed, Action.Allowed]

theorem ascents_end_of_partedScopes :
    ∃ ns, partedScopes.foldlM rework? initial = some ns ∧ ns.Reworked ∧ ns.size = 7 ∧
      .ofIndex 2 ∈ ns.children (.ofIndex 1) ∧ ns.parent? (.ofIndex 2) = some (.ofIndex 3) ∧
      (ns.ascent (.ofIndex 2)).collect ns 7 = .ok [.ofIndex 3, .root] ∧
      ns.lookupRaw 7 (.ofIndex 2) "NONE" = .ok none ∧
      ns.scopeRaw 7 (.ofIndex 5) = .ok .root ∧
      ∃ attached, ns.attach (.ofIndex 2) (.ofIndex 4) = .ok attached ∧
        ns.attachRaw 7 (.ofIndex 2) (.ofIndex 4) =
          .ok (.ok (attached, attached.pathTo (.ofIndex 4), attached.pathTo (.ofIndex 2))) := by
  have hc : ∃ ns ∈ partedScopes.foldlM rework? initial, ns.size = 7 ∧
      .ofIndex 2 ∈ ns.children (.ofIndex 1) ∧ ns.parent? (.ofIndex 2) = some (.ofIndex 3) ∧
      ns.ancestors (.ofIndex 2) = [.ofIndex 3, .root] ∧
      ns.lookup? (.ofIndex 2) "NONE" = none ∧ ns.scopeOf (.ofIndex 5) = .root ∧
      ns.obstacle? (.ofIndex 2) (.ofIndex 4) = none := by decide +kernel
  obtain ⟨ns, hrun, hsize, hlisted, hparent, hline, hnone, hscope, hobs⟩ := hc
  have h : ns.Reworked := ⟨partedScopes, allowed_partedScopes, hrun⟩
  obtain ⟨-, -, hend⟩ := ascents_end_of_reworked h
  obtain ⟨hcollect, hattach, hlookup, -, -, hof⟩ := hend 7 (Nat.le_of_eq hsize)
  have hok : ns.attach (.ofIndex 2) (.ofIndex 4) = .ok _ := attach_eq_ok.2 ⟨hobs, rfl⟩
  refine ⟨ns, hrun, h, hsize, hlisted, hparent, ?_, ?_, ?_, _, hok, ?_⟩
  · rw [hcollect, hline]
  · rw [hlookup, hnone]
  · rw [hof, hscope]
  · rw [hattach, hok]
    rfl

end Acpi.Namespace
