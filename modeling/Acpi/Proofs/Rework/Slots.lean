import Acpi.Proofs.Raw.Binding
import Acpi.Proofs.Raw.Pending
import Acpi.Proofs.Rework

namespace Acpi.Namespace

open Relation

variable {ns : Namespace}

/-- Whatever is done, parents and children are in the arena, and no run of an operation breaks off
for something that is not there, whatever it is asked: it comes to what the operation comes to,
unless its steps are too few. Nor does the collection of what is pending break off at any step. -/
theorem slots_found_of_reworked (h : ns.Reworked) :
    ((∀ id p, ns.parent? id = some p → ns.contains p = true) ∧
      ∀ p c, c ∈ ns.children p → ns.contains c = true) ∧
    ((∀ steps p c, Yields ns.size steps (ns.attachRaw steps p c)
        ((ns.attach p c).map fun attached => (attached, attached.pathTo c, attached.pathTo p))) ∧
      ∀ p c, ns.detachRaw p c = .ok (ns.detach? p c)) ∧
    ((∀ scope name, ns.childRaw scope name = .ok (ns.child? scope name)) ∧
      (∀ steps scope text,
        Yields ns.size steps (ns.lookupRaw steps scope text) (ns.lookup? scope text)) ∧
      (∀ steps scope text,
        Yields ns.size steps (ns.placeRaw steps scope text) (ns.place? scope text)) ∧
      (∀ steps id, Yields ns.size steps (ns.pathRaw steps id) (ns.pathTo id)) ∧
      ∀ steps id, Yields ns.size steps (ns.scopeRaw steps id) (ns.scopeOf id)) ∧
    ((∀ steps id, Yields ns.size steps (ns.bindRaw steps id) (ns.bind id)) ∧
      ∀ steps pending,
        Yields ns.size steps (ns.bindEachRaw steps pending) (ns.bindEach pending)) ∧
    (∀ c, ReflTransGen (Collecting.Step ns) ns.collecting c → ∃ r, c.next? ns = .ok r) ∧
    ∀ pending, ns.pending? = some pending → ∃ c,
      ReflTransGen (Collecting.Step ns) ns.collecting c ∧ c.next? ns = .ok none ∧
        c.found = pending := by
  have g := h.grounded
  have k := g.climbs
  have hlinks : (∀ id p, ns.parent? id = some p → ns.contains p = true) ∧
      ∀ p c, c ∈ ns.children p → ns.contains c = true :=
    ⟨fun _ _ => k.contains_parent, fun _ _ => g.contains_child⟩
  have hsteps : ∀ c, ReflTransGen (Collecting.Step ns) ns.collecting c →
      ∃ r, c.next? ns = .ok r := by
    intro c hc
    have hsound := (Collecting.sound_collecting ns).steps g hc
    obtain ⟨r, hr, -⟩ := hsound.next? g
    exact ⟨r, hr⟩
  refine ⟨hlinks, ⟨g.yields_attachRaw, g.detachRaw_eq⟩, ⟨g.childRaw_eq, g.yields_lookupRaw,
    g.yields_placeRaw, k.yields_pathRaw, ns.yields_scopeRaw⟩,
    ⟨g.yields_bindRaw, g.yields_bindEachRaw⟩, hsteps, fun pending hpending => ?_⟩
  exact Collecting.exists_steps_of_pending? g hpending

/-- A call holds an unknown term, and one that was copied and then written over. The scope that lists
the call was copied too, and the call taken off the copy, so it is listed but has no parent. -/
def unknownTerms : List Rework :=
  let table : TableId := ⟨1⟩
  let scope := ObjectId.ofIndex 1
  let call := ObjectId.ofIndex 2
  let term := ObjectId.ofIndex 3
  [.act (.declare .root (.scope table (.ofFour 0x41 0x41 0x41 0x41))),
   .act (.declare scope (.invocation table "MMMM")), .act (.insert (.reference table "AAAA")),
   .act (.offer call 0 (.term (.ofIndex 99))), .act (.offer call 1 (.term term)), .copy term,
   .replace term (.method table (.ofFour 0x4D 0x4D 0x4D 0x4D)), .copy scope,
   .act (.detach (.ofIndex 5) call), .act (.attach scope term), .act (.bind call),
   .act (.bind (.ofIndex 99)), .act (.attach .root (.ofIndex 4))]

theorem allowed_unknownTerms : ∀ r ∈ unknownTerms, r.Allowed := by
  simp [unknownTerms, Rework.Allowed, Action.Allowed]

theorem slots_found_of_unknownTerms :
    ∃ ns, unknownTerms.foldlM rework? initial = some ns ∧ ns.Reworked ∧
      ns.contains (.ofIndex 99) = false ∧
      ns.terms (.ofIndex 2) = [.ofIndex 99, .ofIndex 3] ∧
      .ofIndex 2 ∈ ns.children (.ofIndex 1) ∧ ns.parent? (.ofIndex 2) = none ∧
      ns.lookupRaw ns.size (.ofIndex 99) "^MMMM" = .ok none ∧
      ns.detachRaw (.ofIndex 99) (.ofIndex 2) = .ok none ∧
      (∀ steps, ns.bindRaw steps (.ofIndex 2) ≠ .error .outOfRange) ∧
      ∃ c, ReflTransGen (Collecting.Step ns) ns.collecting c ∧ c.next? ns = .ok none ∧
        c.found = [(.ofIndex 2, .ofIndex 2), (.ofIndex 4, .root)] := by
  have hc : ∃ ns ∈ unknownTerms.foldlM rework? initial,
      ns.contains (.ofIndex 99) = false ∧ ns.terms (.ofIndex 2) = [.ofIndex 99, .ofIndex 3] ∧
      .ofIndex 2 ∈ ns.children (.ofIndex 1) ∧ ns.parent? (.ofIndex 2) = none ∧
      ns.lookup? (.ofIndex 99) "^MMMM" = none ∧
      .ofIndex 2 ∉ ns.children (.ofIndex 99) ∧
      ns.pending? = some [(.ofIndex 2, .ofIndex 2), (.ofIndex 4, .root)] := by decide +kernel
  obtain ⟨ns, hrun, hunknown, hterms, hlisted, hparent, hnone, hchild, hpending⟩ := hc
  have h : ns.Reworked := ⟨unknownTerms, allowed_unknownTerms, hrun⟩
  obtain ⟨-, ⟨-, hdetach⟩, ⟨-, hlookup, -⟩, ⟨hbind, -⟩, -, hcollect⟩ := slots_found_of_reworked h
  have hfound := (hlookup ns.size (.ofIndex 99) "^MMMM").eq_ok (Nat.le_refl _)
  refine ⟨ns, hrun, h, hunknown, hterms, hlisted, hparent, ?_, ?_, ?_, hcollect _ hpending⟩
  · rw [hfound, hnone]
  · rw [hdetach, detach?, if_neg hchild]
  · intro steps
    exact (hbind steps (.ofIndex 2)).ne_outOfRange

end Acpi.Namespace
