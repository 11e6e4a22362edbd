import Acpi.Proofs.Namespace.Obstacle

namespace Acpi.Namespace

open Relation

variable {ns ns' : Namespace} {p c : ObjectId} {o : Object} {i : Nat}

theorem parent_of_slot (ho : ns.objects[i]? = some o) (q : Option ObjectId) :
    (if i = c.index then ns.parent? c else if i = c.index then q else o.parent) = o.parent := by
  by_cases hi : i = c.index
  · subst hi
    have hget : ns.get? c = some o := ho
    rw [if_pos rfl, parent?_of_get? hget]
  · rw [if_neg hi, if_neg hi]

theorem detach?_eq_some : ns.detach? p c = some ns' ↔ c ∈ ns.children p ∧ ns.unlink p c = ns' := by
  rw [detach?]
  by_cases hc : c ∈ ns.children p
  · simp [hc]
  · simp [hc]

namespace WellFormed

theorem parent_not_mem_preorder (w : ns.WellFormed) (hup : ns.parent? c = some p) :
    p ∉ w.preorder c := by
  intro hbelow
  have hway : ReflTransGen ns.Up p c := w.climbs.mem_lineage_iff.1 (w.mem_preorder_iff.1 hbelow)
  exact w.acyclic p (TransGen.tail' hway hup)

theorem subtree?_unlink (w : ns.WellFormed) (hup : ns.parent? c = some p) :
    (ns.unlink p c).subtree? c = ns.subtree? c := by
  have w' : (ns.unlink p c).WellFormed := w.unlink (w.mem_children_iff.2 hup)
  have hkept : w'.preorder c = w.preorder c := by
    apply w.preorder_congr w'
    intro x hx
    have hne : x ≠ p := by
      intro he
      exact w.parent_not_mem_preorder hup (he ▸ hx)
    rw [children_unlink (w.contains_parent hup), if_neg hne]
  rw [w'.subtree?_eq, w.subtree?_eq, contains_unlink, hkept]

theorem exists_children_unlink (w : ns.WellFormed) (hup : ns.parent? c = some p) :
    ∃ before after, ns.children p = before ++ c :: after ∧
      (ns.unlink p c).children p = before ++ after ∧ c ∉ before ∧ c ∉ after := by
  obtain ⟨before, after, hbefore, hlist, herase⟩ :=
    List.exists_erase_eq (w.mem_children_iff.2 hup)
  have hnodup := w.nodup_children p
  rw [hlist] at hnodup
  have hafter : c ∉ after := (List.nodup_cons.1 (List.nodup_append.1 hnodup).2.1).1
  refine ⟨before, after, hlist, ?_, hbefore, hafter⟩
  rw [children_unlink (w.contains_parent hup), if_pos rfl, herase]

/-- The child was in no list and had no parent, so both are as they were. -/
theorem unlink_link (w : ns.WellFormed) (h : ns.obstacle? p c = none) :
    (ns.link p c).unlink p c = ns := by
  obtain ⟨-, -, -, hfree, -⟩ := obstacle?_eq_none.1 h
  apply eq_of_slots
  intro i
  rw [slots_unlink, slots_link, Option.map_map]
  cases ho : ns.objects[i]? with
  | none => rfl
  | some o =>
    have hparent := parent_of_slot (c := c) ho (some p)
    rw [hfree] at hparent
    have hchildren : (if i = p.index then
        (if i = p.index then o.children ++ [c] else o.children).erase c
        else if i = p.index then o.children ++ [c] else o.children) = o.children := by
      by_cases hi : i = p.index
      · subst hi
        have hget : ns.get? p = some o := ho
        have hnew : c ∉ o.children := by
          rw [← children_of_get? hget, w.mem_children_iff, hfree]
          simp
        rw [if_pos rfl, if_pos rfl, List.erase_append_right [c] hnew]
        simp
      · rw [if_neg hi, if_neg hi]
    simp only [Option.map_some, Function.comp_apply, hparent, hchildren]

theorem obstacle?_unlink (w : ns.WellFormed) (hup : ns.parent? c = some p) :
    (ns.unlink p c).obstacle? p c = none := by
  have w' : (ns.unlink p c).WellFormed := w.unlink (w.mem_children_iff.2 hup)
  have hc := contains_of_parent? hup
  obtain ⟨k, hk, hcont⟩ := w.container hup
  have hroot : c ≠ .root := by
    intro he
    rw [he, w.parent_root] at hup
    cases hup
  have hnotbelow : c ∉ (ns.unlink p c).lineage p := by
    intro hline
    have hway : ReflTransGen (ns.unlink p c).Up p c := w'.climbs.mem_lineage_iff.1 hline
    have hold : ReflTransGen ns.Up p c :=
      ReflTransGen.mono (fun _ _ => up_of_up_unlink hc) p c hway
    exact w.acyclic p (TransGen.tail' hold hup)
  refine obstacle?_eq_none.2 ⟨⟨k, ?_, hcont⟩, hroot, ?_, ?_, hnotbelow⟩
  · rw [kind?_unlink]
    exact hk
  · rw [contains_unlink]
    exact hc
  · rw [parent?_unlink hc, if_pos rfl]

end WellFormed

theorem slots_link_unlink (hup : ns.parent? c = some p) (i : Nat) :
    ((ns.unlink p c).link p c).objects[i]? = (ns.objects[i]?).map fun o =>
      { o with children := if i = p.index then o.children.erase c ++ [c] else o.children } := by
  rw [slots_link, slots_unlink, Option.map_map]
  cases ho : ns.objects[i]? with
  | none => rfl
  | some o =>
    have hparent := parent_of_slot (c := c) ho none
    rw [hup] at hparent
    have hchildren : (if i = p.index then
        (if i = p.index then o.children.erase c else o.children) ++ [c]
        else if i = p.index then o.children.erase c else o.children) =
        if i = p.index then o.children.erase c ++ [c] else o.children := by
      split <;> rfl
    simp only [Option.map_some, Function.comp_apply, hparent, hchildren]

/-- A child is taken off just where it has the parent. It is then without one, the list has lost it
and keeps its order, all that is below it stays, and nothing else changes; where it has another
parent or none, nothing changes at all. To take off undoes an attachment, and what was taken off can
be put back, which makes it the last child and changes nothing else. -/
theorem detach_of_reachable (h : ns.Reachable) (p c : ObjectId) :
    ((∃ ns', ns.detach? p c = some ns') ↔ ns.parent? c = some p) ∧
    (ns.detach? p c = none → ns.after? (.detach p c) = some ns) ∧
    (∀ ns', ns.detach? p c = some ns' → ns.after? (.detach p c) = some ns' ∧
      (∀ i : Nat, ns'.objects[i]? = (ns.objects[i]?).map fun o =>
        { o with
          parent := if i = c.index then none else o.parent
          children := if i = p.index then o.children.erase c else o.children }) ∧
      (∃ before after, ns.children p = before ++ c :: after ∧
        ns'.children p = before ++ after ∧ c ∉ before ∧ c ∉ after) ∧
      (∃ walk, ns.subtree? c = some walk ∧ ns'.subtree? c = some walk) ∧
      ∃ back, ns'.attach p c = .ok back ∧ ∀ i : Nat, back.objects[i]? =
        (ns.objects[i]?).map fun o =>
          { o with
            children := if i = p.index then o.children.erase c ++ [c] else o.children }) ∧
    ∀ ns', ns.attach p c = .ok ns' → ns'.detach? p c = some ns := by
  have w := h.wellFormed
  refine ⟨?_, ?_, ?_, ?_⟩
  · rw [← w.mem_children_iff]
    simp [detach?_eq_some]
  · intro hnone
    rw [after?, hnone, Option.getD_none]
  · intro ns' hdetach
    have hafter : ns.after? (.detach p c) = some ns' := by
      rw [after?, hdetach, Option.getD_some]
    obtain ⟨hchild, rfl⟩ := detach?_eq_some.1 hdetach
    have hup := w.mem_children_iff.1 hchild
    obtain ⟨walk, hwalk⟩ := w.descends.exists_subtree? c
    have hkept : (ns.unlink p c).subtree? c = some walk := (w.subtree?_unlink hup).trans hwalk
    have hback := attach_eq_ok.2 ⟨w.obstacle?_unlink hup, rfl⟩
    exact ⟨hafter, slots_unlink ns p c, w.exists_children_unlink hup, ⟨walk, hwalk, hkept⟩,
      _, hback, slots_link_unlink hup⟩
  · intro ns' hattach
    obtain ⟨hfree, rfl⟩ := attach_eq_ok.1 hattach
    obtain ⟨-, -, hc, -⟩ := obstacle?_eq_none.1 hfree
    have hup : (ns.link p c).parent? c = some p := by rw [parent?_link hc, if_pos rfl]
    exact detach?_eq_some.2 ⟨(w.link hfree).mem_children_iff.2 hup, w.unlink_link hfree⟩

/-- A scope is taken off the root, where it was the first child, and put back as the last; nothing is
taken off an object that it does not hang from, and a child that is new comes off again. -/
theorem detach_of_rehungScopes :
    ∃ ns taken, initial.run? rehungScopes = some ns ∧ ns.Reachable ∧
      ns.children .root = [.ofIndex 4, .ofIndex 2] ∧
      ns.detach? .root (.ofIndex 4) = some taken ∧ taken.Reachable ∧
      (∃ before after, ns.children .root = before ++ .ofIndex 4 :: after ∧
        taken.children .root = before ++ after ∧ .ofIndex 4 ∉ before ∧ .ofIndex 4 ∉ after) ∧
      (∃ walk, ns.subtree? (.ofIndex 4) = some walk ∧ taken.subtree? (.ofIndex 4) = some walk) ∧
      (∃ back, taken.attach .root (.ofIndex 4) = .ok back) ∧
      ns.parent? (.ofIndex 1) = some (.ofIndex 4) ∧ ns.detach? .root (.ofIndex 1) = none ∧
      ∃ hung, taken.attach (.ofIndex 2) (.ofIndex 4) = .ok hung ∧
        hung.detach? (.ofIndex 2) (.ofIndex 4) = some taken := by
  have hc : ∃ ns ∈ initial.run? rehungScopes, ∃ taken ∈ ns.detach? .root (.ofIndex 4),
      ns.children .root = [.ofIndex 4, .ofIndex 2] ∧
      ns.parent? (.ofIndex 1) = some (.ofIndex 4) ∧
      taken.obstacle? (.ofIndex 2) (.ofIndex 4) = none := by decide +kernel
  obtain ⟨ns, hr, taken, hdetach, hlist, hinner, hfree⟩ := hc
  have h : ns.Reachable := ⟨rehungScopes, allowed_rehungScopes, hr⟩
  obtain ⟨-, -, hmade, -⟩ := detach_of_reachable h .root (.ofIndex 4)
  obtain ⟨hafter, -, hsplit, hwalk, back, hback, -⟩ := hmade taken hdetach
  have hallowed : (Action.detach .root (.ofIndex 4)).Allowed := trivial
  have htaken : taken.Reachable := h.after hallowed hafter
  obtain ⟨hinnerIff, -⟩ := detach_of_reachable h .root (.ofIndex 1)
  have hnot : ns.detach? .root (.ofIndex 1) = none := by
    rw [Option.eq_none_iff_forall_ne_some]
    intro ns' hns'
    have hwrong := hinnerIff.1 ⟨ns', hns'⟩
    rw [hinner] at hwrong
    exact absurd hwrong (by decide)
  obtain ⟨-, -, -, hundo⟩ := detach_of_reachable htaken (.ofIndex 2) (.ofIndex 4)
  have hhung := attach_eq_ok.2 ⟨hfree, rfl⟩
  exact ⟨ns, taken, hr, h, hlist, hdetach, htaken, hsplit, hwalk, ⟨back, hback⟩, hinner, hnot,
    _, hhung, hundo _ hhung⟩

end Acpi.Namespace
