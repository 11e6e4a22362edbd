import Acpi.Proofs.Namespace.Climb

namespace Acpi.Namespace

variable {ns ns' : Namespace} {id p c : ObjectId} {o : Object}

/-- Ways up end, and child lists name objects of the arena. -/
structure Grounded (ns : Namespace) : Prop where
  climbs : ns.Climbs
  contains_child : ∀ {p c}, c ∈ ns.children p → ns.contains c = true

/-- Child lists agree with parent links, which need not all be listed. -/
structure Descends (ns : Namespace) : Prop where
  climbs : ns.Climbs
  parent?_of_mem : ∀ {p c}, c ∈ ns.children p → ns.parent? c = some p
  nodup_children : ∀ p, (ns.children p).Nodup

/-- What an attachment without obstacle finds. -/
theorem obstacle?_eq_none :
    ns.obstacle? p c = none ↔
      (∃ k, ns.kind? p = some k ∧ k.isContainer = true) ∧ c ≠ .root ∧ ns.contains c = true ∧
        ns.parent? c = none ∧ c ∉ ns.lineage p := by
  cases hp : ns.get? p with
  | none => simp [obstacle?, hp, kind?]
  | some po =>
    cases hc : ns.get? c with
    | none =>
      simp only [obstacle?, hp, hc, contains]
      split_ifs <;> simp
    | some co =>
      cases hq : co.parent <;>
        simp only [obstacle?, hp, hc, hq, kind?, contains, parent?, Object.isContainer] <;>
        split_ifs <;> simp_all

theorem children_of_overwritten (ho : o.children = []) (q : ObjectId) :
    (ns.update id fun _ => o).children q = [] ∨
      (ns.update id fun _ => o).children q = ns.children q := by
  by_cases hq : q = id
  · left
    cases hold : ns.get? id with
    | none => simp [hq, children, get?_update, hold]
    | some old => rw [hq, children_of_get? (get?_update_self hold), ho]
  · right
    exact children_update_other hq

namespace Grounded

theorem congr (g : ns.Grounded) (hp : ns'.parent? = ns.parent?) (hch : ns'.children = ns.children)
    (hc : ns'.contains = ns.contains) : ns'.Grounded where
  climbs := g.climbs.congr hp hc
  contains_child h := by
    rw [hch] at h
    rw [hc]
    exact g.contains_child h

theorem insert (g : ns.Grounded) (hup : ∀ p, o.parent = some p → ns.contains p = true)
    (hdown : ∀ c ∈ o.children, ns.contains c = true) : (ns.insert o).Grounded := by
  refine ⟨g.climbs.insert hup, fun {p c} hc => contains_insert ?_⟩
  by_cases hp : p.index = ns.size
  · rw [children_insert_new hp] at hc
    exact hdown c hc
  · rw [children_insert_other hp] at hc
    exact g.contains_child hc

theorem link (g : ns.Grounded) (h : ns.obstacle? p c = none) : (ns.link p c).Grounded := by
  obtain ⟨⟨k, hk, -⟩, -, hc, -, hline⟩ := obstacle?_eq_none.1 h
  have hp := contains_of_kind? hk
  refine ⟨g.climbs.link hp hc hline, fun {q d} hd => ?_⟩
  rw [children_link hp] at hd
  rw [contains_link]
  by_cases hq : q = p
  · rw [if_pos hq, List.mem_append, List.mem_singleton] at hd
    rcases hd with hd | rfl
    · exact g.contains_child hd
    · exact hc
  · rw [if_neg hq] at hd
    exact g.contains_child hd

theorem unlink (g : ns.Grounded) (h : c ∈ ns.children p) : (ns.unlink p c).Grounded := by
  have hp := contains_of_mem_children h
  refine ⟨g.climbs.unlink (g.contains_child h), fun {q d} hd => ?_⟩
  rw [children_unlink hp] at hd
  rw [contains_unlink]
  by_cases hq : q = p
  · rw [if_pos hq] at hd
    exact g.contains_child (List.mem_of_mem_erase hd)
  · rw [if_neg hq] at hd
    exact g.contains_child hd

theorem replace (g : ns.Grounded) (ho : o.parent = none ∧ o.children = []) :
    (ns.update id fun _ => o).Grounded := by
  refine ⟨g.climbs.replace ho.1, fun {q d} hd => ?_⟩
  rw [contains_update]
  rcases children_of_overwritten ho.2 q with hq | hq
  · rw [hq] at hd
    cases hd
  · rw [hq] at hd
    exact g.contains_child hd

end Grounded

namespace Descends

theorem grounded (d : ns.Descends) : ns.Grounded :=
  ⟨d.climbs, fun h => contains_of_parent? (d.parent?_of_mem h)⟩

theorem congr (d : ns.Descends) (hp : ns'.parent? = ns.parent?) (hch : ns'.children = ns.children)
    (hc : ns'.contains = ns.contains) : ns'.Descends where
  climbs := d.climbs.congr hp hc
  parent?_of_mem h := by
    rw [hch] at h
    rw [hp]
    exact d.parent?_of_mem h
  nodup_children p := by
    rw [hch]
    exact d.nodup_children p

theorem insert (d : ns.Descends) (ho : ∀ p, o.parent = some p → ns.contains p = true)
    (hch : o.children = []) : (ns.insert o).Descends := by
  refine ⟨d.climbs.insert ho, fun {p c} h => ?_, fun p => ?_⟩
  · rw [children_insert hch] at h
    have hup := d.parent?_of_mem h
    have hlt := contains_iff.1 (contains_of_parent? hup)
    rw [parent?_insert_other (Nat.ne_of_lt hlt), hup]
  · rw [children_insert hch]
    exact d.nodup_children p

theorem link (d : ns.Descends) (h : ns.obstacle? p c = none) : (ns.link p c).Descends := by
  obtain ⟨⟨k, hk, -⟩, -, hc, hfree, hline⟩ := obstacle?_eq_none.1 h
  have hp := contains_of_kind? hk
  have hunlisted : ∀ q, c ∉ ns.children q := by
    intro q hq
    have hup := d.parent?_of_mem hq
    rw [hfree] at hup
    cases hup
  refine ⟨d.climbs.link hp hc hline, fun {q e} he => ?_, fun q => ?_⟩
  · rw [children_link hp] at he
    rw [parent?_link hc]
    by_cases hq : q = p
    · rw [if_pos hq, List.mem_append, List.mem_singleton] at he
      rcases he with he | he
      · have hne : e ≠ c := fun hec => hunlisted p (hec ▸ he)
        rw [if_neg hne, d.parent?_of_mem he, hq]
      · rw [if_pos he, hq]
    · rw [if_neg hq] at he
      have hne : e ≠ c := fun hec => hunlisted q (hec ▸ he)
      rw [if_neg hne, d.parent?_of_mem he]
  · rw [children_link hp]
    by_cases hq : q = p
    · rw [if_pos hq]
      refine List.nodup_append.2 ⟨d.nodup_children p, by simp, ?_⟩
      intro x hx y hy hxy
      rw [List.mem_singleton.1 hy] at hxy
      exact hunlisted p (hxy ▸ hx)
    · rw [if_neg hq]
      exact d.nodup_children q

theorem unlink (d : ns.Descends) (h : c ∈ ns.children p) : (ns.unlink p c).Descends := by
  have hup := d.parent?_of_mem h
  have hc := contains_of_parent? hup
  have hp := d.climbs.contains_parent hup
  -- a single mention is all there was of the child
  have hgone : ∀ {q e}, e ∈ (ns.unlink p c).children q → e ≠ c ∧ e ∈ ns.children q := by
    intro q e he
    rw [children_unlink hp] at he
    by_cases hq : q = p
    · rw [if_pos hq, (d.nodup_children p).mem_erase_iff] at he
      exact hq ▸ he
    · rw [if_neg hq] at he
      refine ⟨fun hec => ?_, he⟩
      rw [hec] at he
      exact hq (Option.some.inj ((d.parent?_of_mem he).symm.trans hup))
  refine ⟨d.climbs.unlink hc, fun he => ?_, fun q => ?_⟩
  · obtain ⟨hne, he⟩ := hgone he
    rw [parent?_unlink hc, if_neg hne, d.parent?_of_mem he]
  · rw [children_unlink hp]
    by_cases hq : q = p
    · rw [if_pos hq]
      exact (d.nodup_children p).erase c
    · rw [if_neg hq]
      exact d.nodup_children q

theorem replace (d : ns.Descends) (ho : o.parent = none ∧ o.children = [])
    (hid : ∀ p, id ∉ ns.children p) : (ns.update id fun _ => o).Descends := by
  refine ⟨d.climbs.replace ho.1, fun {q e} he => ?_, fun q => ?_⟩
  · rcases children_of_overwritten ho.2 q with hq | hq
    · rw [hq] at he
      cases he
    · rw [hq] at he
      have hne : e ≠ id := fun hee => hid q (hee ▸ he)
      rw [parent?_update_other hne, d.parent?_of_mem he]
  · rcases children_of_overwritten ho.2 q with hq | hq
    · rw [hq]
      exact List.nodup_nil
    · rw [hq]
      exact d.nodup_children q

end Descends

end Acpi.Namespace
