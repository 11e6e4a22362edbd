import Acpi.Proofs.Namespace.Descent

namespace Acpi.Namespace

open Relation

variable {ns : Namespace} {id p c q d : ObjectId}

structure WellFormed (ns : Namespace) : Prop where
  mem_children_iff : ∀ {p c}, c ∈ ns.children p ↔ ns.parent? c = some p
  nodup_children : ∀ p, (ns.children p).Nodup
  parent_root : ns.parent? .root = none
  kind_root : ns.kind? .root = some .scope
  container : ∀ {p c}, ns.parent? c = some p → ∃ k, ns.kind? p = some k ∧ k.isContainer = true
  acyclic : ∀ id, ¬TransGen ns.Up id id

theorem WellFormed.contains_parent (w : ns.WellFormed) (h : ns.parent? id = some p) :
    ns.contains p = true := by
  obtain ⟨k, hk, -⟩ := w.container h
  exact contains_of_kind? hk

theorem WellFormed.climbs (w : ns.WellFormed) : ns.Climbs := ⟨w.contains_parent, w.acyclic⟩

theorem WellFormed.descends (w : ns.WellFormed) : ns.Descends :=
  ⟨w.climbs, w.mem_children_iff.1, w.nodup_children⟩

theorem WellFormed.grounded (w : ns.WellFormed) : ns.Grounded := w.descends.grounded

theorem WellFormed.nodup_lineage (w : ns.WellFormed) (id : ObjectId) : (ns.lineage id).Nodup :=
  w.climbs.nodup_lineage id

theorem wellFormed_initial : initial.WellFormed where
  mem_children_iff := by simp [parent?_initial, children_initial]
  nodup_children p := by simp [children_initial]
  parent_root := rfl
  kind_root := rfl
  container h := by simp [parent?_initial] at h
  acyclic := climbs_initial.acyclic

theorem WellFormed.congr {ns' : Namespace} (w : ns.WellFormed) (hp : ns'.parent? = ns.parent?)
    (hc : ns'.children = ns.children)
    (hk : ∀ {id k}, ns.kind? id = some k → ns'.kind? id = some k) : ns'.WellFormed where
  mem_children_iff := by
    rw [hp, hc]
    exact w.mem_children_iff
  nodup_children := by
    rw [hc]
    exact w.nodup_children
  parent_root := by
    rw [hp]
    exact w.parent_root
  kind_root := hk w.kind_root
  container h := by
    rw [hp] at h
    obtain ⟨k, hpk, hcont⟩ := w.container h
    exact ⟨k, hk hpk, hcont⟩
  acyclic := by
    have hup : ns'.Up = ns.Up := by
      unfold Up
      rw [hp]
    rw [hup]
    exact w.acyclic

theorem WellFormed.insert {o : Object} (w : ns.WellFormed)
    (h : o.parent = none ∧ o.children = []) : (ns.insert o).WellFormed :=
  w.congr (parent?_insert h.1) (children_insert h.2) kind?_insert

theorem WellFormed.update {o o' : Object} (w : ns.WellFormed) (h : ns.get? id = some o)
    (hk : o.Keeps o') : (ns.update id fun _ => o').WellFormed := by
  refine w.congr (parent?_update_keeps h hk) (children_update_keeps h hk) ?_
  intro other k hother
  rwa [kind?_update_keeps h hk]

namespace WellFormed

/-- Nothing stands against a new object, for no way up comes by it. -/
theorem obstacle?_insert (w : ns.WellFormed) (ho : o.parent = none ∧ o.children = [])
    (hsize : ns.size ≤ ObjectId.last) {k : Kind} (hk : ns.kind? p = some k)
    (hcont : k.isContainer = true) : (ns.insert o).obstacle? p ns.nextId = none := by
  have hidx := index_nextId hsize
  have hnew := contains_nextId hsize
  refine obstacle?_eq_none.2 ⟨⟨k, kind?_insert hk, hcont⟩, ?_, ?_, ?_, ?_⟩
  · intro hroot
    have hpos := ns.size_pos
    rw [hroot] at hidx
    exact Nat.ne_of_lt hpos hidx
  · rw [contains_iff, hidx, size_insert]
    exact Nat.lt_succ_self _
  · rw [parent?_insert ho.1, parent?, get?_eq_none (Nat.le_of_eq hidx.symm)]
    rfl
  · intro hline
    have hup : (ns.insert o).Up = ns.Up := by
      unfold Up
      rw [parent?_insert ho.1]
    rw [(w.insert ho).climbs.mem_lineage_iff, hup, ← w.climbs.mem_lineage_iff] at hline
    have hold := w.climbs.contains_of_mem_lineage (contains_of_kind? hk) hline
    rw [hnew] at hold
    cases hold

theorem mem_children_link (w : ns.WellFormed) (hp : ns.contains p = true)
    (hc : ns.contains c = true) (h : (ns.link p c).parent? d = some q) :
    d ∈ (ns.link p c).children q := by
  rw [parent?_link hc] at h
  rw [children_link hp]
  by_cases hd : d = c
  · rw [if_pos hd, Option.some.injEq] at h
    rw [if_pos h.symm, hd]
    exact List.mem_append_right _ (List.mem_singleton_self c)
  · rw [if_neg hd, ← w.mem_children_iff] at h
    by_cases hq : q = p
    · rw [if_pos hq]
      exact List.mem_append_left _ (hq ▸ h)
    · rwa [if_neg hq]

theorem link (w : ns.WellFormed) (h : ns.obstacle? p c = none) : (ns.link p c).WellFormed := by
  have hd := w.descends.link h
  obtain ⟨⟨k, hk, hcont⟩, hroot, hc, -, -⟩ := obstacle?_eq_none.1 h
  refine ⟨⟨hd.parent?_of_mem, w.mem_children_link (contains_of_kind? hk) hc⟩, hd.nodup_children,
    ?_, ?_, ?_, hd.climbs.acyclic⟩
  · rw [parent?_link hc, if_neg (Ne.symm hroot)]
    exact w.parent_root
  · rw [kind?_link]
    exact w.kind_root
  · intro q d hd
    rw [parent?_link hc] at hd
    rw [kind?_link]
    by_cases he : d = c
    · rw [if_pos he, Option.some.injEq] at hd
      exact hd ▸ ⟨k, hk, hcont⟩
    · rw [if_neg he] at hd
      exact w.container hd

theorem mem_children_unlink (w : ns.WellFormed) (hup : ns.parent? c = some p)
    (h : (ns.unlink p c).parent? d = some q) : d ∈ (ns.unlink p c).children q := by
  rw [parent?_unlink (contains_of_parent? hup)] at h
  rw [children_unlink (w.contains_parent hup)]
  by_cases hd : d = c
  · rw [if_pos hd] at h
    cases h
  · rw [if_neg hd, ← w.mem_children_iff] at h
    by_cases hq : q = p
    · rw [if_pos hq]
      exact (List.mem_erase_of_ne hd).2 (hq ▸ h)
    · rwa [if_neg hq]

theorem unlink (w : ns.WellFormed) (h : c ∈ ns.children p) : (ns.unlink p c).WellFormed := by
  have hd := w.descends.unlink h
  have hup := w.mem_children_iff.1 h
  have hc := contains_of_parent? hup
  refine ⟨⟨hd.parent?_of_mem, w.mem_children_unlink hup⟩, hd.nodup_children, ?_, ?_, ?_,
    hd.climbs.acyclic⟩
  · rw [parent?_unlink hc, w.parent_root]
    simp
  · rw [kind?_unlink]
    exact w.kind_root
  · intro q d hd
    rw [kind?_unlink]
    exact w.container (up_of_up_unlink hc hd)

end WellFormed

end Acpi.Namespace
