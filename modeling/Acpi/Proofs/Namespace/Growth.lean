import Mathlib.Data.List.Find
import Acpi.Proofs.Namespace.Lookup

namespace Acpi.Namespace

variable {ns ns' : Namespace} {id scope start found p c : ObjectId} {o : Object} {name : NameSeg}
  {path : Path} {text : String}

/-- What was there is there still, and what came first of its name comes first. -/
structure Grows (ns ns' : Namespace) : Prop where
  size_le : ns.size ≤ ns'.size
  parent? : ∀ {id p}, ns.parent? id = some p → ns'.parent? id = some p
  kind? : ∀ {id k}, ns.kind? id = some k → ns'.kind? id = some k
  child? : ∀ {scope name c}, ns.child? scope name = some c → ns'.child? scope name = some c

namespace Grows

theorem trans {ns'' : Namespace} (g : ns.Grows ns') (g' : ns'.Grows ns'') : ns.Grows ns'' where
  size_le := Nat.le_trans g.size_le g'.size_le
  parent? h := g'.parent? (g.parent? h)
  kind? h := g'.kind? (g.kind? h)
  child? h := g'.child? (g.child? h)

theorem contains (g : ns.Grows ns') (h : ns.contains id = true) : ns'.contains id = true :=
  contains_iff.2 (Nat.lt_of_lt_of_le (contains_iff.1 h) g.size_le)

theorem climb (g : ns.Grows ns') {steps steps' : Nat} (h : steps ≤ steps') (id : ObjectId) :
    ns.climb steps id <+: ns'.climb steps' id := by
  induction steps generalizing steps' id with
  | zero => exact List.nil_prefix
  | succ steps ih =>
    cases steps' with
    | zero => cases h
    | succ steps' =>
      cases hp : ns.parent? id with
      | none => simp [Namespace.climb, hp]
      | some p =>
        rw [climb_of_parent? hp, climb_of_parent? (g.parent? hp)]
        exact (List.prefix_cons_inj p).2 (ih (Nat.le_of_succ_le_succ h) p)

theorem ancestors (g : ns.Grows ns') (id : ObjectId) : ns.ancestors id <+: ns'.ancestors id :=
  g.climb (Nat.succ_le_succ g.size_le) id

theorem lineage (g : ns.Grows ns') (id : ObjectId) : ns.lineage id <+: ns'.lineage id :=
  (List.prefix_cons_inj id).2 (g.ancestors id)

theorem anchored? (g : ns.Grows ns') {anchor : Anchor}
    (h : ns.anchored? scope anchor = some start) : ns'.anchored? scope anchor = some start := by
  cases anchor with
  | relative =>
    obtain ⟨hs, he⟩ := anchored?_relative.1 h
    exact anchored?_relative.2 ⟨g.contains hs, he⟩
  | root => exact h
  | parent levels =>
    cases levels with
    | zero => cases h
    | succ levels =>
      obtain ⟨hl, hstart⟩ := List.getElem?_eq_some_iff.1 h
      have hkept := List.prefix_iff_getElem?.1 (g.ancestors scope) levels hl
      rw [hstart] at hkept
      exact hkept

theorem follow? (g : ns.Grows ns') {segs : List NameSeg}
    (h : ns.follow? start segs = some found) : ns'.follow? start segs = some found := by
  induction segs generalizing start with
  | nil => exact h
  | cons seg rest ih =>
    obtain ⟨c, hc, hrest⟩ := Option.bind_eq_some_iff.1 h
    exact Option.bind_eq_some_iff.2 ⟨c, g.child? hc, ih hrest⟩

theorem placePath? (g : ns.Grows ns') (h : ns.placePath? scope path = some (p, name)) :
    ns'.placePath? scope path = some (p, name) := by
  obtain ⟨front, start, hsegs, hstart, hfollow, k, hk, hcont⟩ := placePath?_eq_some.1 h
  exact placePath?_eq_some.2
    ⟨front, start, hsegs, g.anchored? hstart, g.follow? hfollow, k, g.kind? hk, hcont⟩

theorem place? (g : ns.Grows ns') (h : ns.place? scope text = some (p, name)) :
    ns'.place? scope text = some (p, name) := by
  obtain ⟨path, hpath, hplace⟩ := place?_eq_some.1 h
  exact place?_eq_some.2 ⟨path, hpath, g.placePath? hplace⟩

/-- Only for a bare name something new may come first. -/
theorem lookupPath? (g : ns.Grows ns') (hb : path.bareName? = none)
    (h : ns.lookupPath? scope path = some found) : ns'.lookupPath? scope path = some found := by
  rw [Namespace.lookupPath?, hb] at h ⊢
  obtain ⟨start, hstart, hfollow⟩ := Option.bind_eq_some_iff.1 h
  exact Option.bind_eq_some_iff.2 ⟨start, g.anchored? hstart, g.follow? hfollow⟩

end Grows

namespace WellFormed

theorem child?_insert (w : ns.WellFormed) (h : o.parent = none ∧ o.children = []) :
    (ns.insert o).child? = ns.child? := by
  funext scope name
  rw [Namespace.child?, Namespace.child?, children_insert h.2]
  apply List.find?_congr
  intro d hd
  have hup := w.mem_children_iff.1 hd
  rw [name?_insert (contains_of_parent? hup)]

theorem grows_insert (w : ns.WellFormed) (h : o.parent = none ∧ o.children = []) :
    ns.Grows (ns.insert o) where
  size_le := by
    rw [size_insert]
    exact Nat.le_succ _
  parent? hp := by rwa [parent?_insert h.1]
  kind? hk := kind?_insert hk
  child? hc := by rwa [w.child?_insert h]

end WellFormed

theorem child?_link (hp : ns.contains p = true) (scope : ObjectId) (name : NameSeg) :
    (ns.link p c).child? scope name =
      if scope = p ∧ ns.name? c = some name then (ns.child? p name).or (some c)
      else ns.child? scope name := by
  rw [Namespace.child?, name?_link, children_link hp]
  by_cases hs : scope = p
  · rw [if_pos hs, List.find?_append, List.find?_singleton]
    by_cases hn : ns.name? c = some name
    · simp [hs, hn, Namespace.child?]
    · simp [hs, hn, Namespace.child?]
  · simp [hs, Namespace.child?]

theorem grows_link (h : ns.obstacle? p c = none) : ns.Grows (ns.link p c) := by
  obtain ⟨⟨k, hk, -⟩, -, hc, hfree, -⟩ := obstacle?_eq_none.1 h
  refine ⟨?_, ?_, ?_, ?_⟩
  · simp [Namespace.link]
  · intro id q hq
    have hid : id ≠ c := by
      intro he
      rw [he, hfree] at hq
      cases hq
    rw [parent?_link hc, if_neg hid, hq]
  · intro id k hk
    rwa [kind?_link]
  · intro scope name d hd
    rw [child?_link (contains_of_kind? hk)]
    by_cases hs : scope = p ∧ ns.name? c = some name
    · rw [if_pos hs, ← hs.1, hd, Option.some_or]
    · rw [if_neg hs, hd]

/-- `p` is `scope` or above it, strictly nearer to it than the parent of `found`. -/
def Nearer (ns : Namespace) (scope p found : ObjectId) : Prop :=
  p ∈ ns.lineage scope ∧
    ∃ q, ns.parent? found = some q ∧ (ns.lineage scope).idxOf p < (ns.lineage scope).idxOf q

namespace WellFormed

theorem nearer_iff (w : ns.WellFormed) {before after : List ObjectId} {q : ObjectId}
    (hline : ns.lineage scope = before ++ q :: after) (hup : ns.parent? found = some q) :
    ns.Nearer scope p found ↔ p ∈ before := by
  have hnodup := w.nodup_lineage scope
  rw [hline] at hnodup
  have hq : q ∉ before := by
    intro hmem
    exact (List.nodup_append.1 hnodup).2.2 q hmem q List.mem_cons_self rfl
  have hidx : (before ++ q :: after).idxOf q = before.length := by
    rw [List.idxOf_append_of_notMem hq, List.idxOf_cons_self, Nat.add_zero]
  rw [Nearer, hline]
  constructor
  · rintro ⟨-, q', hup', hlt⟩
    rw [hup] at hup'
    cases hup'
    rw [hidx] at hlt
    apply Classical.byContradiction
    intro hp
    rw [List.idxOf_append_of_notMem hp] at hlt
    omega
  · intro hp
    refine ⟨List.mem_append_left _ hp, q, hup, ?_⟩
    rw [hidx, List.idxOf_append_of_mem hp]
    exact List.idxOf_lt_length_of_mem hp

theorem search?_link_of_nearer (w : ns.WellFormed) (h : ns.obstacle? p c = none)
    (hs : ns.search? scope name = some found) (hn : ns.name? c = some name)
    (hnear : ns.Nearer scope p found) : (ns.link p c).search? scope name = some c := by
  obtain ⟨before, q, after, hline, hc, hnone⟩ := search?_eq_some.1 hs
  obtain ⟨⟨k, hk, -⟩, -⟩ := obstacle?_eq_none.1 h
  have hup := w.parent?_of_child? hc
  have hp : p ∈ before := (w.nearer_iff hline hup).1 hnear
  obtain ⟨more, hmore⟩ := (grows_link h).lineage scope
  -- the first scope that finds anything is now `p` itself
  obtain ⟨front, back, rfl, hfront⟩ := List.eq_append_cons_of_mem hp
  refine search?_eq_some.2 ⟨front, p, back ++ q :: after ++ more, ?_, ?_, ?_⟩
  · rw [← hmore, hline]
    simp
  · rw [child?_link (contains_of_kind? hk), if_pos ⟨rfl, hn⟩, hnone p hp, Option.none_or]
  · intro x hx
    have hxp : x ≠ p := fun he => hfront (he ▸ hx)
    rw [child?_link (contains_of_kind? hk), if_neg fun hand => hxp hand.1]
    exact hnone x (List.mem_append_left _ hx)

theorem search?_link_of_not_nearer (w : ns.WellFormed) (h : ns.obstacle? p c = none)
    (hs : ns.search? scope name = some found)
    (hnot : ns.name? c = some name → ¬ns.Nearer scope p found) :
    (ns.link p c).search? scope name = some found := by
  obtain ⟨before, q, after, hline, hc, hnone⟩ := search?_eq_some.1 hs
  obtain ⟨⟨k, hk, -⟩, -⟩ := obstacle?_eq_none.1 h
  have hup := w.parent?_of_child? hc
  obtain ⟨more, hmore⟩ := (grows_link h).lineage scope
  refine search?_eq_some.2 ⟨before, q, after ++ more, ?_, (grows_link h).child? hc, ?_⟩
  · rw [← hmore, hline]
    simp
  · intro x hx
    rw [child?_link (contains_of_kind? hk), if_neg ?_]
    · exact hnone x hx
    · rintro ⟨rfl, hn⟩
      exact hnot hn ((w.nearer_iff hline hup).2 hx)

end WellFormed

end Acpi.Namespace
