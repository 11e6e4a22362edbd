import Acpi.Namespace.Lookup
import Acpi.Proofs.Namespace.Preorder

namespace Acpi.Namespace

variable {ns : Namespace} {scope start found p c : ObjectId} {name : NameSeg} {path : Path}
  {text : String}

theorem mem_of_child? (h : ns.child? scope name = some found) :
    found ∈ ns.children scope ∧ ns.name? found = some name := by
  refine ⟨List.mem_of_find?_eq_some h, ?_⟩
  simpa using List.find?_some h

theorem anchored?_relative :
    ns.anchored? scope .relative = some start ↔ ns.contains scope = true ∧ scope = start := by
  simp [anchored?]

theorem follow?_append (ns : Namespace) (start : ObjectId) (front back : List NameSeg) :
    ns.follow? start (front ++ back) =
      (ns.follow? start front).bind fun middle => ns.follow? middle back := by
  induction front generalizing start with
  | nil => rfl
  | cons seg rest ih =>
    rw [List.cons_append, follow?, follow?, Option.bind_assoc]
    congr 1
    funext c
    exact ih c

theorem follow?_singleton (ns : Namespace) (start : ObjectId) (name : NameSeg) :
    ns.follow? start [name] = ns.child? start name := by
  rw [follow?]
  exact Option.bind_fun_some _

theorem search?_eq_some :
    ns.search? scope name = some found ↔
      ∃ before q after, ns.lineage scope = before ++ q :: after ∧
        ns.child? q name = some found ∧ ∀ x ∈ before, ns.child? x name = none :=
  List.findSome?_eq_some_iff

theorem placePath?_eq_some :
    ns.placePath? scope path = some (p, name) ↔
      ∃ front start, path.segments = front ++ [name] ∧
        ns.anchored? scope path.anchor = some start ∧ ns.follow? start front = some p ∧
        ∃ k, ns.kind? p = some k ∧ k.isContainer = true := by
  simp only [placePath?, Bind.bind, Option.bind_eq_some_iff]
  constructor
  · rintro ⟨last, hlast, start, hstart, parent, hfollow, container, hget, hif⟩
    split at hif
    next hcont =>
      cases hif
      refine ⟨path.segments.dropLast, start, ?_, hstart, hfollow, container.kind, ?_, hcont⟩
      · exact (List.dropLast_append_getLast? _ hlast).symm
      · exact kind?_of_get? hget
    · cases hif
  · rintro ⟨front, start, hsegs, hstart, hfollow, k, hk, hcont⟩
    obtain ⟨container, hget, rfl⟩ := Option.map_eq_some_iff.1 hk
    refine ⟨name, ?_, start, hstart, p, ?_, container, hget, ?_⟩
    · rw [hsegs, List.getLast?_concat]
    · rwa [hsegs, List.dropLast_concat]
    · exact if_pos hcont

theorem place?_eq_some {r : ObjectId × NameSeg} :
    ns.place? scope text = some r ↔
      ∃ path, Path.ofText text = .ok path ∧ ns.placePath? scope path = some r := by
  rw [place?]
  split
  next path hpath => simp [hpath]
  next e he => simp [he]

theorem lookup?_eq_some :
    ns.lookup? scope text = some found ↔
      ∃ path, Path.ofText text = .ok path ∧ ns.lookupPath? scope path = some found := by
  rw [lookup?]
  split
  next path hpath => simp [hpath]
  next e he => simp [he]

/-- A name that is taken where a path leads is what the path means, for the search for a bare name
begins there. -/
theorem lookupPath?_of_placePath? (h : ns.placePath? scope path = some (p, name))
    (hc : ns.child? p name = some c) : ns.lookupPath? scope path = some c := by
  obtain ⟨front, start, hsegs, hstart, hfollow, -⟩ := placePath?_eq_some.1 h
  rw [lookupPath?]
  split
  next bare hbare =>
    obtain ⟨ha, hs⟩ := Path.bareName?_eq_some.1 hbare
    rw [hs] at hsegs
    obtain ⟨rfl, rfl⟩ : front = [] ∧ name = bare := by
      cases front with
      | nil => exact ⟨rfl, (List.cons.inj hsegs).1.symm⟩
      | cons seg front => simp at hsegs
    cases hfollow
    rw [ha, anchored?_relative] at hstart
    rw [search?, lineage, List.findSome?_cons, hstart.2, hc]
  next =>
    rw [hstart, Option.bind_some, hsegs, follow?_append, hfollow, Option.bind_some,
      follow?_singleton, hc]

theorem WellFormed.parent?_of_child? (w : ns.WellFormed) (h : ns.child? scope name = some found) :
    ns.parent? found = some scope :=
  w.mem_children_iff.1 (mem_of_child? h).1

namespace Grounded

theorem contains_of_child? (g : ns.Grounded) (h : ns.child? scope name = some found) :
    ns.contains found = true :=
  g.contains_child (mem_of_child? h).1

theorem contains_of_follow? (g : ns.Grounded) {segs : List NameSeg}
    (hs : ns.contains start = true) (h : ns.follow? start segs = some found) :
    ns.contains found = true := by
  induction segs generalizing start with
  | nil =>
    cases h
    exact hs
  | cons seg rest ih =>
    obtain ⟨c, hc, hrest⟩ := Option.bind_eq_some_iff.1 h
    exact ih (g.contains_of_child? hc) hrest

theorem contains_of_anchored? (g : ns.Grounded) {anchor : Anchor}
    (h : ns.anchored? scope anchor = some found) : ns.contains found = true := by
  cases anchor with
  | relative =>
    obtain ⟨hs, rfl⟩ := anchored?_relative.1 h
    exact hs
  | root =>
    cases h
    exact ns.contains_root
  | parent levels =>
    cases levels with
    | zero => cases h
    | succ levels => exact g.climbs.contains_climb (List.mem_of_getElem? h)

theorem contains_of_lookupPath? (g : ns.Grounded)
    (h : ns.lookupPath? scope path = some found) : ns.contains found = true := by
  rw [lookupPath?] at h
  split at h
  next name _ =>
    obtain ⟨s, -, hs⟩ := List.exists_of_findSome?_eq_some h
    exact g.contains_of_child? hs
  · obtain ⟨start, hs, hf⟩ := Option.bind_eq_some_iff.1 h
    exact g.contains_of_follow? (g.contains_of_anchored? hs) hf

theorem contains_of_lookup? (g : ns.Grounded) (h : ns.lookup? scope text = some found) :
    ns.contains found = true := by
  obtain ⟨path, -, hpath⟩ := lookup?_eq_some.1 h
  exact g.contains_of_lookupPath? hpath

end Grounded

end Acpi.Namespace
