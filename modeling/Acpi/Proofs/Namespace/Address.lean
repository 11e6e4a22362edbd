import Acpi.Proofs.Name.Path.RoundTrip
import Acpi.Proofs.Namespace.Lookup
import Acpi.Proofs.Run

namespace Acpi.Namespace

open Relation

variable {ns : Namespace} {id scope start found p c : ObjectId} {segs : List NameSeg}

/-- The names from the top down to an object. -/
def names (ns : Namespace) (id : ObjectId) : List NameSeg :=
  (((ns.lineage id).filter (· ≠ .root)).filterMap ns.name?).reverse

theorem anchor_pathTo (ns : Namespace) (id : ObjectId) :
    (ns.pathTo id).anchor = if .root ∈ ns.lineage id then .root else .relative := by
  rw [pathTo, Path.anchor_pushAll]
  rfl

theorem segments_pathTo (ns : Namespace) (id : ObjectId) :
    (ns.pathTo id).segments = (ns.names id).take Path.capacity := by
  rw [pathTo, Path.segments_pushAll, Path.segments_ofAnchor, List.nil_append]
  rfl

namespace WellFormed

theorem ne_root_of_parent? (w : ns.WellFormed) (h : ns.parent? c = some p) : c ≠ .root := by
  intro he
  rw [he, w.parent_root] at h
  cases h

theorem lineage_root (w : ns.WellFormed) : ns.lineage .root = [.root] := by
  rw [lineage, ancestors, climb, w.parent_root]

theorem lineage_of_parent? (w : ns.WellFormed) (h : ns.parent? c = some p) :
    ns.lineage c = c :: ns.lineage p := by
  rw [lineage, w.climbs.ancestors_of_parent? h]

theorem names_root (w : ns.WellFormed) : ns.names .root = [] := by
  rw [names, w.lineage_root]
  rfl

theorem names_of_parent? (w : ns.WellFormed) (h : ns.parent? c = some p) :
    ns.names c = ns.names p ++ (ns.name? c).toList := by
  have hfilter :
      (c :: ns.lineage p).filter (· ≠ .root) = c :: (ns.lineage p).filter (· ≠ .root) :=
    List.filter_cons_of_pos (decide_eq_true (w.ne_root_of_parent? h))
  rw [names, names, w.lineage_of_parent? h, hfilter]
  cases hn : ns.name? c with
  | none => rw [List.filterMap_cons_none hn, Option.toList_none, List.append_nil]
  | some name => rw [List.filterMap_cons_some hn, List.reverse_cons, Option.toList_some]

theorem pathTo_of_anonymous (w : ns.WellFormed) (h : ns.parent? c = some p)
    (hn : ns.name? c = none) : ns.pathTo c = ns.pathTo p := by
  have hnames : ns.names c = ns.names p := by
    rw [w.names_of_parent? h, hn, Option.toList_none, List.append_nil]
  have hroot : .root ∈ ns.lineage c ↔ .root ∈ ns.lineage p := by
    rw [w.lineage_of_parent? h, List.mem_cons]
    exact or_iff_right (Ne.symm (w.ne_root_of_parent? h))
  change (Path.ofAnchor (if .root ∈ ns.lineage c then _ else _)).pushAll (ns.names c) =
    (Path.ofAnchor (if .root ∈ ns.lineage p then _ else _)).pushAll (ns.names p)
  simp only [hnames, hroot]

theorem length_of_follow? (w : ns.WellFormed) (h : ns.follow? start segs = some found) :
    (ns.ancestors found).length = (ns.ancestors start).length + segs.length := by
  induction segs generalizing start with
  | nil =>
    cases h
    rfl
  | cons seg rest ih =>
    obtain ⟨c, hc, hrest⟩ := Option.bind_eq_some_iff.1 h
    have hup := w.climbs.ancestors_of_parent? (w.parent?_of_child? hc)
    rw [ih hrest, hup, lineage, List.length_cons, List.length_cons]
    omega

end WellFormed

/-- `Address ns id names`: from the root down, each of the names is a written one and means the
first child that has it, and the last child is `id`. -/
inductive Address (ns : Namespace) : ObjectId → List NameSeg → Prop
  | root : Address ns .root []
  | child {p c : ObjectId} {names : List NameSeg} {name : NameSeg} (hp : Address ns p names)
    (ht : NameSeg.Textual name.bytes) (hc : ns.child? p name = some c) :
    Address ns c (names ++ [name])

namespace Address

variable {names : List NameSeg}

theorem follow? (h : ns.Address id names) : ns.follow? .root names = some id := by
  induction h with
  | root => rfl
  | child _ _ hc ih =>
    rw [follow?_append, ih, Option.bind_some, follow?_singleton]
    exact hc

theorem textual (h : ns.Address id names) : ∀ name ∈ names, NameSeg.Textual name.bytes := by
  induction h with
  | root => simp
  | child _ ht _ ih =>
    intro name hname
    rcases List.mem_append.1 hname with hname | hname
    · exact ih name hname
    · rw [List.mem_singleton.1 hname]
      exact ht

theorem root_mem_lineage (h : ns.Address id names) (w : ns.WellFormed) :
    .root ∈ ns.lineage id := by
  induction h with
  | root => exact List.mem_cons_self
  | child _ _ hc ih =>
    rw [w.lineage_of_parent? (w.parent?_of_child? hc)]
    exact List.mem_cons_of_mem _ ih

theorem names_eq (h : ns.Address id names) (w : ns.WellFormed) : ns.names id = names := by
  induction h with
  | root => exact w.names_root
  | child _ _ hc ih =>
    rw [w.names_of_parent? (w.parent?_of_child? hc), ih, (mem_of_child? hc).2, Option.toList_some]

theorem length_eq (h : ns.Address id names) (w : ns.WellFormed) :
    names.length = (ns.ancestors id).length := by
  have hroot : (ns.ancestors .root).length = 0 := by
    simpa [lineage] using w.lineage_root
  have hlen := w.length_of_follow? h.follow?
  omega

theorem anchor_eq (h : ns.Address id names) (w : ns.WellFormed) :
    (ns.pathTo id).anchor = .root := by
  rw [anchor_pathTo, if_pos (h.root_mem_lineage w)]

theorem printable (h : ns.Address id names) (w : ns.WellFormed) : (ns.pathTo id).Printable := by
  have ha := h.anchor_eq w
  refine ⟨?_, ?_, ?_⟩
  · intro seg hseg
    rw [segments_pathTo, h.names_eq w] at hseg
    exact h.textual seg (List.mem_of_mem_take hseg)
  · rw [ha]
    intro hp
    cases hp
  · rw [ha]
    intro hr
    cases hr

end Address

theorem lookup?_text {path : Path} (h : path.Printable) (scope : ObjectId) :
    ns.lookup? scope path.text = ns.lookupPath? scope path := by
  obtain ⟨q, hread, ha, hs⟩ := h.exists_ofText
  rw [lookup?, hread]
  simp only [lookupPath?, Path.bareName?, ha, hs]

theorem lookupPath?_of_root {path : Path} (h : path.anchor = .root) (scope : ObjectId) :
    ns.lookupPath? scope path = ns.follow? .root path.segments := by
  have hbare : path.bareName? = none := by
    rw [Path.bareName?, h]
  rw [lookupPath?, hbare, h]
  rfl

theorem Address.lookup?_pathTo {names : List NameSeg} (h : ns.Address id names)
    (w : ns.WellFormed) (scope : ObjectId) :
    ns.lookup? scope (ns.pathTo id).text = ns.follow? .root (names.take Path.capacity) := by
  rw [lookup?_text (h.printable w), lookupPath?_of_root (h.anchor_eq w), segments_pathTo,
    h.names_eq w]

/-- The path of an object leads back to it, unless it was cut. -/
theorem Address.lookup?_pathTo_iff {names : List NameSeg} (h : ns.Address id names)
    (w : ns.WellFormed) (scope : ObjectId) :
    ns.lookup? scope (ns.pathTo id).text = some id ↔ names.length ≤ Path.capacity := by
  rw [h.lookup?_pathTo w]
  constructor
  · intro hcut
    have hlen := w.length_of_follow? hcut
    have hall := w.length_of_follow? h.follow?
    rw [List.length_take] at hlen
    omega
  · intro hle
    rw [List.take_of_length_le hle]
    exact h.follow?

/-- An object attached below the root, or the root itself: each object from there down to it is the
first child of its parent that has its name, which is a written one. -/
structure Addressed (ns : Namespace) (id : ObjectId) : Prop where
  attached : .root ∈ ns.lineage id
  first : ∀ e ∈ ns.lineage id, e ≠ .root → ∃ p ∈ ns.parent? e, ∃ name ∈ ns.name? e,
    NameSeg.Textual name.bytes ∧ ns.child? p name = some e

instance (ns : Namespace) (id : ObjectId) : Decidable (ns.Addressed id) :=
  decidable_of_iff (.root ∈ ns.lineage id ∧ ∀ e ∈ ns.lineage id, e ≠ .root →
    ∃ p ∈ ns.parent? e, ∃ name ∈ ns.name? e,
      NameSeg.Textual name.bytes ∧ ns.child? p name = some e)
    ⟨fun h => ⟨h.1, h.2⟩, fun h => ⟨h.attached, h.first⟩⟩

theorem Addressed.exists_address (h : ns.Addressed id) (w : ns.WellFormed) :
    ∃ names, ns.Address id names := by
  obtain ⟨hroot, hfirst⟩ := h
  rw [w.climbs.mem_lineage_iff] at hroot
  induction hroot using ReflTransGen.head_induction_on with
  | refl => exact ⟨[], .root⟩
  | @head e p hup _ ih =>
    have hline := w.lineage_of_parent? hup
    obtain ⟨q, hq, name, -, ht, hc⟩ :=
      hfirst e List.mem_cons_self (w.ne_root_of_parent? hup)
    have hqp : q = p := Option.some.inj (hq.symm.trans hup)
    subst hqp
    obtain ⟨names, hp⟩ := ih fun x hx => hfirst x (hline ▸ List.mem_cons_of_mem e hx)
    exact ⟨names ++ [name], .child hp ht hc⟩

/-- The path of an addressed object, written out, means that object in every scope, known or not,
just when the object is no more than sixteen levels below the root. An object without a name has the
path of its parent. -/
theorem addresses_of_reachable (h : ns.Reachable) :
    (∀ id, ns.Addressed id → ∀ scope,
      (ns.lookup? scope (ns.pathTo id).text = some id ↔ (ns.ancestors id).length ≤ 16)) ∧
    ∀ id p, ns.parent? id = some p → ns.name? id = none → ns.pathTo id = ns.pathTo p := by
  have w := h.wellFormed
  constructor
  · intro id hid scope
    obtain ⟨names, hnames⟩ := hid.exists_address w
    rw [← hnames.length_eq w]
    exact hnames.lookup?_pathTo_iff w scope
  · intro id p hup hn
    exact w.pathTo_of_anonymous hup hn

/-- Scopes inside each other, one level deeper than a path is long, and a field in the last one. -/
def nestedScopes : List Action :=
  let scope : Object := .scope ⟨1⟩ (.ofFour 0x41 0x42 0x43 0x44)
  (List.range 17).map (fun i => .declare (.ofIndex i) scope) ++
    [.declare (.ofIndex 17) (.field ⟨1⟩)]

theorem allowed_nestedScopes : ∀ a ∈ nestedScopes, a.Allowed := by
  intro a ha
  rcases List.mem_append.1 ha with ha | ha
  · obtain ⟨i, -, rfl⟩ := List.mem_map.1 ha
    exact .constructed (.scope _ _)
  · rw [List.mem_singleton.1 ha]
    exact .constructed (.field _)

theorem addresses_of_nestedScopes :
    ∃ ns, initial.run? nestedScopes = some ns ∧ ns.Reachable ∧
      ns.Addressed (.ofIndex 16) ∧ ns.Addressed (.ofIndex 17) ∧
      ns.lookup? (.ofIndex 4000) (ns.pathTo (.ofIndex 16)).text = some (.ofIndex 16) ∧
      ns.lookup? (.ofIndex 4000) (ns.pathTo (.ofIndex 17)).text ≠ some (.ofIndex 17) ∧
      ns.pathTo (.ofIndex 18) = ns.pathTo (.ofIndex 17) := by
  have hc : ∃ ns ∈ initial.run? nestedScopes,
      ns.Addressed (.ofIndex 16) ∧ (ns.ancestors (.ofIndex 16)).length = 16 ∧
      ns.Addressed (.ofIndex 17) ∧ (ns.ancestors (.ofIndex 17)).length = 17 ∧
      ns.parent? (.ofIndex 18) = some (.ofIndex 17) ∧ ns.name? (.ofIndex 18) = none := by
    decide +kernel
  obtain ⟨ns, hr, hlast, hfits, hnext, hdeep, hup, hn⟩ := hc
  have h : ns.Reachable := ⟨nestedScopes, allowed_nestedScopes, hr⟩
  obtain ⟨hlookup, hpath⟩ := addresses_of_reachable h
  refine ⟨ns, hr, h, hlast, hnext, ?_, ?_, hpath _ _ hup hn⟩
  · exact (hlookup _ hlast _).2 (Nat.le_of_eq hfits)
  · intro hfound
    have hle := (hlookup _ hnext _).1 hfound
    omega

end Acpi.Namespace
