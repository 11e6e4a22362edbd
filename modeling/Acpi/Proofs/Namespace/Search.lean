import Acpi.Proofs.Name.Path.Plain
import Acpi.Proofs.Namespace.Composition

namespace Acpi.Namespace

variable {ns : Namespace} {scope p c e : ObjectId} {name : NameSeg} {path : Path}
  {anchor : Anchor} {segs : List NameSeg} {text : String}

/-- `c` is the first child of `p` that has the name. -/
def FirstChild (ns : Namespace) (p : ObjectId) (name : NameSeg) (c : ObjectId) : Prop :=
  ∃ before after, ns.children p = before ++ c :: after ∧ ns.name? c = some name ∧
    ∀ b ∈ before, ns.name? b ≠ some name

/-- `e` is the first child that has the name in the scope or around it, and no nearer scope has a
child of that name. -/
def Nearest (ns : Namespace) (scope : ObjectId) (name : NameSeg) (e : ObjectId) : Prop :=
  ∃ nearer p farther, ns.lineage scope = nearer ++ p :: farther ∧ ns.parent? e = some p ∧
    ns.FirstChild p name e ∧ ∀ q ∈ nearer, ∀ c ∈ ns.children q, ns.name? c ≠ some name

/-- So many scopes up. -/
def above? (ns : Namespace) : Nat → ObjectId → Option ObjectId
  | 0, id => some id
  | levels + 1, id => (ns.parent? id).bind (ns.above? levels)

theorem child?_eq_some : ns.child? p name = some c ↔ ns.FirstChild p name c := by
  rw [child?, List.find?_eq_some_iff_append]
  constructor
  · rintro ⟨hn, before, after, hchildren, hbefore⟩
    exact ⟨before, after, hchildren, by simpa using hn, by simpa using hbefore⟩
  · rintro ⟨before, after, hchildren, hn, hbefore⟩
    exact ⟨by simpa using hn, before, after, hchildren, by simpa using hbefore⟩

theorem child?_eq_none :
    ns.child? p name = none ↔ ∀ c ∈ ns.children p, ns.name? c ≠ some name := by
  rw [child?, List.find?_eq_none]
  simp

namespace WellFormed

theorem search?_eq_some_iff (w : ns.WellFormed) :
    ns.search? scope name = some e ↔ ns.Nearest scope name e := by
  rw [search?_eq_some]
  constructor
  · rintro ⟨nearer, p, farther, hline, hc, hnone⟩
    exact ⟨nearer, p, farther, hline, w.parent?_of_child? hc, child?_eq_some.1 hc,
      fun q hq => child?_eq_none.1 (hnone q hq)⟩
  · rintro ⟨nearer, p, farther, hline, -, hfirst, hnone⟩
    exact ⟨nearer, p, farther, hline, child?_eq_some.2 hfirst,
      fun q hq => child?_eq_none.2 (hnone q hq)⟩

theorem above?_eq (w : ns.WellFormed) (levels : Nat) (scope : ObjectId) :
    (ns.ancestors scope)[levels]? = ns.above? (levels + 1) scope := by
  induction levels generalizing scope with
  | zero =>
    cases hup : ns.parent? scope with
    | none => simp [above?, hup, ancestors_of_top hup]
    | some p => simp [above?, hup, w.climbs.ancestors_of_parent? hup, lineage]
  | succ levels ih =>
    rw [above?]
    cases hup : ns.parent? scope with
    | none => simp [ancestors_of_top hup]
    | some p =>
      rw [w.climbs.ancestors_of_parent? hup, lineage, List.getElem?_cons_succ, ih,
        Option.bind_some]

theorem lookupPath?_of_segments (w : ns.WellFormed) (scope : ObjectId)
    (hbare : path.bareName? = none) (hsegs : path.segments ≠ []) :
    ns.lookupPath? scope path =
      (ns.placePath? scope path).bind fun r => ns.child? r.1 r.2 := by
  obtain ⟨front, name, hs⟩ := (List.eq_nil_or_concat' path.segments).resolve_left hsegs
  rw [lookupPath?_of_not_bare hbare, placePath?_eq, hs, Option.bind_assoc]
  congr 1
  funext start
  rw [placeFrom?_concat, follow?_append, Option.bind_assoc]
  simp only [follow?_singleton, w.bind_roomAt?]

theorem child?_ne_root (w : ns.WellFormed) : ns.child? p name ≠ some .root := by
  intro h
  have hup := w.parent?_of_child? h
  rw [w.parent_root] at hup
  cases hup

theorem lookupPath?_ne_root (w : ns.WellFormed) (scope : ObjectId) (hsegs : path.segments ≠ []) :
    ns.lookupPath? scope path ≠ some .root := by
  intro h
  cases hbare : path.bareName? with
  | some name =>
    rw [lookupPath?, hbare] at h
    obtain ⟨q, -, hq⟩ := List.exists_of_findSome?_eq_some h
    exact w.child?_ne_root hq
  | none =>
    rw [w.lookupPath?_of_segments scope hbare hsegs] at h
    obtain ⟨r, -, hr⟩ := Option.bind_eq_some_iff.1 h
    exact w.child?_ne_root hr

end WellFormed

theorem exists_ofText_of_written (h : Path.Written text.toList anchor segs) :
    ∃ path, Path.ofText text = .ok path ∧ path.anchor = anchor ∧ path.segments = segs :=
  Path.ofChars_of_written h

theorem WellFormed.lookup?_of_plain (w : ns.WellFormed) (scope e : ObjectId)
    (h : Path.Plain text.toList) :
    ns.lookup? scope text = some e ↔ NameSeg.Textual (utf8 text.toList) ∧
      ∃ name, name.bytes = NameSeg.padded (utf8 text.toList) ∧ ns.Nearest scope name e := by
  constructor
  · intro hfound
    obtain ⟨path, hpath, hlook⟩ := lookup?_eq_some.1 hfound
    obtain ⟨ht, hanchor, name, hsegs, hname⟩ := h.written_iff.1 (Path.written_of_ofChars hpath)
    rw [lookupPath?, Path.bareName?_eq_some.2 ⟨hanchor, hsegs⟩] at hlook
    exact ⟨ht, name, hname, w.search?_eq_some_iff.1 hlook⟩
  · rintro ⟨ht, name, hname, hnearest⟩
    obtain ⟨path, hpath, hanchor, hsegs⟩ :=
      exists_ofText_of_written (h.written_iff.2 ⟨ht, rfl, name, rfl, hname⟩)
    refine lookup?_eq_some.2 ⟨path, hpath, ?_⟩
    rw [lookupPath?, Path.bareName?_eq_some.2 ⟨hanchor, hsegs⟩]
    exact w.search?_eq_some_iff.2 hnearest

theorem WellFormed.lookup?_of_not_plain (w : ns.WellFormed) (scope : ObjectId)
    (h : ¬Path.Plain text.toList) (hw : Path.Written text.toList anchor segs) (hsegs : segs ≠ []) :
    ns.lookup? scope text = (ns.place? scope text).bind fun r => ns.child? r.1 r.2 := by
  obtain ⟨path, hpath, rfl, rfl⟩ := exists_ofText_of_written hw
  have hbare : path.bareName? = none := by
    rw [Option.eq_none_iff_forall_ne_some]
    intro name hname
    obtain ⟨hanchor, hs⟩ := Path.bareName?_eq_some.1 hname
    exact h (hw.plain_iff.2 ⟨hanchor, name, hs⟩)
  rw [lookup?_of_ofText hpath, place?_of_ofText hpath, w.lookupPath?_of_segments scope hbare hsegs]

theorem lookup?_of_anchor (hw : Path.Written text.toList anchor []) (scope : ObjectId) :
    ns.lookup? scope text = ns.anchored? scope anchor ∧ ns.place? scope text = none := by
  obtain ⟨path, hpath, rfl, hsegs⟩ := exists_ofText_of_written hw
  have hbare : path.bareName? = none := by
    rw [Option.eq_none_iff_forall_ne_some]
    intro name hname
    rw [Path.bareName?_eq_some, hsegs] at hname
    cases hname.2
  rw [lookup?_of_ofText hpath, place?_of_ofText hpath, lookupPath?_of_not_bare hbare,
    placePath?_eq, hsegs]
  exact ⟨Option.bind_fun_some _, Option.bind_fun_none _⟩

theorem lookup?_of_not_written (h : ¬∃ anchor segs, Path.Written text.toList anchor segs)
    (scope : ObjectId) : ns.lookup? scope text = none ∧ ns.place? scope text = none := by
  cases hread : Path.ofText text with
  | ok path => exact absurd ⟨_, _, Path.written_of_ofChars hread⟩ h
  | error e => exact ⟨by rw [lookup?, hread], by rw [place?, hread]⟩

/-- What a text means in a scope. A plain one is searched for, in the scope first and then in those
around it, and means something only if it is a segment in writing. Any other path with a segment
means the child at its place; none of these mean the root. A backslash means the root and carets the
scope so many levels up, but neither is a place. What is no path means nothing. -/
theorem searches_of_reachable (h : ns.Reachable) (scope : ObjectId) (text : String) :
    (Path.Plain text.toList → ∀ e, ns.lookup? scope text = some e ↔
      NameSeg.Textual (utf8 text.toList) ∧
        ∃ name, name.bytes = NameSeg.padded (utf8 text.toList) ∧ ns.Nearest scope name e) ∧
    (∀ anchor segs, Path.Written text.toList anchor segs → segs ≠ [] →
      (¬Path.Plain text.toList → ns.lookup? scope text =
        (ns.place? scope text).bind fun r => ns.child? r.1 r.2) ∧
      ns.lookup? scope text ≠ some .root) ∧
    (text = "\\" → ns.lookup? scope text = some .root ∧ ns.place? scope text = none) ∧
    (∀ levels, 0 < levels → text = String.ofList (List.replicate levels '^') →
      ns.lookup? scope text = ns.above? levels scope ∧ ns.place? scope text = none) ∧
    ((¬∃ anchor segs, Path.Written text.toList anchor segs) →
      ns.lookup? scope text = none ∧ ns.place? scope text = none) := by
  have w := h.wellFormed
  refine ⟨?_, ?_, ?_, ?_, ?_⟩
  · intro hplain e
    exact w.lookup?_of_plain scope e hplain
  · intro anchor segs hw hsegs
    refine ⟨fun hplain => w.lookup?_of_not_plain scope hplain hw hsegs, ?_⟩
    obtain ⟨path, hpath, -, rfl⟩ := exists_ofText_of_written hw
    rw [lookup?_of_ofText hpath]
    exact w.lookupPath?_ne_root scope hsegs
  · rintro rfl
    have hw : Path.Written "\\".toList .root [] := Path.written_anchor .root (by simp) (by simp)
    exact lookup?_of_anchor hw scope
  · rintro levels hpos rfl
    have hzero : Anchor.parent levels ≠ .parent 0 := by
      simpa using Nat.ne_of_gt hpos
    have hw : Path.Written (String.ofList (List.replicate levels '^')).toList
        (.parent levels) [] := by
      rw [String.toList_ofList]
      exact Path.written_anchor (.parent levels) hzero (by simp)
    obtain ⟨hlookup, hplace⟩ : ns.lookup? scope _ = _ ∧ ns.place? scope _ = none :=
      lookup?_of_anchor hw scope
    obtain ⟨levels, rfl⟩ := Nat.exists_eq_add_one_of_ne_zero (Nat.ne_of_gt hpos)
    exact ⟨hlookup.trans (w.above?_eq levels scope), hplace⟩
  · intro hnot
    exact lookup?_of_not_written hnot scope

/-- From a device two levels down: a name that the root scope has, one with a dot that only the
root can follow, and texts without a segment. -/
theorem searches_of_movedSubtree :
    ∃ ns, initial.run? movedSubtree = some ns ∧ ns.Reachable ∧
      ns.Nearest (.ofIndex 2) (.ofFour 0x5F 0x53 0x42 0x5F) (.ofIndex 1) ∧
      ns.lookup? (.ofIndex 2) "_SB.PCI0" =
        ((ns.place? (.ofIndex 2) "_SB.PCI0").bind fun r => ns.child? r.1 r.2) ∧
      ns.lookup? (.ofIndex 2) "_SB.PCI0" = none ∧ ns.lookup? .root "_SB.PCI0" = some (.ofIndex 2) ∧
      ns.lookup? .root "_SB.PCI0" ≠ some .root ∧
      ns.lookup? (.ofIndex 2) "\\" = some .root ∧ ns.above? 2 (.ofIndex 2) = some .root ∧
      ns.lookup? (.ofIndex 2) "^^" = ns.above? 2 (.ofIndex 2) ∧
      ns.place? (.ofIndex 2) "^^" = none ∧ ns.lookup? (.ofIndex 2) "^_SB..PCI0" = none := by
  have hc : ∃ ns ∈ initial.run? movedSubtree,
      ns.lookup? (.ofIndex 2) "_SB" = some (.ofIndex 1) ∧
      ns.lookup? (.ofIndex 2) "_SB.PCI0" = none ∧
      ns.lookup? .root "_SB.PCI0" = some (.ofIndex 2) ∧
      ns.above? 2 (.ofIndex 2) = some .root := by decide +kernel
  obtain ⟨ns, hr, hbare, hmiss, hdots, habove⟩ := hc
  have h : ns.Reachable := ⟨movedSubtree, allowed_movedSubtree, hr⟩
  have hplain : Path.Plain "_SB".toList := by decide
  have hnot : ¬Path.Plain "_SB.PCI0".toList := by decide
  obtain ⟨p, hp, hsegs⟩ : ∃ p, Path.ofText "_SB.PCI0" = .ok p ∧ p.segments ≠ [] :=
    ⟨_, rfl, by decide⟩
  have hbad : ¬∃ anchor segs, Path.Written "^_SB..PCI0".toList anchor segs := by
    rintro ⟨anchor, segs, hw⟩
    obtain ⟨q, hq, -⟩ := exists_ofText_of_written hw
    cases hq
  obtain ⟨-, name, hname, hnearest⟩ :=
    ((searches_of_reachable h (.ofIndex 2) "_SB").1 hplain _).1 hbare
  have hsb : name = .ofFour 0x5F 0x53 0x42 0x5F := NameSeg.bytes_inj.1 hname
  have hw := Path.written_of_ofChars hp
  have hinner := (searches_of_reachable h (.ofIndex 2) "_SB.PCI0").2.1 _ _ hw hsegs
  have houter := (searches_of_reachable h .root "_SB.PCI0").2.1 _ _ hw hsegs
  have hroot := (searches_of_reachable h (.ofIndex 2) "\\").2.2.1 rfl
  have hcarets := (searches_of_reachable h (.ofIndex 2) "^^").2.2.2.1 2 (by decide) rfl
  have hnone := (searches_of_reachable h (.ofIndex 2) "^_SB..PCI0").2.2.2.2 hbad
  exact ⟨ns, hr, h, hsb ▸ hnearest, hinner.1 hnot, hmiss, hdots, houter.2, hroot.1, habove,
    hcarets.1, hcarets.2, hnone.1⟩

end Acpi.Namespace
