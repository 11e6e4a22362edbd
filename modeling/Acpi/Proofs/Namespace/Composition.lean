import Acpi.Proofs.Name.Path.Joined
import Acpi.Proofs.Name.Path.RoundTrip
import Acpi.Proofs.Namespace.Lookup
import Acpi.Proofs.Run

namespace Acpi.Namespace

variable {ns : Namespace} {scope start p : ObjectId} {name : NameSeg} {anchor : Anchor}
  {path r : Path} {segs front back : List NameSeg} {text : String}

/-- The place for a name in an object, which has to be a container. -/
def roomAt? (ns : Namespace) (p : ObjectId) (name : NameSeg) : Option (ObjectId × NameSeg) :=
  (ns.get? p).bind fun container => if container.isContainer then some (p, name) else none

theorem roomAt?_of_kind? {k : Kind} (hk : ns.kind? p = some k) (hcont : k.isContainer = true) :
    ns.roomAt? p name = some (p, name) := by
  obtain ⟨o, ho, rfl⟩ := Option.map_eq_some_iff.1 hk
  rw [roomAt?, ho]
  exact if_pos hcont

/-- The place at the end of some segments. -/
def placeFrom? (ns : Namespace) (start : ObjectId) (segs : List NameSeg) :
    Option (ObjectId × NameSeg) :=
  segs.getLast?.bind fun name => (ns.follow? start segs.dropLast).bind fun p => ns.roomAt? p name

theorem placeFrom?_concat (ns : Namespace) (start : ObjectId) (front : List NameSeg)
    (name : NameSeg) :
    ns.placeFrom? start (front ++ [name]) =
      (ns.follow? start front).bind fun p => ns.roomAt? p name := by
  rw [placeFrom?, List.getLast?_concat, List.dropLast_concat]
  rfl

theorem placePath?_eq (ns : Namespace) (scope : ObjectId) (path : Path) :
    ns.placePath? scope path =
      (ns.anchored? scope path.anchor).bind fun start => ns.placeFrom? start path.segments := by
  cases hlast : path.segments.getLast? with
  | none => simp [placePath?, placeFrom?, hlast]
  | some name => simp [placePath?, placeFrom?, roomAt?, hlast]

theorem placePath?_relative (hs : ns.contains start = true) (hrel : path.anchor = .relative) :
    ns.placePath? start path = ns.placeFrom? start path.segments := by
  rw [placePath?_eq, hrel, anchored?, if_pos hs, Option.bind_some]

theorem placePath?_singleton (hrel : path.anchor = .relative) (hsegs : path.segments = [name])
    {k : Kind} (hk : ns.kind? start = some k) (hcont : k.isContainer = true) :
    ns.placePath? start path = some (start, name) := by
  have hlast : ns.placeFrom? start [name] = ns.roomAt? start name :=
    ns.placeFrom?_concat start [] name
  rw [placePath?_relative (contains_of_kind? hk) hrel, hsegs, hlast, roomAt?_of_kind? hk hcont]

theorem place?_of_ofText (h : Path.ofText text = .ok path) :
    ns.place? scope text = ns.placePath? scope path := by
  rw [place?, h]

theorem lookup?_of_ofText (h : Path.ofText text = .ok path) :
    ns.lookup? scope text = ns.lookupPath? scope path := by
  rw [lookup?, h]

theorem lookupPath?_of_not_bare (h : path.bareName? = none) :
    ns.lookupPath? scope path =
      (ns.anchored? scope path.anchor).bind fun start => ns.follow? start path.segments := by
  rw [lookupPath?, h]

theorem bareName?_of_anchor (h : path.anchor ≠ .relative) : path.bareName? = none := by
  rw [Option.eq_none_iff_forall_ne_some]
  intro name hname
  exact h (Path.bareName?_eq_some.1 hname).1

theorem anchored?_of_short {levels : Nat} (h : (ns.ancestors scope).length < levels) :
    ns.anchored? scope (.parent levels) = none := by
  cases levels with
  | zero => rfl
  | succ levels => exact List.getElem?_eq_none (Nat.le_of_lt_succ h)

namespace WellFormed

/-- One more caret starts in the scope around. -/
theorem anchored?_outer (w : ns.WellFormed) (hroot : anchor ≠ .root)
    (hzero : anchor ≠ .parent 0) :
    ns.anchored? scope anchor.outer =
      (ns.parent? scope).bind fun around => ns.anchored? around anchor := by
  cases hup : ns.parent? scope with
  | none =>
    have htop := ancestors_of_top hup
    cases anchor with
    | root => exact absurd rfl hroot
    | relative => simp [Anchor.outer, anchored?, htop]
    | parent levels => simp [Anchor.outer, anchored?, htop]
  | some around =>
    have hline := w.climbs.ancestors_of_parent? hup
    have haround := w.contains_parent hup
    rw [Option.bind_some]
    cases anchor with
    | root => exact absurd rfl hroot
    | relative => simp [Anchor.outer, anchored?, hline, haround, lineage]
    | parent levels =>
      cases levels with
      | zero => exact absurd rfl hzero
      | succ levels => simp [Anchor.outer, anchored?, hline, lineage]

/-- A name that is taken is so in a container, and the check for one changes nothing. -/
theorem bind_roomAt? (w : ns.WellFormed) (p : ObjectId) (name : NameSeg) :
    ((ns.roomAt? p name).bind fun r => ns.child? r.1 r.2) = ns.child? p name := by
  cases hc : ns.child? p name with
  | none =>
    cases ho : ns.get? p with
    | none => simp [roomAt?, ho]
    | some o =>
      by_cases hcont : o.isContainer = true
      · simp [roomAt?, ho, hcont, hc]
      · simp [roomAt?, ho, hcont]
  | some c =>
    obtain ⟨k, hk, hcont⟩ := w.container (w.parent?_of_child? hc)
    rw [roomAt?_of_kind? hk hcont, Option.bind_some, hc]

/-- More segments lead on from the object at the place that the first ones found. -/
theorem placeFrom?_append (w : ns.WellFormed) (start : ObjectId) (hfront : front ≠ [])
    (hback : back ≠ []) :
    ns.placeFrom? start (front ++ back) =
      (ns.placeFrom? start front).bind fun r =>
        (ns.child? r.1 r.2).bind fun i => ns.placeFrom? i back := by
  obtain ⟨front, name, rfl⟩ := (List.eq_nil_or_concat' front).resolve_left hfront
  obtain ⟨back, last, rfl⟩ := (List.eq_nil_or_concat' back).resolve_left hback
  have hstep : ∀ q, ((ns.roomAt? q name).bind fun r =>
      (ns.child? r.1 r.2).bind fun i => ns.placeFrom? i (back ++ [last])) =
        (ns.child? q name).bind fun i => ns.placeFrom? i (back ++ [last]) := by
    intro q
    rw [← Option.bind_assoc, w.bind_roomAt?]
  calc ns.placeFrom? start (front ++ [name] ++ (back ++ [last]))
    _ = (ns.follow? start (front ++ [name] ++ back)).bind fun q => ns.roomAt? q last := by
      rw [← List.append_assoc, placeFrom?_concat]
    _ = (ns.follow? start front).bind fun q =>
          (ns.child? q name).bind fun i => ns.placeFrom? i (back ++ [last]) := by
      simp only [follow?_append, follow?_singleton, Option.bind_assoc, placeFrom?_concat]
    _ = (ns.placeFrom? start (front ++ [name])).bind fun r =>
          (ns.child? r.1 r.2).bind fun i => ns.placeFrom? i (back ++ [last]) := by
      rw [placeFrom?_concat, Option.bind_assoc]
      simp only [hstep]

theorem place?_dot (w : ns.WellFormed) (scope : ObjectId) {front back : String} {p q : Path}
    (hp : Path.ofText front = .ok p) (hq : Path.ofText back = .ok q) (hsegs : p.segments ≠ [])
    (hrel : q.anchor = .relative)
    (hl : p.segments.length + q.segments.length ≤ Path.capacity) :
    ns.place? scope (front ++ "." ++ back) =
      (ns.place? scope front).bind fun r =>
        (ns.child? r.1 r.2).bind fun i => ns.place? i back := by
  obtain ⟨r, hr, ha, hs⟩ := Path.ofText_dot hp hq hsegs hrel hl
  have hback : q.segments ≠ [] := (Path.printable_of_ofText hq).1.segments_ne hrel
  have hstep : ∀ a name, ((ns.child? a name).bind fun i => ns.placeFrom? i q.segments) =
      (ns.child? a name).bind fun i => ns.place? i back := by
    intro a name
    cases hc : ns.child? a name with
    | none => rfl
    | some i =>
      have hi := w.grounded.contains_of_child? hc
      rw [Option.bind_some, Option.bind_some, place?_of_ofText hq,
        placePath?_relative hi hrel]
  rw [place?_of_ofText hr, place?_of_ofText hp, placePath?_eq, placePath?_eq, ha, hs,
    Option.bind_assoc]
  congr 1
  funext start
  rw [w.placeFrom?_append start hsegs hback]
  congr 1
  funext found
  exact hstep found.1 found.2

theorem place?_caret (w : ns.WellFormed) (scope : ObjectId) (h : Path.ofText text = .ok path)
    (hroot : path.anchor ≠ .root) :
    ns.place? scope ("^" ++ text) =
      (ns.parent? scope).bind fun around => ns.place? around text := by
  obtain ⟨r, hr, ha, hs⟩ := Path.ofText_caret h hroot
  simp only [place?_of_ofText hr, place?_of_ofText h, placePath?_eq, ha, hs,
    w.anchored?_outer hroot (Path.printable_of_ofText h).1.anchor_ne, Option.bind_assoc]

theorem lookup?_caret (w : ns.WellFormed) (scope : ObjectId) (h : Path.ofText text = .ok path)
    (hroot : path.anchor ≠ .root) (hbare : path.bareName? = none) :
    ns.lookup? scope ("^" ++ text) =
      (ns.parent? scope).bind fun around => ns.lookup? around text := by
  obtain ⟨r, hr, ha, hs⟩ := Path.ofText_caret h hroot
  have hr' : r.bareName? = none := by
    apply bareName?_of_anchor
    rw [ha]
    exact path.anchor.outer_ne_relative
  simp only [lookup?_of_ofText hr, lookup?_of_ofText h, lookupPath?_of_not_bare hr',
    lookupPath?_of_not_bare hbare, ha, hs,
    w.anchored?_outer hroot (Path.printable_of_ofText h).1.anchor_ne, Option.bind_assoc]

end WellFormed

/-- With more carets than there are scopes around, nothing is found. -/
theorem place?_and_lookup?_of_carets {carets : Nat} (rest : String)
    (h : (ns.ancestors scope).length < carets) :
    ns.place? scope (String.ofList (List.replicate carets '^') ++ rest) = none ∧
      ns.lookup? scope (String.ofList (List.replicate carets '^') ++ rest) = none := by
  have hpos : 0 < carets := Nat.zero_lt_of_lt h
  cases hp : Path.ofText (String.ofList (List.replicate carets '^') ++ rest) with
  | error e => exact ⟨by rw [place?, hp], by rw [lookup?, hp]⟩
  | ok path =>
    obtain ⟨levels, hle, ha⟩ := Path.anchor_of_carets hpos hp
    have hanchor : ns.anchored? scope path.anchor = none := by
      rw [ha]
      exact anchored?_of_short (Nat.lt_of_lt_of_le h hle)
    have hbare : path.bareName? = none := by
      apply bareName?_of_anchor
      simp [ha]
    rw [place?_of_ofText hp, lookup?_of_ofText hp, placePath?_eq, lookupPath?_of_not_bare hbare,
      hanchor]
    exact ⟨rfl, rfl⟩

/-- Places are found part by part: a single segment is for the scope itself, what comes after a dot
is read in the object named before it, a caret in front hands the rest to the scope around, and so
it does for what is looked up. More carets than scopes around lead nowhere. -/
theorem places_compose_of_reachable (h : ns.Reachable) (scope : ObjectId) :
    (∀ (text : String) (p : Path) (name : NameSeg) (k : Kind), Path.ofText text = .ok p →
      p.anchor = .relative → p.segments = [name] → ns.kind? scope = some k →
      k.isContainer = true → ns.place? scope text = some (scope, name)) ∧
    (∀ (front back : String) (p q : Path), Path.ofText front = .ok p → p.segments ≠ [] →
      Path.ofText back = .ok q → q.anchor = .relative →
      p.segments.length + q.segments.length ≤ Path.capacity →
      ns.place? scope (front ++ "." ++ back) =
        (ns.place? scope front).bind fun r =>
          (ns.child? r.1 r.2).bind fun i => ns.place? i back) ∧
    (∀ (text : String) (p : Path), Path.ofText text = .ok p → p.anchor ≠ .root →
      ns.place? scope ("^" ++ text) =
        ((ns.parent? scope).bind fun around => ns.place? around text) ∧
      (p.isBareName = false → ns.lookup? scope ("^" ++ text) =
        (ns.parent? scope).bind fun around => ns.lookup? around text)) ∧
    ∀ (carets : Nat) (rest : String), (ns.ancestors scope).length < carets →
      ns.place? scope (String.ofList (List.replicate carets '^') ++ rest) = none ∧
        ns.lookup? scope (String.ofList (List.replicate carets '^') ++ rest) = none := by
  have w := h.wellFormed
  refine ⟨?_, ?_, ?_, ?_⟩
  · intro text p name k hp hrel hsegs hk hcont
    rw [place?_of_ofText hp, placePath?_singleton hrel hsegs hk hcont]
  · intro front back p q hp hsegs hq hrel hl
    exact w.place?_dot scope hp hq hsegs hrel hl
  · intro text p hp hroot
    refine ⟨w.place?_caret scope hp hroot, fun hbare => ?_⟩
    exact w.lookup?_caret scope hp hroot (by simpa [Path.isBareName] using hbare)
  · intro carets rest hcarets
    exact place?_and_lookup?_of_carets rest hcarets

/-- A device two levels down, from where a third caret leads nowhere. -/
theorem places_compose_of_movedSubtree :
    ∃ ns, initial.run? movedSubtree = some ns ∧ ns.Reachable ∧
      ns.place? .root "\\_SB.PCI0.NEW" =
        ((ns.place? .root "\\_SB").bind fun r =>
          (ns.child? r.1 r.2).bind fun i => ns.place? i "PCI0.NEW") ∧
      (ns.place? .root "\\_SB.PCI0.NEW").isSome = true ∧
      ns.lookup? (.ofIndex 2) "^^_SB" =
        ((ns.parent? (.ofIndex 2)).bind fun around => ns.lookup? around "^_SB") ∧
      ns.lookup? (.ofIndex 2) "^^_SB" = some (.ofIndex 1) ∧
      ns.lookup? (.ofIndex 2) (String.ofList (List.replicate 3 '^') ++ "_SB") = none := by
  have hc : ∃ ns ∈ initial.run? movedSubtree,
      (ns.place? .root "\\_SB.PCI0.NEW").isSome = true ∧
      ns.lookup? (.ofIndex 2) "^^_SB" = some (.ofIndex 1) ∧
      (ns.ancestors (.ofIndex 2)).length < 3 := by decide +kernel
  obtain ⟨ns, hr, hplace, hlookup, hshort⟩ := hc
  have h : ns.Reachable := ⟨movedSubtree, allowed_movedSubtree, hr⟩
  obtain ⟨p, hp, hsegs, hlen⟩ : ∃ p, Path.ofText "\\_SB" = .ok p ∧ p.segments ≠ [] ∧
    p.segments.length = 1 := ⟨_, rfl, by decide, by decide⟩
  obtain ⟨q, hq, hrel, hlen'⟩ : ∃ q, Path.ofText "PCI0.NEW" = .ok q ∧ q.anchor = .relative ∧
    q.segments.length = 2 := ⟨_, rfl, by decide, by decide⟩
  obtain ⟨u, hu, hroot, hbare⟩ : ∃ u, Path.ofText "^_SB" = .ok u ∧ u.anchor ≠ .root ∧
    u.isBareName = false := ⟨_, rfl, by decide, by decide⟩
  have hl : p.segments.length + q.segments.length ≤ Path.capacity := by
    rw [hlen, hlen']
    decide
  have hroots := places_compose_of_reachable h .root
  have hinner := places_compose_of_reachable h (.ofIndex 2)
  exact ⟨ns, hr, h, hroots.2.1 _ _ p q hp hsegs hq hrel hl, hplace,
    (hinner.2.2.1 _ u hu hroot).2 hbare, hlookup, (hinner.2.2.2 3 "_SB" hshort).2⟩

end Acpi.Namespace
