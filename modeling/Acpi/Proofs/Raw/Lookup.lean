import Acpi.Proofs.Namespace.Lookup
import Acpi.Proofs.Raw.Ascent

namespace Acpi.Namespace

variable {ns : Namespace} {scope start : ObjectId} {name : NameSeg} {path : Path}

def firstNamedRaw (ns : Namespace) (name : NameSeg) : List ObjectId → Except Halt (Option ObjectId)
  | [] => .ok none
  | c :: rest => do
    let o ← demand (ns.get? c)
    if o.name = some name then return some c else ns.firstNamedRaw name rest

def childRaw (ns : Namespace) (scope : ObjectId) (name : NameSeg) :
    Except Halt (Option ObjectId) :=
  ns.firstNamedRaw name (ns.children scope)

def followRaw (ns : Namespace) (start : ObjectId) : List NameSeg → Except Halt (Option ObjectId)
  | [] => .ok (some start)
  | seg :: rest => do
    match ← ns.childRaw start seg with
    | some c => ns.followRaw c rest
    | none => return none

def anchoredRaw (ns : Namespace) (steps : Nat) (scope : ObjectId) :
    Anchor → Except Halt (Option ObjectId)
  | .relative => .ok (if ns.contains scope then some scope else none)
  | .root => .ok (some .root)
  | .parent 0 => .ok none
  | .parent (levels + 1) => (ns.ascent scope).nth ns steps levels

def searchRaw (ns : Namespace) (steps : Nat) (scope : ObjectId) (name : NameSeg) :
    Except Halt (Option ObjectId) := do
  match ← ns.childRaw scope name with
  | some found => return some found
  | none => (ns.ascent scope).seek ns (fun s => ns.childRaw s name) steps

def lookupPathRaw (ns : Namespace) (steps : Nat) (scope : ObjectId) (path : Path) :
    Except Halt (Option ObjectId) :=
  if path.isBareName then do
    let name ← demand path.segments[0]?
    ns.searchRaw steps scope name
  else do
    match ← ns.anchoredRaw steps scope path.anchor with
    | none => return none
    | some start =>
      match path.segments.getLast? with
      | none => return some start
      | some name =>
        match ← ns.followRaw start path.segments.dropLast with
        | none => return none
        | some parent => ns.childRaw parent name

def lookupRaw (ns : Namespace) (steps : Nat) (scope : ObjectId) (text : String) :
    Except Halt (Option ObjectId) :=
  match Path.ofText text with
  | .ok path => ns.lookupPathRaw steps scope path
  | .error _ => .ok none

def placePathRaw (ns : Namespace) (steps : Nat) (scope : ObjectId) (path : Path) :
    Except Halt (Option (ObjectId × NameSeg)) :=
  match path.segments.getLast? with
  | none => .ok none
  | some name => do
    match ← ns.anchoredRaw steps scope path.anchor with
    | none => return none
    | some start =>
      match ← ns.followRaw start path.segments.dropLast with
      | none => return none
      | some parent =>
        let container ← demand (ns.get? parent)
        return if container.isContainer then some (parent, name) else none

def placeRaw (ns : Namespace) (steps : Nat) (scope : ObjectId) (text : String) :
    Except Halt (Option (ObjectId × NameSeg)) :=
  match Path.ofText text with
  | .ok path => ns.placePathRaw steps scope path
  | .error _ => .ok none

theorem firstNamedRaw_eq {ids : List ObjectId} (h : ∀ c ∈ ids, ns.contains c = true) :
    ns.firstNamedRaw name ids = .ok (ids.find? fun c => ns.name? c == some name) := by
  induction ids with
  | nil => rfl
  | cons c rest ih =>
    obtain ⟨o, ho⟩ := get?_of_contains (h c List.mem_cons_self)
    have hrest := ih fun d hd => h d (List.mem_cons_of_mem c hd)
    have hname : ns.name? c = o.name := by rw [Namespace.name?, ho, Option.bind_some]
    rw [firstNamedRaw, demand_get? ho, List.find?_cons, hname]
    by_cases hn : o.name = some name
    · have hfirst : (o.name == some name) = true := by simpa using hn
      rw [hfirst]
      exact if_pos hn
    · have hother : (o.name == some name) = false := by simpa using hn
      rw [hother]
      exact (if_neg hn).trans hrest

namespace Grounded

theorem childRaw_eq (g : ns.Grounded) (scope : ObjectId) (name : NameSeg) :
    ns.childRaw scope name = .ok (ns.child? scope name) :=
  firstNamedRaw_eq fun _ hc => g.contains_child hc

theorem followRaw_eq (g : ns.Grounded) (start : ObjectId) (segs : List NameSeg) :
    ns.followRaw start segs = .ok (ns.follow? start segs) := by
  induction segs generalizing start with
  | nil => rfl
  | cons seg rest ih =>
    rw [followRaw, follow?, g.childRaw_eq]
    cases ns.child? start seg with
    | none => rfl
    | some c => exact ih c

theorem yields_anchoredRaw (g : ns.Grounded) (steps : Nat) (scope : ObjectId) (anchor : Anchor) :
    Yields ns.size steps (ns.anchoredRaw steps scope anchor) (ns.anchored? scope anchor) := by
  cases anchor with
  | relative => exact .ok _ _ (ns.anchored? scope .relative)
  | root => exact .ok _ _ (some ObjectId.root)
  | parent levels =>
    cases levels with
    | zero => exact .ok _ _ none
    | succ levels => exact g.climbs.yields_nth steps levels scope

theorem yields_searchRaw (g : ns.Grounded) (steps : Nat) (scope : ObjectId) (name : NameSeg) :
    Yields ns.size steps (ns.searchRaw steps scope name) (ns.search? scope name) := by
  rw [searchRaw, search?, lineage, List.findSome?_cons, g.childRaw_eq]
  cases ns.child? scope name with
  | some found => exact .ok _ _ (some found)
  | none => exact g.climbs.yields_seek (fun s => g.childRaw_eq s name) steps scope

theorem yields_lookupPathRaw (g : ns.Grounded) (steps : Nat) (scope : ObjectId) (path : Path) :
    Yields ns.size steps (ns.lookupPathRaw steps scope path) (ns.lookupPath? scope path) := by
  cases hbare : path.bareName? with
  | some name =>
    have hsegs := (Path.bareName?_eq_some.1 hbare).2
    rw [lookupPathRaw, lookupPath?, Path.isBareName, hbare, hsegs]
    exact g.yields_searchRaw steps scope name
  | none =>
    rw [lookupPathRaw, lookupPath?, Path.isBareName, hbare]
    refine (g.yields_anchoredRaw steps scope path.anchor).bind ?_
    cases ns.anchored? scope path.anchor with
    | none => exact .ok _ _ none
    | some start =>
      rcases List.eq_nil_or_concat' path.segments with hnil | ⟨front, last, hsegs⟩
      · rw [hnil]
        exact .ok _ _ (some start)
      · rw [hsegs, Option.bind_some, follow?_append, List.getLast?_concat, List.dropLast_concat]
        refine Yields.bind (.inl (g.followRaw_eq start front)) ?_
        cases ns.follow? start front with
        | none => exact .ok _ _ none
        | some parent =>
          rw [Option.bind_some, follow?_singleton]
          exact .inl (g.childRaw_eq parent last)

/-- A lookup takes nothing for granted that is not there, and goes up as far as it has to. -/
theorem yields_lookupRaw (g : ns.Grounded) (steps : Nat) (scope : ObjectId) (text : String) :
    Yields ns.size steps (ns.lookupRaw steps scope text) (ns.lookup? scope text) := by
  rw [lookupRaw, lookup?]
  cases Path.ofText text with
  | ok path => exact g.yields_lookupPathRaw steps scope path
  | error e => exact .ok _ _ none

theorem yields_placePathRaw (g : ns.Grounded) (steps : Nat) (scope : ObjectId) (path : Path) :
    Yields ns.size steps (ns.placePathRaw steps scope path) (ns.placePath? scope path) := by
  rw [placePathRaw, placePath?]
  cases path.segments.getLast? with
  | none => exact .ok _ _ none
  | some name =>
    rw [Option.bind_eq_bind, Option.bind_some]
    refine (g.yields_anchoredRaw steps scope path.anchor).bind ?_
    cases hstart : ns.anchored? scope path.anchor with
    | none => exact .ok _ _ none
    | some start =>
      rw [Option.bind_eq_bind, Option.bind_some]
      refine Yields.bind (.inl (g.followRaw_eq start path.segments.dropLast)) ?_
      cases hparent : ns.follow? start path.segments.dropLast with
      | none => exact .ok _ _ none
      | some parent =>
        have hanchor := g.contains_of_anchored? hstart
        obtain ⟨container, hget⟩ := get?_of_contains (g.contains_of_follow? hanchor hparent)
        rw [Option.bind_eq_bind, Option.bind_some, hget, Option.bind_some]
        refine Yields.bind (.inl (demand_get? hget)) ?_
        exact .ok _ _ (if container.isContainer then some (parent, name) else none)

theorem yields_placeRaw (g : ns.Grounded) (steps : Nat) (scope : ObjectId) (text : String) :
    Yields ns.size steps (ns.placeRaw steps scope text) (ns.place? scope text) := by
  rw [placeRaw, place?]
  cases Path.ofText text with
  | ok path => exact g.yields_placePathRaw steps scope path
  | error e => exact .ok _ _ none

end Grounded

end Acpi.Namespace
