import Acpi.Name.Segment

namespace Acpi

/-- Where a path starts: in the current scope, at the root, or some levels up. -/
inductive Anchor
  | relative
  | root
  | parent (levels : Nat)
  deriving DecidableEq

namespace Path

def capacity : Nat := 16

end Path

structure Path where
  anchor : Anchor
  slots : Vector NameSeg Path.capacity
  depth : Nat
  depth_le : depth ≤ Path.capacity

namespace Path

def ofAnchor (anchor : Anchor) : Path :=
  ⟨anchor, Vector.replicate capacity NameSeg.blank, 0, Nat.zero_le _⟩

def root : Path := ofAnchor .root

instance : Inhabited Path := ⟨root⟩

def segments (p : Path) : List NameSeg := p.slots.toList.take p.depth

@[simp] theorem length_segments (p : Path) : p.segments.length = p.depth := by
  simp [segments, Nat.min_eq_left p.depth_le]

@[simp] theorem segments_ofAnchor (a : Anchor) : (ofAnchor a).segments = [] := by
  simp [ofAnchor, segments]

/-- Two paths are equal when their anchors and their segments in use are. -/
instance : BEq Path := ⟨fun p q => p.anchor == q.anchor && p.segments == q.segments⟩

theorem beq_iff {p q : Path} :
    (p == q) = true ↔ p.anchor = q.anchor ∧ p.segments = q.segments := by
  change (p.anchor == q.anchor && p.segments == q.segments) = true ↔ _
  simp

/-- The path with one more segment, unless it is full. -/
def push? (p : Path) (seg : NameSeg) : Option Path :=
  if h : p.depth < capacity then
    some ⟨p.anchor, p.slots.set p.depth seg h, p.depth + 1, h⟩
  else none

theorem push?_eq_none {p : Path} {seg : NameSeg} :
    p.push? seg = none ↔ p.segments.length = capacity := by
  have := p.depth_le
  simp only [push?, length_segments]
  split <;> simp <;> omega

theorem segments_of_push? {p q : Path} {seg : NameSeg} (h : p.push? seg = some q) :
    q.anchor = p.anchor ∧ q.segments = p.segments ++ [seg] := by
  simp only [push?] at h
  split at h
  next hd =>
    cases h
    refine ⟨rfl, ?_⟩
    have hl : p.depth < p.slots.toList.length := by simpa using hd
    simp only [segments, Vector.toList_set]
    rw [List.take_add_one, List.take_set_of_le (Nat.le_refl _), List.getElem?_set_self hl]
    rfl
  · cases h

/-- The last segment and the path without it. -/
def pop? (p : Path) : Option (NameSeg × Path) :=
  if h : 0 < p.depth then
    have hd := p.depth_le
    some (p.slots[p.depth - 1], ⟨p.anchor, p.slots, p.depth - 1, by omega⟩)
  else none

theorem pop?_eq_none {p : Path} : p.pop? = none ↔ p.segments = [] := by
  rw [← List.length_eq_zero_iff, length_segments]
  simp only [pop?]
  split <;> simp <;> omega

theorem segments_of_pop? {p q : Path} {seg : NameSeg} (h : p.pop? = some (seg, q)) :
    q.anchor = p.anchor ∧ p.segments = q.segments ++ [seg] := by
  simp only [pop?] at h
  split at h
  next hd =>
    cases h
    refine ⟨rfl, ?_⟩
    have hle := p.depth_le
    have hl : p.depth - 1 < p.slots.toList.length := by simp; omega
    have ht := List.take_add_one (l := p.slots.toList) (i := p.depth - 1)
    rw [Nat.sub_add_cancel hd] at ht
    simp only [segments]
    rw [ht, List.getElem?_eq_getElem hl]
    simp
  · cases h

/-- Adds segments until the path is full. -/
def pushAll (p : Path) : List NameSeg → Path
  | [] => p
  | seg :: rest =>
    match p.push? seg with
    | some q => q.pushAll rest
    | none => p

theorem anchor_pushAll (p : Path) (segs : List NameSeg) :
    (p.pushAll segs).anchor = p.anchor := by
  induction segs generalizing p with
  | nil => rfl
  | cons seg rest ih =>
    simp only [pushAll]
    split
    next q h => exact (ih q).trans (segments_of_push? h).1
    · rfl

theorem segments_pushAll (p : Path) (segs : List NameSeg) :
    (p.pushAll segs).segments = (p.segments ++ segs).take capacity := by
  induction segs generalizing p with
  | nil =>
    have h : p.segments.length ≤ capacity := by simpa using p.depth_le
    simp [pushAll, List.take_of_length_le h]
  | cons seg rest ih =>
    simp only [pushAll]
    split
    next q h => rw [ih q, (segments_of_push? h).2]; simp
    next h =>
      rw [List.take_append_of_le_length (Nat.le_of_eq (push?_eq_none.1 h).symm),
        List.take_of_length_le (Nat.le_of_eq (push?_eq_none.1 h))]

/-- The single segment of a path without an anchor; only such a name is searched for in the
enclosing scopes. -/
def bareName? (p : Path) : Option NameSeg :=
  match p.anchor, p.segments with
  | .relative, [name] => some name
  | _, _ => none

theorem bareName?_eq_some {p : Path} {name : NameSeg} :
    p.bareName? = some name ↔ p.anchor = .relative ∧ p.segments = [name] := by
  simp only [bareName?]
  split
  next seg ha hs => simp [ha, hs]
  next h =>
    simp only [reduceCtorEq, false_iff]
    rintro ⟨ha, hs⟩
    exact h name ha hs

def isBareName (p : Path) : Bool := p.bareName?.isSome

theorem isBareName_iff {p : Path} :
    p.isBareName = true ↔ p.anchor = .relative ∧ p.segments.length = 1 := by
  simp only [isBareName, Option.isSome_iff_exists, bareName?_eq_some, exists_and_left,
    List.length_eq_one_iff]

end Path

end Acpi
