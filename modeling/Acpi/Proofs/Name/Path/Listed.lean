import Acpi.Proofs.Name.Path.Grammar

namespace Acpi

/-- A change at the end of a path. -/
inductive PathEdit
  | push (seg : NameSeg)
  | pop
  deriving DecidableEq

/-- Whether the segment found room, or the segment that was taken off. -/
inductive PathAnswer
  | pushed (fits : Bool)
  | popped (seg : Option NameSeg)
  deriving DecidableEq

/-- Makes changes in turn and collects the answers. -/
def PathEdit.inTurn {α : Type} (edit : α → PathEdit → PathAnswer × α) (a : α) :
    List PathEdit → List PathAnswer × α
  | [] => ([], a)
  | e :: rest =>
    let (answer, a) := edit a e
    let (others, a) := inTurn edit a rest
    (answer :: others, a)

/-- A path kept as a list. -/
structure ListedPath where
  anchor : Anchor
  segments : List NameSeg
  deriving DecidableEq

namespace ListedPath

def edit (l : ListedPath) : PathEdit → PathAnswer × ListedPath
  | .push seg =>
    if l.segments.length < 16 then (.pushed true, { l with segments := l.segments ++ [seg] })
    else (.pushed false, l)
  | .pop => (.popped l.segments.getLast?, { l with segments := l.segments.dropLast })

def editAll (l : ListedPath) (edits : List PathEdit) : List PathAnswer × ListedPath :=
  PathEdit.inTurn edit l edits

theorem anchor_edit (l : ListedPath) (e : PathEdit) : (l.edit e).2.anchor = l.anchor := by
  cases e with
  | push seg =>
    rw [edit]
    split
    · rfl
    · rfl
  | pop => rfl

theorem anchor_editAll (l : ListedPath) (edits : List PathEdit) :
    (l.editAll edits).2.anchor = l.anchor := by
  induction edits generalizing l with
  | nil => rfl
  | cons e rest ih => exact (ih (l.edit e).2).trans (l.anchor_edit e)

def isBareName (l : ListedPath) : Bool :=
  decide (l.anchor = .relative) && l.segments.length == 1

def text (l : ListedPath) : String :=
  String.ofList l.anchor.chars ++ ".".intercalate (l.segments.map NameSeg.text)

end ListedPath

namespace Path

variable {p q : Path} {seg : NameSeg}

def edit (p : Path) : PathEdit → PathAnswer × Path
  | .push seg =>
    match p.push? seg with
    | some q => (.pushed true, q)
    | none => (.pushed false, p)
  | .pop =>
    match p.pop? with
    | some (seg, q) => (.popped (some seg), q)
    | none => (.popped none, p)

def editAll (p : Path) (edits : List PathEdit) : List PathAnswer × Path :=
  PathEdit.inTurn edit p edits

/-- All that is seen of a path. -/
def listed (p : Path) : ListedPath := ⟨p.anchor, p.segments⟩

theorem beq_iff_listed : (p == q) = true ↔ p.listed = q.listed := by
  rw [beq_iff, listed, listed, ListedPath.mk.injEq]

theorem isBareName_listed (p : Path) : p.listed.isBareName = p.isBareName := by
  rw [Bool.eq_iff_iff, isBareName_iff, ListedPath.isBareName, Bool.and_eq_true,
    decide_eq_true_iff, beq_iff_eq]
  rfl

theorem text_listed (p : Path) : p.listed.text = p.text := by
  have hchars : p.text.toList = p.chars := String.toList_ofList
  apply String.toList_injective
  rw [hchars, ListedPath.text, String.toList_append, String.toList_ofList,
    String.toList_intercalate, List.map_map]
  rfl

theorem listed_of_push? (h : p.push? seg = some q) :
    q.listed = ⟨p.anchor, p.segments ++ [seg]⟩ := by
  obtain ⟨hanchor, hsegs⟩ := segments_of_push? h
  rw [listed, hanchor, hsegs]

theorem edit_listed_push (p : Path) (seg : NameSeg) :
    p.listed.edit (.push seg) = ((p.edit (.push seg)).1, (p.edit (.push seg)).2.listed) := by
  cases h : p.push? seg with
  | none =>
    have hfull : ¬p.listed.segments.length < 16 := Nat.not_lt.2 (push?_eq_none.1 h).ge
    rw [ListedPath.edit, if_neg hfull, edit, h]
  | some q =>
    have hlen : q.segments.length = p.segments.length + 1 := length_of_push? h
    have hle : q.segments.length ≤ 16 := q.length_segments_le
    have hroom : p.listed.segments.length < 16 := Nat.lt_of_succ_le (hlen.ge.trans hle)
    rw [ListedPath.edit, if_pos hroom, edit, h]
    exact congrArg (PathAnswer.pushed true, ·) (listed_of_push? h).symm

theorem edit_listed_pop (p : Path) :
    p.listed.edit .pop = ((p.edit .pop).1, (p.edit .pop).2.listed) := by
  cases h : p.pop? with
  | none =>
    have hempty : p.segments = [] := pop?_eq_none.1 h
    simp [ListedPath.edit, edit, h, listed, hempty]
  | some r =>
    obtain ⟨seg, q⟩ := r
    obtain ⟨hanchor, hsegs⟩ := segments_of_pop? h
    simp [ListedPath.edit, edit, h, listed, hanchor, hsegs]

/-- The list answers a change as the path does, and is then the list of the path again. -/
theorem edit_listed (p : Path) (e : PathEdit) :
    p.listed.edit e = ((p.edit e).1, (p.edit e).2.listed) := by
  cases e with
  | push seg => exact edit_listed_push p seg
  | pop => exact edit_listed_pop p

theorem editAll_listed (p : Path) (edits : List PathEdit) :
    p.listed.editAll edits = ((p.editAll edits).1, (p.editAll edits).2.listed) := by
  induction edits generalizing p with
  | nil => rfl
  | cons e rest ih =>
    have hrest := ih (p.edit e).2
    simp only [ListedPath.editAll, editAll] at hrest
    simp only [ListedPath.editAll, editAll, PathEdit.inTurn, edit_listed, hrest]

/-- Whatever a path starts from, and whatever is added to it and taken off it, its answers and all
that is seen of it are those of the list; no change touches the anchor, and two paths are equal just
when their lists are. -/
theorem listed_of_edits :
    (∀ anchor, (ofAnchor anchor).listed = ⟨anchor, []⟩) ∧ root.listed = ⟨.root, []⟩ ∧
    (∀ text p, ofText text = .ok p →
      Written text.toList p.listed.anchor p.listed.segments) ∧
    (∀ (p : Path) (edits : List PathEdit), ∃ answers q l, p.editAll edits = (answers, q) ∧
      p.listed.editAll edits = (answers, l) ∧ q.anchor = p.anchor ∧ q.segments = l.segments ∧
      q.segments.length ≤ 16 ∧ q.depth = l.segments.length ∧ q.isBareName = l.isBareName ∧
      q.text = l.text) ∧
    ∀ (p q : Path) (edits others : List PathEdit),
      ((p.editAll edits).2 == (q.editAll others).2) = true ↔
        (p.listed.editAll edits).2 = (q.listed.editAll others).2 := by
  refine ⟨fun anchor => ?_, ?_, fun text p h => written_of_ofChars h, ?_, ?_⟩
  · rw [listed, segments_ofAnchor]
    rfl
  · rw [listed, root, segments_ofAnchor]
    rfl
  · intro p edits
    have hlist := editAll_listed p edits
    have hanchor := p.listed.anchor_editAll edits
    rw [hlist] at hanchor
    exact ⟨_, _, _, rfl, hlist, hanchor, rfl, length_segments_le _, (length_segments _).symm,
      (isBareName_listed _).symm, (text_listed _).symm⟩
  · intro p q edits others
    rw [beq_iff_listed, editAll_listed, editAll_listed]

example : (root.editAll (List.replicate 17 (.push .blank))).1 =
    List.replicate 16 (.pushed true) ++ [.pushed false] := by decide +kernel

/-- Two segments, the second of which is taken off. -/
def pushedAndPopped : List PathEdit :=
  [.push (.ofFour 0x50 0x43 0x49 0x30), .push (.ofFour 0x5F 0x48 0x49 0x44), .pop]

/-- The path that was read holds the same segment and is equal, though its buffer never held the
other one. -/
theorem listed_of_pushedAndPopped :
    ∃ p answers q l, ofText "^^PCI0" = .ok p ∧
      Written "^^PCI0".toList p.listed.anchor p.listed.segments ∧
      (ofAnchor (.parent 2)).editAll pushedAndPopped = (answers, q) ∧
      ListedPath.editAll ⟨.parent 2, []⟩ pushedAndPopped = (answers, l) ∧
      answers = [.pushed true, .pushed true, .popped (some (.ofFour 0x5F 0x48 0x49 0x44))] ∧
      q.text = "^^PCI0" ∧ p.slots.toList ≠ q.slots.toList ∧ (p == q) = true := by
  have hc : ∃ p ∈ (ofText "^^PCI0").toOption,
      p.listed = ⟨.parent 2, [.ofFour 0x50 0x43 0x49 0x30]⟩ ∧
      p.slots.toList ≠ ((ofAnchor (.parent 2)).editAll pushedAndPopped).2.slots.toList := by
    decide +kernel
  have hanswers : ((ofAnchor (.parent 2)).editAll pushedAndPopped).1 =
      [.pushed true, .pushed true, .popped (some (.ofFour 0x5F 0x48 0x49 0x44))] := by
    decide +kernel
  have hlist : (ListedPath.editAll ⟨.parent 2, []⟩ pushedAndPopped).2 =
      ⟨.parent 2, [.ofFour 0x50 0x43 0x49 0x30]⟩ := by decide +kernel
  have htext : ListedPath.text ⟨.parent 2, [.ofFour 0x50 0x43 0x49 0x30]⟩ = "^^PCI0" := by
    decide +kernel
  obtain ⟨p, hp, hpl, hslots⟩ := hc
  obtain ⟨hstart, -, hread, hedits, hequal⟩ := listed_of_edits
  obtain ⟨answers, q, l, hq, hql, -, -, -, -, -, hshown⟩ :=
    hedits (ofAnchor (.parent 2)) pushedAndPopped
  have hsame := hequal p (ofAnchor (.parent 2)) [] pushedAndPopped
  rw [hstart] at hql hsame
  rw [hq] at hanswers hslots hsame
  rw [hql] at hlist
  change l = _ at hlist
  have hok : ofText "^^PCI0" = .ok p := by
    cases h : ofText "^^PCI0" with
    | ok p' =>
      rw [h] at hp
      cases hp
      rfl
    | error e =>
      rw [h] at hp
      cases hp
  refine ⟨p, answers, q, l, hok, hread _ p hok, hq, hql, hanswers, ?_, hslots, hsame.2 ?_⟩
  · rw [hshown, hlist, htext]
  · rw [hql]
    exact hpl.trans hlist.symm

end Path

end Acpi
