import Acpi.Proofs.Name.Path.Grammar

namespace Acpi.Path

variable {p q : Path} {anchor : Anchor} {cs : List Char} {ps : List (List Char)}
  {segs : List NameSeg} {text : String}

/-- A path that has a written form. -/
structure Printable (p : Path) : Prop where
  textual : ∀ seg ∈ p.segments, NameSeg.Textual seg.bytes
  anchor_ne : p.anchor ≠ .parent 0
  segments_ne : p.anchor = .relative → p.segments ≠ []

instance (p : Path) : Decidable p.Printable :=
  decidable_of_iff ((∀ seg ∈ p.segments, NameSeg.Textual seg.bytes) ∧ p.anchor ≠ .parent 0 ∧
    (p.anchor = .relative → p.segments ≠ []))
    ⟨fun h => ⟨h.1, h.2.1, h.2.2⟩, fun h => ⟨h.textual, h.anchor_ne, h.segments_ne⟩⟩

theorem Printable.written (h : p.Printable) : Written p.chars p.anchor p.segments := by
  have hback : ∀ seg ∈ p.segments, utf8 seg.text.toList = seg.bytes :=
    fun seg hseg => NameSeg.utf8_text (h.textual seg hseg)
  refine ⟨p.segments.map fun seg => seg.text.toList, rfl, h.anchor_ne, ?_, ?_, ?_, ?_⟩
  · intro ha
    simpa using h.segments_ne ha
  · rw [List.length_map]
    exact p.length_segments_le
  · intro t ht
    obtain ⟨seg, hseg, rfl⟩ := List.mem_map.1 ht
    rw [hback seg hseg]
    exact h.textual seg hseg
  · rw [List.map_map]
    apply List.map_congr_left
    intro seg hseg
    have hlen : 4 - seg.bytes.length = 0 := by rw [seg.length_eq]
    simp [hback seg hseg, NameSeg.padded, hlen]

theorem Printable.exists_ofText (h : p.Printable) :
    ∃ q, ofText p.text = .ok q ∧ q.anchor = p.anchor ∧ q.segments = p.segments := by
  have hw : Written p.text.toList p.anchor p.segments := by
    rw [Path.text, String.toList_ofList]
    exact h.written
  exact ofChars_of_written hw

def isAnchorChar (c : Char) : Bool := c == '\\' || c == '^'

/-- A text with each of the pieces after its anchor filled up to four characters. -/
def fill (cs : List Char) : List Char :=
  let rest := cs.dropWhile isAnchorChar
  cs.takeWhile isAnchorChar ++
    if rest = [] then [] else List.intercalate ['.'] ((rest.splitOn '.').map NameSeg.fill)

def filled (text : String) : String := String.ofList (fill text.toList)

theorem isAnchorChar_of_mem {c : Char} (h : c ∈ anchor.chars) : isAnchorChar c = true := by
  cases anchor with
  | relative => cases h
  | root =>
    rw [List.mem_singleton.1 h]
    rfl
  | parent n =>
    rw [List.eq_of_mem_replicate h]
    rfl

theorem fill_append (ht : ∀ t ∈ ps, NameSeg.Textual (utf8 t)) :
    fill (anchor.chars ++ List.intercalate ['.'] ps) =
      anchor.chars ++ List.intercalate ['.'] (ps.map NameSeg.fill) := by
  have hfront : ∀ c ∈ anchor.chars, isAnchorChar c = true := fun c hc => isAnchorChar_of_mem hc
  have hstop : ∀ c, (List.intercalate ['.'] ps).head? = some c → isAnchorChar c = false := by
    intro c hc
    rw [← Bool.not_eq_true]
    intro hanchor
    have hname : NameSeg.isNameChar c = false := by
      rcases Bool.or_eq_true_iff.1 hanchor with h | h
      · rw [eq_of_beq h]
        rfl
      · rw [eq_of_beq h]
        rfl
    exact head?_intercalate_ne ht hname hc
  have hdots : ∀ t ∈ ps, '.' ∉ t := fun t hmem hdot =>
    absurd (isNameChar_of_mem (ht t hmem) hdot) (by decide)
  rw [fill, takeWhile_append_stop hfront hstop, dropWhile_append_stop hfront hstop]
  by_cases hps : ps = []
  · subst hps
    rfl
  · rw [if_neg (intercalate_ne_nil ht hps), List.splitOn_intercalate '.' hdots hps]

theorem map_text_of_padded (ht : ∀ t ∈ ps, NameSeg.Textual (utf8 t))
    (hb : segs.map NameSeg.bytes = ps.map fun t => NameSeg.padded (utf8 t)) :
    (segs.map fun seg => seg.text.toList) = ps.map NameSeg.fill := by
  induction segs generalizing ps with
  | nil =>
    have hps : ps = [] := List.map_eq_nil_iff.1 hb.symm
    rw [hps]
    rfl
  | cons seg segs ih =>
    obtain ⟨t, ps, rfl, hseg, hrest⟩ := List.map_eq_cons_iff.1 hb.symm
    have hfirst := NameSeg.text_of_padded (ht t List.mem_cons_self) hseg.symm
    have hothers := ih (fun u hu => ht u (List.mem_cons_of_mem t hu)) hrest.symm
    rw [List.map_cons, List.map_cons, hothers, hfirst]

theorem textual_of_padded (ht : ∀ t ∈ ps, NameSeg.Textual (utf8 t))
    (hb : segs.map NameSeg.bytes = ps.map fun t => NameSeg.padded (utf8 t)) :
    ∀ seg ∈ segs, NameSeg.Textual seg.bytes := by
  intro seg hseg
  have hmem := List.mem_map_of_mem (f := NameSeg.bytes) hseg
  rw [hb] at hmem
  obtain ⟨t, hmt, hpad⟩ := List.mem_map.1 hmem
  rw [← hpad]
  exact (ht t hmt).padded

/-- What was read prints as it was written, up to the filling. -/
theorem printable_of_written (h : Written cs p.anchor p.segments) :
    p.Printable ∧ p.chars = fill cs := by
  obtain ⟨ps, rfl, ha, hrel, -, ht, hb⟩ := h
  have htexts := map_text_of_padded ht hb
  constructor
  · refine ⟨textual_of_padded ht hb, ha, ?_⟩
    intro hanchor hnil
    have hps : ps = [] := by
      rw [hnil, List.map_nil] at hb
      exact List.map_eq_nil_iff.1 hb.symm
    exact hrel hanchor hps
  · rw [chars, htexts, fill_append ht]

theorem printable_of_ofText (h : ofText text = .ok p) :
    p.Printable ∧ p.text = filled text := by
  obtain ⟨hp, hchars⟩ := printable_of_written (written_of_ofChars h)
  refine ⟨hp, ?_⟩
  rw [Path.text, hchars, filled]

theorem text_congr (ha : p.anchor = q.anchor) (hs : p.segments = q.segments) :
    p.text = q.text := by
  rw [Path.text, Path.text, chars, chars, ha, hs]

/-- Paths with a written form are told apart by it. -/
theorem Printable.text_inj (hp : p.Printable) (hq : q.Printable) :
    p.text = q.text ↔ (p == q) = true := by
  rw [beq_iff]
  constructor
  · intro htext
    obtain ⟨p', hread, ha, hs⟩ := hp.exists_ofText
    obtain ⟨q', hread', ha', hs'⟩ := hq.exists_ofText
    have hsame : p' = q' := by
      rw [htext, hread'] at hread
      exact (Except.ok.inj hread).symm
    subst hsame
    exact ⟨ha.symm.trans ha', hs.symm.trans hs'⟩
  · rintro ⟨ha, hs⟩
    exact text_congr ha hs

/-- Printing and reading undo each other: a path with a written form is read back from its text, and
a text that is read prints filled up. So two texts stand for one path just when they are the same
once they are filled up. -/
theorem ofText_text_and_text_eq_filled :
    (∀ p : Path, p.Printable → ∃ q, ofText p.text = .ok q ∧ (q == p) = true) ∧
    (∀ text p, ofText text = .ok p → p.Printable ∧ p.text = filled text) ∧
    ∀ text other p q, ofText text = .ok p → ofText other = .ok q →
      ((p == q) = true ↔ filled text = filled other) := by
  refine ⟨?_, ?_, ?_⟩
  · intro p hp
    obtain ⟨q, hread, ha, hs⟩ := hp.exists_ofText
    exact ⟨q, hread, beq_iff.2 ⟨ha, hs⟩⟩
  · intro text p h
    exact printable_of_ofText h
  · intro text other p q h h'
    obtain ⟨hp, htext⟩ := printable_of_ofText h
    obtain ⟨hq, htext'⟩ := printable_of_ofText h'
    rw [← htext, ← htext', hp.text_inj hq]

/-- Two segments were added to it, and the last one was taken off again. -/
def poppedPath : Path :=
  let pushed := (ofAnchor (.parent 2)).pushAll
    [.ofFour 0x50 0x43 0x49 0x30, .ofFour 0x5F 0x48 0x49 0x44]
  (pushed.pop?.map Prod.snd).getD pushed

theorem ofText_text_of_poppedPath :
    poppedPath.Printable ∧ poppedPath.text = "^^PCI0" ∧
    (∃ q, ofText poppedPath.text = .ok q ∧ (q == poppedPath) = true) ∧
    ∃ p q, ofText "\\_SB.A" = .ok p ∧ ofText "\\_SB_.A__" = .ok q ∧ p.Printable ∧
      p.text = "\\_SB_.A___" ∧ (p == q) = true := by
  have hpopped : poppedPath.Printable := by decide +kernel
  have htext : poppedPath.text = "^^PCI0" := by decide +kernel
  have hshort : (ofText "\\_SB.A").toOption.isSome = true := by decide +kernel
  have hlong : (ofText "\\_SB_.A__").toOption.isSome = true := by decide +kernel
  have hfill : filled "\\_SB.A" = "\\_SB_.A___" := by decide +kernel
  have hfill' : filled "\\_SB.A" = filled "\\_SB_.A__" := by decide +kernel
  obtain ⟨hprint, hread, hsame⟩ := ofText_text_and_text_eq_filled
  cases hp : ofText "\\_SB.A" with
  | error e =>
    rw [hp] at hshort
    cases hshort
  | ok p =>
    cases hq : ofText "\\_SB_.A__" with
    | error e =>
      rw [hq] at hlong
      cases hlong
    | ok q =>
      obtain ⟨hpp, hpt⟩ := hread _ p hp
      exact ⟨hpopped, htext, hprint _ hpopped, p, q, rfl, rfl, hpp,
        hpt.trans hfill, (hsame _ _ p q hp hq).2 hfill'⟩

end Acpi.Path
