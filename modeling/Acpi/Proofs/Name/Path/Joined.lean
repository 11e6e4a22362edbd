import Acpi.Proofs.Name.Path.Grammar

namespace Acpi

variable {p q : Path} {anchor : Anchor} {cs ds rest : List Char} {ps qs : List (List Char)}
  {segs others : List NameSeg} {text front back : String}

namespace Anchor

/-- The anchor with one more caret. -/
def outer : Anchor → Anchor
  | .relative => .parent 1
  | .root => .root
  | .parent levels => .parent (levels + 1)

theorem chars_outer (h : anchor ≠ .root) : anchor.outer.chars = '^' :: anchor.chars := by
  cases anchor with
  | root => exact absurd rfl h
  | relative => rfl
  | parent levels => exact List.replicate_succ

theorem outer_ne_relative (anchor : Anchor) : anchor.outer ≠ .relative := by
  cases anchor <;> simp [outer]

theorem outer_ne_parent_zero (anchor : Anchor) : anchor.outer ≠ .parent 0 := by
  cases anchor <;> simp [outer]

theorem exists_starts_carets {n : Nat} (hn : 0 < n) (rest : List Char) :
    ∃ levels after, n ≤ levels ∧
      Starts (.parent levels) (List.replicate n '^' ++ rest) after := by
  obtain ⟨levels, after, hcs, hafter⟩ := exists_carets (List.replicate n '^' ++ rest)
  have hle : n ≤ levels := by
    have htaken := takeWhile_carets levels hafter
    rw [← hcs, List.takeWhile_append_of_pos (by simp)] at htaken
    have hlen := congrArg List.length htaken
    rw [List.length_append, List.length_replicate, List.length_replicate] at hlen
    omega
  refine ⟨levels, after, hle, ?_⟩
  rw [hcs]
  exact .parent (Nat.lt_of_lt_of_le hn hle) hafter

end Anchor

namespace Path

theorem intercalate_append (hps : ps ≠ []) (hqs : qs ≠ []) :
    List.intercalate ['.'] (ps ++ qs) =
      List.intercalate ['.'] ps ++ '.' :: List.intercalate ['.'] qs := by
  induction ps with
  | nil => exact absurd rfl hps
  | cons t ps ih =>
    cases ps with
    | nil =>
      obtain ⟨u, qs, rfl⟩ := List.exists_cons_of_ne_nil hqs
      simp
    | cons u ps =>
      have htail := ih (by simp)
      rw [List.cons_append, List.cons_append, List.intercalate_cons_cons, ← List.cons_append,
        htail, List.intercalate_cons_cons]
      simp

theorem Written.dot (h : Written cs anchor segs) (hback : Written ds .relative others)
    (hsegs : segs ≠ []) (hl : segs.length + others.length ≤ capacity) :
    Written (cs ++ '.' :: ds) anchor (segs ++ others) := by
  obtain ⟨ps, rfl, hp, -, -, ht, hb⟩ := h
  obtain ⟨qs, rfl, -, hqs, -, hu, hc⟩ := hback
  have hps : ps ≠ [] := by
    intro hnil
    rw [hnil] at hb
    exact hsegs (List.map_eq_nil_iff.1 hb)
  have hlen : segs.length = ps.length := by simpa using congrArg List.length hb
  have hlen' : others.length = qs.length := by simpa using congrArg List.length hc
  refine ⟨ps ++ qs, ?_, hp, ?_, ?_, ?_, ?_⟩
  · rw [intercalate_append hps (hqs rfl), List.append_assoc]
    rfl
  · intro _ hnil
    exact hps (List.append_eq_nil_iff.1 hnil).1
  · rw [List.length_append]
    omega
  · exact List.forall_mem_append.2 ⟨ht, hu⟩
  · rw [List.map_append, List.map_append, hb, hc]

theorem Written.caret (h : Written cs anchor segs) (hroot : anchor ≠ .root) :
    Written ('^' :: cs) anchor.outer segs := by
  obtain ⟨ps, rfl, -, -, hl, ht, hb⟩ := h
  refine ⟨ps, ?_, anchor.outer_ne_parent_zero, ?_, hl, ht, hb⟩
  · rw [Anchor.chars_outer hroot, List.cons_append]
  · intro hrel
    exact absurd hrel anchor.outer_ne_relative

theorem ofText_dot (hp : ofText front = .ok p) (hq : ofText back = .ok q)
    (hsegs : p.segments ≠ []) (hrel : q.anchor = .relative)
    (hl : p.segments.length + q.segments.length ≤ capacity) :
    ∃ r, ofText (front ++ "." ++ back) = .ok r ∧ r.anchor = p.anchor ∧
      r.segments = p.segments ++ q.segments := by
  have hfront : Written front.toList p.anchor p.segments := written_of_ofChars hp
  have hback : Written back.toList .relative q.segments := hrel ▸ written_of_ofChars hq
  have htext : (front ++ "." ++ back).toList = front.toList ++ '.' :: back.toList := by
    simp [String.toList_append]
  rw [ofText, htext]
  exact ofChars_of_written (hfront.dot hback hsegs hl)

theorem ofText_caret (h : ofText text = .ok p) (hroot : p.anchor ≠ .root) :
    ∃ r, ofText ("^" ++ text) = .ok r ∧ r.anchor = p.anchor.outer ∧
      r.segments = p.segments := by
  have hw : Written text.toList p.anchor p.segments := written_of_ofChars h
  have htext : ("^" ++ text).toList = '^' :: text.toList := by
    simp [String.toList_append]
  rw [ofText, htext]
  exact ofChars_of_written (hw.caret hroot)

theorem anchor_of_starts (hs : anchor.Starts cs rest) (h : ofChars cs = .ok p) :
    p.anchor = anchor := by
  have hcs : cs ≠ [] := by
    intro hnil
    subst hnil
    cases h
  rw [ofChars_of_starts hs hcs] at h
  split at h
  · cases h
    rfl
  · exact (segments_of_extend h).1

theorem anchor_of_carets {n : Nat} (hn : 0 < n) {rest : String}
    (h : ofText (String.ofList (List.replicate n '^') ++ rest) = .ok p) :
    ∃ levels, n ≤ levels ∧ p.anchor = .parent levels := by
  obtain ⟨levels, after, hle, hs⟩ := Anchor.exists_starts_carets hn rest.toList
  rw [ofText, String.toList_append, String.toList_ofList] at h
  exact ⟨levels, hle, anchor_of_starts hs h⟩

end Path

end Acpi
