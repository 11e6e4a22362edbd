import Acpi.Proofs.Name.Path.Grammar

namespace Acpi.Path

variable {anchor : Anchor} {cs : List Char} {ps : List (List Char)} {segs : List NameSeg}

/-- A text without anchor or separator. -/
def Plain (cs : List Char) : Prop := ∀ c ∈ cs, c ≠ '\\' ∧ c ≠ '^' ∧ c ≠ '.'

instance (cs : List Char) : Decidable (Plain cs) := List.decidableBAll _ cs

theorem plain_of_textual (h : NameSeg.Textual (utf8 cs)) : Plain cs := by
  intro c hc
  have hname := isNameChar_of_mem h hc
  refine ⟨?_, ?_, ?_⟩
  all_goals
    rintro rfl
    exact absurd hname (by decide)

theorem relative_singleton (t : List Char) :
    Anchor.relative.chars ++ List.intercalate ['.'] [t] = t := by
  simp [Anchor.chars]

theorem Plain.eq_singleton (h : Plain (anchor.chars ++ List.intercalate ['.'] ps))
    (hzero : anchor ≠ .parent 0) (hrel : anchor = .relative → ps ≠ []) :
    anchor = .relative ∧ ∃ t, ps = [t] := by
  have hanchor : anchor = .relative := by
    cases anchor with
    | relative => rfl
    | root => exact absurd rfl (h '\\' (by simp [Anchor.chars])).1
    | parent n =>
      have hn : n ≠ 0 := fun he => hzero (by rw [he])
      have hmem : '^' ∈ (Anchor.parent n).chars := List.mem_replicate.2 ⟨hn, rfl⟩
      exact absurd rfl (h '^' (List.mem_append_left _ hmem)).2.1
  refine ⟨hanchor, ?_⟩
  cases ps with
  | nil => exact absurd rfl (hrel hanchor)
  | cons t rest =>
    cases rest with
    | nil => exact ⟨t, rfl⟩
    | cons u rest =>
      have hdot : '.' ∈ anchor.chars ++ List.intercalate ['.'] (t :: u :: rest) := by simp
      exact absurd rfl (h '.' hdot).2.2

theorem Plain.written_iff (h : Plain cs) :
    Written cs anchor segs ↔ NameSeg.Textual (utf8 cs) ∧ anchor = .relative ∧
      ∃ seg, segs = [seg] ∧ seg.bytes = NameSeg.padded (utf8 cs) := by
  constructor
  · rintro ⟨ps, rfl, hzero, hrel, -, ht, hb⟩
    obtain ⟨rfl, t, rfl⟩ := h.eq_singleton hzero hrel
    obtain ⟨seg, rest, rfl, hseg, hrest⟩ := List.map_eq_cons_iff.1 hb
    rw [List.map_eq_nil_iff.1 hrest]
    rw [relative_singleton]
    exact ⟨ht t List.mem_cons_self, rfl, seg, rfl, hseg⟩
  · rintro ⟨ht, rfl, seg, rfl, hseg⟩
    refine ⟨[cs], (relative_singleton cs).symm, by simp, by simp, by simp [capacity], ?_, ?_⟩
    · simpa using ht
    · simpa using hseg

/-- Of the texts that are paths, the plain ones are the bare names. -/
theorem Written.plain_iff (h : Written cs anchor segs) :
    Plain cs ↔ anchor = .relative ∧ ∃ seg, segs = [seg] := by
  constructor
  · intro hplain
    obtain ⟨-, hanchor, seg, hsegs, -⟩ := hplain.written_iff.1 h
    exact ⟨hanchor, seg, hsegs⟩
  · rintro ⟨rfl, seg, rfl⟩
    obtain ⟨ps, rfl, -, -, -, ht, hb⟩ := h
    obtain ⟨t, rfl⟩ : ∃ t, ps = [t] := by
      rw [← List.length_eq_one_iff, ← List.length_map, ← hb]
      rfl
    rw [relative_singleton]
    exact plain_of_textual (ht t List.mem_cons_self)

theorem written_anchor (anchor : Anchor) (hzero : anchor ≠ .parent 0)
    (hrel : anchor ≠ .relative) : Written anchor.chars anchor [] :=
  ⟨[], by simp, hzero, fun h => absurd h hrel, by simp, by simp, rfl⟩

end Acpi.Path
