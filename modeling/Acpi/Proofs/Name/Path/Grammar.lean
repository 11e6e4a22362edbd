import Acpi.Name.Path.Printer
import Acpi.Name.Path.Reader
import Acpi.Proofs.Name.Segment

namespace Acpi

variable {p q : Path} {anchor : Anchor} {cs rest piece : List Char} {ps : List (List Char)}
  {e : NameError}

theorem takeWhile_append_stop {f : Char → Bool} {front : List Char}
    (hf : ∀ c ∈ front, f c = true) (hr : ∀ c, rest.head? = some c → f c = false) :
    (front ++ rest).takeWhile f = front := by
  have hrest : rest.takeWhile f = [] := by
    cases rest with
    | nil => rfl
    | cons c rest => exact List.takeWhile_cons_of_neg (by simp [hr c rfl])
  rw [List.takeWhile_append_of_pos hf, hrest, List.append_nil]

theorem dropWhile_append_stop {f : Char → Bool} {front : List Char}
    (hf : ∀ c ∈ front, f c = true) (hr : ∀ c, rest.head? = some c → f c = false) :
    (front ++ rest).dropWhile f = rest := by
  rw [List.dropWhile_append_of_pos hf]
  cases rest with
  | nil => rfl
  | cons c rest => exact List.dropWhile_cons_of_neg (by simp [hr c rfl])

/-- `Starts anchor cs rest`: the text `cs` has that anchor, which is a backslash or all the carets
in front, or none where there is neither, and then `rest`. -/
inductive Anchor.Starts : Anchor → List Char → List Char → Prop
  | root (rest : List Char) : Starts .root ('\\' :: rest) rest
  | parent {n : Nat} {rest : List Char} (hn : 0 < n) (h : rest.head? ≠ some '^') :
    Starts (.parent n) (List.replicate n '^' ++ rest) rest
  | relative {rest : List Char} (hr : rest.head? ≠ some '\\') (hc : rest.head? ≠ some '^') :
    Starts .relative rest rest

namespace Anchor

theorem Starts.eq_append (h : Starts anchor cs rest) : cs = anchor.chars ++ rest := by
  cases h <;> rfl

theorem Starts.ne_parent_zero (h : Starts anchor cs rest) : anchor ≠ .parent 0 := by
  intro hp
  subst hp
  cases h with
  | parent hn _ => exact Nat.lt_irrefl 0 hn

theorem takeWhile_carets (n : Nat) (h : rest.head? ≠ some '^') :
    (List.replicate n '^' ++ rest).takeWhile (· == '^') = List.replicate n '^' := by
  apply takeWhile_append_stop
  · simp
  · intro c hc
    exact beq_eq_false_iff_ne.2 fun he => h (he ▸ hc)

theorem dropWhile_carets (n : Nat) (h : rest.head? ≠ some '^') :
    (List.replicate n '^' ++ rest).dropWhile (· == '^') = rest := by
  apply dropWhile_append_stop
  · simp
  · intro c hc
    exact beq_eq_false_iff_ne.2 fun he => h (he ▸ hc)

theorem split_of_head (h : cs.head? ≠ some '\\') :
    split cs = match (cs.takeWhile (· == '^')).length with
      | 0 => (.relative, cs)
      | n + 1 => (.parent (n + 1), cs.dropWhile (· == '^')) := by
  have hroot : ∀ rest, cs = '\\' :: rest → False := by
    intro rest hcs
    subst hcs
    exact h rfl
  exact split.eq_2 cs hroot

theorem split_of_starts (h : Starts anchor cs rest) : split cs = (anchor, rest) := by
  cases h with
  | root => rfl
  | @parent n _ hn h =>
    obtain ⟨n, rfl⟩ := Nat.exists_eq_add_one_of_ne_zero (Nat.ne_of_gt hn)
    rw [split_of_head (by simp [List.replicate_succ]), takeWhile_carets (n + 1) h,
      dropWhile_carets (n + 1) h, List.length_replicate]
  | relative hr hc =>
    have ht : cs.takeWhile (· == '^') = [] := takeWhile_carets 0 hc
    rw [split_of_head hr, ht]
    rfl

theorem exists_carets (cs : List Char) :
    ∃ n rest, cs = List.replicate n '^' ++ rest ∧ rest.head? ≠ some '^' := by
  induction cs with
  | nil => exact ⟨0, [], rfl, by simp⟩
  | cons c cs ih =>
    by_cases hc : c = '^'
    · obtain ⟨n, rest, rfl, h⟩ := ih
      exact ⟨n + 1, rest, by rw [hc, List.replicate_succ, List.cons_append], h⟩
    · exact ⟨0, c :: cs, rfl, by simpa using hc⟩

theorem exists_starts (cs : List Char) : ∃ anchor rest, Starts anchor cs rest := by
  obtain ⟨n, rest, rfl, hc⟩ := exists_carets cs
  cases n with
  | zero =>
    by_cases hr : rest.head? = some '\\'
    · obtain ⟨rest, rfl⟩ := List.head?_eq_some_iff.1 hr
      exact ⟨.root, rest, .root rest⟩
    · exact ⟨.relative, rest, .relative hr hc⟩
  | succ n => exact ⟨.parent (n + 1), rest, .parent (Nat.succ_pos n) hc⟩

theorem starts_append (hp : anchor ≠ .parent 0) (hr : rest.head? ≠ some '\\')
    (hc : rest.head? ≠ some '^') : Starts anchor (anchor.chars ++ rest) rest := by
  cases anchor with
  | relative => exact .relative hr hc
  | root => exact .root rest
  | parent n =>
    have hn : n ≠ 0 := by
      intro hz
      subst hz
      exact hp rfl
    exact .parent (Nat.pos_of_ne_zero hn) hc

theorem chars_eq_nil : anchor.chars = [] ↔ anchor = .relative ∨ anchor = .parent 0 := by
  cases anchor <;> simp [chars]

end Anchor

namespace Path

theorem pieces_eq_splitOn (cs : List Char) : pieces cs = cs.splitOn '.' := by
  induction cs with
  | nil => rfl
  | cons c cs ih =>
    rw [pieces, ih, List.splitOn, List.splitOn, List.splitOnP_cons_eq_if_modifyHead]
    obtain ⟨piece, others, h⟩ :=
      List.exists_cons_of_ne_nil (List.splitOnP_ne_nil (· == '.') cs)
    rw [h]
    by_cases hc : c = '.'
    · simp [hc]
    · simp [hc]

/-- What does not fit about a piece that comes after `n` others. -/
inductive Offends (n : Nat) (piece : List Char) : NameError → Prop
  | empty (h : piece = []) : Offends n piece .emptySegment
  | malformed (h : NameSeg.Malformed (utf8 piece)) : Offends n piece .invalidSegment
  | tooDeep (hn : capacity ≤ n) (h : NameSeg.Textual (utf8 piece)) : Offends n piece .tooDeep

theorem length_segments_le (p : Path) : p.segments.length ≤ capacity := by
  rw [length_segments]
  exact p.depth_le

theorem segments_of_extend (h : p.extend ps = .ok q) :
    q.anchor = p.anchor ∧ (∀ t ∈ ps, NameSeg.Textual (utf8 t)) ∧
      ∃ segs, q.segments = p.segments ++ segs ∧
        segs.map NameSeg.bytes = ps.map fun t => NameSeg.padded (utf8 t) := by
  induction ps generalizing p with
  | nil =>
    cases h
    exact ⟨rfl, by simp, [], by simp⟩
  | cons t ps ih =>
    rw [extend] at h
    split at h
    · cases h
    next seg hseg =>
      split at h
      · cases h
      next p' hp =>
        obtain ⟨ht, hbytes⟩ := NameSeg.ofChars_eq_ok_iff.1 hseg
        obtain ⟨ha, hs⟩ := segments_of_push? hp
        obtain ⟨ha', hts, segs, hs', hb⟩ := ih h
        refine ⟨ha'.trans ha, List.forall_mem_cons.2 ⟨ht, hts⟩, seg :: segs, ?_, ?_⟩
        · rw [hs', hs, List.append_assoc, List.singleton_append]
        · rw [List.map_cons, List.map_cons, hbytes, hb]

theorem length_of_push? {seg : NameSeg} (h : p.push? seg = some q) :
    q.segments.length = p.segments.length + 1 := by
  rw [(segments_of_push? h).2, List.length_append, List.length_singleton]

theorem exists_push? (seg : NameSeg) (h : p.segments.length < capacity) :
    ∃ q, p.push? seg = some q := by
  cases hp : p.push? seg with
  | none => exact absurd (push?_eq_none.1 hp) (Nat.ne_of_lt h)
  | some q => exact ⟨q, rfl⟩

/-- A written segment for which there is room is added, and what is left is read on from there. -/
theorem exists_extend_cons {t : List Char} (ht : NameSeg.Textual (utf8 t))
    (hl : p.segments.length < capacity) :
    ∃ q : Path, q.segments.length = p.segments.length + 1 ∧
      ∀ ps, p.extend (t :: ps) = q.extend ps := by
  obtain ⟨seg, hseg⟩ := NameSeg.exists_ofChars ht
  obtain ⟨q, hq⟩ := exists_push? seg hl
  refine ⟨q, length_of_push? hq, fun ps => ?_⟩
  rw [extend, hseg]
  simp only [hq]

theorem exists_extend (ht : ∀ t ∈ ps, NameSeg.Textual (utf8 t))
    (hl : p.segments.length + ps.length ≤ capacity) : ∃ q, p.extend ps = .ok q := by
  induction ps generalizing p with
  | nil => exact ⟨p, rfl⟩
  | cons t ps ih =>
    rw [List.length_cons] at hl
    have hroom : p.segments.length < capacity := by omega
    obtain ⟨p', hlen, hstep⟩ := exists_extend_cons (ht t List.mem_cons_self) hroom
    have hrest : p'.segments.length + ps.length ≤ capacity := by omega
    rw [hstep]
    exact ih (fun u hu => ht u (List.mem_cons_of_mem t hu)) hrest

theorem offends_of_extend (h : p.extend ps = .error e) :
    ∃ before piece after, ps = before ++ piece :: after ∧
      (∀ t ∈ before, NameSeg.Textual (utf8 t)) ∧ p.segments.length + before.length ≤ capacity ∧
      Offends (p.segments.length + before.length) piece e := by
  induction ps generalizing p with
  | nil => cases h
  | cons t ps ih =>
    rw [extend] at h
    split at h
    next e' hseg =>
      cases h
      refine ⟨[], t, ps, rfl, by simp, p.length_segments_le, ?_⟩
      rcases NameSeg.ofChars_eq_error_iff.1 hseg with ⟨hnil, rfl⟩ | ⟨hm, rfl⟩
      · exact .empty hnil
      · exact .malformed hm
    next seg hseg =>
      have ht := (NameSeg.ofChars_eq_ok_iff.1 hseg).1
      split at h
      next hp =>
        cases h
        exact ⟨[], t, ps, rfl, by simp, p.length_segments_le,
          .tooDeep (Nat.le_of_eq (push?_eq_none.1 hp).symm) ht⟩
      next p' hp =>
        obtain ⟨before, piece, after, rfl, hb, hn, ho⟩ := ih h
        have hlen : p'.segments.length + before.length =
            p.segments.length + (t :: before).length := by
          rw [length_of_push? hp, List.length_cons]
          omega
        rw [hlen] at hn ho
        exact ⟨t :: before, piece, after, rfl, List.forall_mem_cons.2 ⟨ht, hb⟩, hn, ho⟩

theorem extend_of_offends {before after : List (List Char)}
    (hb : ∀ t ∈ before, NameSeg.Textual (utf8 t))
    (hn : p.segments.length + before.length ≤ capacity)
    (ho : Offends (p.segments.length + before.length) piece e) :
    p.extend (before ++ piece :: after) = .error e := by
  induction before generalizing p with
  | nil =>
    rw [List.nil_append, extend]
    cases ho with
    | empty h => rw [NameSeg.ofChars_eq_error_iff.2 (.inl ⟨h, rfl⟩)]
    | malformed h => rw [NameSeg.ofChars_eq_error_iff.2 (.inr ⟨h, rfl⟩)]
    | tooDeep hc h =>
      obtain ⟨seg, hseg⟩ := NameSeg.exists_ofChars h
      have hfull : p.push? seg = none := push?_eq_none.2 (Nat.le_antisymm hn hc)
      rw [hseg]
      simp only [hfull]
  | cons t before ih =>
    rw [List.length_cons] at hn ho
    have hroom : p.segments.length < capacity := by omega
    obtain ⟨p', hlen, hstep⟩ := exists_extend_cons (hb t List.mem_cons_self) hroom
    have hcount : p.segments.length + (before.length + 1) =
        p'.segments.length + before.length := by omega
    rw [hcount] at hn ho
    rw [List.cons_append, hstep]
    exact ih (fun u hu => hb u (List.mem_cons_of_mem t hu)) hn ho

theorem isNameChar_of_mem {c : Char} (h : NameSeg.Textual (utf8 piece)) (hc : c ∈ piece) :
    NameSeg.isNameChar c = true :=
  List.all_eq_true.1 (NameSeg.textual_utf8_iff.1 h).2.2 c hc

theorem head?_intercalate_ne {c : Char} (ht : ∀ t ∈ ps, NameSeg.Textual (utf8 t))
    (hc : NameSeg.isNameChar c = false) : (List.intercalate ['.'] ps).head? ≠ some c := by
  cases ps with
  | nil => simp
  | cons t ps =>
    have h := ht t List.mem_cons_self
    obtain ⟨d, t, rfl⟩ := List.exists_cons_of_ne_nil (NameSeg.textual_utf8_iff.1 h).1
    have hd := isNameChar_of_mem h List.mem_cons_self
    have hhead : (List.intercalate ['.'] ((d :: t) :: ps)).head? = some d := by
      cases ps <;> rfl
    rw [hhead, ne_eq, Option.some.injEq]
    intro he
    subst he
    exact Bool.false_ne_true (hc.symm.trans hd)

theorem intercalate_ne_nil (ht : ∀ t ∈ ps, NameSeg.Textual (utf8 t)) (hps : ps ≠ []) :
    List.intercalate ['.'] ps ≠ [] := by
  obtain ⟨t, ps, rfl⟩ := List.exists_cons_of_ne_nil hps
  have h := (NameSeg.textual_utf8_iff.1 (ht t List.mem_cons_self)).1
  cases ps with
  | nil => simpa using h
  | cons u ps => simp

/-- A text that is a path: an anchor, then at most sixteen written segments with dots between. At
least one of them where there is no anchor. -/
def Written (cs : List Char) (anchor : Anchor) (segs : List NameSeg) : Prop :=
  ∃ ps, cs = anchor.chars ++ List.intercalate ['.'] ps ∧ anchor ≠ .parent 0 ∧
    (anchor = .relative → ps ≠ []) ∧ ps.length ≤ capacity ∧
    (∀ t ∈ ps, NameSeg.Textual (utf8 t)) ∧
    segs.map NameSeg.bytes = ps.map fun t => NameSeg.padded (utf8 t)

/-- A text that is no path: it is empty, or of the pieces after its anchor there is a first that
does not fit. -/
inductive Refused (cs : List Char) : NameError → Prop
  | empty (h : cs = []) : Refused cs .emptyPath
  | piece {anchor : Anchor} {rest piece : List Char} {before after : List (List Char)}
    {e : NameError} (ha : anchor.Starts cs rest) (hr : rest ≠ [])
    (hs : rest.splitOn '.' = before ++ piece :: after)
    (hb : ∀ t ∈ before, NameSeg.Textual (utf8 t)) (hn : before.length ≤ capacity)
    (ho : Offends before.length piece e) : Refused cs e

theorem ofChars_of_starts (h : anchor.Starts cs rest) (hcs : cs ≠ []) :
    ofChars cs = if rest = [] then .ok (ofAnchor anchor)
      else (ofAnchor anchor).extend (rest.splitOn '.') := by
  rw [ofChars, if_neg hcs, Anchor.split_of_starts h, ← pieces_eq_splitOn]

theorem written_of_ofChars (h : ofChars cs = .ok p) : Written cs p.anchor p.segments := by
  have hcs : cs ≠ [] := by
    intro hnil
    subst hnil
    cases h
  obtain ⟨anchor, rest, hs⟩ := Anchor.exists_starts cs
  have hcut := hs.eq_append
  rw [ofChars_of_starts hs hcs] at h
  split at h
  next hr =>
    cases h
    rw [hr] at hcut
    refine ⟨[], hcut, hs.ne_parent_zero, fun (ha : anchor = .relative) => ?_, by simp, by simp,
      by simp⟩
    rw [ha] at hcut
    exact absurd hcut hcs
  next hr =>
    obtain ⟨ha, ht, segs, hsegs, hb⟩ := segments_of_extend h
    rw [segments_ofAnchor, List.nil_append] at hsegs
    have hl : segs.length = (rest.splitOn '.').length := by
      simpa using congrArg List.length hb
    have hcap : segs.length ≤ capacity := hsegs ▸ p.length_segments_le
    rw [ha, hsegs]
    refine ⟨rest.splitOn '.', ?_, hs.ne_parent_zero, fun _ => List.splitOn_ne_nil '.' rest,
      hl ▸ hcap, ht, hb⟩
    rw [List.intercalate_splitOn]
    exact hcut

theorem ofChars_of_written {segs : List NameSeg} (h : Written cs anchor segs) :
    ∃ p, ofChars cs = .ok p ∧ p.anchor = anchor ∧ p.segments = segs := by
  obtain ⟨ps, rfl, hp, hrel, hl, ht, hb⟩ := h
  have hs : anchor.Starts (anchor.chars ++ List.intercalate ['.'] ps)
      (List.intercalate ['.'] ps) :=
    Anchor.starts_append hp (head?_intercalate_ne ht rfl) (head?_intercalate_ne ht rfl)
  by_cases hps : ps = []
  · subst hps
    have hsegs : segs = [] := List.map_eq_nil_iff.1 hb
    have hcs : anchor.chars ≠ [] := fun hnil =>
      (Anchor.chars_eq_nil.1 hnil).elim (fun ha => hrel ha rfl) hp
    refine ⟨ofAnchor anchor, ?_, rfl, ?_⟩
    · rw [ofChars_of_starts hs (by simpa using hcs)]
      rfl
    · rw [segments_ofAnchor, hsegs]
  · have hr := intercalate_ne_nil ht hps
    have hdots : ∀ t ∈ ps, '.' ∉ t := fun t hmem hdot =>
      absurd (isNameChar_of_mem (ht t hmem) hdot) (by decide)
    obtain ⟨q, hq⟩ := exists_extend (p := ofAnchor anchor) ht (by simpa using hl)
    obtain ⟨ha, -, segs', hsegs, hb'⟩ := segments_of_extend hq
    refine ⟨q, ?_, ha, ?_⟩
    · rw [ofChars_of_starts hs (List.append_ne_nil_of_right_ne_nil _ hr), if_neg hr,
        List.splitOn_intercalate '.' hdots hps, hq]
    · rw [hsegs, segments_ofAnchor, List.nil_append]
      exact (List.map_inj_right fun _ _ => NameSeg.bytes_inj.1).1 (hb'.trans hb.symm)

theorem ofChars_eq_error_iff : ofChars cs = .error e ↔ Refused cs e := by
  constructor
  · intro h
    by_cases hcs : cs = []
    · subst hcs
      cases h
      exact .empty rfl
    · obtain ⟨anchor, rest, hs⟩ := Anchor.exists_starts cs
      rw [ofChars_of_starts hs hcs] at h
      split at h
      · cases h
      next hr =>
        obtain ⟨before, piece, after, hsplit, hb, hn, ho⟩ := offends_of_extend h
        rw [segments_ofAnchor, List.length_nil, Nat.zero_add] at hn ho
        exact .piece hs hr hsplit hb hn ho
  · intro h
    cases h with
    | empty h => rw [h, ofChars, if_pos rfl]
    | @piece anchor rest piece before after _ hs hr hsplit hb hn ho =>
      have hcs : cs ≠ [] := hs.eq_append ▸ List.append_ne_nil_of_right_ne_nil _ hr
      rw [ofChars_of_starts hs hcs, if_neg hr, hsplit]
      refine extend_of_offends hb ?_ ?_
      · rwa [segments_ofAnchor, List.length_nil, Nat.zero_add]
      · rwa [segments_ofAnchor, List.length_nil, Nat.zero_add]

/-- A text is read as a path just when it is one in writing, and is refused just for the first
piece that does not fit, or for being empty. -/
theorem ofText_ok_iff_written_and_error_iff_refused (text : String) :
    (∀ anchor segs, (∃ p, ofText text = .ok p ∧ p.anchor = anchor ∧ p.segments = segs) ↔
      Written text.toList anchor segs) ∧
    ∀ e, ofText text = .error e ↔ Refused text.toList e := by
  constructor
  · intro anchor segs
    constructor
    · intro hread
      obtain ⟨p, hp, ha, hs⟩ := hread
      subst ha hs
      exact written_of_ofChars hp
    · intro hw
      exact ofChars_of_written hw
  · intro e
    exact ofChars_eq_error_iff

example : ofChars ['\\', '^', 'A'] = .error .invalidSegment := rfl

example : ofChars ['A', '.'] = .error .emptySegment := rfl

/-- A seventeenth piece that is no segment is refused for that, not for its place. -/
example : ofChars (List.intercalate ['.'] (List.replicate 16 ['A'] ++ [['-']])) =
    .error .invalidSegment := rfl

end Path

end Acpi
