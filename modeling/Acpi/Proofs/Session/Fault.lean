import Acpi.Proofs.Binding.Fault
import Acpi.Proofs.Session

namespace Acpi.Session

variable {s : Session}

/-- A pass fails exactly where something pending has a fault. The first such object decides: what
was pending before it is bound, it and all behind it are as they were, and one line tells of it,
under its own path or that of its scope. -/
theorem fault_of_bindAll? (h : s.space.Reachable) :
    ∃ pending result space, s.space.pending? = some pending ∧
      (∀ sink, ∃ sink' notices, s.bindAll? sink = some (result, sink', ⟨space, notices⟩)) ∧
      ((∃ fault, result = .error fault) ↔
        ∃ id scope, (id, scope) ∈ pending ∧ s.space.Faulty scope id) ∧
      ∀ fault, result = .error fault → ∃ before id scope after o path,
        pending = before ++ (id, scope) :: after ∧
        s.space.StopsAt before scope id o fault space ∧
        (∀ p ∈ (id, scope) :: after, space.get? p.1 = s.space.get? p.1) ∧
        (o.parent ≠ none → path = s.space.pathTo id) ∧
        (o.parent = none → path = s.space.pathTo scope) ∧
        ∀ written, ∃ s', s.bindAll? (.accepting written) = some (.error fault,
          .accepting (written ++ s!"[{o.kind.text} {path.text}] {fault.message}" ++ "\n"), s') := by
  have w := h.wellFormed
  obtain ⟨pending, hp⟩ := w.exists_pending?
  have hn := Namespace.nodup_of_pending? hp
  rcases he : s.space.bindEach pending with ⟨c | _, space⟩
  · obtain ⟨before, id, scope, after, o, fault, hsplit, hstop, rfl⟩ := w.stopsAt_of_bindEach hp he
    refine ⟨pending, .error fault, space, hp, fun sink => ⟨_, _, bindAll?_of_error hp he⟩, ?_, ?_⟩
    · have hm : (id, scope) ∈ pending := hsplit ▸ List.mem_append_right _ List.mem_cons_self
      exact ⟨fun _ => ⟨id, scope, hm, o, fault, hstop.get?, hstop.firstFault⟩,
        fun _ => ⟨fault, rfl⟩⟩
    · intro fault' hfault
      cases hfault
      refine ⟨before, id, scope, after, o,
        if o.parent.isSome then s.space.pathTo id else s.space.pathTo scope, hsplit, hstop, ?_,
        ?_, ?_, fun written => ⟨_, bindAll?_of_error hp he⟩⟩
      · intro p hm
        exact hstop.get?_other p.1 (Namespace.not_mem_of_nodup_append (hsplit ▸ hn) hm)
      · intro hparent
        rw [if_pos (Option.isSome_iff_ne_none.2 hparent)]
      · intro hparent
        simp [hparent]
  · refine ⟨pending, .ok pending.length, space, hp,
      fun sink => ⟨_, _, bindAll?_of_ok hp he⟩, ?_, ?_⟩
    · constructor
      · rintro ⟨fault, hfault⟩
        cases hfault
      · rintro ⟨id, scope, hm, hfaulty⟩
        exact absurd hfaulty (w.not_faulty_of_bindEach he hn hm)
    · intro fault hfault
      cases hfault

/-- A field that binds, an index field of which only the first register does, and a reference that
is not reached. -/
def mixedRegisters : List Action :=
  let table : TableId := ⟨1⟩
  let device := ObjectId.ofIndex 1
  let index := ObjectId.ofIndex 5
  [.declare .root (.device table (.ofFour 0x50 0x43 0x49 0x30)),
   .declare device (.region table), .declare device (.field table),
   .declare device (.fieldUnit table (.ofFour 0x49 0x44 0x58 0x30)),
   .declare device (.indexField table), .declare device (.reference table "REG0"),
   .offer (.ofIndex 2) 0 (.text "REG0"), .offer (.ofIndex 3) 0 (.text "REG0"),
   .offer index 0 (.text "IDX0"), .offer index 1 (.text "REG0")]

theorem allowed_mixedRegisters : ∀ a ∈ mixedRegisters, a.Allowed := by
  simp [mixedRegisters, Action.Allowed]

/-- The data register of the index field is the region. -/
def regionAsRegister : Fault :=
  ⟨.dataRegister, "REG0", .ofIndex 5, .kindMismatch .fieldUnit .region⟩

theorem fault_of_mixedRegisters :
    ∃ space before id scope after o space', Namespace.initial.run? mixedRegisters = some space ∧
      space.Reachable ∧ space.pending? = some (before ++ (id, scope) :: after) ∧
      space.StopsAt before scope id o regionAsRegister space' ∧
      (∀ p ∈ (id, scope) :: after, space'.get? p.1 = space.get? p.1) ∧
      ∃ sink notices, Session.bindAll? { space } (.accepting "") =
        some (.error regionAsRegister, sink, ⟨space', notices⟩) ∧
        sink.written = "[IndexField \\PCI0] referenced data register REG0 is a Region, " ++
          "expected a FieldUnit\n" := by
  have hc : ((Namespace.initial.run? mixedRegisters).bind fun ns =>
      (Session.bindAll? { space := ns } (.accepting "")).map fun r => (r.1, r.2.1.written)) =
      some (.error regionAsRegister,
        "[IndexField \\PCI0] referenced data register REG0 is a Region, " ++
          "expected a FieldUnit\n") := by
    decide +kernel
  obtain ⟨space, hr, hbound⟩ := Option.bind_eq_some_iff.1 hc
  have h : space.Reachable := ⟨mixedRegisters, allowed_mixedRegisters, hr⟩
  obtain ⟨pending, result, space', hp, hsinks, -, hfault⟩ := fault_of_bindAll? (s := { space }) h
  obtain ⟨sink, notices, hb⟩ := hsinks (.accepting "")
  rw [hb, Option.map_some, Option.some.injEq, Prod.mk.injEq] at hbound
  obtain ⟨rfl, hwritten⟩ := hbound
  obtain ⟨before, id, scope, after, o, path, rfl, hstop, hkeep, -, -, -⟩ := hfault _ rfl
  exact ⟨space, before, id, scope, after, o, space', hr, h, hp, hstop, hkeep, sink, notices, hb,
    hwritten⟩

end Acpi.Session
