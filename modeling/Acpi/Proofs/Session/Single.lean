import Acpi.Proofs.Session.Repeat

namespace Acpi.Session

variable {s s' : Session} {sink sink' : Sink} {n : Nat}

theorem bind_eq_self_iff {id : ObjectId} (hc : s.space.contains id = true) :
    s.bind sink id = (.ok (), sink, s) ↔
      s.space.bindIn (s.space.scopeOf id) id = .ok s.space := by
  constructor
  · intro h
    cases hb : s.space.bindIn (s.space.scopeOf id) id with
    | error c =>
      rw [bind_of_bindIn_error rfl hb] at h
      cases h
    | ok space =>
      rw [bind_of_bindIn_ok hc rfl hb] at h
      have hspace := congrArg (fun r => r.2.2.space) h
      exact congrArg Except.ok hspace
  · intro h
    exact bind_of_bindIn_ok hc rfl h

/-- After a pass without a fault, binding one of its objects again succeeds and changes nothing just
where each of its names means the same in the scope of the object as in that of the pass. That holds
wherever the two scopes are one, as they are for what has a parent, and for all where no loose term
has two holders. -/
theorem bind_of_bindAll?_iff (h : s.space.Reachable)
    (hb : s.bindAll? sink = some (.ok n, sink', s')) :
    ∃ pending, s.space.pending? = some pending ∧ n = pending.length ∧
      ∀ id scope, (id, scope) ∈ pending →
        (∃ o, s.space.get? id = some o ∧
          ∀ sink, s'.bind sink id = (.ok (), sink, s') ↔
            ∀ r ∈ o.body.references,
              s.space.lookup? (s.space.scopeOf id) r.2 = s.space.lookup? scope r.2) ∧
        (s.space.parent? id ≠ none ∨ s.space.SoleHolders → s.space.scopeOf id = scope) := by
  obtain ⟨pending, hp⟩ := h.wellFormed.exists_pending?
  have hn := Namespace.nodup_of_pending? hp
  obtain ⟨he, hcount⟩ := bindEach_of_bindAll? hp hb
  refine ⟨pending, hp, hcount, fun id scope hm => ⟨?_, ?_⟩⟩
  · obtain ⟨o, ho, -⟩ := Namespace.exists_of_mem_pending hp (List.mem_map.2 ⟨_, hm, rfl⟩)
    have hu := Namespace.unbound_of_bindEach he
    have hc : s'.space.contains id = true := by
      rw [Namespace.eq_of_unbound Namespace.contains_unbound hu]
      exact Namespace.contains_of_get? ho
    refine ⟨o, ho, fun sink => ?_⟩
    rw [bind_eq_self_iff hc, Namespace.eq_of_unbound Namespace.scopeOf_unbound hu]
    exact Namespace.bindIn_of_bindEach_iff he hn hm ho
  · intro hor
    rcases hor with hup | hs
    · obtain ⟨p, hup⟩ := Option.ne_none_iff_exists'.1 hup
      rw [Namespace.scope_of_pending_of_parent? hp hm hup, (Namespace.Hops.parent hup).scopeOf_eq]
    · exact h.wellFormed.scopeOf_of_pending hs hp hm

/-- A call that is held by two operations. The first one was to hang below an event, which takes no
children, and stayed loose; the second hangs in the device with the method. -/
def orphanedHolder : List Action :=
  let table : TableId := ⟨1⟩
  let device := ObjectId.ofIndex 1
  let event := ObjectId.ofIndex 3
  let call := ObjectId.ofIndex 4
  [.declare .root (.device table (.ofFour 0x44 0x45 0x56 0x30)),
   .declare device (.method table (.ofFour 0x4D 0x54 0x48 0x30)), .declare .root (.event table),
   .insert (.invocation table "MTH0"), .declare event (.generic ⟨0x70⟩ table),
   .offer (.ofIndex 5) 0 (.term call), .declare device (.generic ⟨0x70⟩ table),
   .offer (.ofIndex 6) 0 (.term call)]

theorem allowed_orphanedHolder : ∀ a ∈ orphanedHolder, a.Allowed := by
  simp [orphanedHolder, Action.Allowed]

/-- The pass binds the call in the device, and its own scope is the root, where no method is. -/
theorem bind_of_orphanedHolder :
    ∃ (space : Namespace) (sink : Sink) (s' : Session) (o : Object),
      Namespace.initial.run? orphanedHolder = some space ∧ space.Reachable ∧
      Session.bindAll? { space } (.accepting "") = some (.ok 1, sink, s') ∧
      space.pending? = some [(.ofIndex 4, .ofIndex 1)] ∧ space.scopeOf (.ofIndex 4) = .root ∧
      space.get? (.ofIndex 4) = some o ∧
      ∀ sink, s'.bind sink (.ofIndex 4) = (.ok (), sink, s') ↔
        ∀ r ∈ o.body.references, space.lookup? .root r.2 = space.lookup? (.ofIndex 1) r.2 := by
  have hc : ∃ space ∈ Namespace.initial.run? orphanedHolder,
      ((Session.bindAll? { space } (.accepting "")).bind fun r => r.1.toOption) = some 1 ∧
      space.pending? = some [(.ofIndex 4, .ofIndex 1)] ∧
      space.scopeOf (.ofIndex 4) = .root := by decide +kernel
  obtain ⟨space, hr, hbound, hp, hscope⟩ := hc
  have h : space.Reachable := ⟨orphanedHolder, allowed_orphanedHolder, hr⟩
  obtain ⟨⟨_ | n, sink, s'⟩, hb, hn⟩ := Option.bind_eq_some_iff.1 hbound
  · cases hn
  · cases hn
    obtain ⟨pending, hp', -, hall⟩ := bind_of_bindAll?_iff (s := { space }) h hb
    cases hp.symm.trans hp'
    obtain ⟨⟨o, ho, hiff⟩, -⟩ := hall (.ofIndex 4) (.ofIndex 1) List.mem_cons_self
    rw [hscope] at hiff
    exact ⟨space, sink, s', o, hr, h, hb, hp, hscope, ho, hiff⟩

/-- So the call was bound by the pass, and to bind it alone fails. -/
theorem unresolved_after_bindAll? :
    ∃ (space : Namespace) (sink : Sink) (s' : Session) (o : Object),
      Namespace.initial.run? orphanedHolder = some space ∧ space.Reachable ∧
      Session.bindAll? { space } (.accepting "") = some (.ok 1, sink, s') ∧
      space.pending? = some [(.ofIndex 4, .ofIndex 1)] ∧
      s'.space.get? (.ofIndex 4) = some o ∧ o.body.linked? .callee = some (.ofIndex 2) ∧
      (s'.bind sink (.ofIndex 4)).1 =
        .error ⟨.callee, "MTH0", .ofIndex 4, .unresolved⟩ := by
  have hc : ∃ space ∈ Namespace.initial.run? orphanedHolder,
      ∃ r ∈ Session.bindAll? { space } (.accepting ""), r.1 = .ok 1 ∧
        space.pending? = some [(.ofIndex 4, .ofIndex 1)] ∧
        (∃ o ∈ r.2.2.space.get? (.ofIndex 4), o.body.linked? .callee = some (.ofIndex 2)) ∧
        (r.2.2.bind r.2.1 (.ofIndex 4)).1 =
          .error ⟨.callee, "MTH0", .ofIndex 4, .unresolved⟩ := by decide +kernel
  obtain ⟨space, hr, r, hb, hr', hp, ⟨o, ho, hlink⟩, hbind⟩ := hc
  obtain ⟨result, sink, s'⟩ := r
  cases hr'
  exact ⟨space, sink, s', o, hr, ⟨orphanedHolder, allowed_orphanedHolder, hr⟩, hb, hp, ho, hlink,
    hbind⟩

end Acpi.Session
