import Acpi.Proofs.Session.Repeat

namespace Acpi

open Relation

namespace Namespace

variable {ns : Namespace} {a b id x : ObjectId}

/-- One object names the other as a child or as a term. -/
def Mentions (ns : Namespace) (a b : ObjectId) : Prop :=
  b ∈ ns.children a ∨ b ∈ ns.terms a ∧ ns.contains b = true

/-- The object hangs somewhere, and not below the root. -/
def Strays (ns : Namespace) (id : ObjectId) : Prop :=
  ns.parent? id ≠ none ∧ .root ∉ ns.lineage id

/-- One object names the other, which does not stray. -/
def Reaches (ns : Namespace) (a b : ObjectId) : Prop := ns.Mentions a b ∧ ¬ns.Strays b

theorem reaches_of_holds (h : ns.Holds a b) : ns.Reaches a b :=
  ⟨.inr ⟨h.1, h.2.1⟩, fun hstray => hstray.1 h.2.2⟩

theorem not_reaches_of_strays (h : ns.Strays id) : ¬ReflTransGen ns.Reaches .root id := by
  intro hreach
  rcases hreach.cases_tail with hroot | ⟨a, -, hid⟩
  · rw [hroot] at h
    exact h.2 List.mem_cons_self
  · exact hid.2 h

namespace WellFormed

theorem reaches_of_down (w : ns.WellFormed) (h : ReflTransGen ns.Down .root x) :
    ReflTransGen ns.Reaches .root x := by
  induction h with
  | refl => exact .refl
  | tail hup hx ih =>
    have hline := w.down_iff.1 (hup.tail hx)
    exact ih.tail ⟨.inl hx, fun hstray => hstray.2 hline⟩

/-- An object that is named and does not stray hangs below the root, or it is a loose term. -/
theorem down_or_holds_of_reaches (w : ns.WellFormed) (h : ns.Reaches a b) :
    ReflTransGen ns.Down .root b ∨ ns.Holds a b := by
  obtain ⟨hmentions, hstray⟩ := h
  cases hup : ns.parent? b with
  | some p =>
    left
    rw [w.down_iff]
    by_contra hline
    exact hstray ⟨by simp [hup], hline⟩
  | none =>
    right
    rcases hmentions with hchild | ⟨hterm, hc⟩
    · rw [w.mem_children_iff, hup] at hchild
      cases hchild
    · exact ⟨hterm, hc, hup⟩

/-- What is reached past no stray is what the pass visits: the objects of the tree and the loose
terms that these lead to. -/
theorem reaches_root_iff (w : ns.WellFormed) :
    ReflTransGen ns.Reaches .root x ↔
      ∃ e, ReflTransGen ns.Down .root e ∧ ReflTransGen ns.Holds e x := by
  constructor
  · intro h
    induction h with
    | refl => exact ⟨.root, .refl, .refl⟩
    | @tail a b _ hab ih =>
      obtain ⟨e, hdown, hholds⟩ := ih
      rcases w.down_or_holds_of_reaches hab with hb | hb
      · exact ⟨b, hb, .refl⟩
      · exact ⟨e, hdown, hholds.tail hb⟩
  · intro h
    obtain ⟨e, hdown, hholds⟩ := h
    have hterms := ReflTransGen.mono (fun _ _ => reaches_of_holds) e x hholds
    exact (w.reaches_of_down hdown).trans hterms

theorem mem_pending_iff (w : ns.WellFormed) {pending : List (ObjectId × ObjectId)}
    (hp : ns.pending? = some pending) :
    id ∈ pending.map Prod.fst ↔
      ns.hasReferences id = true ∧ ReflTransGen ns.Reaches .root id := by
  obtain ⟨walk, hw, rfl⟩ := exists_of_pending? hp
  have hc : ∀ e ∈ walk, ns.contains e = true := fun e he =>
    w.contains_of_down ((mem_subtree?_root hw).1 he)
  rw [map_fst_pendingAlong, List.mem_filter, mem_visitTerms_ids hc, w.reaches_root_iff, and_comm]
  simp only [mem_subtree?_root hw]

end WellFormed

end Namespace

namespace Session

variable {s s' : Session} {sink sink' : Sink} {n : Nat}

/-- After a pass without a fault every object with references has all its links, if the root leads
to it by children and terms, in any mixture, of which none strays. Everything else is as it was,
what strays above all. -/
theorem linked_iff_reaches_of_bindAll? (h : s.space.Reachable)
    (hb : s.bindAll? sink = some (.ok n, sink', s')) :
    (∀ id o, s.space.get? id = some o → o.hasReferences = true →
      ReflTransGen s.space.Reaches .root id →
      ∃ o', s'.space.get? id = some o' ∧
        ∀ role ∈ o.body.slots, ∃ found, o'.body.linked? role = some found) ∧
    (∀ id, ¬(s.space.hasReferences id = true ∧ ReflTransGen s.space.Reaches .root id) →
      s'.space.get? id = s.space.get? id) ∧
    ∀ id, s.space.Strays id → s'.space.get? id = s.space.get? id := by
  have w := h.wellFormed
  obtain ⟨pending, hp⟩ := w.exists_pending?
  have hn := Namespace.nodup_of_pending? hp
  obtain ⟨he, -⟩ := bindEach_of_bindAll? hp hb
  have hother : ∀ id, ¬(s.space.hasReferences id = true ∧
      ReflTransGen s.space.Reaches .root id) → s'.space.get? id = s.space.get? id := by
    intro id hid
    apply Namespace.get?_of_bindEach_other he
    rwa [w.mem_pending_iff hp]
  refine ⟨?_, hother, ?_⟩
  · intro id o ho href hreach
    have hrefs : s.space.hasReferences id = true := by simp [Namespace.hasReferences, ho, href]
    obtain ⟨⟨_, scope⟩, hm, rfl⟩ := List.mem_map.1 ((w.mem_pending_iff hp).2 ⟨hrefs, hreach⟩)
    obtain ⟨held, o', hheld, ho', hslots⟩ := w.linkedAsNamed_of_bindEach he hn hm ho href
    cases ho.symm.trans hheld
    refine ⟨o', ho', fun role hrole => ?_⟩
    obtain ⟨-, found, -, -, -, hlink, -⟩ := hslots role hrole
    exact ⟨found, hlink⟩
  · intro id hstray
    exact hother id fun hreach => Namespace.not_reaches_of_strays hstray hreach.2

/-- An operation with two operands, a reference that was put into a device beside the tree, and a
call that hangs nowhere. -/
def strayTerm : List Action :=
  let table : TableId := ⟨1⟩
  let device := ObjectId.ofIndex 2
  let reference := ObjectId.ofIndex 3
  let call := ObjectId.ofIndex 4
  let store := ObjectId.ofIndex 5
  [.declare .root (.method table (.ofFour 0x4D 0x54 0x48 0x30)),
   .insert (.device table (.ofFour 0x44 0x45 0x56 0x30)),
   .declare device (.reference table "\\MTH0"), .insert (.invocation table "MTH0"),
   .declare .root (.generic ⟨0x70⟩ table), .offer store 0 (.term reference),
   .offer store 1 (.term call)]

theorem allowed_strayTerm : ∀ a ∈ strayTerm, a.Allowed := by
  simp [strayTerm, Action.Allowed]

/-- The call is bound and the reference left as it was. -/
theorem linked_of_strayTerm :
    ∃ (space : Namespace) (sink : Sink) (s' : Session) (o o' : Object),
      Namespace.initial.run? strayTerm = some space ∧ space.Reachable ∧
      Session.bindAll? { space } (.accepting "") = some (.ok 1, sink, s') ∧
      ReflTransGen space.Reaches .root (.ofIndex 4) ∧
      space.get? (.ofIndex 4) = some o ∧ s'.space.get? (.ofIndex 4) = some o' ∧
      (∀ role ∈ o.body.slots, ∃ found, o'.body.linked? role = some found) ∧
      space.Strays (.ofIndex 3) ∧ s'.space.get? (.ofIndex 3) = space.get? (.ofIndex 3) := by
  have hc : ∃ space ∈ Namespace.initial.run? strayTerm,
      ((Session.bindAll? { space } (.accepting "")).bind fun r => r.1.toOption) = some 1 ∧
      .ofIndex 5 ∈ space.children .root ∧
      .ofIndex 4 ∈ space.terms (.ofIndex 5) ∧ space.contains (.ofIndex 4) = true ∧
      space.parent? (.ofIndex 4) = none ∧
      (∃ o ∈ space.get? (.ofIndex 4), o.hasReferences = true) ∧
      space.parent? (.ofIndex 3) ≠ none ∧ .root ∉ space.lineage (.ofIndex 3) := by
    decide +kernel
  obtain ⟨space, hr, hbound, hstore, hterm, hcall, hloose, ⟨o, ho, href⟩, hup, hline⟩ := hc
  have h : space.Reachable := ⟨strayTerm, allowed_strayTerm, hr⟩
  obtain ⟨⟨_ | n, sink, s'⟩, hb, hn⟩ := Option.bind_eq_some_iff.1 hbound
  · cases hn
  · cases hn
    obtain ⟨hall, -, hstrays⟩ := linked_iff_reaches_of_bindAll? (s := { space }) h hb
    have hdown : space.Down .root (.ofIndex 5) := hstore
    have hreach := (h.wellFormed.reaches_of_down (.single hdown)).tail
      (Namespace.reaches_of_holds ⟨hterm, hcall, hloose⟩)
    obtain ⟨o', ho', hslots⟩ := hall _ o ho href hreach
    exact ⟨space, sink, s', o, o', hr, h, hb, hreach, ho, ho', hslots, ⟨hup, hline⟩,
      hstrays _ ⟨hup, hline⟩⟩

/-- The reference is named by an operation of the tree, and a pass without a fault leaves it
unbound. -/
theorem unbound_after_bindAll? :
    ∃ (space : Namespace) (sink : Sink) (s' : Session) (o : Object),
      Namespace.initial.run? strayTerm = some space ∧ space.Reachable ∧
      Session.bindAll? { space } (.accepting "") = some (.ok 1, sink, s') ∧
      ReflTransGen space.Mentions .root (.ofIndex 3) ∧
      s'.space.get? (.ofIndex 3) = some o ∧ o.body.references = [(.target, "\\MTH0")] ∧
      o.body.linked? .target = none := by
  have hc : ∃ space ∈ Namespace.initial.run? strayTerm,
      .ofIndex 5 ∈ space.children .root ∧ .ofIndex 3 ∈ space.terms (.ofIndex 5) ∧
      space.contains (.ofIndex 3) = true ∧
      ∃ r ∈ Session.bindAll? { space } (.accepting ""), r.1 = .ok 1 ∧
        ∃ o ∈ r.2.2.space.get? (.ofIndex 3), o.body.references = [(.target, "\\MTH0")] ∧
          o.body.linked? .target = none := by decide +kernel
  obtain ⟨space, hr, hstore, hterm, hcontains, r, hb, hr', o, ho, href, hlink⟩ := hc
  obtain ⟨result, sink, s'⟩ := r
  cases hr'
  have hmentions : ReflTransGen space.Mentions .root (.ofIndex 3) :=
    .tail (.single (.inl hstore)) (.inr ⟨hterm, hcontains⟩)
  exact ⟨space, sink, s', o, hr, ⟨strayTerm, allowed_strayTerm, hr⟩, hb, hmentions, ho, href, hlink⟩

end Session

end Acpi
