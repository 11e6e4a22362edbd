import Acpi.Proofs.Run.Connection
import Acpi.Proofs.Session.Stray

namespace Acpi

open Relation

namespace Namespace

variable {ns ns' : Namespace} {id p : ObjectId} {u : FieldUnit} {name : String}
  {pending : List (ObjectId × ObjectId)}

@[simp] theorem subtree?_unbound (ns : Namespace) : ns.unbound.subtree? = ns.subtree? := by
  funext id
  simp [subtree?]

namespace WellFormed

theorem exists_parent_of_unit? (w : ns.WellFormed) (hdown : ReflTransGen ns.Down .root id)
    (hu : ns.unit? id = some u) : ∃ p, ns.parent? id = some p := by
  rcases hdown.cases_tail with hroot | ⟨p, -, hp⟩
  · obtain ⟨o, ho, hbody⟩ := w.body_root
    rw [hroot, unit?_of_get? ho, hbody] at hu
    cases hu
  · exact ⟨p, w.mem_children_iff.1 hp⟩

/-- A unit of the tree that has a name is pending, and bound in its parent. -/
theorem mem_pending_of_unit? (w : ns.WellFormed) (hp : ns.pending? = some pending)
    (hdown : ReflTransGen ns.Down .root id) (hu : ns.unit? id = some u)
    (hname : u.connectionName = some name) (hup : ns.parent? id = some p) :
    (id, p) ∈ pending := by
  obtain ⟨o, ho, hbody⟩ := exists_of_unit? hu
  have href : ns.hasReferences id = true := by
    simp [hasReferences, ho, Object.hasReferences, hbody, Body.hasReferences, hname]
  have hmem : id ∈ pending.map Prod.fst :=
    (w.mem_pending_iff hp).2 ⟨href, w.reaches_of_down hdown⟩
  obtain ⟨⟨_, scope⟩, hm, rfl⟩ := List.mem_map.1 hmem
  obtain rfl : scope = p := scope_of_pending_of_parent? hp hm hup
  exact hm

theorem connection_of_bindEach (w : ns.WellFormed) (hp : ns.pending? = some pending)
    (h : ns.bindEach pending = (.ok (), ns')) (hdown : ReflTransGen ns.Down .root id)
    (hup : ns.parent? id = some p) (hu : ns'.unit? id = some u)
    (hname : u.connectionName = some name) :
    ∃ found, ns.lookup? p name = some found ∧ u.connection = some found := by
  obtain ⟨old, hold, hsame⟩ := unit?_of_unbound (unbound_of_bindEach h) hu
  rw [hname] at hsame
  have hm := w.mem_pending_of_unit? hp hdown hold hsame.symm hup
  obtain ⟨o, ho, hbody⟩ := exists_of_unit? hold
  obtain ⟨links, hlinks, ho'⟩ := get?_of_bindEach h (nodup_of_pending? hp) hm ho
  have href : (.connection, name) ∈ o.body.references := by
    simp [hbody, Body.references, ← hsame]
  obtain ⟨found, htarget, hlinked⟩ := linked?_of_targets hlinks href
  have hbody' : o.body.linkAll links = .fieldUnit u :=
    Body.unit?_eq_some.1 ((unit?_of_get? ho').symm.trans hu)
  rw [hbody'] at hlinked
  exact ⟨found, (lookup?_of_target htarget).1, hlinked⟩

end WellFormed

end Namespace

namespace Session

variable {s s' : Session} {sink sink' : Sink} {n : Nat} {actions : List Action}

/-- After a pass without a fault, a unit of the tree that has a connection name is connected to what
the name means in its parent. One that has no name is connected just to what it was connected to
when its name was taken back; otherwise it has no connection. -/
theorem connection_of_bindAll? (ha : ∀ a ∈ actions, a.Allowed)
    (hr : Namespace.initial.run? actions = some s.space)
    (hb : s.bindAll? sink = some (.ok n, sink', s')) :
    ∃ walk, s'.space.subtree? .root = some walk ∧ ∀ id ∈ walk, ∀ u, s'.space.unit? id = some u →
      ∃ parent, s'.space.parent? id = some parent ∧
        (∀ name, u.connectionName = some name →
          ∃ found, s'.space.lookup? parent name = some found ∧ u.connection = some found) ∧
        (u.connectionName = none → ∀ found,
          u.connection = some found ↔ Namespace.TakenBack actions id found) := by
  have h : s.space.Reachable := ⟨actions, ha, hr⟩
  have w := h.wellFormed
  obtain ⟨pending, hp⟩ := w.exists_pending?
  obtain ⟨he, -⟩ := bindEach_of_bindAll? hp hb
  have hunbound := Namespace.unbound_of_bindEach he
  have hparents := Namespace.eq_of_unbound Namespace.parent?_unbound hunbound
  have hlookups := Namespace.eq_of_unbound Namespace.lookup?_unbound hunbound
  have hwalks := Namespace.eq_of_unbound Namespace.subtree?_unbound hunbound
  obtain ⟨walk, hwalk⟩ := w.descends.exists_subtree? .root
  refine ⟨walk, by rw [hwalks, hwalk], ?_⟩
  intro id hid u hu
  have hdown := (Namespace.mem_subtree?_root hwalk).1 hid
  obtain ⟨old, hold, -⟩ := Namespace.unit?_of_unbound hunbound hu
  obtain ⟨parent, hup⟩ := w.exists_parent_of_unit? hdown hold
  refine ⟨parent, by rw [hparents, hup], ?_, ?_⟩
  · intro name hname
    rw [hlookups]
    exact w.connection_of_bindEach hp he hdown hup hu hname
  · intro hname found
    have hpass : (s.space.bindEach pending).2.Lingers id found ↔ s.space.Lingers id found :=
      Namespace.lingers_bindEach s.space pending
    rw [he] at hpass
    rw [← Namespace.lingers_iff_takenBack ha hr, ← hpass]
    simp [Namespace.Lingers, hu, hname]

/-- Two units that are connected to one device; then the name of the first is taken back, and the
second gets the name of another device. -/
def nameTakenBack : List Action :=
  let table : TableId := ⟨1⟩
  let first := ObjectId.ofIndex 3
  let second := ObjectId.ofIndex 4
  [.declare .root (.device table (.ofFour 0x47 0x50 0x49 0x30)),
   .declare .root (.device table (.ofFour 0x47 0x50 0x49 0x31)),
   .declare .root (.fieldUnit table (.ofFour 0x46 0x4C 0x44 0x30)),
   .declare .root (.fieldUnit table (.ofFour 0x46 0x4C 0x44 0x31)),
   .editUnit first { connectionName := some (some "GPI0") },
   .editUnit second { connectionName := some (some "GPI0") }, .bindAll,
   .editUnit first { connectionName := some none },
   .editUnit second { connectionName := some (some "GPI1") }]

theorem allowed_nameTakenBack : ∀ a ∈ nameTakenBack, a.Allowed := by
  simp [nameTakenBack, Action.Allowed]

/-- The second unit is connected to the other device, and the first one still to the device that its
name meant. -/
theorem connection_of_nameTakenBack :
    ∃ (space : Namespace) (sink : Sink) (s' : Session) (walk : List ObjectId) (u v : FieldUnit),
      (∀ a ∈ nameTakenBack, a.Allowed) ∧ Namespace.initial.run? nameTakenBack = some space ∧
      Session.bindAll? { space } (.accepting "") = some (.ok 1, sink, s') ∧
      s'.space.subtree? .root = some walk ∧ .ofIndex 3 ∈ walk ∧ .ofIndex 4 ∈ walk ∧
      s'.space.unit? (.ofIndex 3) = some u ∧ u.connectionName = none ∧
      u.connection = some (.ofIndex 1) ∧
      Namespace.TakenBack nameTakenBack (.ofIndex 3) (.ofIndex 1) ∧
      s'.space.unit? (.ofIndex 4) = some v ∧ v.connectionName = some "GPI1" ∧
      s'.space.lookup? .root "GPI1" = some (.ofIndex 2) ∧ v.connection = some (.ofIndex 2) := by
  have hc : ∃ space ∈ Namespace.initial.run? nameTakenBack,
      ∃ r ∈ Session.bindAll? { space } (.accepting ""), r.1 = .ok 1 ∧
        (∃ walk ∈ r.2.2.space.subtree? .root, .ofIndex 3 ∈ walk ∧ .ofIndex 4 ∈ walk) ∧
        (∃ u ∈ r.2.2.space.unit? (.ofIndex 3),
          u.connectionName = none ∧ u.connection = some (.ofIndex 1)) ∧
        (∃ v ∈ r.2.2.space.unit? (.ofIndex 4), v.connectionName = some "GPI1") ∧
        r.2.2.space.parent? (.ofIndex 4) = some .root ∧
        r.2.2.space.lookup? .root "GPI1" = some (.ofIndex 2) := by decide +kernel
  obtain ⟨space, hr, ⟨_, sink, s'⟩, hb, rfl, ⟨walk, hwalk, hthree, hfour⟩, ⟨u, hu, hnone, hlink⟩,
    ⟨v, hv, hname⟩, hup, hlookup⟩ := hc
  obtain ⟨walk', hwalk', hunits⟩ :=
    connection_of_bindAll? (s := { space }) allowed_nameTakenBack hr hb
  obtain rfl : walk' = walk := Option.some.inj (hwalk'.symm.trans hwalk)
  obtain ⟨-, -, -, htaken⟩ := hunits _ hthree u hu
  obtain ⟨parent, hparent, hnamed, -⟩ := hunits _ hfour v hv
  obtain rfl : parent = .root := Option.some.inj (hparent.symm.trans hup)
  obtain ⟨found, hfound, hconnected⟩ := hnamed "GPI1" hname
  obtain rfl : found = .ofIndex 2 := Option.some.inj (hfound.symm.trans hlookup)
  exact ⟨space, sink, s', walk', u, v, allowed_nameTakenBack, hr, hb, hwalk', hthree, hfour, hu,
    hnone, hlink, (htaken hnone _).1 hlink, hv, hname, hlookup, hconnected⟩

/-- A unit without a connection name is connected right after a pass without a fault. -/
theorem connected_without_name :
    ∃ (space : Namespace) (sink : Sink) (s' : Session) (walk : List ObjectId) (u : FieldUnit),
      space.Reachable ∧
      Session.bindAll? { space } (.accepting "") = some (.ok 1, sink, s') ∧
      s'.space.subtree? .root = some walk ∧ .ofIndex 3 ∈ walk ∧
      s'.space.unit? (.ofIndex 3) = some u ∧ u.connectionName = none ∧
      u.connection = some (.ofIndex 1) := by
  have hc : ∃ space ∈ Namespace.initial.run? nameTakenBack,
      ∃ r ∈ Session.bindAll? { space } (.accepting ""), r.1 = .ok 1 ∧
        (∃ walk ∈ r.2.2.space.subtree? .root, .ofIndex 3 ∈ walk) ∧
        ∃ u ∈ r.2.2.space.unit? (.ofIndex 3),
          u.connectionName = none ∧ u.connection = some (.ofIndex 1) := by decide +kernel
  obtain ⟨space, hr, ⟨_, sink, s'⟩, hb, rfl, ⟨walk, hwalk, hm⟩, u, hu, hnone, hlink⟩ := hc
  exact ⟨space, sink, s', walk, u, ⟨nameTakenBack, allowed_nameTakenBack, hr⟩, hb, hwalk, hm, hu,
    hnone, hlink⟩

end Session

end Acpi
