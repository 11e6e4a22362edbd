import Acpi.Proofs.Binding.Fault
import Acpi.Proofs.Binding.Scope
import Acpi.Session

namespace Acpi.Session

open Relation

variable {s s' : Session} {sink sink' : Sink} {n : Nat} {pending : List (ObjectId × ObjectId)}

/-- Binds objects in turn, each in the scope it has by then, up to the first fault. -/
def bindInTurn (s : Session) (sink : Sink) : List ObjectId → Except Fault Unit × Sink × Session
  | [] => (.ok (), sink, s)
  | id :: rest =>
    match s.bind sink id with
    | (.ok (), sink, s) => s.bindInTurn sink rest
    | (.error fault, sink, s) => (.error fault, sink, s)

theorem bind_of_bindIn_ok {id scope : ObjectId} {space : Namespace}
    (hc : s.space.contains id = true) (hs : s.space.scopeOf id = scope)
    (h : s.space.bindIn scope id = .ok space) :
    s.bind sink id = (.ok (), sink, { s with space }) := by
  rw [bind, Namespace.bind, hs, h]
  simp [hc, notify]

theorem bind_of_bindIn_error {id scope : ObjectId} {c : Complaint}
    (hs : s.space.scopeOf id = scope) (h : s.space.bindIn scope id = .error c) :
    s.bind sink id = (.error c.fault, (sink.complain c).1, s.notify (sink.complain c).2) := by
  rw [bind, Namespace.bind, hs, h]

/-- Scopes that are right at first stay so, since they read no links. -/
theorem bindInTurn_map_fst (hc : ∀ p ∈ pending, s.space.contains p.1 = true)
    (hs : ∀ p ∈ pending, s.space.scopeOf p.1 = p.2) :
    s.bindInTurn sink (pending.map Prod.fst) =
      match s.space.bindEach pending with
      | (.ok (), space) => (.ok (), sink, { s with space })
      | (.error c, space) =>
        (.error c.fault, (sink.complain c).1, { s with space }.notify (sink.complain c).2) := by
  induction pending generalizing s with
  | nil => rfl
  | cons p rest ih =>
    obtain ⟨id, scope⟩ := p
    have hid := hs _ List.mem_cons_self
    rw [List.map_cons, bindInTurn, Namespace.bindEach]
    cases hb : s.space.bindIn scope id with
    | error c => rw [bind_of_bindIn_error hid hb]
    | ok bound =>
      have hu := Namespace.unbound_bindIn hb
      have hcontains := Namespace.eq_of_unbound Namespace.contains_unbound hu
      have hscope := Namespace.eq_of_unbound Namespace.scopeOf_unbound hu
      rw [bind_of_bindIn_ok (hc _ List.mem_cons_self) hid hb]
      refine ih (s := { s with space := bound }) (fun p hp => ?_) fun p hp => ?_
      · rw [hcontains]
        exact hc p (List.mem_cons_of_mem _ hp)
      · rw [hscope]
        exact hs p (List.mem_cons_of_mem _ hp)

theorem bindAll?_eq (hp : s.space.pending? = some pending) :
    s.bindAll? sink = some (match s.space.bindEach pending with
      | (.ok (), space) =>
        (.ok pending.length, sink, { s with space }.notify [.bound pending.length])
      | (.error c, space) =>
        (.error c.fault, (sink.complain c).1, { s with space }.notify (sink.complain c).2)) := by
  rw [bindAll?, Namespace.bindAll?, hp, Option.map_some, Option.map_some]
  rcases s.space.bindEach pending with ⟨_ | _, space⟩ <;> rfl

theorem bindAll?_of_ok {space : Namespace} (hp : s.space.pending? = some pending)
    (h : s.space.bindEach pending = (.ok (), space)) :
    s.bindAll? sink =
      some (.ok pending.length, sink, { s with space }.notify [.bound pending.length]) := by
  rw [bindAll?_eq hp, h]

theorem bindAll?_of_error {space : Namespace} {c : Complaint}
    (hp : s.space.pending? = some pending) (h : s.space.bindEach pending = (.error c, space)) :
    s.bindAll? sink =
      some (.error c.fault, (sink.complain c).1, { s with space }.notify (sink.complain c).2) := by
  rw [bindAll?_eq hp, h]

/-- Where no loose term has two holders, the pass does what binding does object after object, and
its scopes are those found from holder to holder. -/
theorem bindAll?_of_soleHolders (h : s.space.Reachable) (hs : s.space.SoleHolders) (sink : Sink) :
    ∃ pending, s.space.pending? = some pending ∧
      (∀ id scope, (id, scope) ∈ pending → s.space.scopeOf id = scope) ∧
      s.bindAll? sink = some (match s.bindInTurn sink (pending.map Prod.fst) with
        | (.ok (), sink, s) => (.ok pending.length, sink, s.notify [.bound pending.length])
        | (.error fault, sink, s) => (.error fault, sink, s)) := by
  obtain ⟨pending, hp⟩ := h.wellFormed.exists_pending?
  have hscope : ∀ id scope, (id, scope) ∈ pending → s.space.scopeOf id = scope :=
    fun id scope hm => h.wellFormed.scopeOf_of_pending hs hp hm
  have hc : ∀ p ∈ pending, s.space.contains p.1 = true := by
    intro p hm
    obtain ⟨o, ho, -⟩ := Namespace.exists_of_mem_pending hp (List.mem_map.2 ⟨p, hm, rfl⟩)
    exact Namespace.contains_of_get? ho
  refine ⟨pending, hp, hscope, ?_⟩
  rw [bindAll?_eq hp, bindInTurn_map_fst hc fun p hm => hscope p.1 p.2 hm]
  rcases s.space.bindEach pending with ⟨_ | _, space⟩ <;> rfl

/-- A call as operand of a call as operand of an operation, and a name in there that means
nothing. -/
def nestedTerms : List Action :=
  let table : TableId := ⟨1⟩
  let device := ObjectId.ofIndex 1
  let outer := ObjectId.ofIndex 4
  let inner := ObjectId.ofIndex 5
  [.declare .root (.device table (.ofFour 0x50 0x43 0x49 0x30)),
   .declare device (.method table (.ofFour 0x5F 0x53 0x54 0x41)),
   .declare device (.generic ⟨0x70⟩ table), .insert (.invocation table "_STA"),
   .insert (.invocation table "_STA"), .insert (.reference table "NONE"),
   .offer (.ofIndex 3) 0 (.term outer), .offer outer 0 (.term inner),
   .offer inner 0 (.term (.ofIndex 6))]

theorem allowed_nestedTerms : ∀ a ∈ nestedTerms, a.Allowed := by
  simp [nestedTerms, Action.Allowed]

theorem bindAll?_of_nestedTerms :
    ∃ space pending, Namespace.initial.run? nestedTerms = some space ∧ space.Reachable ∧
      space.SoleHolders ∧ space.pending? = some pending ∧
      pending.map Prod.fst = [.ofIndex 4, .ofIndex 5, .ofIndex 6] ∧
      (∀ id scope, (id, scope) ∈ pending → space.scopeOf id = scope) ∧
      Session.bindAll? { space } (.accepting "") =
        some (match Session.bindInTurn { space } (.accepting "") (pending.map Prod.fst) with
          | (.ok (), sink, s) => (.ok pending.length, sink, s.notify [.bound pending.length])
          | (.error fault, sink, s) => (.error fault, sink, s)) := by
  have hc : ((Namespace.initial.run? nestedTerms).filter fun ns =>
      ns.SoleHolders ∧ ns.pending?.map (·.map Prod.fst) =
        some [.ofIndex 4, .ofIndex 5, .ofIndex 6]).isSome = true := by
    decide +kernel
  obtain ⟨space, hf⟩ := Option.isSome_iff_exists.1 hc
  obtain ⟨hr, hspace⟩ := Option.filter_eq_some_iff.1 hf
  obtain ⟨hs, hids⟩ := of_decide_eq_true hspace
  have h : space.Reachable := ⟨nestedTerms, allowed_nestedTerms, hr⟩
  obtain ⟨pending, hp, hscope, hb⟩ :=
    bindAll?_of_soleHolders (s := { space }) h hs (.accepting "")
  rw [hp] at hids
  exact ⟨space, pending, hr, h, hs, hp, Option.some.inj hids, hscope, hb⟩

end Acpi.Session
