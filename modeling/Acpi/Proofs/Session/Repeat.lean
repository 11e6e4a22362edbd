import Acpi.Proofs.Binding.Repeat
import Acpi.Proofs.Session

namespace Acpi.Session

variable {s s' : Session} {sink sink' : Sink} {n : Nat} {pending : List (ObjectId × ObjectId)}

theorem bindEach_of_bindAll? (hp : s.space.pending? = some pending)
    (h : s.bindAll? sink = some (.ok n, sink', s')) :
    s.space.bindEach pending = (.ok (), s'.space) ∧ n = pending.length := by
  rcases he : s.space.bindEach pending with ⟨_ | _, space⟩
  · rw [bindAll?_of_error hp he] at h
    cases h
  · rw [bindAll?_of_ok hp he] at h
    cases h
    exact ⟨rfl, rfl⟩

/-- Steps that were taken without a fault lead to the same namespace in any order; and a second
pass counts the same, writes nothing and changes nothing. -/
theorem repeatable_of_bindAll? (h : s.space.Reachable)
    (hb : s.bindAll? sink = some (.ok n, sink', s')) :
    ∃ pending, s.space.pending? = some pending ∧
      (∀ order, order.Perm pending → s.space.bindEach order = (.ok (), s'.space)) ∧
      ∀ sink, ∃ s'', s'.bindAll? sink = some (.ok n, sink, s'') ∧ s''.space = s'.space := by
  obtain ⟨pending, hp⟩ := h.wellFormed.exists_pending?
  have hn := Namespace.nodup_of_pending? hp
  obtain ⟨he, rfl⟩ := bindEach_of_bindAll? hp hb
  refine ⟨pending, hp, fun order hperm => Namespace.bindEach_perm hperm.symm hn he, fun sink => ?_⟩
  have hu := Namespace.unbound_of_bindEach he
  have hp' : s'.space.pending? = some pending :=
    (Namespace.eq_of_unbound Namespace.pending?_unbound hu).trans hp
  have hagain : s'.space.bindEach pending = (.ok (), s'.space) :=
    Namespace.bindEach_of_bindIn fun p hm => Namespace.bindIn_of_bindEach he hn hm
  exact ⟨_, bindAll?_of_ok hp' hagain, rfl⟩

/-- Units that are connected to each other, and an index field on both. -/
def crossedUnits : List Action :=
  let table : TableId := ⟨1⟩
  let first := ObjectId.ofIndex 1
  let second := ObjectId.ofIndex 2
  let index := ObjectId.ofIndex 3
  [.declare .root (.fieldUnit table (.ofFour 0x49 0x44 0x58 0x30)),
   .declare .root (.fieldUnit table (.ofFour 0x44 0x41 0x54 0x30)),
   .declare .root (.indexField table), .editUnit first { connectionName := some (some "DAT0") },
   .editUnit second { connectionName := some (some "IDX0") }, .offer index 0 (.text "IDX0"),
   .offer index 1 (.text "DAT0")]

theorem allowed_crossedUnits : ∀ a ∈ crossedUnits, a.Allowed := by
  simp [crossedUnits, Action.Allowed]

theorem repeatable_of_crossedUnits :
    ∃ space pending, ∃ (sink : Sink) (s' : Session),
      Namespace.initial.run? crossedUnits = some space ∧ space.Reachable ∧
      Session.bindAll? { space } (.accepting "") = some (.ok 3, sink, s') ∧
      space.pending? = some pending ∧ space.bindEach pending.reverse = (.ok (), s'.space) ∧
      ∃ s'', s'.bindAll? .refusing = some (.ok 3, .refusing, s'') ∧ s''.space = s'.space := by
  have hc : (Namespace.initial.run? crossedUnits).bind (fun ns =>
      (Session.bindAll? { space := ns } (.accepting "")).bind fun r => r.1.toOption) = some 3 := by
    decide +kernel
  obtain ⟨space, hr, hbound⟩ := Option.bind_eq_some_iff.1 hc
  have h : space.Reachable := ⟨crossedUnits, allowed_crossedUnits, hr⟩
  obtain ⟨⟨_ | n, sink, s'⟩, hb, hn⟩ := Option.bind_eq_some_iff.1 hbound
  · cases hn
  · cases hn
    obtain ⟨pending, hp, horder, hagain⟩ := repeatable_of_bindAll? (s := { space }) h hb
    exact ⟨space, pending, sink, s', hr, h, hb, hp, horder _ pending.reverse_perm,
      hagain .refusing⟩

end Acpi.Session
