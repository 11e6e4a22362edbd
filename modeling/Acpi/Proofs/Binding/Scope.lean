import Acpi.Proofs.Binding.Holder
import Acpi.Proofs.Binding.Pending

namespace Acpi.Namespace

open Relation

variable {ns : Namespace} {id t a e p : ObjectId} {n : Nat}

/-- An object without a parent is a term of one object at most. -/
def SoleHolders (ns : Namespace) : Prop :=
  ∀ {t a b}, ns.contains t = true → ns.parent? t = none → t ∈ ns.terms a → t ∈ ns.terms b → a = b

theorem soleHolders_iff :
    ns.SoleHolders ↔ ∀ t ∈ ns.ids, ns.parent? t = none →
      ∀ a ∈ ns.ids, t ∈ ns.terms a → ∀ b ∈ ns.ids, t ∈ ns.terms b → a = b := by
  have hmem : ∀ {t a}, t ∈ ns.terms a → a ∈ ns.ids := by
    intro t a h
    obtain ⟨o, ho, -⟩ := mem_terms_iff.1 h
    exact mem_ids.2 (contains_of_get? ho)
  constructor
  · intro s t ht hn a _ ha b _ hb
    exact s (mem_ids.1 ht) hn ha hb
  · intro s t a b ht hn ha hb
    exact s t (mem_ids.2 ht) hn a (hmem ha) ha b (hmem hb) hb

instance : Decidable ns.SoleHolders := decidable_of_iff _ soleHolders_iff.symm

theorem SoleHolders.holder?_eq (s : ns.SoleHolders) (h : ns.Holds a t) :
    ns.holder? t = some a := by
  obtain ⟨b, hb, ht⟩ := exists_holder? h.1
  rw [hb, s h.2.1 h.2.2 ht h.1]

/-- `Hops ns n id p`: after `n` hops from `id` to a holder there is a parent, which is `p`. -/
inductive Hops (ns : Namespace) : Nat → ObjectId → ObjectId → Prop
  | parent {id p : ObjectId} (h : ns.parent? id = some p) : Hops ns 0 id p
  | holder {n : Nat} {id a p : ObjectId} (hc : ns.contains id = true) (hn : ns.parent? id = none)
    (ha : ns.holder? id = some a) (h : Hops ns n a p) : Hops ns (n + 1) id p

theorem Hops.contains (h : ns.Hops n id p) : ns.contains id = true := by
  cases h with
  | parent h => exact contains_of_parent? h
  | holder hc hn ha h => exact hc

/-- The hops are the way over the first holders, up to one that has a parent. -/
theorem Hops.exists_holderChain (h : ns.Hops n id p) :
    ∃ c, ns.HolderChain id n c ∧ ns.LooseBelow id n ∧ ns.parent? c = some p := by
  induction h with
  | parent h =>
    refine ⟨_, .start, ?_, h⟩
    intro m hm
    cases hm
  | holder _ hn ha _ ih =>
    obtain ⟨c, hc, hloose, hp⟩ := ih
    have hfirst := holder?_eq_some_iff.1 ha
    exact ⟨c, .cons hfirst hc, .of_parent?_eq_none hn hfirst hloose, hp⟩

theorem Hops.scopeOf_eq (h : ns.Hops n id p) : ns.scopeOf id = p := by
  obtain ⟨c, hc, hloose, hp⟩ := h.exists_holderChain
  exact scopeOf_of_contains h.contains hc hloose hp

theorem SoleHolders.exists_hops (s : ns.SoleHolders) (he : ns.parent? e = some p)
    (h : ReflTransGen ns.Holds e id) : ∃ n, ns.Hops n id p := by
  induction h with
  | refl => exact ⟨0, .parent he⟩
  | tail _ ht ih =>
    obtain ⟨n, hn⟩ := ih
    exact ⟨n + 1, .holder ht.2.1 ht.2.2 (s.holder?_eq ht) hn⟩

theorem WellFormed.eq_root_of_holds (w : ns.WellFormed) (h : ReflTransGen ns.Holds .root id) :
    id = .root := by
  rcases h.cases_head with rfl | ⟨t, ht, -⟩
  · rfl
  · have hm := ht.1
    rw [w.terms_root] at hm
    cases hm

theorem scope_of_pending_of_parent? {pending : List (ObjectId × ObjectId)}
    (hp : ns.pending? = some pending) {scope : ObjectId} (h : (id, scope) ∈ pending)
    (hup : ns.parent? id = some p) : scope = p := by
  obtain ⟨walk, -, rfl⟩ := exists_of_pending? hp
  obtain ⟨e, -, rfl, hid⟩ := exists_of_mem_pendingAlong h
  rcases hid.cases_tail with rfl | ⟨a, -, hloose⟩
  · rw [treeScope, hup, Option.getD_some]
  · rw [hloose.2.2] at hup
    cases hup

theorem WellFormed.scopeOf_of_pending (w : ns.WellFormed) (s : ns.SoleHolders)
    {pending : List (ObjectId × ObjectId)} (hp : ns.pending? = some pending) {scope : ObjectId}
    (h : (id, scope) ∈ pending) : ns.scopeOf id = scope := by
  obtain ⟨walk, hw, rfl⟩ := exists_of_pending? hp
  obtain ⟨e, he, rfl, hid⟩ := exists_of_mem_pendingAlong h
  rcases ((mem_subtree?_root hw).1 he).cases_tail with rfl | ⟨parent, -, hup⟩
  · obtain ⟨o, ho, href⟩ := exists_of_mem_pending hp (List.mem_map.2 ⟨_, h, rfl⟩)
    obtain ⟨root, hroot, hb⟩ := w.body_root
    rw [w.eq_root_of_holds hid, hroot] at ho
    cases ho
    simp [Object.hasReferences, hb, Body.hasReferences] at href
  · have hparent := w.mem_children_iff.1 hup
    obtain ⟨n, hn⟩ := s.exists_hops hparent hid
    rw [hn.scopeOf_eq, treeScope, hparent, Option.getD_some]

end Acpi.Namespace
