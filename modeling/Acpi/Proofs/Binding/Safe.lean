import Acpi.Proofs.Binding.Pass
import Acpi.Proofs.Run.Identity

namespace Acpi

open Relation

namespace Body

/-- The two links of an index field, and those of a bank field, are set both or neither. -/
def Paired (b : Body) : Prop :=
  (b.linked? .indexRegister).isSome = (b.linked? .dataRegister).isSome ∧
    (b.linked? .bankRegion).isSome = (b.linked? .bankRegister).isSome

theorem Paired.congr {b b' : Body} (h : b.Paired) (hl : ∀ role, b'.linked? role = b.linked? role) :
    b'.Paired := by
  simp only [Paired, hl]
  exact h

theorem paired_of_eq_none {b : Body} (h : ∀ role, b.linked? role = none) : b.Paired := by
  simp [Paired, h]

theorem mem_slots_pair (b : Body) :
    (.indexRegister ∈ b.slots ↔ .dataRegister ∈ b.slots) ∧
      (.bankRegion ∈ b.slots ↔ .bankRegister ∈ b.slots) := by
  cases b <;> simp [slots]

end Body

namespace Namespace

variable {ns ns' : Namespace} {id other scope subject found : ObjectId} {o o' : Object}
  {role : Role} {links : List (Role × ObjectId)} {b : Body}

theorem linked?_linkAll_cases (h : ns.targets scope subject b.references = .ok links)
    (hl : (b.linkAll links).linked? role = some found) :
    b.linked? role = some found ∨ ∃ symbol, ns.target scope subject role symbol = .ok found := by
  by_cases hr : role ∈ links.map Prod.fst
  · obtain ⟨⟨_, linked⟩, hm, rfl⟩ := List.mem_map.1 hr
    rw [linked?_linkAll_of_targets h hm, Option.some.injEq] at hl
    subst hl
    exact .inr (exists_of_mem_targets h hm)
  · rw [Body.linked?_linkAll_other b hr] at hl
    exact .inl hl

/-- Names are looked up for all places of a body, so links are set at all of them. -/
theorem isSome_linked?_linkAll (h : ns.targets scope subject b.references = .ok links)
    (href : b.hasReferences = true) :
    ((b.linkAll links).linked? role).isSome = true ↔ role ∈ b.slots := by
  have hroles := (map_fst_targets h).trans (Body.map_fst_references href)
  constructor
  · intro hs
    by_contra hr
    rw [Body.linked?_linkAll_other b (hroles ▸ hr), Body.linked?_eq_none hr] at hs
    cases hs
  · intro hr
    obtain ⟨⟨_, linked⟩, hm, rfl⟩ := List.mem_map.1 (hroles ▸ hr)
    rw [linked?_linkAll_of_targets h hm]
    rfl

theorem paired_linkAll (hb : b.Paired) (h : ns.targets scope subject b.references = .ok links) :
    (b.linkAll links).Paired := by
  by_cases href : b.hasReferences = true
  · have hmem (role : Role) : ((b.linkAll links).linked? role).isSome = true ↔ role ∈ b.slots :=
      isSome_linked?_linkAll h href
    have hpair := b.mem_slots_pair
    constructor
    · rw [Bool.eq_iff_iff, hmem, hmem, hpair.1]
    · rw [Bool.eq_iff_iff, hmem, hmem, hpair.2]
  · have hnone : b.references = [] := not_not.1 fun hne => href (Body.hasReferences_iff.2 hne)
    rw [hnone] at h
    cases h
    exact hb

theorem exists_of_get?_update {f : Object → Object} (h : (ns.update id f).get? other = some o') :
    ∃ o, ns.get? other = some o ∧ (other = id ∧ o' = f o ∨ o' = o) := by
  rw [get?_update] at h
  by_cases he : other = id
  · rw [if_pos he] at h
    obtain ⟨o, ho, rfl⟩ := Option.map_eq_some_iff.1 h
    exact ⟨o, he ▸ ho, .inl ⟨he, rfl⟩⟩
  · rw [if_neg he] at h
    exact ⟨o', h, .inr rfl⟩

theorem exists_of_get?_update_tree {f : Object → Object}
    (h : (ns.update id f).get? other = some o') (hf : ∀ o, (f o).body = o.body) :
    ∃ o, ns.get? other = some o ∧ o'.body = o.body := by
  obtain ⟨o, ho, ⟨-, rfl⟩ | rfl⟩ := exists_of_get?_update h
  · exact ⟨o, ho, hf o⟩
  · exact ⟨o', ho, rfl⟩

theorem exists_of_get?_update_keeps (ho : ns.get? id = some o) (hk : o.Keeps o')
    {new : Object} (h : (ns.update id fun _ => o').get? other = some new) :
    ∃ old, ns.get? other = some old ∧ ∀ role, new.body.linked? role = old.body.linked? role := by
  obtain ⟨old, hold, ⟨rfl, rfl⟩ | rfl⟩ := exists_of_get?_update h
  · cases ho.symm.trans hold
    exact ⟨o, hold, hk.links⟩
  · exact ⟨new, hold, fun _ => rfl⟩

/-- Where the links of an object come from: there are none, they are as before, or they were just
set. -/
theorem Move.linked? (h : ns.Move ns') (ho' : ns'.get? id = some o') :
    (∀ role, o'.body.linked? role = none) ∨ ∃ o, ns.get? id = some o ∧
      ((∀ role, o'.body.linked? role = o.body.linked? role) ∨
        ∃ scope links, ns.targets scope id o.body.references = .ok links ∧
          o'.body = o.body.linkAll links) := by
  cases h with
  | @insert new hnew =>
    rw [get?_insert] at ho'
    split at ho'
    · cases ho'
      exact .inl hnew.linked?_eq_none
    · exact .inr ⟨o', ho', .inl fun _ => rfl⟩
  | link _ =>
    obtain ⟨mid, hmid, hb'⟩ := exists_of_get?_update_tree ho' fun _ => rfl
    obtain ⟨o, ho, hb⟩ := exists_of_get?_update_tree hmid fun _ => rfl
    exact .inr ⟨o, ho, .inl fun role => by rw [hb', hb]⟩
  | unlink _ =>
    obtain ⟨mid, hmid, hb'⟩ := exists_of_get?_update_tree ho' fun _ => rfl
    obtain ⟨o, ho, hb⟩ := exists_of_get?_update_tree hmid fun _ => rfl
    exact .inr ⟨o, ho, .inl fun role => by rw [hb', hb]⟩
  | offer hold index a =>
    obtain ⟨o, ho, hl⟩ := exists_of_get?_update_keeps hold (Object.keeps_offer _ index a) ho'
    exact .inr ⟨o, ho, .inl hl⟩
  | giveName hold hn =>
    obtain ⟨o, ho, hl⟩ := exists_of_get?_update_keeps hold (Object.keeps_giveName? hn) ho'
    exact .inr ⟨o, ho, .inl hl⟩
  | editUnit hold he =>
    obtain ⟨o, ho, hl⟩ := exists_of_get?_update_keeps hold (Object.keeps_editUnit? he) ho'
    exact .inr ⟨o, ho, .inl hl⟩
  | @bind bound scope old links hold ht =>
    obtain ⟨o, ho, ⟨rfl, rfl⟩ | rfl⟩ := exists_of_get?_update ho'
    · cases hold.symm.trans ho
      exact .inr ⟨old, ho, .inr ⟨scope, links, ht, rfl⟩⟩
    · exact .inr ⟨o', ho, .inl fun _ => rfl⟩

structure LinkSafe (ns : Namespace) : Prop where
  admits : ∀ {id o role found}, ns.get? id = some o → o.body.linked? role = some found →
    ∃ k, ns.kind? found = some k ∧ role.Admits k
  paired : ∀ {id o}, ns.get? id = some o → o.body.Paired

theorem linkSafe_initial : initial.LinkSafe := by
  have hnone : ∀ {id o}, initial.get? id = some o → ∀ role, o.body.linked? role = none := by
    intro id o ho role
    have hid := contains_iff.1 (contains_of_get? ho)
    have he : id = .root := ObjectId.ext (Nat.lt_one_iff.1 hid)
    subst he
    cases ho
    cases role <;> rfl
  refine ⟨?_, fun ho => Body.paired_of_eq_none (hnone ho)⟩
  intro id o role found ho hl
  rw [hnone ho role] at hl
  cases hl

theorem LinkSafe.move (safe : ns.LinkSafe) (w : ns.WellFormed) (h : ns.Move ns') :
    ns'.LinkSafe := by
  constructor
  · intro id o' role found ho' hl
    have hgood : ∃ k, ns.kind? found = some k ∧ role.Admits k := by
      rcases h.linked? ho' with hnone | ⟨o, ho, hsame | ⟨scope, links, ht, hb⟩⟩
      · rw [hnone] at hl
        cases hl
      · exact safe.admits ho (hsame role ▸ hl)
      · rcases linked?_linkAll_cases ht (hb ▸ hl) with hl | ⟨symbol, ht⟩
        · exact safe.admits ho hl
        · exact w.admits_of_target ht
    obtain ⟨k, hk, ha⟩ := hgood
    exact ⟨k, h.retains.kind? hk, ha⟩
  · intro id o' ho'
    rcases h.linked? ho' with hnone | ⟨o, ho, hsame | ⟨scope, links, ht, hb⟩⟩
    · exact Body.paired_of_eq_none hnone
    · exact (safe.paired ho).congr hsame
    · exact hb ▸ paired_linkAll (safe.paired ho) ht

theorem LinkSafe.moves (safe : ns.LinkSafe) (w : ns.WellFormed) (h : ReflTransGen Move ns ns') :
    ns'.LinkSafe := by
  induction h with
  | refl => exact safe
  | tail hm h ih => exact ih.move (w.moves hm) h

theorem Reachable.linkSafe (h : ns.Reachable) : ns.LinkSafe :=
  linkSafe_initial.moves wellFormed_initial h.moves

/-- After every run a link leads to an object of the arena, of the kind that its place requires, and
the links of a pair are set both or neither. -/
theorem links_of_reachable (h : ns.Reachable) (ho : ns.get? id = some o) :
    (∀ role found, o.body.linked? role = some found → ∃ target, ns.get? found = some target ∧
      ∀ k, role.Requires k → target.kind = k) ∧
    (∀ f, o.body = .indexField f →
      (f.indexRegister.target.isSome ↔ f.dataRegister.target.isSome)) ∧
    ∀ f, o.body = .bankField f → (f.region.target.isSome ↔ f.bankRegister.target.isSome) := by
  have safe := h.linkSafe
  obtain ⟨hindex, hbank⟩ := safe.paired ho
  refine ⟨fun role found hl => ?_, fun f hf => ?_, fun f hf => ?_⟩
  · obtain ⟨k, hk, ha⟩ := safe.admits ho hl
    obtain ⟨target, htarget, rfl⟩ := Option.map_eq_some_iff.1 hk
    exact ⟨target, htarget, ha⟩
  · rw [hf] at hindex
    exact Bool.eq_iff_iff.1 hindex
  · rw [hf] at hbank
    exact Bool.eq_iff_iff.1 hbank

/-- A pass, after which the region is taken off the tree and one register is named anew, and more
binding that fails. -/
def movedTargets : List Action :=
  let table : TableId := ⟨1⟩
  let region := ObjectId.ofIndex 1
  let index := ObjectId.ofIndex 3
  let bank := ObjectId.ofIndex 4
  [.declare .root (.region table),
   .declare .root (.fieldUnit table (.ofFour 0x49 0x44 0x58 0x30)),
   .declare .root (.indexField table), .declare .root (.bankField table),
   .offer region 0 (.text "REG0"), .offer index 0 (.text "IDX0"), .offer index 1 (.text "IDX0"),
   .offer bank 0 (.text "REG0"), .offer bank 1 (.text "IDX0"), .bindAll, .detach .root region,
   .offer index 1 (.text "NONE"), .bindAll, .bind bank]

theorem allowed_movedTargets : ∀ a ∈ movedTargets, a.Allowed := by
  simp [movedTargets, Action.Allowed]

theorem links_of_movedTargets :
    ∃ ns o target, initial.run? movedTargets = some ns ∧ ns.Reachable ∧
      ns.get? (.ofIndex 4) = some o ∧ o.body.linked? .bankRegion = some (.ofIndex 1) ∧
      ns.parent? (.ofIndex 1) = none ∧ ns.get? (.ofIndex 1) = some target ∧
      target.kind = .region := by
  have hc : (initial.run? movedTargets).bind (fun ns => (ns.get? (.ofIndex 4)).map fun o =>
      (o.body.linked? .bankRegion, ns.parent? (.ofIndex 1))) = some (some (.ofIndex 1), none) := by
    decide +kernel
  obtain ⟨ns, hr, hfound⟩ := Option.bind_eq_some_iff.1 hc
  obtain ⟨o, ho, hpair⟩ := Option.map_eq_some_iff.1 hfound
  obtain ⟨hl, hparent⟩ := Prod.mk.inj hpair
  have h : ns.Reachable := ⟨movedTargets, allowed_movedTargets, hr⟩
  obtain ⟨target, htarget, hkind⟩ := (links_of_reachable h ho).1 _ _ hl
  exact ⟨ns, o, target, hr, h, ho, hl, hparent, htarget, hkind .region .bankRegion⟩

end Namespace

end Acpi
