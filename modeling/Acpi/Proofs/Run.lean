import Acpi.Proofs.Binding.Unbound

namespace Acpi

open Relation

/-- What is done to a namespace from outside. -/
inductive Action
  | insert (o : Object)
  | declare (parent : ObjectId) (o : Object)
  | attach (parent child : ObjectId)
  | detach (parent child : ObjectId)
  | offer (id : ObjectId) (index : Nat) (a : Operand)
  | giveName (id : ObjectId) (name : NameSeg)
  | editUnit (id : ObjectId) (e : UnitEdit)
  | bind (id : ObjectId)
  | bindAll

/-- Only fresh objects are put in. -/
def Action.Allowed : Action → Prop
  | .insert o | .declare _ o => o.Fresh
  | _ => True

namespace Namespace

/-- The namespace after an action, which is the same where the action failed. There is none after a
pass without an end. -/
def after? (ns : Namespace) : Action → Option Namespace
  | .insert o => some (ns.insert o)
  | .declare parent o => some (ns.declare parent o).2
  | .attach parent child =>
    match ns.attach parent child with
    | .ok attached => some attached
    | .error _ => some ns
  | .detach parent child => some ((ns.detach? parent child).getD ns)
  | .offer id index a => some (((ns.offer? id index a).map Prod.snd).getD ns)
  | .giveName id name => some (((ns.giveName? id name).map Prod.snd).getD ns)
  | .editUnit id e => some (((ns.editUnit? id e).map Prod.snd).getD ns)
  | .bind id =>
    match ns.bind id with
    | .ok bound => some bound
    | .error _ => some ns
  | .bindAll => ns.bindAll?.map Prod.snd

/-- The namespace after actions in turn. -/
def run? (ns : Namespace) (actions : List Action) : Option Namespace := actions.foldlM after? ns

def Reachable (ns : Namespace) : Prop :=
  ∃ actions : List Action, (∀ a ∈ actions, a.Allowed) ∧ initial.run? actions = some ns

/-- What actions are made of. -/
inductive Move (ns : Namespace) : Namespace → Prop
  | insert {o : Object} (h : o.Fresh) : Move ns (ns.insert o)
  | link {p c : ObjectId} (h : ns.obstacle? p c = none) : Move ns (ns.link p c)
  | unlink {p c : ObjectId} (h : c ∈ ns.children p) : Move ns (ns.unlink p c)
  | offer {id : ObjectId} {o : Object} (h : ns.get? id = some o) (index : Nat) (a : Operand) :
    Move ns (ns.update id fun _ => (o.offer index a).2)
  | giveName {id : ObjectId} {o named : Object} {seg : NameSeg} (h : ns.get? id = some o)
    (hn : o.giveName? seg = some named) : Move ns (ns.update id fun _ => named)
  | editUnit {id : ObjectId} {o edited : Object} {e : UnitEdit} (h : ns.get? id = some o)
    (he : o.editUnit? e = some edited) : Move ns (ns.update id fun _ => edited)
  | bind {id scope : ObjectId} {o : Object} {links : List (Role × ObjectId)}
    (h : ns.get? id = some o) (ht : ns.targets scope id o.body.references = .ok links) :
    Move ns (ns.setLinks id links)

variable {ns ns' : Namespace}

theorem moves_attach {parent child : ObjectId} (h : ns.attach parent child = .ok ns') :
    ReflTransGen Move ns ns' := by
  obtain ⟨ho, rfl⟩ := attach_eq_ok.1 h
  exact .single (.link ho)

theorem moves_declare {o : Object} (h : o.Fresh) (parent : ObjectId) :
    ReflTransGen Move ns (ns.declare parent o).2 := by
  have hi : ReflTransGen Move ns (ns.insert o) := .single (.insert h)
  cases ha : (ns.insert o).attach parent ns.nextId with
  | error e => simpa [declare, ha] using hi
  | ok attached => simpa [declare, ha] using hi.trans (moves_attach ha)

theorem moves_bindIn {scope id : ObjectId} (h : ns.bindIn scope id = .ok ns') :
    ReflTransGen Move ns ns' := by
  simp only [bindIn] at h
  split at h
  · cases h
    exact .refl
  next o ho =>
    split at h
    next links ht =>
      cases h
      exact .single (.bind ho ht)
    · cases h

theorem moves_bindEach (ns : Namespace) (pending : List (ObjectId × ObjectId)) :
    ReflTransGen Move ns (ns.bindEach pending).2 := by
  induction pending generalizing ns with
  | nil => exact .refl
  | cons p rest ih =>
    obtain ⟨id, scope⟩ := p
    cases h : ns.bindIn scope id with
    | error c =>
      rw [bindEach, h]
    | ok bound =>
      rw [bindEach, h]
      exact (moves_bindIn h).trans (ih bound)

theorem moves_detach? {parent child : ObjectId} (h : ns.detach? parent child = some ns') :
    ReflTransGen Move ns ns' := by
  simp only [detach?] at h
  split at h
  next hc =>
    cases h
    exact .single (.unlink hc)
  · cases h

theorem moves_offer? {id : ObjectId} {index : Nat} {a : Operand} {r : Bool × Namespace}
    (h : ns.offer? id index a = some r) : ReflTransGen Move ns r.2 := by
  obtain ⟨o, ho, rfl⟩ := Option.map_eq_some_iff.1 h
  exact .single (.offer ho index a)

theorem moves_giveName? {id : ObjectId} {name : NameSeg} {r : Bool × Namespace}
    (h : ns.giveName? id name = some r) : ReflTransGen Move ns r.2 := by
  obtain ⟨o, ho, rfl⟩ := Option.map_eq_some_iff.1 h
  cases hn : o.giveName? name with
  | none => exact .refl
  | some named => exact .single (.giveName ho hn)

theorem moves_editUnit? {id : ObjectId} {e : UnitEdit} {r : Bool × Namespace}
    (h : ns.editUnit? id e = some r) : ReflTransGen Move ns r.2 := by
  obtain ⟨o, ho, rfl⟩ := Option.map_eq_some_iff.1 h
  cases he : o.editUnit? e with
  | none => exact .refl
  | some edited => exact .single (.editUnit ho he)

theorem moves_getD {edited? : Option Namespace}
    (h : ∀ {ns'}, edited? = some ns' → ReflTransGen Move ns ns') :
    ReflTransGen Move ns (edited?.getD ns) := by
  cases edited? with
  | none => exact .refl
  | some ns' => exact h rfl

theorem moves_getD_snd {r? : Option (Bool × Namespace)}
    (h : ∀ {r}, r? = some r → ReflTransGen Move ns r.2) :
    ReflTransGen Move ns ((r?.map Prod.snd).getD ns) := by
  refine moves_getD fun hmap => ?_
  obtain ⟨r, hr, rfl⟩ := Option.map_eq_some_iff.1 hmap
  exact h hr

theorem moves_after? {a : Action} (ha : a.Allowed) (h : ns.after? a = some ns') :
    ReflTransGen Move ns ns' := by
  cases a with
  | insert o =>
    cases h
    exact .single (.insert ha)
  | declare parent o =>
    cases h
    exact moves_declare ha parent
  | attach parent child =>
    cases hr : ns.attach parent child with
    | ok attached =>
      simp only [after?, hr, Option.some.injEq] at h
      exact h ▸ moves_attach hr
    | error e =>
      simp only [after?, hr, Option.some.injEq] at h
      exact h ▸ .refl
  | detach parent child =>
    cases h
    exact moves_getD moves_detach?
  | offer id index a =>
    cases h
    exact moves_getD_snd moves_offer?
  | giveName id name =>
    cases h
    exact moves_getD_snd moves_giveName?
  | editUnit id e =>
    cases h
    exact moves_getD_snd moves_editUnit?
  | bind id =>
    cases hr : ns.bind id with
    | ok bound =>
      simp only [after?, hr, Option.some.injEq] at h
      exact h ▸ moves_bindIn hr
    | error c =>
      simp only [after?, hr, Option.some.injEq] at h
      exact h ▸ .refl
  | bindAll =>
    obtain ⟨r, hr, rfl⟩ := Option.map_eq_some_iff.1 h
    obtain ⟨pending, -, rfl⟩ := Option.map_eq_some_iff.1 hr
    exact moves_bindEach ns pending

theorem moves_run? {actions : List Action} (ha : ∀ a ∈ actions, a.Allowed)
    (h : ns.run? actions = some ns') : ReflTransGen Move ns ns' := by
  induction actions generalizing ns with
  | nil =>
    cases h
    exact .refl
  | cons a rest ih =>
    obtain ⟨mid, hmid, hrest⟩ := Option.bind_eq_some_iff.1 h
    have hfirst := moves_after? (ha a List.mem_cons_self) hmid
    exact hfirst.trans (ih (fun b hb => ha b (List.mem_cons_of_mem a hb)) hrest)

theorem run?_concat (ns : Namespace) (actions : List Action) (a : Action) :
    ns.run? (actions ++ [a]) = (ns.run? actions).bind fun mid => mid.after? a := by
  rw [run?, List.foldlM_append]
  cases h : actions.foldlM after? ns <;> simp [run?, h]

theorem Reachable.after {a : Action} (h : ns.Reachable) (ha : a.Allowed)
    (hs : ns.after? a = some ns') : ns'.Reachable := by
  obtain ⟨actions, hactions, hr⟩ := h
  refine ⟨actions ++ [a], ?_, ?_⟩
  · intro b hb
    rcases List.mem_append.1 hb with hb | hb
    · exact hactions b hb
    · rw [List.mem_singleton.1 hb]
      exact ha
  · rw [run?_concat, hr]
    exact hs

theorem Reachable.moves (h : ns.Reachable) : ReflTransGen Move initial ns := by
  obtain ⟨actions, ha, hr⟩ := h
  exact moves_run? ha hr

theorem WellFormed.move (w : ns.WellFormed) (h : ns.Move ns') : ns'.WellFormed := by
  cases h with
  | insert h => exact w.insert h.alone
  | link h => exact w.link h
  | unlink h => exact w.unlink h
  | offer h index a => exact w.update h (Object.keeps_offer _ index a)
  | giveName h hn => exact w.update h (Object.keeps_giveName? hn)
  | editUnit h he => exact w.update h (Object.keeps_editUnit? he)
  | bind h ht => exact w.of_unbound (unbound_setLinks _ _)

theorem keeps_of_moves {P : Namespace → Prop} (hP : ∀ {ns ns'}, P ns → ns.Move ns' → P ns')
    (h : ReflTransGen Move ns ns') (hns : P ns) : P ns' := by
  induction h with
  | refl => exact hns
  | tail _ h ih => exact hP ih h

theorem WellFormed.moves (w : ns.WellFormed) (h : ReflTransGen Move ns ns') : ns'.WellFormed :=
  keeps_of_moves WellFormed.move h w

theorem Reachable.wellFormed (h : ns.Reachable) : ns.WellFormed := wellFormed_initial.moves h.moves

/-- Child lists and parent links agree after every run: nothing hangs in two places or in one place
twice, the root hangs nowhere, only containers hold children, and no way up meets an object
twice. -/
theorem tree_of_reachable (h : ns.Reachable) :
    (∀ p c, c ∈ ns.children p ↔ ns.parent? c = some p) ∧
    ((∀ p, (ns.children p).Nodup) ∧
      ∀ p q c, c ∈ ns.children p → c ∈ ns.children q → p = q) ∧
    (ns.parent? .root = none ∧ ∀ p, .root ∉ ns.children p) ∧
    (∀ p, ns.children p ≠ [] → ∃ o, ns.get? p = some o ∧ o.isContainer = true) ∧
    (∀ id, ¬TransGen ns.Up id id) ∧ ∀ id, (ns.lineage id).Nodup := by
  have w := h.wellFormed
  refine ⟨fun p c => w.mem_children_iff, ⟨w.nodup_children, ?_⟩, ⟨w.parent_root, ?_⟩, ?_,
    w.acyclic, w.nodup_lineage⟩
  · intro p q c hp hq
    rw [w.mem_children_iff] at hp hq
    exact Option.some.inj (hp.symm.trans hq)
  · intro p hp
    rw [w.mem_children_iff, w.parent_root] at hp
    cases hp
  · intro p hp
    obtain ⟨c, hc⟩ := List.exists_mem_of_ne_nil _ hp
    obtain ⟨k, hk, hcont⟩ := w.container (w.mem_children_iff.1 hc)
    obtain ⟨o, ho, rfl⟩ := Option.map_eq_some_iff.1 hk
    exact ⟨o, ho, hcont⟩

/-- A run that takes a subtree off, tries to hang it below itself and puts it back, with failures
of every kind on the way. -/
def movedSubtree : List Action :=
  let table : TableId := ⟨1⟩
  let sb := ObjectId.ofIndex 1
  let pci := ObjectId.ofIndex 2
  let field := ObjectId.ofIndex 3
  let event := ObjectId.ofIndex 4
  [.declare .root (.scope table (.ofFour 0x5F 0x53 0x42 0x5F)),
   .declare sb (.device table (.ofFour 0x50 0x43 0x49 0x30)),
   .declare pci (.field table), .offer field 0 (.text "REG0"), .declare field (.event table),
   .detach .root sb, .attach pci sb, .attach .root pci, .bindAll, .bind field,
   .attach .root sb, .attach pci event, .bindAll]

theorem allowed_movedSubtree : ∀ a ∈ movedSubtree, a.Allowed := by
  simp [movedSubtree, Action.Allowed]

theorem tree_of_movedSubtree :
    ∃ ns, initial.run? movedSubtree = some ns ∧ ns.Reachable ∧
      ns.children (.ofIndex 2) = [.ofIndex 3, .ofIndex 4] ∧
      (∀ p c, c ∈ ns.children p ↔ ns.parent? c = some p) ∧ (∀ p, (ns.children p).Nodup) ∧
      (∀ id, ¬TransGen ns.Up id id) ∧ ns.parent? .root = none := by
  have hc : (initial.run? movedSubtree).map (·.children (.ofIndex 2)) =
      some [.ofIndex 3, .ofIndex 4] := by decide +kernel
  obtain ⟨ns, hr, hc⟩ := Option.map_eq_some_iff.1 hc
  have h : ns.Reachable := ⟨movedSubtree, allowed_movedSubtree, hr⟩
  have t := tree_of_reachable h
  exact ⟨ns, hr, h, hc, t.1, t.2.1.1, t.2.2.2.2.1, t.2.2.1.1⟩

end Namespace

end Acpi
