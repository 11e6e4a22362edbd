import Acpi.Proofs.Binding.Pending
import Acpi.Proofs.Namespace.Attach

namespace Acpi

open Relation

/-- An object later on: its links, its place in the tree and what its operands filled in may be
others. -/
structure Object.Remains (o o' : Object) : Prop where
  opcode : o'.opcode = o.opcode
  table : o'.table = o.table
  kind : o'.kind = o.kind
  name : ∀ seg, o.name = some seg → o'.name = some seg

namespace Object

variable {o o' o'' : Object}

theorem Remains.refl (o : Object) : o.Remains o := ⟨rfl, rfl, rfl, fun _ h => h⟩

theorem Remains.trans (h : o.Remains o') (h' : o'.Remains o'') : o.Remains o'' where
  opcode := h'.opcode.trans h.opcode
  table := h'.table.trans h.table
  kind := h'.kind.trans h.kind
  name seg hn := h'.name seg (h.name seg hn)

theorem Remains.isContainer (h : o.Remains o') : o'.isContainer = o.isContainer := by
  rw [Object.isContainer, h.kind, Object.isContainer]

theorem Keeps.remains (k : o.Keeps o') : o.Remains o' := ⟨k.opcode, k.table, k.kind, k.name⟩

theorem remains_withParent (o : Object) (parent : Option ObjectId) :
    o.Remains (o.withParent parent) := ⟨rfl, rfl, rfl, fun _ h => h⟩

theorem remains_addChild (o : Object) (child : ObjectId) : o.Remains (o.addChild child) :=
  ⟨rfl, rfl, rfl, fun _ h => h⟩

theorem remains_dropChild (o : Object) (child : ObjectId) : o.Remains (o.dropChild child) :=
  ⟨rfl, rfl, rfl, fun _ h => h⟩

theorem remains_linkAll (o : Object) (links : List (Role × ObjectId)) :
    o.Remains { o with body := o.body.linkAll links } := by
  have hkind : (o.body.linkAll links).kind = o.body.kind := by
    rw [← Body.kind_unbound, Body.unbound_linkAll, Body.kind_unbound]
  exact ⟨rfl, rfl, hkind, fun _ h => h⟩

end Object

namespace Namespace

variable {ns ns' ns'' : Namespace} {id p c : ObjectId} {o o' : Object} {a : Action}
  {actions : List Action}

/-- A namespace later on: every object of it is still there. -/
structure Retains (ns ns' : Namespace) : Prop where
  size_le : ns.size ≤ ns'.size
  remains : ∀ {id o}, ns.get? id = some o → ∃ o', ns'.get? id = some o' ∧ o.Remains o'

namespace Retains

theorem refl (ns : Namespace) : ns.Retains ns := ⟨Nat.le_refl _, fun h => ⟨_, h, .refl _⟩⟩

theorem trans (h : ns.Retains ns') (h' : ns'.Retains ns'') : ns.Retains ns'' := by
  refine ⟨Nat.le_trans h.size_le h'.size_le, fun ho => ?_⟩
  obtain ⟨mid, hmid, hfirst⟩ := h.remains ho
  obtain ⟨last, hlast, hsecond⟩ := h'.remains hmid
  exact ⟨last, hlast, hfirst.trans hsecond⟩

theorem kind? (h : ns.Retains ns') {k : Kind} (hk : ns.kind? id = some k) :
    ns'.kind? id = some k := by
  obtain ⟨o, ho, rfl⟩ := Option.map_eq_some_iff.1 hk
  obtain ⟨o', ho', hremains⟩ := h.remains ho
  rw [kind?_of_get? ho', hremains.kind]

end Retains

theorem retains_insert (ns : Namespace) (o : Object) : ns.Retains (ns.insert o) := by
  refine ⟨by simp, fun {id old} hold => ?_⟩
  have hstays : (ns.insert o).get? id = some old := get?_insert_of_get? hold
  exact ⟨old, hstays, .refl old⟩

theorem retains_update {f : Object → Object}
    (h : ∀ o, ns.get? id = some o → o.Remains (f o)) : ns.Retains (ns.update id f) := by
  refine ⟨by simp, fun {other old} hold => ?_⟩
  by_cases he : other = id
  · subst he
    exact ⟨f old, get?_update_self hold, h old hold⟩
  · refine ⟨old, ?_, .refl old⟩
    rw [get?_update, if_neg he, hold]

theorem retains_put (ho : ns.get? id = some o) (hr : o.Remains o') :
    ns.Retains (ns.update id fun _ => o') := by
  apply retains_update
  intro old hold
  cases ho.symm.trans hold
  exact hr

theorem retains_link (ns : Namespace) (p c : ObjectId) : ns.Retains (ns.link p c) := by
  have hchild : ns.Retains (ns.update c (·.withParent (some p))) :=
    retains_update fun o _ => o.remains_withParent (some p)
  exact hchild.trans (retains_update fun o _ => o.remains_addChild c)

theorem retains_unlink (ns : Namespace) (p c : ObjectId) : ns.Retains (ns.unlink p c) := by
  have hparent : ns.Retains (ns.update p (·.dropChild c)) :=
    retains_update fun o _ => o.remains_dropChild c
  exact hparent.trans (retains_update fun o _ => o.remains_withParent none)

theorem Move.retains (h : ns.Move ns') : ns.Retains ns' := by
  cases h with
  | @insert o _ => exact retains_insert ns o
  | link _ => exact retains_link ns _ _
  | unlink _ => exact retains_unlink ns _ _
  | offer ho index a => exact retains_put ho (Object.keeps_offer _ index a).remains
  | giveName ho hn => exact retains_put ho (Object.keeps_giveName? hn).remains
  | editUnit ho he => exact retains_put ho (Object.keeps_editUnit? he).remains
  | bind _ _ => exact retains_update fun o _ => o.remains_linkAll _

theorem retains_moves (h : ReflTransGen Move ns ns') : ns.Retains ns' := by
  induction h with
  | refl => exact .refl ns
  | tail _ h ih => exact ih.trans h.retains

theorem retains_after? (ha : a.Allowed) (h : ns.after? a = some ns') : ns.Retains ns' :=
  retains_moves (moves_after? ha h)

theorem retains_run? (ha : ∀ a ∈ actions, a.Allowed) (h : ns.run? actions = some ns') :
    ns.Retains ns' :=
  retains_moves (moves_run? ha h)

/-- The id that an action gives out, with the object it is for. -/
def given? (ns : Namespace) : Action → Option (ObjectId × Object)
  | .insert o => some (ns.nextId, o)
  | .declare parent o =>
    match (ns.declare parent o).1 with
    | .ok id => some (id, o)
    | .error _ => none
  | _ => none

/-- All ids that actions in turn give out. -/
def givenAlong (ns : Namespace) : List Action → List (ObjectId × Object)
  | [] => []
  | a :: rest =>
    match ns.after? a with
    | some next => (ns.given? a).toList ++ next.givenAlong rest
    | none => []

/-- An id is given out for what is put in, and for what is put in and hangs in its place. -/
theorem given?_cases (h : ns.given? a = some (id, o)) :
    id = ns.nextId ∧ (ns.after? a = some (ns.insert o) ∨
      ∃ p, (ns.insert o).obstacle? p ns.nextId = none ∧
        ns.after? a = some ((ns.insert o).link p ns.nextId)) := by
  cases a with
  | insert new =>
    cases h
    exact ⟨rfl, .inl rfl⟩
  | declare p new =>
    cases hobs : (ns.insert new).obstacle? p ns.nextId with
    | none =>
      have hd : ns.declare p new = (.ok ns.nextId, (ns.insert new).link p ns.nextId) :=
        declare_of_obstacle? hobs
      simp only [given?, hd, Option.some.injEq, Prod.mk.injEq] at h
      obtain ⟨rfl, rfl⟩ := h
      exact ⟨rfl, .inr ⟨p, hobs, by rw [after?, hd]⟩⟩
    | some e =>
      have hd : ns.declare p new = (.error e, ns.insert new) := by
        rw [declare, Namespace.attach, hobs]
      simp [given?, hd] at h
  | _ => cases h

theorem size_of_given? (h : ns.given? a = some (id, o)) (hnext : ns.after? a = some ns') :
    ns'.size = ns.size + 1 := by
  obtain ⟨-, hins | ⟨p, -, hlink⟩⟩ := given?_cases h
  · cases hins.symm.trans hnext
    exact size_insert ns o
  · cases hlink.symm.trans hnext
    rw [size_link, size_insert]

theorem get?_link_child (hne : c ≠ p) (ho : ns.get? c = some o) :
    (ns.link p c).get? c = some (o.withParent (some p)) := by
  rw [link, get?_update, if_neg hne, get?_update_self ho]

/-- The id names what was put in, which hangs in its place or nowhere. -/
theorem get?_of_given? (hsize : ns.size ≤ ObjectId.last) (h : ns.given? a = some (id, o)) :
    id.index = ns.size ∧ ∃ next, ns.after? a = some next ∧
      next.get? id = some (o.withParent (next.parent? id)) := by
  obtain ⟨rfl, hcases⟩ := given?_cases h
  have hindex : ns.nextId.index = ns.size := index_nextId hsize
  have hput : (ns.insert o).get? ns.nextId = some o := by rw [get?_insert, if_pos hindex]
  refine ⟨hindex, ?_⟩
  rcases hcases with hins | ⟨p, hobs, hlink⟩
  · refine ⟨ns.insert o, hins, ?_⟩
    rw [parent?_of_get? hput, hput]
    rfl
  · obtain ⟨-, -, -, -, hline⟩ := obstacle?_eq_none.1 hobs
    have hne : ns.nextId ≠ p := by
      intro he
      exact hline (he ▸ List.mem_cons_self)
    have hchild := get?_link_child hne hput
    refine ⟨_, hlink, ?_⟩
    rw [parent?_of_get? hchild, hchild]
    rfl

theorem get?_eq_none_of_given? (hsize : ns.size ≤ ObjectId.last)
    (h : ns.given? a = some (id, o)) : ns.get? id = none := by
  have hindex := (get?_of_given? hsize h).1
  exact get?_eq_none (Nat.le_of_eq hindex.symm)

/-- The ids of a run come in order, none of them is in use before, and each names its object at the
end. -/
theorem given_of_run? (ha : ∀ a ∈ actions, a.Allowed) (h : ns.run? actions = some ns')
    (hsize : ns'.size ≤ ObjectId.last + 1) :
    (ns.givenAlong actions).Pairwise (fun g later => g.1.index < later.1.index) ∧
      ∀ g ∈ ns.givenAlong actions, ns.size ≤ g.1.index ∧
        ∃ o', ns'.get? g.1 = some o' ∧ g.2.Remains o' := by
  induction actions generalizing ns with
  | nil => exact ⟨.nil, by simp [givenAlong]⟩
  | cons a rest ih =>
    obtain ⟨mid, hmid, hrest⟩ := Option.bind_eq_some_iff.1 h
    have hallowed : ∀ b ∈ rest, b.Allowed := fun b hb => ha b (List.mem_cons_of_mem a hb)
    have hfirst : ns.Retains mid := retains_after? (ha a List.mem_cons_self) hmid
    have hlater : mid.Retains ns' := retains_run? hallowed hrest
    obtain ⟨hsorted, hnamed⟩ := ih hallowed hrest
    have hold : ∀ g ∈ mid.givenAlong rest, ns.size ≤ g.1.index ∧
        ∃ o', ns'.get? g.1 = some o' ∧ g.2.Remains o' := by
      intro g hg
      obtain ⟨hle, hremains⟩ := hnamed g hg
      exact ⟨Nat.le_trans hfirst.size_le hle, hremains⟩
    rw [givenAlong, hmid]
    cases hgiven : ns.given? a with
    | none => exact ⟨hsorted, hold⟩
    | some g =>
      obtain ⟨id, o⟩ := g
      have hgrown : mid.size = ns.size + 1 := size_of_given? hgiven hmid
      have hroom : ns.size ≤ ObjectId.last := by
        have := hlater.size_le
        omega
      obtain ⟨hindex, next, hnext, hput⟩ := get?_of_given? hroom hgiven
      cases hmid.symm.trans hnext
      obtain ⟨o', ho', hremains⟩ := hlater.remains hput
      refine ⟨List.pairwise_cons.2 ⟨fun g hg => ?_, hsorted⟩, fun g hg => ?_⟩
      · have hle := (hnamed g hg).1
        change id.index < g.1.index
        omega
      · rcases List.mem_cons.1 hg with rfl | hg
        · exact ⟨Nat.le_of_eq hindex.symm, o', ho', (o.remains_withParent _).trans hremains⟩
        · exact hold g hg

/-- From every point of a run on, whatever is done and whatever of it fails, each id that is in use
goes on naming the same object; and each id that is given out was not in use, is not given out again
and names the object it was given out for. -/
theorem identity_of_reachable (h : ns.Reachable) :
    (∀ a id o, ns.size ≤ ObjectId.last → ns.given? a = some (id, o) → ns.get? id = none ∧
      ∃ next, ns.after? a = some next ∧
        next.get? id = some (o.withParent (next.parent? id))) ∧
    ∀ actions : List Action, (∀ a ∈ actions, a.Allowed) →
      ∃ ns', ns.run? actions = some ns' ∧ ns.size ≤ ns'.size ∧
        (∀ id o, ns.get? id = some o →
          ∃ o', ns'.get? id = some o' ∧ o.Remains o' ∧ o'.isContainer = o.isContainer) ∧
        (ns'.size ≤ ObjectId.last + 1 →
          ((ns.givenAlong actions).map Prod.fst).Nodup ∧
          ∀ id o, (id, o) ∈ ns.givenAlong actions →
            ns.get? id = none ∧ ∃ o', ns'.get? id = some o' ∧ o.Remains o') := by
  constructor
  · intro a id o hsize hgiven
    exact ⟨get?_eq_none_of_given? hsize hgiven, (get?_of_given? hsize hgiven).2⟩
  · intro actions ha
    obtain ⟨ns', hrun⟩ := h.wellFormed.exists_run? ha
    have hretains : ns.Retains ns' := retains_run? ha hrun
    refine ⟨ns', hrun, hretains.size_le, fun id o ho => ?_, fun hsize => ?_⟩
    · obtain ⟨o', ho', hremains⟩ := hretains.remains ho
      exact ⟨o', ho', hremains, hremains.isContainer⟩
    · obtain ⟨hsorted, hnamed⟩ := given_of_run? ha hrun hsize
      constructor
      · refine List.pairwise_map.2 (hsorted.imp fun {g later} hlt heq => ?_)
        rw [heq] at hlt
        exact Nat.lt_irrefl _ hlt
      · intro id o hg
        obtain ⟨hle, hremains⟩ := hnamed (id, o) hg
        exact ⟨get?_eq_none hle, hremains⟩

/-- A region that is named by an operand. -/
def namedRegion : List Action :=
  let table : TableId := ⟨1⟩
  [.declare .root (.device table (.ofFour 0x44 0x45 0x56 0x30)),
   .declare (.ofIndex 1) (.region table), .offer (.ofIndex 2) 0 (.text "REG0")]

/-- More names for the region, which are refused, and a field that is bound to it; between them an
object that finds no place, operands that do not fit and a reference to nothing. -/
def renamedRegion : List Action :=
  let table : TableId := ⟨1⟩
  let device := ObjectId.ofIndex 1
  let region := ObjectId.ofIndex 2
  let field := ObjectId.ofIndex 4
  [.giveName region (.ofFour 0x4E 0x45 0x57 0x30), .offer region 0 (.text "NEW1"),
   .declare region (.event table), .declare device (.field table),
   .offer field 0 (.text "REG0"), .offer field 1 .absent, .bind field, .detach device region,
   .insert (.reference table "NONE"), .attach device (.ofIndex 5), .bindAll, .bind field]

theorem allowed_namedRegion : ∀ a ∈ namedRegion, a.Allowed := by
  simp [namedRegion, Action.Allowed]

theorem allowed_renamedRegion : ∀ a ∈ renamedRegion, a.Allowed := by
  simp [renamedRegion, Action.Allowed]

theorem identity_of_renamedRegion :
    ∃ ns ns', initial.run? namedRegion = some ns ∧ ns.Reachable ∧
      (ns.get? (.ofIndex 3) = none ∧
        ∃ next, ns.after? (.declare (.ofIndex 1) (.event ⟨1⟩)) = some next ∧
          next.get? (.ofIndex 3) =
            some (Object.withParent (.event ⟨1⟩) (next.parent? (.ofIndex 3)))) ∧
      ns.run? renamedRegion = some ns' ∧
      ns.name? (.ofIndex 2) = some (.ofFour 0x52 0x45 0x47 0x30) ∧
      (∃ o, ns'.get? (.ofIndex 2) = some o ∧ o.kind = .region ∧
        o.name = some (.ofFour 0x52 0x45 0x47 0x30)) ∧
      (ns.givenAlong renamedRegion).map Prod.fst = [.ofIndex 4, .ofIndex 5] ∧
      ns.get? (.ofIndex 5) = none ∧ ∃ o, ns'.get? (.ofIndex 5) = some o ∧ o.kind = .reference := by
  have hc : ∃ ns ∈ initial.run? namedRegion, ns.kind? (.ofIndex 2) = some .region ∧
      ns.name? (.ofIndex 2) = some (.ofFour 0x52 0x45 0x47 0x30) ∧ ns.size = 3 ∧
      ns.given? (.declare (.ofIndex 1) (.event ⟨1⟩)) = some (.ofIndex 3, .event ⟨1⟩) ∧
      ns.givenAlong renamedRegion =
        [(.ofIndex 4, .field ⟨1⟩), (.ofIndex 5, .reference ⟨1⟩ "NONE")] ∧
      ∃ ns' ∈ ns.run? renamedRegion, ns'.size = 6 := by decide +kernel
  obtain ⟨ns, hr, hkind, hname, hthree, hevent, hgiven, ns', hr', hsix⟩ := hc
  have h : ns.Reachable := ⟨namedRegion, allowed_namedRegion, hr⟩
  obtain ⟨hsingle, hruns⟩ := identity_of_reachable h
  have hput := hsingle _ _ _ (hthree ▸ by decide) hevent
  obtain ⟨last, hlast, -, hstays, hnew⟩ := hruns renamedRegion allowed_renamedRegion
  cases hr'.symm.trans hlast
  obtain ⟨-, hnamed⟩ := hnew (hsix ▸ by decide)
  obtain ⟨region, hregion, hk⟩ := Option.map_eq_some_iff.1 hkind
  obtain ⟨o, ho, hremains, -⟩ := hstays _ region hregion
  have hn : region.name = some (.ofFour 0x52 0x45 0x47 0x30) := by
    rw [← hname, Namespace.name?, hregion, Option.bind_some]
  have hlater : (.ofIndex 5, .reference ⟨1⟩ "NONE") ∈ ns.givenAlong renamedRegion := by
    simp [hgiven]
  obtain ⟨hfree, o', ho', hremains'⟩ := hnamed _ _ hlater
  refine ⟨ns, ns', hr, h, hput, hr', hname, ⟨o, ho, hremains.kind.trans hk, hremains.name _ hn⟩,
    ?_, hfree, o', ho', hremains'.kind⟩
  rw [hgiven]
  rfl

end Namespace

end Acpi
