import Mathlib.Data.List.Induction
import Acpi.Proofs.Binding.Pass
import Acpi.Proofs.Run

namespace Acpi

def Body.unit? : Body → Option FieldUnit
  | .fieldUnit u => some u
  | _ => none

theorem Body.unit?_eq_some {b : Body} {u : FieldUnit} : b.unit? = some u ↔ b = .fieldUnit u := by
  cases b <;> simp [unit?]

theorem Body.unit?_eq_none_of_kind {b : Body} (h : b.kind ≠ .fieldUnit) : b.unit? = none := by
  cases b with
  | fieldUnit u => exact absurd rfl h
  | _ => rfl

theorem Body.unit?_of_respond {b b' : Body} {index : Nat} {a : Operand}
    (h : b.respond index a = .fills b') : b'.unit? = b.unit? := by
  by_cases hunit : b.kind = .fieldUnit
  · cases b with
    | fieldUnit u => cases h
    | _ => cases hunit
  · have hkind := (Body.alike_of_respond h).1
    rw [unit?_eq_none_of_kind hunit, unit?_eq_none_of_kind (hkind ▸ hunit)]

theorem Body.unit?_of_unbound {b b' : Body} (h : b'.unbound = b.unbound) {u' : FieldUnit}
    (hu' : b'.unit? = some u') :
    ∃ u, b.unit? = some u ∧ u'.connectionName = u.connectionName := by
  rw [unit?_eq_some] at hu'
  rw [hu'] at h
  cases b with
  | fieldUnit u =>
    have hsame : { u' with connection := none } = { u with connection := none } :=
      Body.fieldUnit.inj h
    have hname := congrArg FieldUnit.connectionName hsame
    exact ⟨u, rfl, hname⟩
  | _ => cases h

namespace Object

variable {o : Object}

theorem unit?_offer (o : Object) (index : Nat) (a : Operand) :
    (o.offer index a).2.body.unit? = o.body.unit? := by
  rcases o.offer_cases index a with h | h | ⟨body, hr, h⟩ | ⟨seg, named, -, hn, h⟩
  · rw [h]
  · rw [h]
    rfl
  · rw [h]
    exact Body.unit?_of_respond hr
  · obtain ⟨-, rfl⟩ := giveName?_eq_some.1 hn
    rw [h]

theorem editUnit?_eq (o : Object) (e : UnitEdit) :
    o.editUnit? e = o.body.unit?.map fun u => { o with body := .fieldUnit (u.edit e) } := by
  rw [editUnit?]
  cases o.body <;> rfl

theorem Fresh.connection_eq_none (h : o.Fresh) {u : FieldUnit} (hu : o.body.unit? = some u) :
    u.connection = none := by
  have hlinked := h.linked?_eq_none .connection
  rw [Body.unit?_eq_some.1 hu] at hlinked
  exact hlinked

end Object

/-- The action gives the unit a connection name, whether it had one or not. -/
def Action.NamesConnection (id : ObjectId) (a : Action) : Prop :=
  ∃ e name, a = .editUnit id e ∧ e.connectionName = some (some name)

theorem Action.namesConnection_editUnit {id : ObjectId} {e : UnitEdit} :
    NamesConnection id (.editUnit id e) ↔ ∃ name, e.connectionName = some (some name) := by
  simp [NamesConnection]

namespace Namespace

variable {ns ns' : Namespace} {id other found scope p c : ObjectId} {o : Object} {e : UnitEdit}
  {a : Action} {actions : List Action} {u u' : FieldUnit}

def unit? (ns : Namespace) (id : ObjectId) : Option FieldUnit :=
  (ns.get? id).bind fun o => o.body.unit?

/-- The unit is connected to `found`, and it has no connection name. -/
def Lingers (ns : Namespace) (id found : ObjectId) : Prop :=
  ∃ u, ns.unit? id = some u ∧ u.connectionName = none ∧ u.connection = some found

/-- The action takes the name back from the unit, which is connected to `found`. -/
def TakesBack (ns : Namespace) (id found : ObjectId) (a : Action) : Prop :=
  ∃ e u, a = .editUnit id e ∧ e.connectionName = some none ∧ ns.unit? id = some u ∧
    u.connectionName ≠ none ∧ u.connection = some found

theorem takesBack_editUnit :
    ns.TakesBack id found (.editUnit id e) ↔ e.connectionName = some none ∧
      ∃ u, ns.unit? id = some u ∧ u.connectionName ≠ none ∧ u.connection = some found := by
  simp [TakesBack]

theorem unit?_of_get? (h : ns.get? id = some o) : ns.unit? id = o.body.unit? := by
  rw [unit?, h]
  rfl

theorem exists_of_unit? (h : ns.unit? id = some u) :
    ∃ o, ns.get? id = some o ∧ o.body = .fieldUnit u := by
  obtain ⟨o, ho, hu⟩ := Option.bind_eq_some_iff.1 h
  exact ⟨o, ho, Body.unit?_eq_some.1 hu⟩

theorem unit?_congr (h : ns'.get? id = ns.get? id) : ns'.unit? id = ns.unit? id := by
  rw [unit?, h]
  rfl

theorem unit?_eq (ns : Namespace) (id : ObjectId) :
    ns.unit? id = ((ns.get? id).map fun o => o.body.unit?).join := by
  cases h : ns.get? id <;> simp [unit?, h]

theorem unit?_update {f : Object → Object}
    (h : ∀ o, ns.get? id = some o → (f o).body.unit? = o.body.unit?) :
    (ns.update id f).unit? = ns.unit? := by
  funext other
  rw [unit?_eq, unit?_eq, map_get?_update h]

theorem unit?_link (ns : Namespace) (p c : ObjectId) : (ns.link p c).unit? = ns.unit? := by
  have hparent : (ns.update c (·.withParent (some p))).unit? = ns.unit? :=
    unit?_update fun _ _ => rfl
  rw [link, ← hparent]
  exact unit?_update fun _ _ => rfl

theorem unit?_unlink (ns : Namespace) (p c : ObjectId) : (ns.unlink p c).unit? = ns.unit? := by
  have hchild : (ns.update p (·.dropChild c)).unit? = ns.unit? := unit?_update fun _ _ => rfl
  rw [unlink, ← hchild]
  exact unit?_update fun _ _ => rfl

theorem unit?_of_unbound (h : ns'.unbound = ns.unbound) (hu' : ns'.unit? id = some u') :
    ∃ u, ns.unit? id = some u ∧ u'.connectionName = u.connectionName := by
  obtain ⟨o', ho', hbody'⟩ := exists_of_unit? hu'
  have hslot : (ns'.get? id).map Object.unbound = (ns.get? id).map Object.unbound := by
    rw [← get?_unbound, ← get?_unbound, h]
  rw [ho', Option.map_some] at hslot
  obtain ⟨o, ho, hunbound⟩ := Option.map_eq_some_iff.1 hslot.symm
  have hbodies : o'.body.unbound = o.body.unbound := congrArg Object.body hunbound.symm
  obtain ⟨u, hu, hname⟩ := Body.unit?_of_unbound hbodies (Body.unit?_eq_some.2 hbody')
  exact ⟨u, (unit?_of_get? ho).trans hu, hname⟩

theorem lingers_congr (h : ns'.unit? id = ns.unit? id) :
    ns'.Lingers id found ↔ ns.Lingers id found := by
  rw [Lingers, Lingers, h]

theorem lingers_insert (h : o.Fresh) : (ns.insert o).Lingers id found ↔ ns.Lingers id found := by
  by_cases hid : id.index = ns.size
  · constructor
    · intro hlingers
      obtain ⟨u, hu, -, hfound⟩ := hlingers
      rw [unit?, get?_insert, if_pos hid] at hu
      rw [h.connection_eq_none hu] at hfound
      cases hfound
    · intro hlingers
      obtain ⟨u, hu, -, -⟩ := hlingers
      rw [unit?, get?_eq_none (Nat.le_of_eq hid.symm)] at hu
      cases hu
  · apply lingers_congr
    rw [unit?_eq, unit?_eq, map_get?_insert _ hid]

theorem lingers_attach {attached : Namespace} (h : ns.attach p c = .ok attached) :
    attached.Lingers id found ↔ ns.Lingers id found := by
  obtain ⟨-, rfl⟩ := attach_eq_ok.1 h
  exact lingers_congr (congrFun (unit?_link ns p c) id)

/-- A binding finds nothing to do at a unit without a name. -/
theorem unit?_bindIn (h : ns.bindIn scope other = .ok ns') (hu : ns.unit? id = some u)
    (hname : u.connectionName = none) : ns'.unit? id = some u := by
  by_cases hid : id = other
  · subst hid
    obtain ⟨o, ho, hbody⟩ := exists_of_unit? hu
    obtain ⟨links, hlinks, rfl⟩ := exists_of_bindIn h ho
    have hrefs : o.body.references = [] := by
      rw [hbody, Body.references, hname]
      rfl
    rw [hrefs] at hlinks
    cases hlinks
    rw [setLinks, update_of_get? ho rfl, hu]
  · rw [unit?_congr (get?_bindIn_other h hid), hu]

theorem lingers_bindIn (h : ns.bindIn scope other = .ok ns') :
    ns'.Lingers id found ↔ ns.Lingers id found := by
  constructor
  · intro hlingers
    obtain ⟨u', hu', hname', hfound⟩ := hlingers
    obtain ⟨u, hu, hname⟩ := unit?_of_unbound (unbound_bindIn h) hu'
    rw [hname'] at hname
    have hsame := unit?_bindIn h hu hname.symm
    obtain rfl : u' = u := Option.some.inj (hu'.symm.trans hsame)
    exact ⟨u', hu, hname', hfound⟩
  · intro hlingers
    obtain ⟨u, hu, hname, hfound⟩ := hlingers
    exact ⟨u, unit?_bindIn h hu hname, hname, hfound⟩

theorem lingers_bindEach (ns : Namespace) (pending : List (ObjectId × ObjectId)) :
    (ns.bindEach pending).2.Lingers id found ↔ ns.Lingers id found := by
  induction pending generalizing ns with
  | nil => rfl
  | cons q rest ih =>
    obtain ⟨other, scope⟩ := q
    cases h : ns.bindIn scope other with
    | error c => rw [bindEach, h]
    | ok bound =>
      rw [bindEach, h]
      exact (ih bound).trans (lingers_bindIn h)

theorem unit?_offer? {index : Nat} {a : Operand} :
    (((ns.offer? other index a).map Prod.snd).getD ns).unit? = ns.unit? := by
  rw [offer?]
  cases ho : ns.get? other with
  | none => rfl
  | some o =>
    refine unit?_update fun old hold => ?_
    cases ho.symm.trans hold
    exact o.unit?_offer index a

theorem unit?_giveName? {name : NameSeg} :
    (((ns.giveName? other name).map Prod.snd).getD ns).unit? = ns.unit? := by
  rw [giveName?]
  cases ho : ns.get? other with
  | none => rfl
  | some o =>
    cases hn : o.giveName? name with
    | none => simp [hn]
    | some named =>
      obtain ⟨-, rfl⟩ := Object.giveName?_eq_some.1 hn
      simp only [Option.map_some, hn, Option.getD_some]
      refine unit?_update fun old hold => ?_
      cases ho.symm.trans hold
      rfl

theorem unit?_editUnit?_self :
    (((ns.editUnit? id e).map Prod.snd).getD ns).unit? id = (ns.unit? id).map (·.edit e) := by
  rw [editUnit?]
  cases ho : ns.get? id with
  | none => simp [unit?, ho]
  | some o =>
    have hold := unit?_of_get? ho
    cases hu : o.body.unit? with
    | none => simp [o.editUnit?_eq, hold, hu]
    | some u =>
      have hnew : (ns.update id fun _ => { o with body := .fieldUnit (u.edit e) }).unit? id =
          some (u.edit e) := unit?_of_get? (get?_update_self ho)
      simp [o.editUnit?_eq, hold, hu, hnew]

theorem unit?_editUnit?_other (hid : id ≠ other) :
    (((ns.editUnit? other e).map Prod.snd).getD ns).unit? id = ns.unit? id := by
  apply unit?_congr
  rw [editUnit?]
  cases ho : ns.get? other with
  | none => rfl
  | some o =>
    cases he : o.editUnit? e with
    | none => simp [he]
    | some edited => simp [he, get?_update, hid]

/-- Only an edit of the unit itself can tell what lingers there. -/
theorem lingers_after?_other (ha : a.Allowed) (hedit : ∀ e, a ≠ .editUnit id e)
    (h : ns.after? a = some ns') : ns'.Lingers id found ↔ ns.Lingers id found := by
  cases a with
  | insert o =>
    cases h
    exact lingers_insert ha
  | declare parent o =>
    cases h
    refine Iff.trans ?_ (lingers_insert ha)
    cases hattach : (ns.insert o).attach parent ns.nextId with
    | ok attached => simpa [declare, hattach] using lingers_attach hattach
    | error e => simp [declare, hattach]
  | attach parent child =>
    cases hattach : ns.attach parent child with
    | ok attached =>
      simp only [after?, hattach, Option.some.injEq] at h
      exact h ▸ lingers_attach hattach
    | error e =>
      simp only [after?, hattach, Option.some.injEq] at h
      rw [h]
  | detach parent child =>
    cases h
    rw [detach?]
    split
    · exact lingers_congr (congrFun (unit?_unlink ns parent child) id)
    · rfl
  | offer other index operand =>
    cases h
    exact lingers_congr (congrFun unit?_offer? id)
  | giveName other name =>
    cases h
    exact lingers_congr (congrFun unit?_giveName? id)
  | editUnit other e =>
    cases h
    refine lingers_congr (unit?_editUnit?_other fun hid => ?_)
    exact hedit e (hid ▸ rfl)
  | bind other =>
    cases hbind : ns.bind other with
    | ok bound =>
      simp only [after?, hbind, Option.some.injEq] at h
      exact h ▸ lingers_bindIn hbind
    | error c =>
      simp only [after?, hbind, Option.some.injEq] at h
      rw [h]
  | bindAll =>
    obtain ⟨r, hr, rfl⟩ := Option.map_eq_some_iff.1 h
    obtain ⟨pending, -, rfl⟩ := Option.map_eq_some_iff.1 hr
    exact lingers_bindEach ns pending

theorem lingers_editUnit (h : ns.after? (.editUnit id e) = some ns') :
    ns'.Lingers id found ↔ ∃ u, ns.unit? id = some u ∧
      e.connectionName.getD u.connectionName = none ∧ u.connection = some found := by
  cases h
  rw [Lingers, unit?_editUnit?_self]
  constructor
  · intro hlingers
    obtain ⟨edited, hedited, hname, hfound⟩ := hlingers
    obtain ⟨u, hu, rfl⟩ := Option.map_eq_some_iff.1 hedited
    exact ⟨u, hu, hname, hfound⟩
  · intro hunit
    obtain ⟨u, hu, hname, hfound⟩ := hunit
    exact ⟨u.edit e, Option.map_eq_some_iff.2 ⟨u, hu, rfl⟩, hname, hfound⟩

/-- A connection lingers after an action if it lingered before and the action gives no name, or if
the action takes the name back. -/
theorem lingers_after? (ha : a.Allowed) (h : ns.after? a = some ns') :
    ns'.Lingers id found ↔
      ns.Lingers id found ∧ ¬a.NamesConnection id ∨ ns.TakesBack id found a := by
  by_cases hedit : ∃ e, a = .editUnit id e
  · obtain ⟨e, rfl⟩ := hedit
    rw [lingers_editUnit h, Action.namesConnection_editUnit, takesBack_editUnit, Lingers]
    rcases e.connectionName with _ | _ | name
    · simp
    · simp only [Option.getD_some, true_and]
      constructor
      · intro hunit
        obtain ⟨u, hu, hfound⟩ := hunit
        by_cases hname : u.connectionName = none
        · exact .inl ⟨⟨u, hu, hname, hfound⟩, by simp⟩
        · exact .inr ⟨u, hu, hname, hfound⟩
      · intro hcases
        rcases hcases with ⟨⟨u, hu, -, hfound⟩, -⟩ | ⟨u, hu, -, hfound⟩
        · exact ⟨u, hu, hfound⟩
        · exact ⟨u, hu, hfound⟩
    · simp
  · have hnames : ¬a.NamesConnection id := fun ⟨e, _, he, _⟩ => hedit ⟨e, he⟩
    have htakes : ¬ns.TakesBack id found a := fun ⟨e, _, he, _⟩ => hedit ⟨e, he⟩
    have hother : ns'.Lingers id found ↔ ns.Lingers id found :=
      lingers_after?_other ha (fun e he => hedit ⟨e, he⟩) h
    simp [hother, hnames, htakes]

/-- At some point in the run the name was taken back from the unit, which was connected to `found`,
and it has got no name since. -/
def TakenBack (actions : List Action) (id found : ObjectId) : Prop :=
  ∃ before a after ns, actions = before ++ a :: after ∧
    initial.run? before = some ns ∧ ns.TakesBack id found a ∧
    ∀ later ∈ after, ¬later.NamesConnection id

theorem takenBack_concat :
    TakenBack (actions ++ [a]) id found ↔
      TakenBack actions id found ∧ ¬a.NamesConnection id ∨
        ∃ ns, initial.run? actions = some ns ∧ ns.TakesBack id found a := by
  constructor
  · intro h
    obtain ⟨before, b, after, ns, heq, hr, htakes, hafter⟩ := h
    rcases List.eq_nil_or_concat' after with rfl | ⟨rest, last, rfl⟩
    · obtain ⟨rfl, hab⟩ := List.append_inj' heq rfl
      obtain rfl : a = b := List.singleton_inj.1 hab
      exact .inr ⟨ns, hr, htakes⟩
    · rw [← List.cons_append, ← List.append_assoc] at heq
      obtain ⟨rfl, hlast⟩ := List.append_inj' heq rfl
      obtain rfl : a = last := List.singleton_inj.1 hlast
      refine .inl ⟨⟨before, b, rest, ns, rfl, hr, htakes, ?_⟩, ?_⟩
      · exact fun later hm => hafter later (List.mem_append_left _ hm)
      · exact hafter a (List.mem_append_right _ List.mem_cons_self)
  · intro h
    rcases h with ⟨⟨before, b, after, ns, rfl, hr, htakes, hafter⟩, ha⟩ | ⟨ns, hr, htakes⟩
    · refine ⟨before, b, after ++ [a], ns, by simp, hr, htakes, ?_⟩
      intro later hm
      rcases List.mem_append.1 hm with hm | hm
      · exact hafter later hm
      · rw [List.mem_singleton.1 hm]
        exact ha
    · exact ⟨actions, a, [], ns, rfl, hr, htakes, by simp⟩

theorem not_takenBack_nil (id found : ObjectId) : ¬TakenBack [] id found := by
  intro h
  obtain ⟨before, a, after, ns, heq, -⟩ := h
  simp at heq

theorem not_lingers_initial (id found : ObjectId) : ¬initial.Lingers id found := by
  intro h
  obtain ⟨u, hu, -, -⟩ := h
  obtain ⟨o, ho, hbody⟩ := exists_of_unit? hu
  have hid := contains_iff.1 (contains_of_get? ho)
  obtain rfl : id = .root := ObjectId.ext (Nat.lt_one_iff.1 hid)
  cases ho
  cases hbody

/-- What lingers after a run is what was taken back in it. -/
theorem lingers_iff_takenBack (ha : ∀ a ∈ actions, a.Allowed)
    (h : initial.run? actions = some ns) :
    ns.Lingers id found ↔ TakenBack actions id found := by
  -- by the last action, since that decides whether what lingered before it still does
  induction actions using List.reverseRecOn generalizing ns with
  | nil =>
    cases h
    exact iff_of_false (not_lingers_initial id found) (not_takenBack_nil id found)
  | append_singleton actions a ih =>
    rw [run?_concat] at h
    obtain ⟨mid, hmid, hlast⟩ := Option.bind_eq_some_iff.1 h
    have hbefore := ih (fun b hb => ha b (List.mem_append_left _ hb)) hmid
    have hallowed : a.Allowed := ha a (List.mem_append_right _ List.mem_cons_self)
    rw [lingers_after? hallowed hlast, takenBack_concat, hbefore, hmid]
    simp

end Namespace

end Acpi
