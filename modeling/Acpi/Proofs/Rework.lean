import Acpi.Proofs.Namespace.Preorder
import Acpi.Proofs.Run

/-!
Runs in which objects are also copied and written over. A copy brings the links of the object it was
made from, and what is written over is still named by others, so child lists and parent links may
part. Ways up end all the same; but a loop in the child lists is not seen from the parents, and a
walk that comes to it has no end. There is none while only objects without children are copied, and
only objects that no list names are written over.
-/

namespace Acpi

open Relation

/-- What is done to a namespace from outside, copies and overwriting included. -/
inductive Rework
  | act (a : Action)
  | copy (id : ObjectId)
  | replace (id : ObjectId) (o : Object)

namespace Rework

/-- Only fresh objects are put in or written over others. -/
def Allowed : Rework → Prop
  | .act a => a.Allowed
  | .copy _ => True
  | .replace _ o => o.Fresh

/-- Afterwards no list names a child that has another parent. -/
def Careful (ns : Namespace) : Rework → Prop
  | .act _ => True
  | .copy id => ns.children id = []
  | .replace id _ => ∀ p ∈ ns.ids, id ∉ ns.children p

instance (ns : Namespace) : (r : Rework) → Decidable (r.Careful ns)
  | .act _ => inferInstanceAs (Decidable True)
  | .copy id => inferInstanceAs (Decidable (ns.children id = []))
  | .replace id _ => inferInstanceAs (Decidable (∀ p ∈ ns.ids, id ∉ ns.children p))

end Rework

namespace Namespace

variable {ns ns' : Namespace} {id p c : ObjectId} {o : Object} {r : Rework}

/-- The namespace after a step, which is the same where the step failed. -/
def rework? (ns : Namespace) : Rework → Option Namespace
  | .act a => ns.after? a
  | .copy id => some (((ns.copy? id).map Prod.snd).getD ns)
  | .replace id o => some ((ns.replace? id o).getD ns)

/-- The namespace after a careful step. There is none after any other. -/
def tend? (ns : Namespace) (r : Rework) : Option Namespace :=
  if r.Careful ns then ns.rework? r else none

def Reworked (ns : Namespace) : Prop :=
  ∃ rs : List Rework, (∀ r ∈ rs, r.Allowed) ∧ rs.foldlM rework? initial = some ns

def Tended (ns : Namespace) : Prop :=
  ∃ rs : List Rework, (∀ r ∈ rs, r.Allowed) ∧ rs.foldlM tend? initial = some ns

/-- To the tree a move adds an object, or it ties or unties one child, or it does nothing. -/
theorem Move.reshapes (h : ns.Move ns') :
    (∃ o : Object, o.Fresh ∧ ns' = ns.insert o) ∨
    (∃ p c, ns.obstacle? p c = none ∧ ns' = ns.link p c) ∨
    (∃ p c, c ∈ ns.children p ∧ ns' = ns.unlink p c) ∨
    ns'.parent? = ns.parent? ∧ ns'.children = ns.children ∧ ns'.contains = ns.contains := by
  have hkeeps : ∀ {id : ObjectId} {o o' : Object}, ns.get? id = some o → o.Keeps o' →
      (ns.update id fun _ => o').parent? = ns.parent? ∧
        (ns.update id fun _ => o').children = ns.children ∧
        (ns.update id fun _ => o').contains = ns.contains := by
    intro id o o' ho hk
    exact ⟨parent?_update_keeps ho hk, children_update_keeps ho hk, funext fun _ => contains_update⟩
  cases h with
  | insert h => exact .inl ⟨_, h, rfl⟩
  | link h => exact .inr (.inl ⟨_, _, h, rfl⟩)
  | unlink h => exact .inr (.inr (.inl ⟨_, _, h, rfl⟩))
  | offer h index a => exact .inr (.inr (.inr (hkeeps h (Object.keeps_offer _ index a))))
  | giveName h hn => exact .inr (.inr (.inr (hkeeps h (Object.keeps_giveName? hn))))
  | editUnit h he => exact .inr (.inr (.inr (hkeeps h (Object.keeps_editUnit? he))))
  | @bind id scope o links h ht =>
    have hu : (ns.setLinks id links).unbound = ns.unbound := unbound_setLinks id links
    exact .inr (.inr (.inr ⟨eq_of_unbound parent?_unbound hu, eq_of_unbound children_unbound hu,
      eq_of_unbound contains_unbound hu⟩))

theorem rework?_cases (hr : r.Allowed) (h : ns.rework? r = some ns') :
    ReflTransGen Move ns ns' ∨
    (∃ id o, r = .copy id ∧ ns.get? id = some o ∧ ns' = ns.insert o) ∨
    ∃ id o, r = .replace id o ∧ o.Fresh ∧ ns' = ns.update id fun _ => o := by
  cases r with
  | act a => exact .inl (moves_after? hr h)
  | copy id =>
    cases ho : ns.get? id with
    | none =>
      simp only [rework?, copy?, ho, Option.map_none, Option.getD_none, Option.some.injEq] at h
      exact .inl (h ▸ .refl)
    | some o =>
      simp only [rework?, copy?, ho, Option.map_some, Option.getD_some, Option.some.injEq] at h
      exact .inr (.inl ⟨id, o, rfl, ho, h.symm⟩)
  | replace id o =>
    by_cases hid : ns.contains id = true
    · simp only [rework?, replace?, if_pos hid, Option.getD_some, Option.some.injEq] at h
      exact .inr (.inr ⟨id, o, rfl, hr, h.symm⟩)
    · simp only [rework?, replace?, if_neg hid, Option.getD_none, Option.some.injEq] at h
      exact .inl (h ▸ .refl)

theorem Grounded.move (g : ns.Grounded) (h : ns.Move ns') : ns'.Grounded := by
  rcases h.reshapes with ⟨o, ho, rfl⟩ | ⟨p, c, hob, rfl⟩ | ⟨p, c, hc, rfl⟩ | ⟨hp, hch, hin⟩
  · exact g.insert (by simp [ho.alone.1]) (by simp [ho.alone.2])
  · exact g.link hob
  · exact g.unlink hc
  · exact g.congr hp hch hin

theorem Grounded.rework (g : ns.Grounded) (hr : r.Allowed) (h : ns.rework? r = some ns') :
    ns'.Grounded := by
  rcases rework?_cases hr h with hm | ⟨id, o, -, ho, rfl⟩ | ⟨id, o, -, ho, rfl⟩
  · exact keeps_of_moves Grounded.move hm g
  · refine g.insert (fun p hp => ?_) fun c hc => ?_
    · exact g.climbs.contains_parent ((parent?_of_get? ho).trans hp)
    · exact g.contains_child ((children_of_get? ho).symm ▸ hc)
  · exact g.replace ho.alone

theorem Descends.move (d : ns.Descends) (h : ns.Move ns') : ns'.Descends := by
  rcases h.reshapes with ⟨o, ho, rfl⟩ | ⟨p, c, hob, rfl⟩ | ⟨p, c, hc, rfl⟩ | ⟨hp, hch, hin⟩
  · exact d.insert (by simp [ho.alone.1]) ho.alone.2
  · exact d.link hob
  · exact d.unlink hc
  · exact d.congr hp hch hin

theorem Descends.tend (d : ns.Descends) (hr : r.Allowed) (h : ns.tend? r = some ns') :
    ns'.Descends := by
  rw [tend?] at h
  split at h
  next hcareful =>
    rcases rework?_cases hr h with hm | ⟨id, o, rfl, ho, rfl⟩ | ⟨id, o, rfl, ho, rfl⟩
    · exact keeps_of_moves Descends.move hm d
    · refine d.insert (fun p hp => ?_) ?_
      · exact d.climbs.contains_parent ((parent?_of_get? ho).trans hp)
      · exact (children_of_get? ho).symm.trans hcareful
    · refine d.replace ho.alone fun p hp => ?_
      exact hcareful p (mem_ids.2 (contains_of_mem_children hp)) hp
  · cases h

theorem keeps_of_foldlM {P : Namespace → Prop} {f : Namespace → Rework → Option Namespace}
    (hf : ∀ {ns r ns'}, P ns → r.Allowed → f ns r = some ns' → P ns') {rs : List Rework}
    (hr : ∀ r ∈ rs, r.Allowed) (hP : P ns) (h : rs.foldlM f ns = some ns') : P ns' := by
  induction rs generalizing ns with
  | nil =>
    cases h
    exact hP
  | cons r rs ih =>
    obtain ⟨mid, hmid, hrest⟩ := Option.bind_eq_some_iff.1 h
    have hfirst := hf hP (hr r List.mem_cons_self) hmid
    exact ih (fun q hq => hr q (List.mem_cons_of_mem r hq)) hfirst hrest

theorem Reworked.grounded (h : ns.Reworked) : ns.Grounded := by
  obtain ⟨rs, hr, hrun⟩ := h
  exact keeps_of_foldlM Grounded.rework hr wellFormed_initial.grounded hrun

theorem Tended.descends (h : ns.Tended) : ns.Descends := by
  obtain ⟨rs, hr, hrun⟩ := h
  exact keeps_of_foldlM Descends.tend hr wellFormed_initial.descends hrun

theorem rework?_of_tend? (h : ns.tend? r = some ns') : ns.rework? r = some ns' := by
  rw [tend?] at h
  split at h
  · exact h
  · cases h

theorem Tended.reworked (h : ns.Tended) : ns.Reworked := by
  obtain ⟨rs, hr, hrun⟩ := h
  refine ⟨rs, hr, ?_⟩
  clear hr
  generalize initial = start at hrun ⊢
  induction rs generalizing start with
  | nil => exact hrun
  | cons r rs ih =>
    obtain ⟨mid, hmid, hrest⟩ := Option.bind_eq_some_iff.1 hrun
    exact Option.bind_eq_some_iff.2 ⟨mid, rework?_of_tend? hmid, ih mid hrest⟩

/-- The pass waits for the end of the walk, and for nothing else. -/
theorem Grounded.exists_bindAll?_iff (g : ns.Grounded) :
    (∃ r, ns.bindAll? = some r) ↔ (ns.cursor .root).Ends ns := by
  constructor
  · intro h
    obtain ⟨r, hr⟩ := h
    obtain ⟨pending, hp, -⟩ := Option.map_eq_some_iff.1 hr
    obtain ⟨walk, hw, -⟩ := Option.map_eq_some_iff.1 hp
    exact ends_of_subtree? hw
  · intro hends
    have hloop := (ends_cursor_iff g.contains_child ns.contains_root).1 hends
    obtain ⟨walk, hw⟩ := exists_subtree? g.contains_child hloop
    simp [bindAll?, pending?, hw]

/-- Whatever is done, the walk from the root ends, and a pass returns, just where no object that
child lists lead to from the root is below itself; and that is so while steps are careful. -/
theorem walk_ends_iff_of_reworked (h : ns.Reworked) :
    ((ns.cursor .root).Ends ns ↔
      ∀ x, ReflTransGen ns.Down .root x → ¬TransGen ns.Down x x) ∧
    ((∃ r, ns.bindAll? = some r) ↔ (ns.cursor .root).Ends ns) ∧
    (ns.Tended → (ns.cursor .root).Ends ns) := by
  have g := h.grounded
  have hends := ends_cursor_iff g.contains_child ns.contains_root
  refine ⟨hends, g.exists_bindAll?_iff, fun ht => ?_⟩
  rw [hends]
  intro x _
  exact ht.descends.not_loop x

/-- A scope is taken out and put back as a copy, and another one in its own place. -/
def renewedScope : List Rework :=
  let table : TableId := ⟨1⟩
  let outer := ObjectId.ofIndex 1
  let inner := ObjectId.ofIndex 2
  let renewed := ObjectId.ofIndex 3
  [.act (.declare .root (.scope table (.ofFour 0x41 0x41 0x41 0x41))),
   .act (.declare outer (.scope table (.ofFour 0x42 0x42 0x42 0x42))),
   .act (.detach outer inner), .copy inner, .act (.attach outer renewed),
   .replace inner (.scope table (.ofFour 0x43 0x43 0x43 0x43)), .act (.attach renewed inner),
   .act .bindAll]

theorem allowed_renewedScope : ∀ r ∈ renewedScope, r.Allowed := by
  simp [renewedScope, Rework.Allowed, Action.Allowed]

theorem walk_ends_of_renewedScope :
    ∃ ns, renewedScope.foldlM tend? initial = some ns ∧ ns.Tended ∧ ns.Reworked ∧
      ns.children (.ofIndex 3) = [.ofIndex 2] ∧ (ns.cursor .root).Ends ns ∧
      (∃ r, ns.bindAll? = some r) ∧
      ∀ x, ReflTransGen ns.Down .root x → ¬TransGen ns.Down x x := by
  have hc : ∃ ns ∈ renewedScope.foldlM tend? initial,
      ns.children (.ofIndex 3) = [.ofIndex 2] := by decide +kernel
  obtain ⟨ns, hrun, hchildren⟩ := hc
  have ht : ns.Tended := ⟨renewedScope, allowed_renewedScope, hrun⟩
  obtain ⟨hloop, hpass, hcareful⟩ := walk_ends_iff_of_reworked ht.reworked
  have hends := hcareful ht
  exact ⟨ns, hrun, ht, ht.reworked, hchildren, hends, hpass.2 hends, hloop.1 hends⟩

theorem Grounded.endless_of_loop (g : ns.Grounded) (hid : ReflTransGen ns.Down .root id)
    (hloop : TransGen ns.Down id id) :
    (∀ n, ((ns.cursor .root).run ns n).1.length = n) ∧ ns.bindAll? = none := by
  have hrun := length_run_of_loop ns.contains_root hid hloop
  refine ⟨hrun, ?_⟩
  rw [Option.eq_none_iff_forall_ne_some]
  intro r hr
  exact Cursor.not_ends_of_length hrun (g.exists_bindAll?_iff.1 ⟨r, hr⟩)

/-- A scope inside another is written over, which still lists it, and then takes it as its child. -/
def overwrittenScope : List Rework :=
  let table : TableId := ⟨1⟩
  let outer := ObjectId.ofIndex 1
  let inner := ObjectId.ofIndex 2
  [.act (.declare .root (.scope table (.ofFour 0x41 0x41 0x41 0x41))),
   .act (.declare outer (.scope table (.ofFour 0x42 0x42 0x42 0x42))),
   .act (.detach .root outer), .replace inner (.scope table (.ofFour 0x42 0x42 0x42 0x42)),
   .act (.attach inner outer), .act (.attach .root inner)]

theorem allowed_overwrittenScope : ∀ r ∈ overwrittenScope, r.Allowed := by
  simp [overwrittenScope, Rework.Allowed, Action.Allowed]

/-- A scope with a child is copied, and the child takes the copy, which lists it, as its own. -/
def copiedScope : List Rework :=
  let table : TableId := ⟨1⟩
  let outer := ObjectId.ofIndex 1
  let inner := ObjectId.ofIndex 2
  [.act (.insert (.scope table (.ofFour 0x41 0x41 0x41 0x41))),
   .act (.declare outer (.scope table (.ofFour 0x42 0x42 0x42 0x42))), .copy outer,
   .act (.attach inner (.ofIndex 3)), .act (.attach .root outer)]

theorem allowed_copiedScope : ∀ r ∈ copiedScope, r.Allowed := by
  simp [copiedScope, Rework.Allowed, Action.Allowed]

/-- Both ways the walk from the root goes on forever, and a pass does not return. -/
theorem walk_endless_of_overwrittenScope_and_copiedScope :
    (∃ ns, overwrittenScope.foldlM rework? initial = some ns ∧ ns.Reworked ∧
      (∀ n, ((ns.cursor .root).run ns n).1.length = n) ∧ ns.bindAll? = none) ∧
    ∃ ns, copiedScope.foldlM rework? initial = some ns ∧ ns.Reworked ∧
      (∀ n, ((ns.cursor .root).run ns n).1.length = n) ∧ ns.bindAll? = none := by
  constructor
  · have hc : ∃ ns ∈ overwrittenScope.foldlM rework? initial,
        .ofIndex 2 ∈ ns.children .root ∧ .ofIndex 1 ∈ ns.children (.ofIndex 2) ∧
          .ofIndex 2 ∈ ns.children (.ofIndex 1) := by decide +kernel
    obtain ⟨ns, hrun, hroot, houter, hinner⟩ := hc
    have h : ns.Reworked := ⟨overwrittenScope, allowed_overwrittenScope, hrun⟩
    have hloop : TransGen ns.Down (.ofIndex 2) (.ofIndex 2) := .tail (.single houter) hinner
    exact ⟨ns, hrun, h, h.grounded.endless_of_loop (.single hroot) hloop⟩
  · have hc : ∃ ns ∈ copiedScope.foldlM rework? initial,
        .ofIndex 1 ∈ ns.children .root ∧ .ofIndex 2 ∈ ns.children (.ofIndex 1) ∧
          .ofIndex 3 ∈ ns.children (.ofIndex 2) ∧ .ofIndex 2 ∈ ns.children (.ofIndex 3) := by
      decide +kernel
    obtain ⟨ns, hrun, hroot, hinner, hcopy, hback⟩ := hc
    have h : ns.Reworked := ⟨copiedScope, allowed_copiedScope, hrun⟩
    have hloop : TransGen ns.Down (.ofIndex 2) (.ofIndex 2) := .tail (.single hcopy) hback
    have hway : ReflTransGen ns.Down .root (.ofIndex 2) := .tail (.single hroot) hinner
    exact ⟨ns, hrun, h, h.grounded.endless_of_loop hway hloop⟩

end Namespace

end Acpi
