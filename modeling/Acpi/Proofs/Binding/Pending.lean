import Acpi.Binding.Pending
import Acpi.Proofs.Namespace.Preorder
import Acpi.Proofs.Run

namespace Acpi.Namespace

open Relation

variable {ns : Namespace} {id x t : ObjectId} {stack fresh rest : List ObjectId}

/-- A term that an object holds, if it is in the arena and hangs nowhere. -/
def Holds (ns : Namespace) (id t : ObjectId) : Prop :=
  t ∈ ns.terms id ∧ ns.contains t = true ∧ ns.parent? t = none

theorem mem_looseTerms : t ∈ ns.looseTerms id ↔ ns.Holds id t := by
  cases h : ns.get? t <;> simp [looseTerms, Holds, contains, parent?, h]

@[simp] theorem visitTerms_nil (fresh : List ObjectId) : ns.visitTerms [] fresh = ([], fresh) := by
  rw [visitTerms]

theorem visitTerms_of_mem (h : id ∈ fresh) :
    ns.visitTerms (id :: rest) fresh =
      (id :: (ns.visitTerms (ns.looseTerms id ++ rest) (fresh.erase id)).1,
        (ns.visitTerms (ns.looseTerms id ++ rest) (fresh.erase id)).2) := by
  rw [visitTerms, dif_pos h]

theorem visitTerms_of_not_mem (h : id ∉ fresh) :
    ns.visitTerms (id :: rest) fresh = ns.visitTerms rest fresh := by
  rw [visitTerms, dif_neg h]

/-- A stack is worked off from its top, so its lower part waits for the upper one. -/
theorem visitTerms_append (stack lower fresh : List ObjectId) :
    ns.visitTerms (stack ++ lower) fresh =
      ((ns.visitTerms stack fresh).1 ++ (ns.visitTerms lower (ns.visitTerms stack fresh).2).1,
        (ns.visitTerms lower (ns.visitTerms stack fresh).2).2) := by
  induction stack, fresh using visitTerms.induct ns with
  | case1 fresh => simp
  | case2 fresh id rest h _ _ _ ih =>
    rw [List.append_assoc] at ih
    rw [List.cons_append, visitTerms_of_mem h, visitTerms_of_mem h, ih]
    simp
  | case3 fresh id rest h ih =>
    rw [List.cons_append, visitTerms_of_not_mem h, visitTerms_of_not_mem h, ih]

theorem perm_visitTerms (stack fresh : List ObjectId) :
    ((ns.visitTerms stack fresh).1 ++ (ns.visitTerms stack fresh).2).Perm fresh := by
  induction stack, fresh using visitTerms.induct ns with
  | case1 fresh => simp
  | case2 fresh id rest h _ _ _ ih =>
    rw [visitTerms_of_mem h, List.cons_append]
    exact (ih.cons id).trans (List.perm_cons_erase h).symm
  | case3 fresh id rest h ih => rwa [visitTerms_of_not_mem h]

theorem mem_visitTerms_of_mem_stack (hs : x ∈ stack) (hf : x ∈ fresh) :
    x ∈ (ns.visitTerms stack fresh).1 := by
  induction stack, fresh using visitTerms.induct ns with
  | case1 fresh => cases hs
  | case2 fresh id rest h _ _ _ ih =>
    rw [visitTerms_of_mem h]
    by_cases he : x = id
    · exact he ▸ List.mem_cons_self
    · have hr : x ∈ rest := (List.mem_cons.1 hs).resolve_left he
      have hf' : x ∈ fresh.erase id := (List.mem_erase_of_ne he).2 hf
      exact List.mem_cons_of_mem id (ih (List.mem_append_right _ hr) hf')
  | case3 fresh id rest h ih =>
    rw [visitTerms_of_not_mem h]
    exact ih ((List.mem_cons.1 hs).resolve_left fun he => h (he ▸ hf)) hf

/-- A visited object brings its loose terms, unless they were met before. -/
theorem mem_visitTerms_of_holds (hx : x ∈ (ns.visitTerms stack fresh).1) (ht : ns.Holds x t)
    (hf : t ∈ fresh) : t ∈ (ns.visitTerms stack fresh).1 := by
  induction stack, fresh using visitTerms.induct ns with
  | case1 fresh => simp at hx
  | case2 fresh id rest h _ _ _ ih =>
    rw [visitTerms_of_mem h] at hx ⊢
    by_cases he : t = id
    · exact he ▸ List.mem_cons_self
    · have hf' : t ∈ fresh.erase id := (List.mem_erase_of_ne he).2 hf
      refine List.mem_cons_of_mem id ?_
      rcases List.mem_cons.1 hx with rfl | hx
      · exact mem_visitTerms_of_mem_stack (List.mem_append_left rest (mem_looseTerms.2 ht)) hf'
      · exact ih hx hf'
  | case3 fresh id rest h ih =>
    rw [visitTerms_of_not_mem h] at hx ⊢
    exact ih hx hf

theorem exists_of_mem_visitTerms (hx : x ∈ (ns.visitTerms stack fresh).1) :
    ∃ s ∈ stack, ReflTransGen ns.Holds s x := by
  induction stack, fresh using visitTerms.induct ns with
  | case1 fresh => simp at hx
  | case2 fresh id rest h _ _ _ ih =>
    rw [visitTerms_of_mem h] at hx
    rcases List.mem_cons.1 hx with rfl | hx
    · exact ⟨x, List.mem_cons_self, .refl⟩
    · obtain ⟨s, hs, hsx⟩ := ih hx
      rcases List.mem_append.1 hs with hs | hs
      · exact ⟨id, List.mem_cons_self, .head (mem_looseTerms.1 hs) hsx⟩
      · exact ⟨s, List.mem_cons_of_mem id hs, hsx⟩
  | case3 fresh id rest h ih =>
    rw [visitTerms_of_not_mem h] at hx
    obtain ⟨s, hs, hsx⟩ := ih hx
    exact ⟨s, List.mem_cons_of_mem id hs, hsx⟩

/-- `FirstVisits ns seen ids visits`: what is met when each of `ids` is followed by its loose terms,
those by theirs, and then by the next of `ids`. Whatever is `seen`, or was met before, is passed
over. -/
inductive FirstVisits (ns : Namespace) : List ObjectId → List ObjectId → List ObjectId → Prop
  | nil {seen : List ObjectId} : FirstVisits ns seen [] []
  | again {seen ids visits : List ObjectId} {id : ObjectId} (h : id ∈ seen)
    (hv : FirstVisits ns seen ids visits) : FirstVisits ns seen (id :: ids) visits
  | first {seen ids below others : List ObjectId} {id : ObjectId} (h : id ∉ seen)
    (hb : FirstVisits ns (seen ++ [id]) (ns.looseTerms id) below)
    (ho : FirstVisits ns (seen ++ id :: below) ids others) :
    FirstVisits ns seen (id :: ids) (id :: below ++ others)

/-- The rules leave no choice. -/
theorem FirstVisits.unique {seen ids visits visits' : List ObjectId}
    (h : ns.FirstVisits seen ids visits) (h' : ns.FirstVisits seen ids visits') :
    visits = visits' := by
  induction h generalizing visits' with
  | nil =>
    cases h'
    rfl
  | again hs _ ih =>
    cases h' with
    | again _ hv => exact ih hv
    | first hn _ _ => exact absurd hs hn
  | first hn _ _ ihb iho =>
    cases h' with
    | again hs _ => exact absurd hs hn
    | first _ hb ho =>
      cases ihb hb
      rw [iho ho]

/-- What is met from the front of a list is seen by the rest of it. -/
theorem FirstVisits.split {seen upper lower visits : List ObjectId}
    (h : ns.FirstVisits seen (upper ++ lower) visits) :
    ∃ above below, visits = above ++ below ∧ ns.FirstVisits seen upper above ∧
      ns.FirstVisits (seen ++ above) lower below := by
  generalize hids : upper ++ lower = ids at h
  induction h generalizing upper with
  | nil =>
    obtain ⟨rfl, rfl⟩ := List.append_eq_nil_iff.1 hids
    exact ⟨[], [], rfl, .nil, .nil⟩
  | @again seen ids visits id h hv ih =>
    rcases List.append_eq_cons_iff.1 hids with ⟨rfl, rfl⟩ | ⟨upper, rfl, rfl⟩
    · exact ⟨[], visits, rfl, .nil, by simpa using hv.again h⟩
    · obtain ⟨above, below, rfl, hu, hl⟩ := ih rfl
      exact ⟨above, below, rfl, hu.again h, hl⟩
  | @first seen ids below others id h hb ho _ ih =>
    rcases List.append_eq_cons_iff.1 hids with ⟨rfl, rfl⟩ | ⟨upper, rfl, rfl⟩
    · exact ⟨[], id :: below ++ others, rfl, .nil, by simpa using hb.first h ho⟩
    · obtain ⟨above, rest, rfl, hu, hl⟩ := ih rfl
      refine ⟨id :: below ++ above, rest, by simp, hb.first h hu, ?_⟩
      simpa using hl

/-- While what is fresh is what was not seen, the visits are the first ones. -/
theorem firstVisits_visitTerms {seen : List ObjectId} (hs : ∀ x ∈ stack, ns.contains x = true)
    (hn : fresh.Nodup) (hf : ∀ x, x ∈ fresh ↔ ns.contains x = true ∧ x ∉ seen) :
    ns.FirstVisits seen stack (ns.visitTerms stack fresh).1 := by
  induction stack, fresh using visitTerms.induct ns generalizing seen with
  | case1 fresh =>
    rw [visitTerms_nil]
    exact .nil
  | case2 fresh id rest h _ _ _ ih =>
    have hs' : ∀ x ∈ ns.looseTerms id ++ rest, ns.contains x = true := by
      intro x hx
      rcases List.mem_append.1 hx with hx | hx
      · exact (mem_looseTerms.1 hx).2.1
      · exact hs x (List.mem_cons_of_mem id hx)
    have hf' : ∀ x, x ∈ fresh.erase id ↔ ns.contains x = true ∧ x ∉ seen ++ [id] := by
      intro x
      rw [hn.mem_erase_iff, hf x]
      simp only [List.mem_append, List.mem_singleton, not_or, ne_eq]
      constructor
      · rintro ⟨hne, hc, hx⟩
        exact ⟨hc, hx, hne⟩
      · rintro ⟨hc, hx, hne⟩
        exact ⟨hne, hc, hx⟩
    obtain ⟨below, others, he, hb, ho⟩ := (ih hs' (hn.erase id) hf').split
    rw [visitTerms_of_mem h, he]
    rw [List.append_assoc] at ho
    exact hb.first ((hf id).1 h).2 ho
  | case3 fresh id rest h ih =>
    have hseen : id ∈ seen := by
      by_contra hid
      exact h ((hf id).2 ⟨hs id List.mem_cons_self, hid⟩)
    rw [visitTerms_of_not_mem h]
    exact (ih (fun x hx => hs x (List.mem_cons_of_mem id hx)) hn hf).again hseen

theorem map_fst_pendingAlong (walk fresh : List ObjectId) :
    (ns.pendingAlong fresh walk).map Prod.fst =
      (ns.visitTerms walk fresh).1.filter ns.hasReferences := by
  induction walk generalizing fresh with
  | nil => simp [pendingAlong]
  | cons e walk ih =>
    have h : ns.visitTerms ([e] ++ walk) fresh = _ := visitTerms_append [e] walk fresh
    rw [List.singleton_append] at h
    rw [h, pendingAlong, List.map_append, ih]
    simp [List.filter_append, Function.comp_def]

/-- The scope of what is pending is that of the object of the walk that leads to it. -/
theorem exists_of_mem_pendingAlong {walk : List ObjectId} {scope : ObjectId}
    (h : (x, scope) ∈ ns.pendingAlong fresh walk) :
    ∃ e ∈ walk, scope = ns.treeScope e ∧ ReflTransGen ns.Holds e x := by
  induction walk generalizing fresh with
  | nil => simp [pendingAlong] at h
  | cons e walk ih =>
    rw [pendingAlong] at h
    rcases List.mem_append.1 h with h | h
    · obtain ⟨y, hy, he⟩ := List.mem_map.1 h
      cases he
      obtain ⟨s, hs, hsx⟩ := exists_of_mem_visitTerms (List.mem_filter.1 hy).1
      exact ⟨e, List.mem_cons_self, rfl, List.mem_singleton.1 hs ▸ hsx⟩
    · obtain ⟨d, hd, hx⟩ := ih h
      exact ⟨d, List.mem_cons_of_mem e hd, hx⟩

theorem nodup_visitTerms (h : fresh.Nodup) : (ns.visitTerms stack fresh).1.Nodup :=
  (List.nodup_append.1 ((perm_visitTerms stack fresh).nodup_iff.2 h)).1

theorem mem_visitTerms_ids (hs : ∀ s ∈ stack, ns.contains s = true) :
    x ∈ (ns.visitTerms stack ns.ids).1 ↔ ∃ s ∈ stack, ReflTransGen ns.Holds s x := by
  refine ⟨exists_of_mem_visitTerms, ?_⟩
  rintro ⟨s, hmem, hsx⟩
  induction hsx with
  | refl => exact mem_visitTerms_of_mem_stack hmem (mem_ids.2 (hs s hmem))
  | tail _ ht ih => exact mem_visitTerms_of_holds ih ht (mem_ids.2 ht.2.1)

theorem exists_of_pending? {pending : List (ObjectId × ObjectId)}
    (h : ns.pending? = some pending) :
    ∃ walk, ns.subtree? .root = some walk ∧ pending = ns.pendingAlong ns.ids walk := by
  obtain ⟨walk, hw, rfl⟩ := Option.map_eq_some_iff.1 h
  exact ⟨walk, hw, rfl⟩

theorem nodup_of_pending? {pending : List (ObjectId × ObjectId)}
    (h : ns.pending? = some pending) : (pending.map Prod.fst).Nodup := by
  obtain ⟨walk, -, rfl⟩ := exists_of_pending? h
  rw [map_fst_pendingAlong]
  exact (nodup_visitTerms ns.nodup_ids).filter _

/-- Nothing is pending without need. -/
theorem exists_of_mem_pending {pending : List (ObjectId × ObjectId)}
    (h : ns.pending? = some pending) (hx : x ∈ pending.map Prod.fst) :
    ∃ o, ns.get? x = some o ∧ o.hasReferences = true := by
  obtain ⟨walk, -, rfl⟩ := exists_of_pending? h
  rw [map_fst_pendingAlong] at hx
  exact (Option.any_eq_true _ _).1 (List.mem_filter.1 hx).2

theorem WellFormed.contains_of_down (w : ns.WellFormed) (h : ReflTransGen ns.Down .root x) :
    ns.contains x = true := by
  cases h with
  | refl => exact ns.contains_root
  | tail _ hx => exact contains_of_parent? (w.mem_children_iff.1 hx)

theorem WellFormed.exists_pending? (w : ns.WellFormed) :
    ∃ pending, ns.pending? = some pending := by
  obtain ⟨walk, hw⟩ := w.descends.exists_subtree? .root
  exact ⟨ns.pendingAlong ns.ids walk, by rw [pending?, hw, Option.map_some]⟩

/-- No action goes on forever. -/
theorem WellFormed.exists_after? (w : ns.WellFormed) (a : Action) :
    ∃ ns', ns.after? a = some ns' := by
  cases a with
  | attach parent child =>
    cases h : ns.attach parent child <;> simp [after?, h]
  | bind id =>
    cases h : ns.bind id <;> simp [after?, h]
  | bindAll =>
    obtain ⟨pending, hp⟩ := w.exists_pending?
    simp [after?, bindAll?, hp]
  | _ => exact ⟨_, rfl⟩

theorem WellFormed.exists_run? (w : ns.WellFormed) {actions : List Action}
    (ha : ∀ a ∈ actions, a.Allowed) : ∃ ns', ns.run? actions = some ns' := by
  induction actions generalizing ns with
  | nil => exact ⟨ns, rfl⟩
  | cons a rest ih =>
    obtain ⟨mid, hmid⟩ := w.exists_after? a
    have hw := w.moves (moves_after? (ha a List.mem_cons_self) hmid)
    obtain ⟨ns', hrest⟩ := ih hw fun b hb => ha b (List.mem_cons_of_mem a hb)
    exact ⟨ns', Option.bind_eq_some_iff.2 ⟨mid, hmid, hrest⟩⟩

/-- Whatever the operands, the pass finds what it has to bind: each object that has references and
is below the root, or led to from there by loose terms, once and in the order of first visits. -/
theorem pending_of_reachable (h : ns.Reachable) :
    ∃ pending walk visits, ns.pending? = some pending ∧ (pending.map Prod.fst).Nodup ∧
      (∀ id, id ∈ pending.map Prod.fst ↔ ns.hasReferences id = true ∧
        ∃ e, ReflTransGen ns.Down .root e ∧ ReflTransGen ns.Holds e id) ∧
      Cursor.run ns walk.length (ns.cursor .root) = (walk, ⟨[]⟩) ∧ ns.Preorder [.root] walk ∧
      ns.FirstVisits [] walk visits ∧ pending.map Prod.fst = visits.filter ns.hasReferences := by
  obtain ⟨pending, hp⟩ := h.wellFormed.exists_pending?
  obtain ⟨walk, hw, rfl⟩ := exists_of_pending? hp
  have hc : ∀ e ∈ walk, ns.contains e = true := fun e he =>
    h.wellFormed.contains_of_down ((mem_subtree?_root hw).1 he)
  have hpre := preorder?_of_subtree? hw
  refine ⟨_, walk, (ns.visitTerms walk ns.ids).1, hp, nodup_of_pending? hp, fun id => ?_, ?_,
    preorder_of_preorder? hpre, ?_, map_fst_pendingAlong walk ns.ids⟩
  · rw [map_fst_pendingAlong, List.mem_filter, mem_visitTerms_ids hc, and_comm]
    simp only [mem_subtree?_root hw]
  · rw [cursor, if_pos ns.contains_root]
    exact run_preorder? hpre []
  · exact firstVisits_visitTerms hc ns.nodup_ids fun x => by simp [mem_ids]

/-- Terms that are shared, hold themselves or each other, or name nothing. -/
def tangledTerms : List Action :=
  let table : TableId := ⟨1⟩
  let store := ObjectId.ofIndex 2
  let first := ObjectId.ofIndex 3
  let second := ObjectId.ofIndex 4
  let call := ObjectId.ofIndex 5
  [.declare .root (.device table (.ofFour 0x50 0x43 0x49 0x30)),
   .declare (.ofIndex 1) (.generic ⟨0x70⟩ table), .insert (.invocation table "_STA"),
   .insert (.invocation table "_INI"), .declare .root (.invocation table "_PTS"),
   .offer store 0 (.term first), .offer store 1 (.term (.ofIndex 99)),
   .offer store 2 (.term first), .offer first 0 (.term second), .offer second 0 (.term first),
   .offer second 1 (.term second), .offer call 0 (.term second), .offer call 1 (.term store)]

theorem allowed_tangledTerms : ∀ a ∈ tangledTerms, a.Allowed := by
  simp [tangledTerms, Action.Allowed]

theorem pending_of_tangledTerms :
    ∃ ns pending, initial.run? tangledTerms = some ns ∧ ns.Reachable ∧
      ns.pending? = some pending ∧
      pending.map Prod.fst = [.ofIndex 3, .ofIndex 4, .ofIndex 5] ∧
      ∀ id, id ∈ pending.map Prod.fst ↔ ns.hasReferences id = true ∧
        ∃ e, ReflTransGen ns.Down .root e ∧ ReflTransGen ns.Holds e id := by
  have hc : ((initial.run? tangledTerms).bind pending?).map (·.map Prod.fst) =
      some [.ofIndex 3, .ofIndex 4, .ofIndex 5] := by decide +kernel
  obtain ⟨found, hf, hids⟩ := Option.map_eq_some_iff.1 hc
  obtain ⟨ns, hr, hfound⟩ := Option.bind_eq_some_iff.1 hf
  have h : ns.Reachable := ⟨tangledTerms, allowed_tangledTerms, hr⟩
  obtain ⟨pending, -, -, hp, -, hmem, -⟩ := pending_of_reachable h
  have he : found = pending := Option.some.inj (hfound.symm.trans hp)
  exact ⟨ns, pending, hr, h, hp, he ▸ hids, hmem⟩

end Acpi.Namespace
