import Mathlib.Data.List.Nodup
import Acpi.Proofs.Raw.Walk
import Acpi.Proofs.Run

namespace Acpi.Namespace

open Relation

variable {ns : Namespace} {id p c d x start : ObjectId} {ids visits : List ObjectId}

theorem rightUnique_up (ns : Namespace) : Relator.RightUnique ns.Up := by
  intro id p q hp hq
  exact Option.some.inj (hp.symm.trans hq)

theorem eq_map_of_mapM {f : ObjectId → Option (List ObjectId)} {g : ObjectId → List ObjectId}
    {below : List (List ObjectId)} (hf : ∀ {c visits}, f c = some visits → visits = g c)
    (h : ids.mapM f = some below) : below = ids.map g := by
  induction ids generalizing below with
  | nil =>
    cases h
    rfl
  | cons c ids ih =>
    obtain ⟨first, others, hfirst, hothers, rfl⟩ := mapM_eq_some_cons.1 h
    rw [List.map_cons, hf hfirst, ih hothers]

namespace WellFormed

theorem length_ancestors_child (w : ns.WellFormed) (h : c ∈ ns.children p) :
    (ns.ancestors c).length = (ns.ancestors p).length + 1 := by
  rw [w.climbs.ancestors_of_parent? (w.mem_children_iff.1 h), lineage, List.length_cons]

/-- An object, and then for each of its children in turn all that the child leads to. -/
def preorder (w : ns.WellFormed) (id : ObjectId) : List ObjectId :=
  id :: (ns.children id).attach.flatMap fun c => w.preorder c.1
termination_by ns.size - (ns.ancestors id).length
decreasing_by
  have hlonger := w.length_ancestors_child c.2
  have hroom := w.climbs.length_ancestors_lt c.1
  omega

theorem preorder_eq (w : ns.WellFormed) (id : ObjectId) :
    w.preorder id = id :: (ns.children id).flatMap w.preorder := by
  rw [preorder, List.flatMap_subtype fun _ _ => rfl, List.unattach_attach]

theorem mem_preorder_iff (w : ns.WellFormed) : x ∈ w.preorder id ↔ id ∈ ns.lineage x := by
  rw [← w.down_iff]
  induction id using preorder.induct w with
  | case1 id ih =>
    rw [preorder_eq, List.mem_cons, List.mem_flatMap, ReflTransGen.cases_head_iff]
    apply or_congr eq_comm
    apply exists_congr
    intro c
    apply and_congr_right
    intro hc
    exact ih ⟨c, hc⟩

/-- What two children of one object are both above would have two ways up. -/
theorem eq_of_mem_lineage (w : ns.WellFormed) (hc : c ∈ ns.children p) (hd : d ∈ ns.children p)
    (hcx : c ∈ ns.lineage x) (hdx : d ∈ ns.lineage x) : c = d := by
  have apart : ∀ {a b}, a ∈ ns.children p → b ∈ ns.children p → ReflTransGen ns.Up a b →
      a = b := by
    intro a b ha hb hab
    have hup : ns.Up a p := w.mem_children_iff.1 ha
    have hback : ns.Up b p := w.mem_children_iff.1 hb
    rcases hab.cases_head with rfl | ⟨q, hq, hqb⟩
    · rfl
    · rw [rightUnique_up ns hq hup] at hqb
      exact absurd (TransGen.tail' hqb hback) (w.acyclic p)
  have hxc : ReflTransGen ns.Up x c := w.climbs.mem_lineage_iff.1 hcx
  have hxd : ReflTransGen ns.Up x d := w.climbs.mem_lineage_iff.1 hdx
  rcases ReflTransGen.total_of_right_unique (rightUnique_up ns) hxc hxd with hcd | hdc
  · exact apart hc hd hcd
  · exact (apart hd hc hdc).symm

theorem nodup_preorder (w : ns.WellFormed) (id : ObjectId) : (w.preorder id).Nodup := by
  induction id using preorder.induct w with
  | case1 id ih =>
    rw [preorder_eq, List.nodup_cons, List.mem_flatMap, List.nodup_flatMap]
    refine ⟨?_, fun c hc => ih ⟨c, hc⟩, ?_⟩
    · intro hloop
      obtain ⟨c, hc, hid⟩ := hloop
      have hway : ReflTransGen ns.Up id c := w.climbs.mem_lineage_iff.1 (w.mem_preorder_iff.1 hid)
      exact w.acyclic id (TransGen.tail' hway (w.mem_children_iff.1 hc))
    · apply (w.nodup_children id).imp_of_mem
      intro c d hc hd hne x hxc hxd
      exact hne (w.eq_of_mem_lineage hc hd (w.mem_preorder_iff.1 hxc) (w.mem_preorder_iff.1 hxd))

theorem count_preorder (w : ns.WellFormed) (id x : ObjectId) :
    (w.preorder id).count x = if x = id ∨ id ∈ ns.ancestors x then 1 else 0 := by
  have hmem : x ∈ w.preorder id ↔ x = id ∨ id ∈ ns.ancestors x := by
    rw [w.mem_preorder_iff, lineage, List.mem_cons, eq_comm]
  by_cases hx : x = id ∨ id ∈ ns.ancestors x
  · rw [if_pos hx]
    exact List.count_eq_one_of_mem (w.nodup_preorder id) (hmem.2 hx)
  · rw [if_neg hx]
    exact List.count_eq_zero_of_not_mem fun h => hx (hmem.1 h)

/-- What an object leads to hangs on no other child lists than those it leads to. -/
theorem preorder_congr {ns' : Namespace} (w : ns.WellFormed) (w' : ns'.WellFormed)
    (h : ∀ x ∈ w.preorder id, ns'.children x = ns.children x) :
    w'.preorder id = w.preorder id := by
  induction id using preorder.induct w with
  | case1 id ih =>
    rw [preorder_eq] at h
    have hchildren : ns'.children id = ns.children id := h id List.mem_cons_self
    rw [preorder_eq, preorder_eq, hchildren]
    congr 1
    apply List.flatMap_congr
    intro c hc
    apply ih ⟨c, hc⟩
    intro x hx
    exact h x (List.mem_cons_of_mem id (List.mem_flatMap.2 ⟨c, hc, hx⟩))

theorem eq_preorder_of_preorder? (w : ns.WellFormed) {depth : Nat}
    (h : ns.preorder? depth id = some visits) : visits = w.preorder id := by
  induction depth generalizing id visits with
  | zero => cases h
  | succ depth ih =>
    obtain ⟨below, hbelow, rfl⟩ := preorder?_succ.1 h
    rw [preorder_eq, eq_map_of_mapM ih hbelow, List.flatMap_def]

theorem subtree?_eq (w : ns.WellFormed) (start : ObjectId) :
    ns.subtree? start = some (if ns.contains start then w.preorder start else []) := by
  obtain ⟨visits, hvisits⟩ := w.descends.exists_subtree? start
  rw [hvisits]
  by_cases hstart : ns.contains start = true
  · rw [subtree?, if_pos hstart] at hvisits
    rw [if_pos hstart, w.eq_preorder_of_preorder? hvisits]
  · rw [subtree?, if_neg hstart] at hvisits
    rw [if_neg hstart, ← hvisits]

end WellFormed

/-- From every object the walk makes the visits of the recursion and then ends: the object and all
that it is above, each once, and nothing else. Where there is no object it makes none. -/
theorem walks_of_reachable (h : ns.Reachable) (start : ObjectId) :
    ∃ visits, (ns.stack start).run ns visits.length = (visits, ⟨#[]⟩) ∧
      (ns.cursor start).run ns visits.length = (visits, ⟨[]⟩) ∧
      ns.subtree? start = some visits ∧
      (ns.contains start = true →
        visits = h.wellFormed.preorder start ∧
        visits = start :: (ns.children start).flatMap h.wellFormed.preorder ∧
        ∀ x, visits.count x = if x = start ∨ start ∈ ns.ancestors x then 1 else 0) ∧
      (ns.contains start = false → visits = []) := by
  have w := h.wellFormed
  have hsubtree := w.subtree?_eq start
  refine ⟨_, run_stack hsubtree, run_of_subtree? hsubtree, hsubtree, ?_, ?_⟩
  · intro hstart
    rw [if_pos hstart]
    exact ⟨rfl, w.preorder_eq start, w.count_preorder start⟩
  · intro hstart
    rw [hstart]
    rfl

/-- Scopes in scopes, of which one is hung below another and one is put back at the root. -/
def rehungScopes : List Action :=
  let table : TableId := ⟨1⟩
  let outer := ObjectId.ofIndex 1
  let inner := ObjectId.ofIndex 2
  let other := ObjectId.ofIndex 4
  [.declare .root (.scope table (.ofFour 0x41 0x41 0x41 0x41)),
   .declare outer (.device table (.ofFour 0x42 0x42 0x42 0x42)), .declare inner (.event table),
   .declare .root (.scope table (.ofFour 0x43 0x43 0x43 0x43)), .detach .root outer,
   .attach other outer, .detach outer inner, .attach .root inner]

theorem allowed_rehungScopes : ∀ a ∈ rehungScopes, a.Allowed := by
  simp [rehungScopes, Action.Allowed]

theorem walks_of_rehungScopes :
    ∃ ns, initial.run? rehungScopes = some ns ∧ ns.Reachable ∧
      (∃ visits, ns.subtree? .root = some visits ∧
        visits = [.root, .ofIndex 4, .ofIndex 1, .ofIndex 2, .ofIndex 3] ∧
        (ns.stack .root).run ns 5 = (visits, ⟨#[]⟩) ∧
        ∀ x, visits.count x = if x = .root ∨ .root ∈ ns.ancestors x then 1 else 0) ∧
      (ns.stack (.ofIndex 9)).run ns 0 = ([], ⟨#[]⟩) ∧ ns.subtree? (.ofIndex 9) = some [] := by
  have hc : ∃ ns ∈ initial.run? rehungScopes, ns.contains (.ofIndex 9) = false ∧
      ns.subtree? .root =
        some [.root, .ofIndex 4, .ofIndex 1, .ofIndex 2, .ofIndex 3] := by decide +kernel
  obtain ⟨ns, hr, hnone, hlist⟩ := hc
  have h : ns.Reachable := ⟨rehungScopes, allowed_rehungScopes, hr⟩
  obtain ⟨visits, hstack, -, hroot, hin, -⟩ := walks_of_reachable h .root
  obtain ⟨visits', hempty, -, hout, -, hnothing⟩ := walks_of_reachable h (.ofIndex 9)
  cases hroot.symm.trans hlist
  cases hnothing hnone
  exact ⟨ns, hr, h, ⟨_, hlist, rfl, hstack, (hin ns.contains_root).2.2⟩, hempty, hout⟩

end Acpi.Namespace
