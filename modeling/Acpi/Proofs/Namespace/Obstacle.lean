import Acpi.Proofs.Namespace.Attach
import Acpi.Proofs.Namespace.Walk

namespace Acpi.Namespace

variable {ns ns' : Namespace} {p c : ObjectId} {o : Object} {e e' : AttachError} {applies : Prop}
  {checks : List (Prop × AttachError)}

/-- What can stand against making `c` a child of `p`, in the order in which it counts. -/
def obstacles (ns : Namespace) (p c : ObjectId) : List (Prop × AttachError) :=
  [(ns.contains p = false, .unknownObject),
   (¬∃ o, ns.get? p = some o ∧ o.isContainer = true, .notAContainer),
   (c = .root, .rootNotMovable),
   (ns.contains c = false, .unknownObject),
   (ns.parent? c ≠ none, .alreadyAttached),
   (∃ walk, ns.subtree? c = some walk ∧ p ∈ walk, .wouldCycle)]

/-- The error of the first check that applies. -/
def FirstError (checks : List (Prop × AttachError)) (e : AttachError) : Prop :=
  ∃ before applies after, checks = before ++ (applies, e) :: after ∧ applies ∧
    ∀ check ∈ before, ¬check.1

theorem not_firstError_nil : ¬FirstError [] e := by
  intro h
  obtain ⟨before, applies, after, hsplit, -⟩ := h
  simp at hsplit

theorem firstError_cons_of (h : applies) : FirstError ((applies, e') :: checks) e ↔ e = e' := by
  constructor
  · intro hfirst
    obtain ⟨before, applies', after, hsplit, -, hbefore⟩ := hfirst
    cases before with
    | nil =>
      cases hsplit
      rfl
    | cons check before =>
      cases hsplit
      exact absurd h (hbefore (applies, e') List.mem_cons_self)
  · intro he
    subst he
    exact ⟨[], applies, checks, rfl, h, by simp⟩

theorem firstError_cons_of_not (h : ¬applies) :
    FirstError ((applies, e') :: checks) e ↔ FirstError checks e := by
  constructor
  · intro hfirst
    obtain ⟨before, applies', after, hsplit, happlies, hbefore⟩ := hfirst
    cases before with
    | nil =>
      cases hsplit
      exact absurd happlies h
    | cons check before =>
      cases hsplit
      exact ⟨before, applies', after, rfl, happlies,
        fun check hcheck => hbefore check (List.mem_cons_of_mem _ hcheck)⟩
  · intro hfirst
    obtain ⟨before, applies', after, rfl, happlies, hbefore⟩ := hfirst
    refine ⟨(applies, e') :: before, applies', after, rfl, happlies, ?_⟩
    exact List.forall_mem_cons.2 ⟨h, hbefore⟩

namespace WellFormed

/-- To be on the way up from an object is to have it below. -/
theorem mem_lineage_iff_walk (w : ns.WellFormed) (hc : ns.contains c = true) :
    c ∈ ns.lineage p ↔ ∃ walk, ns.subtree? c = some walk ∧ p ∈ walk := by
  rw [w.subtree?_eq, if_pos hc, ← w.mem_preorder_iff]
  simp

theorem obstacle?_eq_some_iff (w : ns.WellFormed) (p c : ObjectId) (e : AttachError) :
    ns.obstacle? p c = some e ↔ FirstError (ns.obstacles p c) e := by
  rw [obstacle?, obstacles]
  rcases Option.eq_none_or_eq_some (ns.get? p) with hp | ⟨po, hp⟩
  · have hunknown : ns.contains p = false := by simp [contains, hp]
    rw [firstError_cons_of hunknown]
    simp [hp, eq_comm]
  have hknown : ¬ns.contains p = false := by simp [contains, hp]
  rw [firstError_cons_of_not hknown, hp]
  by_cases hcont : ¬po.isContainer = true
  · have hnone : ¬∃ o, some po = some o ∧ o.isContainer = true := by simpa using hcont
    rw [firstError_cons_of hnone]
    simp [hcont, eq_comm]
  rw [not_not] at hcont
  have hholds : ¬¬∃ o, some po = some o ∧ o.isContainer = true := by simpa using hcont
  rw [firstError_cons_of_not hholds]
  by_cases hroot : c = .root
  · rw [firstError_cons_of hroot]
    simp [hcont, hroot, eq_comm]
  rw [firstError_cons_of_not hroot]
  rcases Option.eq_none_or_eq_some (ns.get? c) with hc | ⟨co, hc⟩
  · have hunknown : ns.contains c = false := by simp [contains, hc]
    rw [firstError_cons_of hunknown]
    simp [hcont, hroot, hc, eq_comm]
  have hin : ns.contains c = true := contains_of_get? hc
  have hknown : ¬ns.contains c = false := by simp [hin]
  rw [firstError_cons_of_not hknown, parent?_of_get? hc, hc]
  by_cases hup : co.parent ≠ none
  · have hsome : co.parent.isSome = true := Option.ne_none_iff_isSome.1 hup
    rw [firstError_cons_of hup]
    simp [hcont, hroot, hsome, eq_comm]
  rw [firstError_cons_of_not hup]
  rw [not_not] at hup
  by_cases hline : c ∈ ns.lineage p
  · rw [firstError_cons_of ((w.mem_lineage_iff_walk hin).1 hline)]
    simp [hcont, hroot, hup, hline, eq_comm]
  · rw [firstError_cons_of_not fun h => hline ((w.mem_lineage_iff_walk hin).2 h)]
    simp [hcont, hroot, hup, hline, not_firstError_nil]

theorem obstacle?_eq_none_iff (w : ns.WellFormed) (p c : ObjectId) :
    ns.obstacle? p c = none ↔
      (∃ o, ns.get? p = some o ∧ o.isContainer = true) ∧ ns.contains c = true ∧ c ≠ .root ∧
        ns.parent? c = none ∧ ∃ walk, ns.subtree? c = some walk ∧ p ∉ walk := by
  have hcontainer : (∃ k, ns.kind? p = some k ∧ k.isContainer = true) ↔
      ∃ o, ns.get? p = some o ∧ o.isContainer = true := by
    simp [kind?, Object.isContainer]
  have hbelow : ns.contains c = true →
      (c ∉ ns.lineage p ↔ ∃ walk, ns.subtree? c = some walk ∧ p ∉ walk) := by
    intro hc
    rw [← w.mem_preorder_iff, w.subtree?_eq, if_pos hc]
    simp
  rw [obstacle?_eq_none, hcontainer]
  constructor
  · intro h
    obtain ⟨hp, hroot, hc, hup, hline⟩ := h
    exact ⟨hp, hc, hroot, hup, (hbelow hc).1 hline⟩
  · intro h
    obtain ⟨hp, hc, hroot, hup, hwalk⟩ := h
    exact ⟨hp, hroot, hc, hup, (hbelow hc).2 hwalk⟩

end WellFormed

theorem attach_eq_error : ns.attach p c = .error e ↔ ns.obstacle? p c = some e := by
  cases h : ns.obstacle? p c <;> simp [attach, h]

theorem declare_eq_error (h : ns.declare p o = (.error e, ns')) :
    (ns.insert o).attach p ns.nextId = .error e ∧ ns' = ns.insert o := by
  rw [declare] at h
  cases ha : (ns.insert o).attach p ns.nextId with
  | ok attached =>
    rw [ha] at h
    cases h
  | error reason =>
    rw [ha] at h
    cases h
    exact ⟨rfl, rfl⟩

/-- An attachment is made just where the child is not the root, has no parent and leads to nothing
that its new parent, a container, is among; it changes the one parent and the one child list. Any
other is refused for the first reason there is and leaves the namespace as it was; and an object that
was put in for it stays in the last slot without a parent. -/
theorem attach_of_reachable (h : ns.Reachable) (p c : ObjectId) :
    ((∃ ns', ns.attach p c = .ok ns') ↔
      (∃ o, ns.get? p = some o ∧ o.isContainer = true) ∧ ns.contains c = true ∧ c ≠ .root ∧
        ns.parent? c = none ∧ ∃ walk, ns.subtree? c = some walk ∧ p ∉ walk) ∧
    (∀ ns', ns.attach p c = .ok ns' → ns.after? (.attach p c) = some ns' ∧
      ∀ i : Nat, ns'.objects[i]? = (ns.objects[i]?).map fun o =>
        { o with
          parent := if i = c.index then some p else o.parent
          children := if i = p.index then o.children ++ [c] else o.children }) ∧
    (∀ e, ns.attach p c = .error e ↔ FirstError (ns.obstacles p c) e) ∧
    (∀ e, ns.attach p c = .error e → ns.after? (.attach p c) = some ns) ∧
    ∀ o e ns', o.Fresh → ns.declare p o = (.error e, ns') →
      (ns.insert o).attach p ns.nextId = .error e ∧ ns.after? (.declare p o) = some ns' ∧
        ns'.objects = ns.objects.push o ∧ o.parent = none := by
  have w := h.wellFormed
  refine ⟨?_, ?_, ?_, ?_, ?_⟩
  · rw [← w.obstacle?_eq_none_iff]
    simp [attach_eq_ok]
  · intro ns' hattach
    have hafter : ns.after? (.attach p c) = some ns' := by rw [after?, hattach]
    obtain ⟨-, rfl⟩ := attach_eq_ok.1 hattach
    exact ⟨hafter, slots_link ns p c⟩
  · intro e
    rw [attach_eq_error, w.obstacle?_eq_some_iff]
  · intro e hattach
    rw [after?, hattach]
  · intro o e ns' hfresh hdeclare
    obtain ⟨hattach, rfl⟩ := declare_eq_error hdeclare
    exact ⟨hattach, by rw [after?, hdeclare], rfl, hfresh.alone.1⟩

/-- The scopes with one of them taken off the root, and what is below it with it. -/
def takenScope : List Action := rehungScopes ++ [.detach .root (.ofIndex 4)]

theorem allowed_takenScope : ∀ a ∈ takenScope, a.Allowed := by
  simp [takenScope, rehungScopes, Action.Allowed]

/-- It may hang below the device, but not below the scope that is below it; nothing hangs below an
event, and what is put in for that stays alone. -/
theorem attach_of_takenScope :
    ∃ ns, initial.run? takenScope = some ns ∧ ns.Reachable ∧
      (∃ attached, ns.attach (.ofIndex 2) (.ofIndex 4) = .ok attached ∧
        ns.after? (.attach (.ofIndex 2) (.ofIndex 4)) = some attached) ∧
      ns.attach (.ofIndex 1) (.ofIndex 4) = .error .wouldCycle ∧
      FirstError (ns.obstacles (.ofIndex 1) (.ofIndex 4)) .wouldCycle ∧
      ns.after? (.attach (.ofIndex 1) (.ofIndex 4)) = some ns ∧
      Object.Fresh (.event ⟨1⟩) ∧
      ∃ added, ns.declare (.ofIndex 3) (.event ⟨1⟩) = (.error .notAContainer, added) ∧
        added.objects = ns.objects.push (.event ⟨1⟩) := by
  have hc : ∃ ns ∈ initial.run? takenScope, ns.obstacle? (.ofIndex 2) (.ofIndex 4) = none ∧
      ns.obstacle? (.ofIndex 1) (.ofIndex 4) = some .wouldCycle ∧
      (ns.declare (.ofIndex 3) (.event ⟨1⟩)).1 = .error .notAContainer := by decide +kernel
  obtain ⟨ns, hr, hfree, hcycle, hevent⟩ := hc
  have h : ns.Reachable := ⟨takenScope, allowed_takenScope, hr⟩
  have hfresh : Object.Fresh (.event ⟨1⟩) := by simp
  have hattach := attach_eq_ok.2 ⟨hfree, rfl⟩
  have hrefused := attach_eq_error.2 hcycle
  have hdeclare : ns.declare (.ofIndex 3) (.event ⟨1⟩) =
      (.error .notAContainer, (ns.declare (.ofIndex 3) (.event ⟨1⟩)).2) := Prod.ext hevent rfl
  obtain ⟨-, hmade, -⟩ := attach_of_reachable h (.ofIndex 2) (.ofIndex 4)
  obtain ⟨-, -, hfirst, hsame, -⟩ := attach_of_reachable h (.ofIndex 1) (.ofIndex 4)
  obtain ⟨-, -, -, -, hadd⟩ := attach_of_reachable h (.ofIndex 3) (.ofIndex 4)
  obtain ⟨-, -, hpushed, -⟩ := hadd _ _ _ hfresh hdeclare
  exact ⟨ns, hr, h, ⟨_, hattach, (hmade _ hattach).1⟩, hrefused, (hfirst _).1 hrefused,
    hsame _ hrefused, hfresh, _, hdeclare, hpushed⟩

end Acpi.Namespace
