import Acpi.Proofs.Binding.Unbound
import Acpi.Proofs.Namespace.Lookup

namespace Acpi.Namespace

variable {ns ns' : Namespace} {id scope subject found : ObjectId} {o : Object}
  {pending : List (ObjectId × ObjectId)} {links : List (Role × ObjectId)}

/-- Each place of the object is linked in `ns'` to what its name means in `ns`, and that is of a
kind that may stand there. -/
def LinkedAsNamed (ns ns' : Namespace) (scope id : ObjectId) : Prop :=
  ∃ o o', ns.get? id = some o ∧ ns'.get? id = some o' ∧ ∀ role ∈ o.body.slots, ∃ name found k,
    (role, name) ∈ o.body.references ∧ ns.lookup? scope name = some found ∧
      o'.body.linked? role = some found ∧ ns.kind? found = some k ∧ role.Admits k

theorem lookup?_of_target {role : Role} {symbol : String}
    (h : ns.target scope subject role symbol = .ok found) :
    ns.lookup? scope symbol = some found ∧
      ∀ k, ns.kind? found = some k → role.Admits k := by
  rw [target] at h
  split at h
  · cases h
  next found' hl =>
    split at h
    next expected kind he hk =>
      split at h
      next heq =>
        cases h
        refine ⟨hl, fun k hk' => ?_⟩
        cases hk.symm.trans hk'
        exact (Role.admits_iff he).2 heq
      · cases h
    next hany =>
      cases h
      refine ⟨hl, fun k hk => ?_⟩
      cases he : role.required? with
      | none => exact Role.admits_of_none he k
      | some expected => exact absurd hk (hany expected k he)

theorem WellFormed.admits_of_target (w : ns.WellFormed) {role : Role}
    {symbol : String} (h : ns.target scope subject role symbol = .ok found) :
    ∃ k, ns.kind? found = some k ∧ role.Admits k := by
  obtain ⟨hl, hk⟩ := lookup?_of_target h
  obtain ⟨object, ho⟩ := get?_of_contains (w.grounded.contains_of_lookup? hl)
  exact ⟨object.kind, kind?_of_get? ho, hk _ (kind?_of_get? ho)⟩

theorem targets_cons {role : Role} {symbol : String} {rest : List (Role × String)}
    (h : ns.targets scope subject ((role, symbol) :: rest) = .ok links) :
    ∃ found others, ns.target scope subject role symbol = .ok found ∧
      ns.targets scope subject rest = .ok others ∧ links = (role, found) :: others := by
  rw [targets] at h
  split at h
  · cases h
  next found hf =>
    split at h
    · cases h
    next others ho =>
      cases h
      exact ⟨found, others, hf, ho, rfl⟩

theorem map_fst_targets {refs : List (Role × String)}
    (h : ns.targets scope subject refs = .ok links) : links.map Prod.fst = refs.map Prod.fst := by
  induction refs generalizing links with
  | nil =>
    cases h
    rfl
  | cons r rest ih =>
    obtain ⟨found, others, -, ho, rfl⟩ := targets_cons h
    rw [List.map_cons, List.map_cons, ih ho]

theorem exists_of_targets {refs : List (Role × String)}
    (h : ns.targets scope subject refs = .ok links) {role : Role} {symbol : String}
    (hr : (role, symbol) ∈ refs) :
    ∃ found, (role, found) ∈ links ∧ ns.target scope subject role symbol = .ok found := by
  induction refs generalizing links with
  | nil => cases hr
  | cons r rest ih =>
    obtain ⟨found, others, hf, ho, rfl⟩ := targets_cons h
    rcases List.mem_cons.1 hr with rfl | hr
    · exact ⟨found, List.mem_cons_self, hf⟩
    · obtain ⟨found', hm, ht⟩ := ih ho hr
      exact ⟨found', List.mem_cons_of_mem _ hm, ht⟩

/-- Of its scope, `targets` sees only what the names mean there. -/
theorem targets_congr {other : ObjectId} {refs : List (Role × String)}
    (h : ∀ r ∈ refs, ns.lookup? other r.2 = ns.lookup? scope r.2) :
    ns.targets other subject refs = ns.targets scope subject refs := by
  induction refs with
  | nil => rfl
  | cons r rest ih =>
    obtain ⟨role, symbol⟩ := r
    have hfirst : ns.target other subject role symbol = ns.target scope subject role symbol := by
      have hr := h (role, symbol) List.mem_cons_self
      simp only [target, hr]
    have hrest := ih fun r hr => h r (List.mem_cons_of_mem _ hr)
    rw [targets, targets, hfirst, hrest]

theorem exists_of_mem_targets {refs : List (Role × String)}
    (h : ns.targets scope subject refs = .ok links) {role : Role} (hm : (role, found) ∈ links) :
    ∃ symbol, ns.target scope subject role symbol = .ok found := by
  induction refs generalizing links with
  | nil =>
    cases h
    cases hm
  | cons r rest ih =>
    obtain ⟨first, others, hf, ho, rfl⟩ := targets_cons h
    rcases List.mem_cons.1 hm with he | hm
    · cases he
      exact ⟨r.2, hf⟩
    · exact ih ho hm

theorem linked?_linkAll_of_targets {b : Body}
    (h : ns.targets scope subject b.references = .ok links) {l : Role × ObjectId} (hl : l ∈ links) :
    (b.linkAll links).linked? l.1 = some l.2 := by
  have hroles := map_fst_targets h
  refine Body.linked?_linkAll (hroles ▸ b.nodup_references) ?_ hl
  intro m hm
  exact hroles ▸ List.mem_map.2 ⟨m, hm, rfl⟩

theorem linked?_of_targets {b : Body} (h : ns.targets scope subject b.references = .ok links)
    {role : Role} {symbol : String} (hr : (role, symbol) ∈ b.references) :
    ∃ found, ns.target scope subject role symbol = .ok found ∧
      (b.linkAll links).linked? role = some found := by
  obtain ⟨found, hm, ht⟩ := exists_of_targets h hr
  exact ⟨found, ht, linked?_linkAll_of_targets h hm⟩

theorem exists_of_bindIn (h : ns.bindIn scope id = .ok ns') (ho : ns.get? id = some o) :
    ∃ links, ns.targets scope id o.body.references = .ok links ∧ ns' = ns.setLinks id links := by
  simp only [bindIn, ho] at h
  split at h
  next links hl =>
    cases h
    exact ⟨links, hl, rfl⟩
  · cases h

theorem get?_bindIn_other (h : ns.bindIn scope subject = .ok ns') (hid : id ≠ subject) :
    ns'.get? id = ns.get? id := by
  cases ho : ns.get? subject with
  | none =>
    rw [bindIn, ho] at h
    cases h
    rfl
  | some o =>
    obtain ⟨links, -, rfl⟩ := exists_of_bindIn h ho
    rw [setLinks, get?_update, if_neg hid]

theorem bindEach_cons_ok {rest : List (ObjectId × ObjectId)}
    (h : ns.bindEach ((id, scope) :: rest) = (.ok (), ns')) :
    ∃ bound, ns.bindIn scope id = .ok bound ∧ bound.bindEach rest = (.ok (), ns') := by
  rw [bindEach] at h
  split at h
  next bound hb => exact ⟨bound, hb, h⟩
  · cases h

theorem get?_bindEach_other (ns : Namespace) (hid : id ∉ pending.map Prod.fst) :
    (ns.bindEach pending).2.get? id = ns.get? id := by
  induction pending generalizing ns with
  | nil => rfl
  | cons p rest ih =>
    obtain ⟨subject, scope⟩ := p
    rw [List.map_cons, List.mem_cons, not_or] at hid
    rw [bindEach]
    cases hb : ns.bindIn scope subject with
    | ok bound =>
      change (bound.bindEach rest).2.get? id = ns.get? id
      rw [ih bound hid.2, get?_bindIn_other hb hid.1]
    | error c => rfl

theorem get?_of_bindEach_other {result : Except Complaint Unit}
    (h : ns.bindEach pending = (result, ns')) (hid : id ∉ pending.map Prod.fst) :
    ns'.get? id = ns.get? id := by
  have hkeep := get?_bindEach_other ns hid
  rwa [h] at hkeep

/-- Each object has the links that its names mean in the namespace before the pass. -/
theorem get?_of_bindEach (h : ns.bindEach pending = (.ok (), ns'))
    (hn : (pending.map Prod.fst).Nodup) (hm : (id, scope) ∈ pending) (ho : ns.get? id = some o) :
    ∃ links, ns.targets scope id o.body.references = .ok links ∧
      ns'.get? id = some { o with body := o.body.linkAll links } := by
  induction pending generalizing ns with
  | nil => cases hm
  | cons p rest ih =>
    obtain ⟨subject, other⟩ := p
    obtain ⟨bound, hb, hrest⟩ := bindEach_cons_ok h
    rw [List.map_cons, List.nodup_cons] at hn
    rcases List.mem_cons.1 hm with he | hm
    · cases he
      obtain ⟨links, hl, rfl⟩ := exists_of_bindIn hb ho
      refine ⟨links, hl, ?_⟩
      rw [get?_of_bindEach_other hrest hn.1, setLinks, get?_update_self ho]
    · have hne : id ≠ subject := fun he => hn.1 (he ▸ List.mem_map.2 ⟨_, hm, rfl⟩)
      have ht : bound.targets = ns.targets := eq_of_unbound targets_unbound (unbound_bindIn hb)
      rw [← ht]
      exact ih hrest hn.2 hm ((get?_bindIn_other hb hne).trans ho)

theorem WellFormed.linkedAsNamed_of_bindEach (w : ns.WellFormed)
    (h : ns.bindEach pending = (.ok (), ns')) (hn : (pending.map Prod.fst).Nodup)
    (hm : (id, scope) ∈ pending) (ho : ns.get? id = some o) (href : o.hasReferences = true) :
    ns.LinkedAsNamed ns' scope id := by
  obtain ⟨links, hl, ho'⟩ := get?_of_bindEach h hn hm ho
  refine ⟨o, _, ho, ho', fun role hr => ?_⟩
  rw [← Body.map_fst_references href] at hr
  obtain ⟨⟨_, name⟩, hname, rfl⟩ := List.mem_map.1 hr
  obtain ⟨found, ht, hlinked⟩ := linked?_of_targets hl hname
  obtain ⟨k, hk, hadmits⟩ := w.admits_of_target ht
  exact ⟨name, found, k, hname, (lookup?_of_target ht).1, hlinked, hk, hadmits⟩

end Acpi.Namespace
