import Acpi.Proofs.Binding.Pass
import Acpi.Proofs.Binding.Pending

namespace Acpi

namespace Body

/-- A link that stands already is set in vain. -/
theorem link_of_linked? {b : Body} {role : Role} {id : ObjectId} (h : b.linked? role = some id) :
    b.link role id = b := by
  cases b <;> cases role <;> first
    | rfl
    | simp only [linked?] at h
      simp only [link, Symbol.bindTo, ← h]

theorem linkAll_of_linked? {b : Body} {links : List (Role × ObjectId)}
    (h : ∀ l ∈ links, b.linked? l.1 = some l.2) : b.linkAll links = b := by
  induction links with
  | nil => rfl
  | cons l links ih =>
    rw [linkAll_cons, link_of_linked? (h l List.mem_cons_self)]
    exact ih fun m hm => h m (List.mem_cons_of_mem l hm)

end Body

namespace Namespace

variable {ns ns' mid : Namespace} {id other scope scope' : ObjectId}
  {pending order : List (ObjectId × ObjectId)} {links : List (Role × ObjectId)}

theorem update_comm {f g : Object → Object} (h : id ≠ other) :
    (ns.update id f).update other g = (ns.update other g).update id f := by
  have hi : id.index ≠ other.index := fun he => h (ObjectId.ext he)
  apply Namespace.ext
  apply Array.ext
  · simp [update]
  · intro i _ _
    simp only [update, Array.getElem_modify]
    by_cases hid : id.index = i
    · rw [if_pos hid, if_pos hid, if_neg (fun ho => hi (hid.trans ho.symm)),
        if_neg (fun ho => hi (hid.trans ho.symm))]
    · rw [if_neg hid, if_neg hid]

theorem bindIn_eq_ok_iff :
    ns.bindIn scope id = .ok ns' ↔ ns.get? id = none ∧ ns' = ns ∨
      ∃ o links, ns.get? id = some o ∧ ns.targets scope id o.body.references = .ok links ∧
        ns' = ns.setLinks id links := by
  rw [bindIn]
  cases ho : ns.get? id with
  | none => simp [eq_comm]
  | some o => cases ht : ns.targets scope id o.body.references <;> simp [ht, eq_comm]

theorem bindIn_comm (hne : id ≠ other) (h : ns.bindIn scope id = .ok mid)
    (h' : mid.bindIn scope' other = .ok ns') :
    ∃ mid', ns.bindIn scope' other = .ok mid' ∧ mid'.bindIn scope id = .ok ns' := by
  have ht := eq_of_unbound targets_unbound (unbound_bindIn h)
  have hother := get?_bindIn_other h hne.symm
  rcases bindIn_eq_ok_iff.1 h with ⟨hnone, rfl⟩ | ⟨o, links, ho, hl, rfl⟩
  · refine ⟨ns', h', bindIn_eq_ok_iff.2 (.inl ⟨?_, rfl⟩)⟩
    rw [get?_bindIn_other h' hne, hnone]
  · rcases bindIn_eq_ok_iff.1 h' with ⟨hnone, rfl⟩ | ⟨o', links', ho', hl', rfl⟩
    · exact ⟨ns, bindIn_eq_ok_iff.2 (.inl ⟨hother ▸ hnone, rfl⟩), h⟩
    · rw [hother] at ho'
      rw [ht] at hl'
      have hb : ns.bindIn scope' other = .ok (ns.setLinks other links') :=
        bindIn_eq_ok_iff.2 (.inr ⟨o', links', ho', hl', rfl⟩)
      refine ⟨_, hb, bindIn_eq_ok_iff.2 (.inr ⟨o, links, ?_, ?_, update_comm hne⟩)⟩
      · rw [get?_bindIn_other hb hne, ho]
      · rw [eq_of_unbound targets_unbound (unbound_bindIn hb), hl]

theorem bindEach_cons {rest : List (ObjectId × ObjectId)} (h : ns.bindIn scope id = .ok mid) :
    ns.bindEach ((id, scope) :: rest) = mid.bindEach rest := by
  rw [bindEach, h]

theorem bindEach_perm (hperm : pending.Perm order) (hn : (pending.map Prod.fst).Nodup)
    (h : ns.bindEach pending = (.ok (), ns')) : ns.bindEach order = (.ok (), ns') := by
  induction hperm generalizing ns with
  | nil => exact h
  | cons p _ ih =>
    obtain ⟨mid, hmid, hrest⟩ := bindEach_cons_ok h
    rw [bindEach_cons hmid]
    exact ih (List.nodup_cons.1 hn).2 hrest
  | swap p q rest =>
    have hne : q.1 ≠ p.1 := by
      intro he
      simp [he] at hn
    obtain ⟨mid, hmid, hrest⟩ := bindEach_cons_ok h
    obtain ⟨last, hlast, hrest⟩ := bindEach_cons_ok hrest
    obtain ⟨mid', hp, hq⟩ := bindIn_comm hne hmid hlast
    rw [bindEach_cons hp, bindEach_cons hq, hrest]
  | trans hperm _ ih ih' =>
    exact ih' ((hperm.map Prod.fst).nodup_iff.1 hn) (ih hn h)

@[simp] theorem terms_unbound (ns : Namespace) : ns.unbound.terms = ns.terms := by
  funext id
  cases h : ns.get? id <;> simp [terms, h, Object.unbound, Object.terms]

@[simp] theorem ids_unbound (ns : Namespace) : ns.unbound.ids = ns.ids := by
  simp [ids]

@[simp] theorem looseTerms_unbound (ns : Namespace) : ns.unbound.looseTerms = ns.looseTerms := by
  funext id
  simp only [looseTerms, terms_unbound, get?_unbound]
  congr 1
  funext t
  cases ns.get? t <;> rfl

@[simp] theorem hasReferences_unbound (ns : Namespace) :
    ns.unbound.hasReferences = ns.hasReferences := by
  funext id
  cases h : ns.get? id <;>
    simp [Namespace.hasReferences, h, Object.unbound, Object.hasReferences]

@[simp] theorem visitTerms_unbound (ns : Namespace) : ns.unbound.visitTerms = ns.visitTerms := by
  funext stack fresh
  induction stack, fresh using visitTerms.induct ns with
  | case1 fresh => simp
  | case2 fresh id rest h _ _ _ ih =>
    rw [visitTerms_of_mem h, visitTerms_of_mem h, looseTerms_unbound, ih]
  | case3 fresh id rest h ih => rw [visitTerms_of_not_mem h, visitTerms_of_not_mem h, ih]

@[simp] theorem pendingAlong_unbound (ns : Namespace) :
    ns.unbound.pendingAlong = ns.pendingAlong := by
  funext fresh walk
  induction walk generalizing fresh with
  | nil => rfl
  | cons id walk ih => simp [pendingAlong, treeScope, ih]

@[simp] theorem preorder?_unbound (ns : Namespace) : ns.unbound.preorder? = ns.preorder? := by
  funext depth
  induction depth with
  | zero => rfl
  | succ depth ih =>
    funext id
    simp [preorder?, ih]

@[simp] theorem pending?_unbound (ns : Namespace) : ns.unbound.pending? = ns.pending? := by
  simp [pending?, subtree?]

/-- After a pass each of its steps finds its links set. -/
theorem bindIn_of_bindEach (h : ns.bindEach pending = (.ok (), ns'))
    (hn : (pending.map Prod.fst).Nodup) (hm : (id, scope) ∈ pending) :
    ns'.bindIn scope id = .ok ns' := by
  have hu := unbound_of_bindEach h
  cases ho : ns.get? id with
  | none =>
    have hcontains := congrFun (eq_of_unbound contains_unbound hu) id
    refine bindIn_eq_ok_iff.2 (.inl ⟨?_, rfl⟩)
    simpa [contains, ho] using hcontains
  | some o =>
    obtain ⟨links, hl, ho'⟩ := get?_of_bindEach h hn hm ho
    have hagain : (o.body.linkAll links).linkAll links = o.body.linkAll links :=
      Body.linkAll_of_linked? fun l hmem => linked?_linkAll_of_targets hl hmem
    refine bindIn_eq_ok_iff.2 (.inr ⟨_, links, ho', ?_, ?_⟩)
    · rw [eq_of_unbound targets_unbound hu, Body.references_linkAll, hl]
    · rw [setLinks, update_of_get? ho' (by rw [hagain])]

/-- After a pass, a step in another scope succeeds without a change just where the names mean
there what they meant to the pass. -/
theorem bindIn_of_bindEach_iff {o : Object} (h : ns.bindEach pending = (.ok (), ns'))
    (hn : (pending.map Prod.fst).Nodup) (hm : (id, scope) ∈ pending)
    (ho : ns.get? id = some o) :
    ns'.bindIn other id = .ok ns' ↔
      ∀ r ∈ o.body.references, ns.lookup? other r.2 = ns.lookup? scope r.2 := by
  have hu := unbound_of_bindEach h
  have htargets := eq_of_unbound targets_unbound hu
  obtain ⟨links, hl, ho'⟩ := get?_of_bindEach h hn hm ho
  constructor
  · intro hagain r hr
    obtain ⟨links', hl', hset⟩ := exists_of_bindIn hagain ho'
    rw [htargets] at hl'
    have hrefs : ns.targets other id o.body.references = .ok links' := by
      rwa [Body.references_linkAll] at hl'
    obtain ⟨found, hfound, ht⟩ := exists_of_targets hl hr
    obtain ⟨found', hfound', ht'⟩ := exists_of_targets hrefs hr
    -- the step wrote its own links over those of the pass, and so they are the same
    have hbody : (o.body.linkAll links).linkAll links' = o.body.linkAll links := by
      have hget := ho'
      rw [hset, setLinks, get?_update_self ho'] at hget
      exact congrArg Object.body (Option.some.inj hget)
    have hlink := linked?_linkAll_of_targets hl hfound
    have hlink' := linked?_linkAll_of_targets hl' hfound'
    rw [hbody, hlink] at hlink'
    rw [(lookup?_of_target ht).1, (lookup?_of_target ht').1, hlink']
  · intro hsame
    have hstep := bindIn_of_bindEach h hn hm
    obtain ⟨links', hl', hset⟩ := exists_of_bindIn hstep ho'
    refine bindIn_eq_ok_iff.2 (.inr ⟨_, links', ho', ?_, hset⟩)
    rw [htargets, Body.references_linkAll] at hl' ⊢
    rw [targets_congr hsame, hl']

theorem bindEach_of_bindIn (h : ∀ p ∈ pending, ns.bindIn p.2 p.1 = .ok ns) :
    ns.bindEach pending = (.ok (), ns) := by
  induction pending with
  | nil => rfl
  | cons p rest ih =>
    rw [bindEach_cons (h p List.mem_cons_self)]
    exact ih fun q hq => h q (List.mem_cons_of_mem p hq)

end Namespace

end Acpi
