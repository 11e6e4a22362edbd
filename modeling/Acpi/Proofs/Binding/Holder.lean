import Acpi.Proofs.Run

namespace Acpi.Namespace

variable {ns : Namespace} {id t a b c d s : ObjectId} {m n : Nat}

/-- The id of the first object in the arena that holds `t`. -/
def FirstHolder (ns : Namespace) (t a : ObjectId) : Prop :=
  ∃ i o, ns.objects[i]? = some o ∧ t ∈ o.terms ∧
    (∀ j < i, ∀ before, ns.objects[j]? = some before → t ∉ before.terms) ∧ a = .ofIndex i

/-- `HolderChain ns id n c`: from `id` it is `n` hops to `c`, each from an object to the first that
holds it. -/
inductive HolderChain (ns : Namespace) (id : ObjectId) : Nat → ObjectId → Prop
  | start : HolderChain ns id 0 id
  | hop {n : Nat} {t a : ObjectId} (h : HolderChain ns id n t) (ha : ns.FirstHolder t a) :
    HolderChain ns id (n + 1) a

/-- Nothing that is fewer than `n` hops away has a parent. -/
def LooseBelow (ns : Namespace) (id : ObjectId) (n : Nat) : Prop :=
  ∀ m < n, ∀ c, ns.HolderChain id m c → ns.parent? c = none

/-- The scope that the way over the holders gives an object: the first parent on it, or the root if
the way ends or comes round before there is one. -/
inductive HolderScope (ns : Namespace) (id : ObjectId) : ObjectId → Prop
  | parent {n : Nat} {c s : ObjectId} (hc : ns.HolderChain id n c) (hn : ns.LooseBelow id n)
    (hs : ns.parent? c = some s) : HolderScope ns id s
  | last {n : Nat} {c : ObjectId} (hc : ns.HolderChain id n c) (hn : ns.LooseBelow id (n + 1))
    (hlast : ∀ a, ¬ns.FirstHolder c a) : HolderScope ns id .root
  | round {m n : Nat} {c : ObjectId} (hm : m < n) (hc : ns.HolderChain id m c)
    (hagain : ns.HolderChain id n c) (hn : ns.LooseBelow id n) : HolderScope ns id .root

theorem mem_terms_iff : t ∈ ns.terms id ↔ ∃ o, ns.get? id = some o ∧ t ∈ o.terms := by
  cases h : ns.get? id <;> simp [terms, h]

theorem holder?_eq_some_iff : ns.holder? t = some a ↔ ns.FirstHolder t a := by
  rw [holder?, Option.map_eq_some_iff]
  constructor
  · intro h
    obtain ⟨i, hi, rfl⟩ := h
    obtain ⟨hlt, hheld, hfirst⟩ := Array.findIdx?_eq_some_iff_getElem.1 hi
    refine ⟨i, ns.objects[i], Array.getElem?_eq_getElem hlt, of_decide_eq_true hheld, ?_, rfl⟩
    intro j hj before hbefore ht
    obtain ⟨hjlt, rfl⟩ := Array.getElem?_eq_some_iff.1 hbefore
    exact hfirst j hj (decide_eq_true ht)
  · intro h
    obtain ⟨i, o, ho, ht, hfirst, rfl⟩ := h
    obtain ⟨hlt, rfl⟩ := Array.getElem?_eq_some_iff.1 ho
    refine ⟨i, Array.findIdx?_eq_some_iff_getElem.2 ⟨hlt, decide_eq_true ht, ?_⟩, rfl⟩
    intro j hj hheld
    exact hfirst j hj _ (Array.getElem?_eq_getElem _) (of_decide_eq_true hheld)

theorem FirstHolder.unique (h : ns.FirstHolder t a) (h' : ns.FirstHolder t b) : a = b := by
  have ha := holder?_eq_some_iff.2 h
  have hb := holder?_eq_some_iff.2 h'
  exact Option.some.inj (ha.symm.trans hb)

theorem FirstHolder.contains (h : ns.FirstHolder t a) : ns.contains a = true := by
  obtain ⟨i, o, ho, -, -, rfl⟩ := h
  have hlt : i < ns.size := (Array.getElem?_eq_some_iff.1 ho).1
  have hle : min i ObjectId.last ≤ i := Nat.min_le_left i ObjectId.last
  exact contains_iff.2 (Nat.lt_of_le_of_lt hle hlt)

/-- A term that is held has a first holder, and the first holder holds it. -/
theorem exists_holder? (h : t ∈ ns.terms a) : ∃ b, ns.holder? t = some b ∧ t ∈ ns.terms b := by
  obtain ⟨o, ho, ht⟩ := mem_terms_iff.1 h
  cases hb : ns.holder? t with
  | none =>
    rw [holder?, Option.map_eq_none_iff, Array.findIdx?_eq_none_iff] at hb
    have hnone := hb o (Array.mem_of_getElem? ho)
    exact absurd ht (of_decide_eq_false hnone)
  | some b =>
    obtain ⟨i, first, hi, hheld, hbefore, rfl⟩ := holder?_eq_some_iff.1 hb
    -- the first holder has an id, for it does not come after `a`
    have hle : i ≤ a.index := by
      by_contra hlater
      exact hbefore a.index (Nat.lt_of_not_le hlater) o ho ht
    have hindex := ObjectId.index_ofIndex (Nat.le_trans hle a.index_le)
    refine ⟨_, rfl, mem_terms_iff.2 ⟨first, ?_, hheld⟩⟩
    rw [get?, hindex]
    exact hi

theorem WellFormed.body_root (w : ns.WellFormed) :
    ∃ o, ns.get? .root = some o ∧ o.body = .scope := by
  obtain ⟨o, ho, hk⟩ := Option.map_eq_some_iff.1 w.kind_root
  refine ⟨o, ho, ?_⟩
  rw [Object.kind] at hk
  cases hb : o.body <;> simp [hb, Body.kind] at hk ⊢

theorem WellFormed.terms_root (w : ns.WellFormed) : ns.terms .root = [] := by
  obtain ⟨o, ho, hb⟩ := w.body_root
  rw [terms, ho, Option.map_some, Option.getD_some, Object.terms, hb]
  rfl

theorem WellFormed.ne_root_of_firstHolder (w : ns.WellFormed) (h : ns.FirstHolder t a) :
    a ≠ .root := by
  obtain ⟨i, o, ho, ht, -, rfl⟩ := h
  intro hroot
  have hindex : min i ObjectId.last = 0 := congrArg ObjectId.index hroot
  have hzero : i = 0 := by
    simp only [ObjectId.last] at hindex
    omega
  have hget : ns.get? .root = some o := by
    rw [hzero] at ho
    exact ho
  have hheld : t ∈ ns.terms .root := mem_terms_iff.2 ⟨o, hget, ht⟩
  rw [w.terms_root] at hheld
  cases hheld

namespace HolderChain

theorem add (h : ns.HolderChain id m a) (h' : ns.HolderChain a n c) :
    ns.HolderChain id (m + n) c := by
  induction h' with
  | start => exact h
  | hop _ ha ih => exact ih.hop ha

theorem split (h : ns.HolderChain id (m + n) c) :
    ∃ a, ns.HolderChain id m a ∧ ns.HolderChain a n c := by
  induction n generalizing c with
  | zero => exact ⟨c, h, .start⟩
  | succ n ih =>
    cases h with
    | hop h hc =>
      obtain ⟨a, hfirst, hrest⟩ := ih h
      exact ⟨a, hfirst, hrest.hop hc⟩

theorem unique (h : ns.HolderChain id n a) (h' : ns.HolderChain id n b) : a = b := by
  induction h generalizing b with
  | start =>
    cases h'
    rfl
  | hop _ ha ih =>
    cases h' with
    | hop h' hb =>
      rw [ih h'] at ha
      exact ha.unique hb

theorem exists_first (h : ns.HolderChain id (n + 1) c) :
    ∃ a, ns.FirstHolder id a ∧ ns.HolderChain a n c := by
  rw [Nat.add_comm] at h
  obtain ⟨a, hfirst, hrest⟩ := h.split
  cases hfirst with
  | hop hstart ha =>
    cases hstart
    exact ⟨a, ha, hrest⟩

theorem cons (ha : ns.FirstHolder id a) (h : ns.HolderChain a n c) :
    ns.HolderChain id (n + 1) c := by
  rw [Nat.add_comm]
  exact (HolderChain.start.hop ha).add h

end HolderChain

namespace LooseBelow

theorem parent?_eq_none (h : ns.LooseBelow id (n + 1)) : ns.parent? id = none :=
  h 0 (Nat.zero_lt_succ n) id .start

theorem of_firstHolder (h : ns.LooseBelow id (n + 1)) (ha : ns.FirstHolder id a) :
    ns.LooseBelow a n := by
  intro m hm c hc
  exact h (m + 1) (Nat.succ_lt_succ hm) c (.cons ha hc)

theorem of_parent?_eq_none (hn : ns.parent? id = none) (ha : ns.FirstHolder id a)
    (h : ns.LooseBelow a n) : ns.LooseBelow id (n + 1) := by
  intro m hm c hc
  cases m with
  | zero =>
    cases hc
    exact hn
  | succ m =>
    obtain ⟨b, hb, hrest⟩ := hc.exists_first
    rw [hb.unique ha] at hrest
    exact h m (Nat.lt_of_succ_lt_succ hm) c hrest

theorem of_last (hc : ns.HolderChain id n c) (hn : ns.LooseBelow id (n + 1))
    (hlast : ∀ a, ¬ns.FirstHolder c a) (k : Nat) : ns.LooseBelow id k := by
  intro m _ d hd
  by_cases hm : m < n + 1
  · exact hn m hm d hd
  · obtain ⟨k, rfl⟩ := Nat.exists_eq_add_of_le (Nat.le_of_not_lt hm)
    obtain ⟨a, ha, -⟩ := hd.split
    cases ha with
    | hop hc' ha =>
      rw [hc'.unique hc] at ha
      exact absurd ha (hlast a)

/-- Once round, everything comes again. -/
theorem of_round (hm : m < n) (hc : ns.HolderChain id m c) (hagain : ns.HolderChain id n c)
    (hn : ns.LooseBelow id n) (k : Nat) : ns.LooseBelow id k := by
  have hall : ∀ k d, ns.HolderChain id k d → ns.parent? d = none := by
    intro k
    induction k using Nat.strongRecOn with
    | ind k ih =>
      intro d hd
      by_cases hk : k < n
      · exact hn k hk d hd
      · obtain ⟨later, rfl⟩ := Nat.exists_eq_add_of_le (Nat.le_of_not_lt hk)
        obtain ⟨a, ha, hrest⟩ := hd.split
        rw [ha.unique hagain] at hrest
        exact ih (m + later) (by omega) d (hc.add hrest)
  intro k' _ d hd
  exact hall k' d hd

end LooseBelow

theorem scopeWithin_of_parent? {hops : Nat} (hc : ns.HolderChain id n c)
    (hn : ns.LooseBelow id n) (hs : ns.parent? c = some s) (hhops : n < hops) :
    ns.scopeWithin hops id = s := by
  induction n generalizing id hops with
  | zero =>
    cases hc
    obtain ⟨hops, rfl⟩ := Nat.exists_eq_add_one_of_ne_zero (Nat.ne_of_gt hhops)
    rw [scopeWithin, hs]
  | succ n ih =>
    obtain ⟨hops, rfl⟩ := Nat.exists_eq_add_one_of_ne_zero (Nat.ne_of_gt (Nat.zero_lt_of_lt hhops))
    obtain ⟨a, ha, hrest⟩ := hc.exists_first
    rw [scopeWithin, hn.parent?_eq_none, holder?_eq_some_iff.2 ha]
    exact ih hrest (hn.of_firstHolder ha) (Nat.lt_of_succ_lt_succ hhops)

theorem scopeWithin_of_looseBelow (hloose : ∀ n, ns.LooseBelow id n) (hops : Nat) :
    ns.scopeWithin hops id = .root := by
  induction hops generalizing id with
  | zero => rfl
  | succ hops ih =>
    rw [scopeWithin, (hloose 1).parent?_eq_none]
    cases ha : ns.holder? id with
    | none => rfl
    | some a =>
      have hfirst := holder?_eq_some_iff.1 ha
      exact ih fun n => (hloose (n + 1)).of_firstHolder hfirst

/-- While nothing comes again, the holders on the way are as many as the hops; `b` is an object that
is not one of them. -/
theorem exists_holders (hc : ns.HolderChain id n c)
    (haside : ∀ m ≤ n, 0 < m → ¬ns.HolderChain id m b)
    (honce : ∀ i j d, i < j → j ≤ n → ns.HolderChain id i d → ¬ns.HolderChain id j d) :
    ∃ holders : List ObjectId, holders.length = n ∧ (b :: holders).Nodup ∧
      ∀ x ∈ holders, ns.contains x = true ∧ ∃ m ≤ n, ns.HolderChain id m x := by
  induction hc with
  | start => exact ⟨[], rfl, by simp, by simp⟩
  | @hop n t a h ha ih =>
    have hbefore : ∀ m ≤ n, 0 < m → ¬ns.HolderChain id m b :=
      fun m hm => haside m (Nat.le_succ_of_le hm)
    have hdiffer : ∀ i j d, i < j → j ≤ n → ns.HolderChain id i d → ¬ns.HolderChain id j d :=
      fun i j d hij hj => honce i j d hij (Nat.le_succ_of_le hj)
    obtain ⟨holders, hlength, hnodup, hholders⟩ := ih hbefore hdiffer
    obtain ⟨hb, hnodup⟩ := List.nodup_cons.1 hnodup
    have hnew : a ∉ holders := by
      intro hmem
      obtain ⟨-, m, hm, hearlier⟩ := hholders a hmem
      exact honce m (n + 1) a (Nat.lt_succ_of_le hm) (Nat.le_refl _) hearlier (h.hop ha)
    have hne : b ≠ a := by
      intro he
      exact haside (n + 1) (Nat.le_refl _) (Nat.succ_pos n) (he ▸ h.hop ha)
    refine ⟨a :: holders, by rw [List.length_cons, hlength], ?_, ?_⟩
    · simp [hne, hb, hnew, hnodup]
    · intro x hx
      rcases List.mem_cons.1 hx with rfl | hx
      · exact ⟨ha.contains, n + 1, Nat.le_refl _, h.hop ha⟩
      · obtain ⟨hin, m, hm, hearlier⟩ := hholders x hx
        exact ⟨hin, m, Nat.le_succ_of_le hm, hearlier⟩

theorem hops_lt_size (hb : ns.contains b = true) (hc : ns.HolderChain id n c)
    (haside : ∀ m ≤ n, 0 < m → ¬ns.HolderChain id m b)
    (honce : ∀ i j d, i < j → j ≤ n → ns.HolderChain id i d → ¬ns.HolderChain id j d) :
    n < ns.size := by
  obtain ⟨holders, hlength, hnodup, hholders⟩ := exists_holders hc haside honce
  have hfits : (b :: holders).length ≤ ns.size := by
    apply length_le_size hnodup
    intro x hx
    rcases List.mem_cons.1 hx with rfl | hx
    · exact hb
    · exact (hholders x hx).1
  rw [List.length_cons] at hfits
  omega

/-- What comes again comes with all that follows it, so on the way to the first parent nothing
does. -/
theorem once_of_parent? (hc : ns.HolderChain id n c) (hn : ns.LooseBelow id n)
    (hs : ns.parent? c = some s) {i j : Nat} (hij : i < j) (hj : j ≤ n)
    (hd : ns.HolderChain id i d) : ¬ns.HolderChain id j d := by
  intro hagain
  obtain ⟨later, rfl⟩ := Nat.exists_eq_add_of_le hj
  obtain ⟨a, ha, hrest⟩ := hc.split
  rw [ha.unique hagain] at hrest
  have hearlier := hn (i + later) (by omega) c (hd.add hrest)
  rw [hs] at hearlier
  cases hearlier

theorem scopeOf_of_contains (hid : ns.contains id = true) (hc : ns.HolderChain id n c)
    (hn : ns.LooseBelow id n) (hs : ns.parent? c = some s) : ns.scopeOf id = s := by
  apply scopeWithin_of_parent? hc hn hs
  apply hops_lt_size hid hc
  · intro m hm hpos
    exact once_of_parent? hc hn hs hpos hm .start
  · intro i j d hij hj
    exact once_of_parent? hc hn hs hij hj

namespace WellFormed

theorem not_holderChain_root (w : ns.WellFormed) (hn : 0 < n) : ¬ns.HolderChain id n .root := by
  intro h
  cases h with
  | start => exact Nat.lt_irrefl 0 hn
  | hop _ ha => exact w.ne_root_of_firstHolder ha rfl

theorem scopeOf_of_parent? (w : ns.WellFormed) (hc : ns.HolderChain id n c)
    (hn : ns.LooseBelow id n) (hs : ns.parent? c = some s) : ns.scopeOf id = s := by
  apply scopeWithin_of_parent? hc hn hs
  apply hops_lt_size ns.contains_root hc
  · intro m _ hpos
    exact w.not_holderChain_root hpos
  · intro i j d hij hj
    exact once_of_parent? hc hn hs hij hj

theorem scopeOf_of_holderScope (w : ns.WellFormed) (h : ns.HolderScope id s) :
    ns.scopeOf id = s := by
  cases h with
  | parent hc hn hs => exact w.scopeOf_of_parent? hc hn hs
  | last hc hn hlast => exact scopeWithin_of_looseBelow (LooseBelow.of_last hc hn hlast) ns.size
  | round hm hc hagain hn =>
    exact scopeWithin_of_looseBelow (LooseBelow.of_round hm hc hagain hn) ns.size

/-- A way that neither ends nor comes round would have more holders than there are objects. -/
theorem exists_holderScope (w : ns.WellFormed) (id : ObjectId) : ∃ s, ns.HolderScope id s := by
  by_contra hnone
  push Not at hnone
  have hloose : ∀ n, ns.LooseBelow id n := by
    intro n
    induction n with
    | zero =>
      intro m hm
      cases hm
    | succ n ih =>
      intro m hm c hc
      rcases Nat.lt_succ_iff_lt_or_eq.1 hm with hm | rfl
      · exact ih m hm c hc
      · rw [Option.eq_none_iff_forall_ne_some]
        intro s hs
        exact hnone s (.parent hc ih hs)
  have hgoes : ∀ n, ∃ c, ns.HolderChain id n c := by
    intro n
    induction n with
    | zero => exact ⟨id, .start⟩
    | succ n ih =>
      obtain ⟨c, hc⟩ := ih
      by_contra hend
      push Not at hend
      exact hnone .root (.last hc (hloose (n + 1)) fun a ha => hend a (hc.hop ha))
  obtain ⟨c, hc⟩ := hgoes ns.size
  have haside : ∀ m ≤ ns.size, 0 < m → ¬ns.HolderChain id m .root :=
    fun m _ hpos => w.not_holderChain_root hpos
  have hfew := hops_lt_size ns.contains_root hc haside fun i j d hij _ hd hagain =>
    hnone .root (.round hij hd hagain (hloose j))
  exact Nat.lt_irrefl _ hfew

end WellFormed

/-- Whatever objects hold, the scope of every id, known or not, is the first parent on the way over
its holders, and the root just where that way ends or comes round without one; and it is a
container. -/
theorem scopes_of_reachable (h : ns.Reachable) (id : ObjectId) :
    (∀ s, ns.scopeOf id = s ↔ ns.HolderScope id s) ∧
      ∃ o, ns.get? (ns.scopeOf id) = some o ∧ o.isContainer = true := by
  have w := h.wellFormed
  obtain ⟨s, hs⟩ := w.exists_holderScope id
  have hscope : ns.scopeOf id = s := w.scopeOf_of_holderScope hs
  constructor
  · intro s'
    refine ⟨?_, w.scopeOf_of_holderScope⟩
    intro h'
    rw [← h', hscope]
    exact hs
  · have hkind : ∃ k, ns.kind? s = some k ∧ k.isContainer = true := by
      cases hs with
      | parent _ _ hs => exact w.container hs
      | last => exact ⟨.scope, w.kind_root, rfl⟩
      | round => exact ⟨.scope, w.kind_root, rfl⟩
    obtain ⟨k, hk, hcont⟩ := hkind
    obtain ⟨o, ho, rfl⟩ := Option.map_eq_some_iff.1 hk
    rw [hscope]
    exact ⟨o, ho, hcont⟩

/-- A term that holds an unknown one, which another holds as well, and two terms that hold each
other. -/
def heldTerms : List Action :=
  let table : TableId := ⟨1⟩
  let store := ObjectId.ofIndex 2
  let outer := ObjectId.ofIndex 3
  let here := ObjectId.ofIndex 4
  let there := ObjectId.ofIndex 5
  [.declare .root (.device table (.ofFour 0x50 0x43 0x49 0x30)),
   .declare (.ofIndex 1) (.generic ⟨0x70⟩ table), .insert (.generic ⟨0x70⟩ table),
   .insert (.generic ⟨0x70⟩ table), .insert (.generic ⟨0x70⟩ table),
   .offer store 0 (.term outer), .offer outer 0 (.term (.ofIndex 99)),
   .offer here 0 (.term there), .offer there 0 (.term here), .offer there 1 (.term (.ofIndex 98)),
   .offer there 2 (.term (.ofIndex 99)), .bindAll]

theorem allowed_heldTerms : ∀ a ∈ heldTerms, a.Allowed := by
  simp [heldTerms, Action.Allowed]

/-- From one unknown id the holders lead to the device, from the other they come round. -/
theorem scopes_of_heldTerms :
    ∃ ns, initial.run? heldTerms = some ns ∧ ns.Reachable ∧
      ns.contains (.ofIndex 99) = false ∧ ns.contains (.ofIndex 98) = false ∧
      ns.FirstHolder (.ofIndex 99) (.ofIndex 3) ∧ .ofIndex 99 ∈ ns.terms (.ofIndex 5) ∧
      ns.HolderScope (.ofIndex 99) (.ofIndex 1) ∧ ns.HolderScope (.ofIndex 98) .root ∧
      ∃ o, ns.get? (ns.scopeOf (.ofIndex 99)) = some o ∧ o.isContainer = true := by
  have hc : ∃ ns ∈ initial.run? heldTerms,
      ns.contains (.ofIndex 99) = false ∧ ns.contains (.ofIndex 98) = false ∧
      ns.holder? (.ofIndex 99) = some (.ofIndex 3) ∧ .ofIndex 99 ∈ ns.terms (.ofIndex 5) ∧
      ns.scopeOf (.ofIndex 99) = .ofIndex 1 ∧ ns.scopeOf (.ofIndex 98) = .root := by
    decide +kernel
  obtain ⟨ns, hr, h99, h98, hfirst, hsecond, hdevice, hroot⟩ := hc
  have h : ns.Reachable := ⟨heldTerms, allowed_heldTerms, hr⟩
  obtain ⟨hscope, hcontainer⟩ := scopes_of_reachable h (.ofIndex 99)
  obtain ⟨hround, -⟩ := scopes_of_reachable h (.ofIndex 98)
  exact ⟨ns, hr, h, h99, h98, holder?_eq_some_iff.1 hfirst, hsecond, (hscope _).1 hdevice,
    (hround _).1 hroot, hcontainer⟩

end Acpi.Namespace
