import Acpi.Proofs.Binding.Pending
import Acpi.Proofs.Raw.Ascent

namespace Acpi.Namespace

open Relation

variable {ns : Namespace} {id : ObjectId} {o : Object} {stack rest fresh ids : List ObjectId}

structure Collecting where
  walk : Cursor
  /-- For the objects on the stack. -/
  scope : ObjectId
  stack : List ObjectId
  seen : Array Bool
  found : List (ObjectId × ObjectId)

def collecting (ns : Namespace) : Collecting :=
  ⟨ns.cursor .root, .root, [], Array.replicate ns.size false, []⟩

namespace Collecting

/-- Goes on to the object that the walk comes to. -/
def enter (ns : Namespace) (c : Collecting) (id : ObjectId) (walk : Cursor) : Collecting :=
  { c with walk, scope := ns.treeScope id, stack := [id] }

/-- Marks an object, notes whether it is to be bound and stacks the terms it holds. -/
def visit (ns : Namespace) (c : Collecting) (id : ObjectId) (o : Object)
    (rest : List ObjectId) : Collecting :=
  { c with
    stack := (o.terms.filter fun t => (ns.get? t).any fun held => held.parent.isNone) ++ rest
    seen := c.seen.setIfInBounds id.index true
    found := c.found ++ if o.hasReferences then [(id, c.scope)] else [] }

/-- The collection one step on, unless it is complete. -/
def next? (ns : Namespace) (c : Collecting) : Except Halt (Option Collecting) :=
  match c.stack with
  | [] =>
    match c.walk.next? ns with
    | none => .ok none
    | some (id, walk) => .ok (some (c.enter ns id walk))
  | id :: rest => do
    let met ← demand c.seen[id.index]?
    if met then return some { c with stack := rest }
    else
      let o ← demand (ns.get? id)
      return some (c.visit ns id o rest)

def Step (ns : Namespace) (c c' : Collecting) : Prop := c.next? ns = .ok (some c')

variable {c c' : Collecting} {walk : Cursor}

theorem next?_of_end (hs : c.stack = []) (hw : c.walk.next? ns = none) : c.next? ns = .ok none := by
  simp only [next?, hs, hw]

theorem step_enter (hs : c.stack = []) (hw : c.walk.next? ns = some (id, walk)) :
    c.Step ns (c.enter ns id walk) := by
  simp only [Step, next?, hs, hw]

theorem step_again (hs : c.stack = id :: rest) (hm : c.seen[id.index]? = some true) :
    c.Step ns { c with stack := rest } := by
  simp only [Step, next?, hs, hm, demand]
  rfl

theorem step_visit (hs : c.stack = id :: rest) (hm : c.seen[id.index]? = some false)
    (ho : ns.get? id = some o) : c.Step ns (c.visit ns id o rest) := by
  simp only [Step, next?, hs, hm, ho, demand]
  rfl

/-- There is a mark for each object, and what waits is in the arena. -/
structure Sound (ns : Namespace) (c : Collecting) : Prop where
  size_seen : c.seen.size = ns.size
  contains_waiting : ∀ id ∈ c.walk.waiting, ns.contains id = true
  contains_stack : ∀ id ∈ c.stack, ns.contains id = true

theorem sound_collecting (ns : Namespace) : ns.collecting.Sound ns where
  size_seen := by simp [collecting]
  contains_waiting id hid := by
    rw [collecting, cursor, if_pos ns.contains_root, List.mem_singleton] at hid
    exact hid ▸ ns.contains_root
  contains_stack id hid := by cases hid

theorem Sound.seen (s : c.Sound ns) (hid : ns.contains id = true) :
    ∃ met, c.seen[id.index]? = some met := by
  have hlt : id.index < c.seen.size := by
    rw [s.size_seen]
    exact contains_iff.1 hid
  exact ⟨_, Array.getElem?_eq_getElem hlt⟩

theorem Sound.enter (g : ns.Grounded) (s : c.Sound ns)
    (hw : c.walk.next? ns = some (id, walk)) : (c.enter ns id walk).Sound ns := by
  cases hwaiting : c.walk.waiting with
  | nil =>
    rw [Cursor.next?, hwaiting] at hw
    cases hw
  | cons first waiting =>
    rw [Cursor.next?, hwaiting] at hw
    cases hw
    have hold := s.contains_waiting
    rw [hwaiting] at hold
    refine ⟨s.size_seen, fun x hx => ?_, fun x hx => ?_⟩
    · rcases List.mem_append.1 hx with hx | hx
      · exact g.contains_child hx
      · exact hold x (List.mem_cons_of_mem id hx)
    · rw [List.mem_singleton.1 hx]
      exact hold id List.mem_cons_self

theorem stack_visit (ho : ns.get? id = some o) :
    (c.visit ns id o rest).stack = ns.looseTerms id ++ rest := by
  simp [visit, looseTerms, terms, ho]

theorem Sound.visit (s : c.Sound ns) (hs : c.stack = id :: rest) (ho : ns.get? id = some o) :
    (c.visit ns id o rest).Sound ns := by
  refine ⟨?_, s.contains_waiting, fun x hx => ?_⟩
  · rw [Collecting.visit, Array.size_setIfInBounds]
    exact s.size_seen
  · rw [stack_visit ho] at hx
    rcases List.mem_append.1 hx with hx | hx
    · exact (mem_looseTerms.1 hx).2.1
    · exact s.contains_stack x (hs ▸ List.mem_cons_of_mem id hx)

theorem Sound.again (s : c.Sound ns) (hs : c.stack = id :: rest) :
    Sound ns { c with stack := rest } := by
  refine ⟨s.size_seen, s.contains_waiting, fun x hx => ?_⟩
  exact s.contains_stack x (hs ▸ List.mem_cons_of_mem id hx)

theorem Sound.next? (g : ns.Grounded) (s : c.Sound ns) :
    ∃ r, c.next? ns = .ok r ∧ ∀ c' ∈ r, c'.Sound ns := by
  cases hs : c.stack with
  | nil =>
    cases hw : c.walk.next? ns with
    | none => exact ⟨none, next?_of_end hs hw, by simp⟩
    | some w => exact ⟨_, step_enter hs hw, by simpa using s.enter g hw⟩
  | cons id rest =>
    have hid : ns.contains id = true := s.contains_stack id (hs ▸ List.mem_cons_self)
    obtain ⟨o, ho⟩ := get?_of_contains hid
    obtain ⟨met, hm⟩ := s.seen hid
    cases met with
    | true => exact ⟨_, step_again hs hm, by simpa using s.again hs⟩
    | false => exact ⟨_, step_visit hs hm ho, by simpa using s.visit hs ho⟩

theorem Sound.step (g : ns.Grounded) (s : c.Sound ns) (h : c.Step ns c') : c'.Sound ns := by
  obtain ⟨r, hr, hsound⟩ := s.next? g
  cases hr.symm.trans h
  exact hsound c' rfl

theorem Sound.steps (g : ns.Grounded) (s : c.Sound ns) (h : ReflTransGen (Step ns) c c') :
    c'.Sound ns := by
  induction h with
  | refl => exact s
  | tail _ hstep ih => exact ih.step g hstep

/-- What is not marked is what is fresh. -/
structure Marks (c : Collecting) (fresh : List ObjectId) : Prop where
  nodup : fresh.Nodup
  mem_iff : ∀ {id}, id ∈ fresh ↔ c.seen[id.index]? = some false

theorem marks_collecting (ns : Namespace) : ns.collecting.Marks ns.ids where
  nodup := ns.nodup_ids
  mem_iff {id} := by
    rw [mem_ids, contains_iff, collecting, Array.getElem?_replicate]
    simp

theorem Marks.visit (m : c.Marks fresh) (h : id ∈ fresh) :
    (c.visit ns id o rest).Marks (fresh.erase id) := by
  refine ⟨m.nodup.erase id, fun {x} => ?_⟩
  rw [m.nodup.mem_erase_iff, m.mem_iff, Collecting.visit, Array.getElem?_setIfInBounds]
  by_cases hx : x = id
  · subst hx
    have hmark := m.mem_iff.1 h
    have hlt : x.index < c.seen.size := (Array.getElem?_eq_some_iff.1 hmark).1
    simp [hlt]
  · have hne : id.index ≠ x.index := fun he => hx (ObjectId.ext he.symm)
    rw [if_neg hne]
    exact and_iff_right hx

theorem found_visit (ho : ns.get? id = some o) (visits : List ObjectId) :
    (c.visit ns id o rest).found ++ (visits.filter ns.hasReferences).map (·, c.scope) =
      c.found ++ ((id :: visits).filter ns.hasReferences).map (·, c.scope) := by
  have href : ns.hasReferences id = o.hasReferences := by simp [Namespace.hasReferences, ho]
  rw [List.filter_cons, href, visit]
  cases o.hasReferences <;> simp

/-- The stack is worked off as the visits go. -/
theorem steps_visitTerms (s : c.Sound ns) (hs : c.stack = stack) (m : c.Marks fresh) :
    ∃ c', ReflTransGen (Step ns) c c' ∧ c'.walk = c.walk ∧ c'.stack = [] ∧
      c'.found = c.found ++
        ((ns.visitTerms stack fresh).1.filter ns.hasReferences).map (·, c.scope) ∧
      c'.Marks (ns.visitTerms stack fresh).2 := by
  induction stack, fresh using visitTerms.induct ns generalizing c with
  | case1 fresh => exact ⟨c, .refl, rfl, hs, by simp, by simpa using m⟩
  | case2 fresh id rest h _ _ _ ih =>
    have hmark := m.mem_iff.1 h
    obtain ⟨o, ho⟩ := get?_of_contains (s.contains_stack id (hs ▸ List.mem_cons_self))
    have hstep : c.Step ns (c.visit ns id o rest) := step_visit hs hmark ho
    obtain ⟨c', hsteps, hwalk, hend, hfound, hmarks⟩ :=
      ih (s.visit hs ho) (stack_visit ho) (m.visit h)
    rw [visitTerms_of_mem h]
    exact ⟨c', .head hstep hsteps, hwalk, hend, hfound.trans (found_visit ho _), hmarks⟩
  | case3 fresh id rest h ih =>
    obtain ⟨met, hmet⟩ := s.seen (s.contains_stack id (hs ▸ List.mem_cons_self))
    have hmark : c.seen[id.index]? = some true := by
      cases met with
      | true => exact hmet
      | false => exact absurd (m.mem_iff.2 hmet) h
    have hstep : c.Step ns { c with stack := rest } := step_again hs hmark
    obtain ⟨c', hsteps, hrest⟩ := ih (s.again hs) rfl ⟨m.nodup, m.mem_iff⟩
    rw [visitTerms_of_not_mem h]
    exact ⟨c', .head hstep hsteps, hrest⟩

/-- The walk is gone through with the stack worked off at each object. -/
theorem steps_pendingAlong (g : ns.Grounded) (s : c.Sound ns) (hs : c.stack = [])
    (m : c.Marks fresh) (hwalk : c.walk.run ns ids.length = (ids, walk)) :
    ∃ c', ReflTransGen (Step ns) c c' ∧ c'.walk = walk ∧ c'.stack = [] ∧
      c'.found = c.found ++ ns.pendingAlong fresh ids := by
  induction ids generalizing c fresh with
  | nil =>
    cases hwalk
    exact ⟨c, .refl, rfl, hs, by simp [pendingAlong]⟩
  | cons id ids ih =>
    cases hnext : c.walk.next? ns with
    | none =>
      rw [List.length_cons, Cursor.run, hnext] at hwalk
      cases hwalk
    | some next =>
      obtain ⟨first, later⟩ := next
      rw [List.length_cons, Cursor.run, hnext] at hwalk
      obtain ⟨hvisits, hlast⟩ := Prod.mk.inj hwalk
      obtain ⟨rfl, hrest⟩ := List.cons.inj hvisits
      have hstep : c.Step ns (c.enter ns first later) := step_enter hs hnext
      have hentered := s.enter g hnext
      obtain ⟨mid, hsteps, hmid, hend, hfound, hmarks⟩ :=
        steps_visitTerms hentered rfl ⟨m.nodup, m.mem_iff⟩
      have hrun : mid.walk.run ns ids.length = (ids, walk) := by
        rw [hmid]
        exact Prod.ext hrest hlast
      obtain ⟨c', hsteps', hwalk', hend', hfound'⟩ :=
        ih (hentered.steps g hsteps) hend hmarks hrun
      refine ⟨c', .head hstep (hsteps.trans hsteps'), hwalk', hend', ?_⟩
      rw [hfound', hfound, List.append_assoc]
      rfl

/-- The collection comes to what is pending, if anything is said of that. -/
theorem exists_steps_of_pending? (g : ns.Grounded) {pending : List (ObjectId × ObjectId)}
    (h : ns.pending? = some pending) :
    ∃ c, ReflTransGen (Step ns) ns.collecting c ∧ c.next? ns = .ok none ∧ c.found = pending := by
  obtain ⟨ids, hids, rfl⟩ := exists_of_pending? h
  have hrun : (ns.cursor .root).run ns ids.length = (ids, ⟨[]⟩) := run_of_subtree? hids
  obtain ⟨c, hsteps, hwalk, hend, hfound⟩ :=
    steps_pendingAlong g (sound_collecting ns) rfl (marks_collecting ns) hrun
  exact ⟨c, hsteps, next?_of_end hend (by rw [hwalk]; rfl), hfound⟩

end Collecting

end Acpi.Namespace
