import Acpi.Namespace.Scope
import Acpi.Proofs.Namespace.Climb

namespace Acpi

/-- Why a run breaks off. -/
inductive Halt
  /-- Something was taken for granted and is not there. -/
  | outOfRange
  | outOfSteps
  deriving DecidableEq

/-- Takes something for granted. -/
def demand {α : Type} : Option α → Except Halt α
  | some a => .ok a
  | none => .error .outOfRange

/-- A run of so many steps comes to `a`; with fewer than `bound` it may also be too short. -/
def Yields {α : Type} (bound steps : Nat) (run : Except Halt α) (a : α) : Prop :=
  run = .ok a ∨ run = .error .outOfSteps ∧ steps < bound

namespace Yields

variable {α β : Type} {bound steps : Nat} {run : Except Halt α} {a : α}

theorem ok (bound steps : Nat) (a : α) : Yields bound steps (.ok a) a := .inl rfl

theorem eq_ok (h : Yields bound steps run a) (hs : bound ≤ steps) : run = .ok a := by
  rcases h with hok | ⟨-, hlt⟩
  · exact hok
  · omega

theorem ne_outOfRange (h : Yields bound steps run a) : run ≠ .error .outOfRange := by
  rcases h with hok | ⟨herr, -⟩
  · simp [hok]
  · simp [herr]

theorem mono {bound' : Nat} (h : Yields bound steps run a) (hb : bound ≤ bound') :
    Yields bound' steps run a := by
  rcases h with hok | ⟨herr, hlt⟩
  · exact .inl hok
  · exact .inr ⟨herr, by omega⟩

theorem succ (h : Yields bound steps run a) : Yields (bound + 1) (steps + 1) run a := by
  rcases h with hok | ⟨herr, hlt⟩
  · exact .inl hok
  · exact .inr ⟨herr, by omega⟩

/-- Runs one after the other, with the same steps for each. -/
theorem bind {next : α → Except Halt β} {b : β} (h : Yields bound steps run a)
    (hn : Yields bound steps (next a) b) : Yields bound steps (run >>= next) b := by
  rcases h with hok | ⟨herr, hlt⟩
  · subst hok
    exact hn
  · subst herr
    exact .inr ⟨rfl, hlt⟩

theorem map (f : α → β) (h : Yields bound steps run a) :
    Yields bound steps (run >>= fun r => pure (f r)) (f a) :=
  h.bind (.ok bound steps (f a))

theorem ite {c : Prop} [Decidable c] {run' : Except Halt α} {a' : α}
    (h : Yields bound steps run a) (h' : Yields bound steps run' a') :
    Yields bound steps (if c then run else run') (if c then a else a') := by
  split
  · exact h
  · exact h'

end Yields

namespace Namespace

variable {ns : Namespace} {id p x : ObjectId} {o : Object}

theorem demand_get? (h : ns.get? id = some o) : demand (ns.get? id) = .ok o := by rw [h, demand]

/-- A way up: what comes next, if anything does. -/
structure Ascent where
  next : Option ObjectId

def ascent (ns : Namespace) (id : ObjectId) : Ascent := ⟨ns.parent? id⟩

/-- Gives what comes next; its own parent comes after it. -/
def Ascent.next? (ns : Namespace) (a : Ascent) : Option (ObjectId × Ascent) :=
  a.next.map fun id => (id, ns.ascent id)

/-- All that comes. -/
def Ascent.collect (ns : Namespace) : Nat → Ascent → Except Halt (List ObjectId)
  | 0, _ => .error .outOfSteps
  | steps + 1, a =>
    match a.next? ns with
    | none => .ok []
    | some (id, a) => do
      let rest ← a.collect ns steps
      return id :: rest

/-- The first answer to what is asked of all that comes. -/
def Ascent.seek {α : Type} (ns : Namespace) (ask : ObjectId → Except Halt (Option α)) :
    Nat → Ascent → Except Halt (Option α)
  | 0, _ => .error .outOfSteps
  | steps + 1, a =>
    match a.next? ns with
    | none => .ok none
    | some (id, a) => do
      match ← ask id with
      | some answer => return some answer
      | none => a.seek ns ask steps

/-- What comes after so many others. -/
def Ascent.nth (ns : Namespace) : Nat → Nat → Ascent → Except Halt (Option ObjectId)
  | 0, _, _ => .error .outOfSteps
  | steps + 1, n, a =>
    match a.next? ns with
    | none => .ok none
    | some (id, a) =>
      match n with
      | 0 => .ok (some id)
      | n + 1 => a.nth ns steps n

theorem Climbs.ascent_cases (k : ns.Climbs) (id : ObjectId) :
    ((ns.ascent id).next? ns = none ∧ ns.ancestors id = []) ∨
    ∃ p, (ns.ascent id).next? ns = some (p, ns.ascent p) ∧
      ns.ancestors id = p :: ns.ancestors p := by
  cases hp : ns.parent? id with
  | none => exact .inl ⟨by simp [ascent, Ascent.next?, hp], ancestors_of_top hp⟩
  | some p => exact .inr ⟨p, by simp [ascent, Ascent.next?, hp], k.ancestors_of_parent? hp⟩

namespace Climbs

theorem collect_ascent (k : ns.Climbs) (steps : Nat) (id : ObjectId) :
    Yields ((ns.ancestors id).length + 1) steps ((ns.ascent id).collect ns steps)
      (ns.ancestors id) := by
  induction steps generalizing id with
  | zero => exact .inr ⟨rfl, by omega⟩
  | succ steps ih =>
    rcases k.ascent_cases id with ⟨hnext, hnone⟩ | ⟨p, hnext, hsome⟩
    · rw [Ascent.collect, hnext, hnone]
      exact .ok _ _ []
    · rw [Ascent.collect, hnext, hsome]
      exact (ih p).succ.map (p :: ·)

theorem seek_ascent {α : Type} {ask : ObjectId → Except Halt (Option α)}
    {answer : ObjectId → Option α} (k : ns.Climbs) (hask : ∀ x, ask x = .ok (answer x))
    (steps : Nat) (id : ObjectId) :
    Yields ((ns.ancestors id).length + 1) steps ((ns.ascent id).seek ns ask steps)
      ((ns.ancestors id).findSome? answer) := by
  induction steps generalizing id with
  | zero => exact .inr ⟨rfl, by omega⟩
  | succ steps ih =>
    rcases k.ascent_cases id with ⟨hnext, hnone⟩ | ⟨p, hnext, hsome⟩
    · rw [Ascent.seek, hnext, hnone]
      exact .ok _ _ none
    · rw [Ascent.seek, hnext, hsome, List.findSome?_cons]
      simp only [hask]
      cases hp : answer p with
      | some found => exact .ok _ _ (some found)
      | none => exact (ih p).succ

theorem nth_ascent (k : ns.Climbs) (steps n : Nat) (id : ObjectId) :
    Yields ((ns.ancestors id).length + 1) steps ((ns.ascent id).nth ns steps n)
      (ns.ancestors id)[n]? := by
  induction steps generalizing id n with
  | zero => exact .inr ⟨rfl, by omega⟩
  | succ steps ih =>
    rcases k.ascent_cases id with ⟨hnext, hnone⟩ | ⟨p, hnext, hsome⟩
    · rw [Ascent.nth, hnext, hnone]
      exact .ok _ _ none
    · rw [Ascent.nth, hnext, hsome]
      cases n with
      | zero => exact .ok _ _ (some p)
      | succ n => exact (ih n p).succ

theorem yields_collect (k : ns.Climbs) (steps : Nat) (id : ObjectId) :
    Yields ns.size steps ((ns.ascent id).collect ns steps) (ns.ancestors id) :=
  (k.collect_ascent steps id).mono (k.length_ancestors_lt id)

theorem yields_seek {α : Type} {ask : ObjectId → Except Halt (Option α)}
    {answer : ObjectId → Option α} (k : ns.Climbs) (hask : ∀ x, ask x = .ok (answer x))
    (steps : Nat) (id : ObjectId) :
    Yields ns.size steps ((ns.ascent id).seek ns ask steps)
      ((ns.ancestors id).findSome? answer) :=
  (k.seek_ascent hask steps id).mono (k.length_ancestors_lt id)

theorem yields_nth (k : ns.Climbs) (steps n : Nat) (id : ObjectId) :
    Yields ns.size steps ((ns.ascent id).nth ns steps n) (ns.ancestors id)[n]? :=
  (k.nth_ascent steps n id).mono (k.length_ancestors_lt id)

end Climbs

/-- An object is met on the way up from another, or is that other. -/
def meetsRaw (ns : Namespace) (steps : Nat) (id x : ObjectId) : Except Halt Bool :=
  if x = id then .ok true
  else do
    let met ← (ns.ascent id).seek ns (fun a => .ok (Option.guard (· == x) a)) steps
    return met.isSome

def pathRaw (ns : Namespace) (steps : Nat) (id : ObjectId) : Except Halt Path := do
  let above ← (ns.ascent id).collect ns steps
  let names := ((id :: above).filter (· ≠ .root)).filterMap ns.name?
  let attached ← ns.meetsRaw steps id .root
  let anchor := if attached then Anchor.root else .relative
  return (Path.ofAnchor anchor).pushAll names.reverse

/-- The scope of an object by a loop of so many rounds. -/
def scopeLoop (ns : Namespace) : Nat → Nat → ObjectId → Except Halt ObjectId
  | _, 0, _ => .ok .root
  | 0, _ + 1, _ => .error .outOfSteps
  | steps + 1, rounds + 1, id =>
    match ns.parent? id with
    | some parent => .ok parent
    | none =>
      match ns.holder? id with
      | some holder => ns.scopeLoop steps rounds holder
      | none => .ok .root

def scopeRaw (ns : Namespace) (steps : Nat) (id : ObjectId) : Except Halt ObjectId :=
  ns.scopeLoop steps ns.size id

namespace Climbs

theorem yields_meetsRaw (k : ns.Climbs) (steps : Nat) (id x : ObjectId) :
    Yields ns.size steps (ns.meetsRaw steps id x) (decide (x ∈ ns.lineage id)) := by
  by_cases hx : x = id
  · have hmem : x ∈ ns.lineage id := hx ▸ List.mem_cons_self
    simp only [meetsRaw, if_pos hx, hmem, decide_true]
    exact .ok _ _ true
  · have hseek : Yields ns.size steps
        ((ns.ascent id).seek ns (fun a => .ok (Option.guard (· == x) a)) steps)
        ((ns.ancestors id).find? (· == x)) := by
      rw [← List.findSome?_guard]
      exact k.yields_seek (fun _ => rfl) steps id
    have hmet : ((ns.ancestors id).find? (· == x)).isSome = decide (x ∈ ns.lineage id) := by
      rw [Bool.eq_iff_iff, decide_eq_true_iff, lineage, List.mem_cons, or_iff_right hx]
      simp
    rw [meetsRaw, if_neg hx, ← hmet]
    exact hseek.map Option.isSome

theorem yields_pathRaw (k : ns.Climbs) (steps : Nat) (id : ObjectId) :
    Yields ns.size steps (ns.pathRaw steps id) (ns.pathTo id) := by
  refine (k.yields_collect steps id).bind ?_
  refine (k.yields_meetsRaw steps id .root).bind ?_
  simp only [decide_eq_true_eq]
  exact .ok _ _ (ns.pathTo id)

end Climbs

theorem yields_scopeLoop (ns : Namespace) (steps rounds : Nat) (id : ObjectId) :
    Yields rounds steps (ns.scopeLoop steps rounds id) (ns.scopeWithin rounds id) := by
  induction rounds generalizing steps id with
  | zero =>
    rw [scopeLoop]
    exact .ok _ _ ObjectId.root
  | succ rounds ih =>
    cases steps with
    | zero => exact .inr ⟨rfl, by omega⟩
    | succ steps =>
      rw [scopeLoop, scopeWithin]
      cases ns.parent? id with
      | some parent => exact .ok _ _ parent
      | none =>
        cases ns.holder? id with
        | some holder => exact (ih steps holder).succ
        | none => exact .ok _ _ ObjectId.root

theorem yields_scopeRaw (ns : Namespace) (steps : Nat) (id : ObjectId) :
    Yields ns.size steps (ns.scopeRaw steps id) (ns.scopeOf id) :=
  ns.yields_scopeLoop steps ns.size id

end Namespace

end Acpi
