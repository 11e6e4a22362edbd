import Acpi.Namespace.Basic

namespace Acpi.Namespace

/-- An object and what lies below it, if that goes no more than `depth` levels deep. -/
def preorder? (ns : Namespace) : Nat → ObjectId → Option (List ObjectId)
  | 0, _ => none
  | depth + 1, id =>
    ((ns.children id).mapM (ns.preorder? depth)).map fun below => id :: below.flatten

/-- An object of the arena and everything below it. More levels than objects would repeat one, so
the list is missing only where children lead back to an object above them. -/
def subtree? (ns : Namespace) (start : ObjectId) : Option (List ObjectId) :=
  if ns.contains start then ns.preorder? ns.size start else some []

/-- A walk under way: the objects still to be visited with all that lies below them, the next one
first. -/
structure Cursor where
  waiting : List ObjectId

def cursor (ns : Namespace) (start : ObjectId) : Cursor :=
  ⟨if ns.contains start then [start] else []⟩

/-- Visits the next object; its children come before all that waited. -/
def Cursor.next? (ns : Namespace) (c : Cursor) : Option (ObjectId × Cursor) :=
  match c.waiting with
  | [] => none
  | id :: rest => some (id, ⟨ns.children id ++ rest⟩)

/-- The first so many visits, and the walk after them. -/
def Cursor.run (ns : Namespace) : Nat → Cursor → List ObjectId × Cursor
  | 0, c => ([], c)
  | n + 1, c =>
    match c.next? ns with
    | none => ([], c)
    | some (id, c) =>
      let (visits, c) := c.run ns n
      (id :: visits, c)

theorem Cursor.run_add (ns : Namespace) (m n : Nat) (c : Cursor) :
    c.run ns (m + n) =
      ((c.run ns m).1 ++ ((c.run ns m).2.run ns n).1, ((c.run ns m).2.run ns n).2) := by
  induction m generalizing c with
  | zero => simp [run]
  | succ m ih =>
    rw [Nat.succ_add]
    simp only [run]
    cases h : c.next? ns with
    | none =>
      cases n with
      | zero => simp [run]
      | succ n => simp [run, h]
    | some v => simp [ih v.2]

theorem mapM_eq_some_cons {f : ObjectId → Option (List ObjectId)} {id : ObjectId}
    {ids : List ObjectId} {below : List (List ObjectId)} :
    (id :: ids).mapM f = some below ↔
      ∃ first others, f id = some first ∧ ids.mapM f = some others ∧ below = first :: others := by
  simp only [List.mapM_cons, bind, Option.bind_eq_some_iff, pure, Option.some.injEq]
  constructor
  · rintro ⟨first, h₁, others, h₂, h⟩
    exact ⟨first, others, h₁, h₂, h.symm⟩
  · rintro ⟨first, others, h₁, h₂, h⟩
    exact ⟨first, h₁, others, h₂, h.symm⟩

/-- A cursor visits an object and all below it in the order of the recursion, and is then where the
object stood. -/
theorem run_preorder? {ns : Namespace} {depth : Nat} {id : ObjectId} {ids : List ObjectId}
    (h : ns.preorder? depth id = some ids) (rest : List ObjectId) :
    Cursor.run ns ids.length ⟨id :: rest⟩ = (ids, ⟨rest⟩) := by
  induction depth generalizing id ids rest with
  | zero => cases h
  | succ depth ih =>
    obtain ⟨below, hb, rfl⟩ := Option.map_eq_some_iff.1 h
    have forest : ∀ (cs : List ObjectId) (below : List (List ObjectId)),
        cs.mapM (ns.preorder? depth) = some below →
          Cursor.run ns below.flatten.length ⟨cs ++ rest⟩ = (below.flatten, ⟨rest⟩) := by
      intro cs
      induction cs with
      | nil =>
        intro below hb
        cases hb
        rfl
      | cons c cs ihc =>
        intro below hb
        obtain ⟨first, others, h₁, h₂, rfl⟩ := mapM_eq_some_cons.1 hb
        rw [List.flatten_cons, List.length_append, Cursor.run_add, List.cons_append,
          ih h₁ (cs ++ rest)]
        rw [ihc others h₂]
    simp only [List.length_cons, Cursor.run, Cursor.next?]
    rw [forest _ _ hb]

end Acpi.Namespace
