import Acpi.Proofs.Namespace.Preorder

namespace Acpi.Namespace

variable {ns : Namespace} {id : ObjectId} {visits : List ObjectId}

structure Stack where
  pushed : Array ObjectId
  deriving DecidableEq

def stack (ns : Namespace) (start : ObjectId) : Stack :=
  ⟨if ns.contains start then #[start] else #[]⟩

namespace Stack

def next? (ns : Namespace) (s : Stack) : Option (ObjectId × Stack) :=
  s.pushed.back?.map fun id => (id, ⟨s.pushed.pop ++ (ns.children id).reverse⟩)

/-- The first so many visits, and the stack after them. -/
def run (ns : Namespace) : Nat → Stack → List ObjectId × Stack
  | 0, s => ([], s)
  | n + 1, s =>
    match s.next? ns with
    | none => ([], s)
    | some (id, s) =>
      let (visits, s) := s.run ns n
      (id :: visits, s)

/-- What is on the stack, from the top. -/
def cursor (s : Stack) : Cursor := ⟨s.pushed.toList.reverse⟩

theorem eq_of_cursor {s s' : Stack} (h : s.cursor = s'.cursor) : s = s' := by
  have hlist : s.pushed.toList = s'.pushed.toList := by
    simpa [cursor] using h
  cases s
  cases s'
  simpa using hlist

theorem next?_cursor (ns : Namespace) (s : Stack) :
    s.cursor.next? ns = (s.next? ns).map fun v => (v.1, v.2.cursor) := by
  obtain ⟨⟨pushed⟩⟩ := s
  rcases List.eq_nil_or_concat' pushed with rfl | ⟨rest, id, rfl⟩
  · simp [cursor, next?, Cursor.next?]
  · simp [cursor, next?, Cursor.next?]

theorem run_cursor (ns : Namespace) (n : Nat) (s : Stack) :
    s.cursor.run ns n = ((s.run ns n).1, (s.run ns n).2.cursor) := by
  induction n generalizing s with
  | zero => rfl
  | succ n ih =>
    have hnext := s.next?_cursor ns
    cases h : s.next? ns with
    | none =>
      rw [h] at hnext
      simp only [Cursor.run, run, hnext, h, Option.map_none]
    | some v =>
      rw [h] at hnext
      simp only [Cursor.run, run, hnext, h, Option.map_some, ih]

end Stack

theorem cursor_stack (ns : Namespace) (start : ObjectId) :
    (ns.stack start).cursor = ns.cursor start := by
  rw [stack, cursor]
  split <;> rfl

/-- The stack makes the visits of the recursion, and is empty after them. -/
theorem run_stack (h : ns.subtree? id = some visits) :
    (ns.stack id).run ns visits.length = (visits, ⟨#[]⟩) := by
  have hrun := (ns.stack id).run_cursor ns visits.length
  rw [cursor_stack, run_of_subtree? h] at hrun
  obtain ⟨hvisits, hrest⟩ := Prod.mk.inj hrun
  have hempty : (Stack.mk #[]).cursor = ((ns.stack id).run ns visits.length).2.cursor := hrest
  exact Prod.ext hvisits.symm (Stack.eq_of_cursor hempty).symm

end Acpi.Namespace
