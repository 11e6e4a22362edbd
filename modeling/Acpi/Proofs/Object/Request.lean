import Mathlib.Data.List.Basic
import Acpi.Object.Offer

namespace Acpi

/-- What an object can be asked to take. -/
inductive Request
  | offer (index : Nat) (a : Operand)
  | giveName (seg : NameSeg)
  deriving DecidableEq

variable {o : Object} {r : Request} {requests : List Request} {i j : Nat}

namespace Object

/-- Makes a request, and tells whether it was granted. -/
def ask (o : Object) : Request → Bool × Object
  | .offer index a => o.offer index a
  | .giveName seg =>
    match o.giveName? seg with
    | some named => (true, named)
    | none => (false, o)

/-- Makes requests in turn. -/
def askAll (o : Object) : List Request → List Bool × Object
  | [] => ([], o)
  | r :: rest =>
    let (granted, o) := o.ask r
    let (others, o) := o.askAll rest
    (granted :: others, o)

/-- The object after the first `i` requests. -/
def afterFirst (o : Object) (requests : List Request) (i : Nat) : Object :=
  (o.askAll (requests.take i)).2

theorem ask_giveName_refused {seg : NameSeg} (h : (o.ask (.giveName seg)).1 = false) :
    (o.ask (.giveName seg)).2 = o := by
  simp only [ask] at h ⊢
  cases hn : o.giveName? seg with
  | none => rfl
  | some named => simp [hn] at h

theorem closed_ask (h : o.closed = true) (r : Request) : (o.ask r).2.closed = true := by
  cases r with
  | offer index a => rw [ask, offer_closed h, h]
  | giveName seg =>
    rw [ask]
    by_cases hn : o.name = none
    · simp [giveName?, hn, h]
    · simp [giveName?, hn, h]

theorem getElem?_askAll (o : Object) (requests : List Request) (i : Nat) :
    (o.askAll requests).1[i]? = requests[i]?.map fun r => ((o.afterFirst requests i).ask r).1 := by
  induction requests generalizing o i with
  | nil => rfl
  | cons r rest ih =>
    cases i with
    | zero => rfl
    | succ i => exact ih (o.ask r).2 i

theorem afterFirst_succ (o : Object) (h : requests[i]? = some r) :
    o.afterFirst requests (i + 1) = ((o.afterFirst requests i).ask r).2 := by
  induction requests generalizing o i with
  | nil => simp at h
  | cons first rest ih =>
    cases i with
    | zero =>
      obtain rfl : first = r := by simpa using h
      rfl
    | succ i => exact ih (o.ask first).2 (by simpa using h)

theorem length_askAll (o : Object) (requests : List Request) :
    (o.askAll requests).1.length = requests.length := by
  induction requests generalizing o with
  | nil => rfl
  | cons r rest ih => exact congrArg (· + 1) (ih (o.ask r).2)

theorem closed_afterFirst (hij : i ≤ j) (h : (o.afterFirst requests i).closed = true) :
    (o.afterFirst requests j).closed = true := by
  induction hij with
  | refl => exact h
  | @step j _ ih =>
    cases hr : requests[j]? with
    | some r =>
      rw [afterFirst_succ o hr]
      exact closed_ask ih r
    | none =>
      have hlen : requests.length ≤ j := List.getElem?_eq_none_iff.1 hr
      have hend : requests.take (j + 1) = requests.take j := by
        rw [List.take_of_length_le hlen, List.take_of_length_le (by omega)]
      rwa [afterFirst, hend]

/-- A name that is refused changes nothing. An operand that is refused changes nothing but the mark
it leaves, and no operand that is offered after it is taken. -/
theorem refusals_of_askAll (o : Object) (requests : List Request) :
    (o.askAll requests).1.length = requests.length ∧
      (∀ i seg, requests[i]? = some (.giveName seg) → (o.askAll requests).1[i]? = some false →
        o.afterFirst requests (i + 1) = o.afterFirst requests i) ∧
      ∀ i index a, requests[i]? = some (.offer index a) → (o.askAll requests).1[i]? = some false →
        o.afterFirst requests (i + 1) = (o.afterFirst requests i).close ∧
          ∀ j later b, i < j → requests[j]? = some (.offer later b) →
            (o.askAll requests).1[j]? = some false := by
  refine ⟨length_askAll o requests, ?_, ?_⟩
  · intro i seg hr hanswer
    rw [getElem?_askAll, hr] at hanswer
    rw [afterFirst_succ o hr]
    exact ask_giveName_refused (Option.some.inj hanswer)
  · intro i index a hr hanswer
    rw [getElem?_askAll, hr] at hanswer
    have hclose : o.afterFirst requests (i + 1) = (o.afterFirst requests i).close := by
      rw [afterFirst_succ o hr]
      exact offer_refused (Option.some.inj hanswer)
    refine ⟨hclose, ?_⟩
    intro j later b hij hlater
    have hclosed : (o.afterFirst requests j).closed = true :=
      closed_afterFirst (i := i + 1) hij (by rw [hclose]; rfl)
    rw [getElem?_askAll, hlater, Option.map_some, ask, offer_closed hclosed]

/-- A level, a name, another name, the first name again as an operand, and a level once more. -/
def namedTwice : List Request :=
  [.offer 1 (.integer 3), .giveName (.ofFour 0x4D 0x55 0x54 0x5F),
   .giveName (.ofFour 0x4C 0x4F 0x43 0x4B), .offer 0 (.text "MUT"), .offer 1 (.integer 2)]

/-- A mutex that was named takes no other name, and none as an operand. That closes it, so it keeps
its first level. -/
theorem refusals_of_namedTwice :
    ((mutex ⟨1⟩).askAll namedTwice).1 = [true, true, false, false, false] ∧
      (mutex ⟨1⟩).afterFirst namedTwice 3 = (mutex ⟨1⟩).afterFirst namedTwice 2 ∧
      (mutex ⟨1⟩).afterFirst namedTwice 4 = ((mutex ⟨1⟩).afterFirst namedTwice 3).close ∧
      ((mutex ⟨1⟩).askAll namedTwice).1[4]? = some false := by
  have hanswers : ((mutex ⟨1⟩).askAll namedTwice).1 = [true, true, false, false, false] := by
    decide +kernel
  obtain ⟨-, hnames, hoffers⟩ := refusals_of_askAll (mutex ⟨1⟩) namedTwice
  have hname := hnames 2 _ rfl (by rw [hanswers]; rfl)
  obtain ⟨hclose, hlater⟩ := hoffers 3 _ _ rfl (by rw [hanswers]; rfl)
  exact ⟨hanswers, hname, hclose, hlater 4 _ _ (by decide) rfl⟩

end Object

end Acpi
