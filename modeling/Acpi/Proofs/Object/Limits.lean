import Acpi.Proofs.Name.Segment
import Acpi.Proofs.Object.Fresh
import Acpi.Proofs.Object.Request
import Acpi.Proofs.Object.Signature

namespace Acpi

variable {o : Object} {r : Request} {requests : List Request} {operands : List Operand}
  {b : Body} {a : Operand} {callee : Symbol} {seg : NameSeg} {width? : Option UInt8} {index : Nat}

theorem Response.Fills.imp {P Q : Body → Prop} {response : Response} (himp : ∀ b, P b → Q b)
    (h : response.Fills P) : response.Fills Q := by
  cases response with
  | fills body => exact himp body h
  | _ => trivial

theorem Response.ofValue_ne_names {α : Type} (value? : Option α) (fill : α → Body)
    (seg : NameSeg) : ofValue value? fill ≠ .names seg := by
  intro h
  cases value? <;> cases h

namespace Body

/-- The level is one that a mutex can have, and the width of a field is the one that its operation
fixes. -/
def Limited (width? : Option UInt8) : Body → Prop
  | .mutex level => level ≤ maxSyncLevel
  | .bufferField f => f.fixedWidth = width? ∧ ∀ w, width? = some w → f.width = .integer w.toUInt64
  | _ => True

theorem limited_of_kind (hm : b.kind ≠ .mutex) (hf : b.kind ≠ .bufferField) :
    b.Limited width? := by
  cases b with
  | mutex level => exact absurd rfl hm
  | bufferField f => exact absurd rfl hf
  | _ => trivial

theorem limited_ofWidth (width? : Option UInt8) :
    (Body.bufferField (.ofWidth width?)).Limited width? := by
  cases width? with
  | none => exact ⟨rfl, fun w hw => by cases hw⟩
  | some fixed =>
    refine ⟨rfl, fun w hw => ?_⟩
    cases hw
    rfl

theorem fills_respond_bufferField {f : BufferField} (h : (bufferField f).Limited width?)
    (index : Nat) (a : Operand) :
    ((bufferField f).respond index a).Fills (Limited width?) := by
  obtain ⟨hfixed, hwidth⟩ := h
  simp only [respond]
  split
  · exact ⟨hfixed, hwidth⟩
  · exact ⟨hfixed, hwidth⟩
  · split
    · exact Response.fills_ofName _ a
    next hnone =>
      refine ⟨hfixed, fun w hw => ?_⟩
      have hsome : f.fixedWidth = some w := hfixed.trans hw
      rw [hnone] at hsome
      cases hsome
  · split
    · trivial
    · exact Response.fills_ofName _ a
  · trivial

theorem fills_respond_limited (h : b.Limited width?) (index : Nat) (a : Operand) :
    (b.respond index a).Fills (Limited width?) := by
  have halike := b.fills_respond index a
  cases b with
  | bufferField f => exact fills_respond_bufferField h index a
  | mutex level =>
    simp only [respond]
    split
    · exact Response.fills_ofName _ a
    · refine Response.fills_ofValue _ fun v hv => ?_
      have hle := (Option.filter_eq_some_iff.1 hv).2
      show v ≤ maxSyncLevel
      simpa using hle
    · trivial
  | _ =>
    refine halike.imp fun b' hb' => limited_of_kind ?_ ?_
    · rw [hb'.1]
      exact fun hk => by cases hk
    · rw [hb'.1]
      exact fun hk => by cases hk

/-- Only at a position that takes a name does an operand name the object. -/
theorem ofName_of_respond (h : b.respond index a = .names seg) :
    Response.ofName a = .names seg := by
  cases b <;> simp only [respond] at h
  all_goals
    repeat' split at h
    all_goals first
      | exact h
      | exact absurd h (Response.ofValue_ne_names _ _ seg)
      | cases h

theorem segment?_of_respond (h : b.respond index a = .names seg) : a.segment? = some seg := by
  have hname := ofName_of_respond h
  rw [Response.ofName_eq] at hname
  split at hname
  next found hsegment =>
    cases hname
    exact hsegment
  · cases hname

end Body

theorem NameSeg.ne_root_of_textual (h : Textual seg.bytes) : seg ≠ root := by
  intro hroot
  rw [hroot] at h
  exact h.ne_zero 0 (by decide) rfl

theorem Operand.textual_of_segment? (h : a.segment? = some seg) : NameSeg.Textual seg.bytes := by
  cases a with
  | text s =>
    rw [segment?] at h
    split at h
    next ht =>
      cases h
      exact ht.padded
    next => cases h
  | _ => cases h

namespace Request

/-- The operand that is offered. -/
def operand? : Request → Option Operand
  | .offer _ a => some a
  | .giveName _ => none

end Request

/-- The operands that are offered, in turn. -/
def offered (requests : List Request) : List Operand := requests.filterMap Request.operand?

/-- Those of them that were taken. -/
def granted (requests : List Request) (answers : List Bool) : List Operand :=
  ((requests.zip answers).filter Prod.snd).filterMap fun p => p.1.operand?

theorem offered_giveName (seg : NameSeg) (requests : List Request) :
    offered (.giveName seg :: requests) = offered requests := rfl

theorem offered_offer (index : Nat) (a : Operand) (requests : List Request) :
    offered (.offer index a :: requests) = a :: offered requests := rfl

theorem granted_giveName (seg : NameSeg) (requests : List Request) (given : Bool)
    (answers : List Bool) :
    granted (.giveName seg :: requests) (given :: answers) = granted requests answers := by
  cases given <;> rfl

theorem granted_taken (index : Nat) (a : Operand) (requests : List Request)
    (answers : List Bool) :
    granted (.offer index a :: requests) (true :: answers) = a :: granted requests answers := rfl

theorem granted_refused (r : Request) (requests : List Request) (answers : List Bool) :
    granted (r :: requests) (false :: answers) = granted requests answers := rfl

namespace Object

def Limited (o : Object) : Prop := o.body.Limited o.opcode.fieldWidth?

theorem Constructed.limited (h : o.Constructed) : o.Limited := by
  cases h with
  | bufferField opcode table => exact Body.limited_ofWidth _
  | mutex table => exact UInt8.zero_le
  | _ => trivial

theorem limited_offer (h : o.Limited) (index : Nat) (a : Operand) :
    (o.offer index a).2.Limited := by
  rcases o.offer_cases index a with ho | ho | ⟨body, hr, ho⟩ | ⟨seg, named, -, hn, ho⟩
  · rw [ho]
    exact h
  · rw [ho]
    exact h
  · have hbody := Body.fills_respond_limited h index a
    rw [hr] at hbody
    rw [ho]
    exact hbody
  · obtain ⟨-, rfl⟩ := giveName?_eq_some.1 hn
    rw [ho]
    exact h

theorem ask_giveName_cases (o : Object) (seg : NameSeg) :
    (o.ask (.giveName seg)).2 = o ∨ (o.ask (.giveName seg)).2 = { o with name := some seg } := by
  rw [ask]
  cases hn : o.giveName? seg with
  | some named =>
    obtain ⟨-, rfl⟩ := giveName?_eq_some.1 hn
    exact .inr rfl
  | none => exact .inl rfl

theorem limited_ask (h : o.Limited) (r : Request) : (o.ask r).2.Limited := by
  cases r with
  | offer index a => exact limited_offer h index a
  | giveName seg =>
    rcases o.ask_giveName_cases seg with ho | ho
    · rw [ho]
      exact h
    · rw [ho]
      exact h

theorem limited_askAll (h : o.Limited) (requests : List Request) :
    (o.askAll requests).2.Limited := by
  induction requests generalizing o with
  | nil => exact h
  | cons r rest ih => exact ih (limited_ask h r)

theorem keeps_ask (o : Object) (r : Request) : o.Keeps (o.ask r).2 := by
  cases r with
  | offer index a => exact o.keeps_offer index a
  | giveName seg =>
    rw [ask]
    cases hn : o.giveName? seg with
    | some named => exact keeps_giveName? hn
    | none => exact .refl o

theorem keeps_askAll (o : Object) (requests : List Request) :
    o.Keeps (o.askAll requests).2 := by
  induction requests generalizing o with
  | nil => exact .refl o
  | cons r rest ih => exact (o.keeps_ask r).trans (ih (o.ask r).2)

theorem askAll_cons (o : Object) (r : Request) (rest : List Request) :
    o.askAll (r :: rest) =
      ((o.ask r).1 :: ((o.ask r).2.askAll rest).1, ((o.ask r).2.askAll rest).2) := rfl

/-- A call that holds these operands. A closed call has no room for another. -/
structure Calls (o : Object) (callee : Symbol) (operands : List Operand) : Prop where
  body : o.body = .invocation callee operands
  length_le : operands.length ≤ maxCallOperands
  full : o.closed = true → operands.length = maxCallOperands

namespace Calls

theorem ask_giveName (c : o.Calls callee operands) (seg : NameSeg) :
    (o.ask (.giveName seg)).2.Calls callee operands := by
  rcases o.ask_giveName_cases seg with ho | ho
  · rw [ho]
    exact c
  · rw [ho]
    exact ⟨c.body, c.length_le, c.full⟩

theorem offer_of_room (c : o.Calls callee operands) (hroom : operands.length < maxCallOperands)
    (index : Nat) (a : Operand) :
    (o.offer index a).1 = true ∧ (o.offer index a).2.Calls callee (operands ++ [a]) := by
  have hopen : o.closed = false := by
    cases hclosed : o.closed with
    | false => rfl
    | true => exact absurd (c.full hclosed) (Nat.ne_of_lt hroom)
  have hoffer : o.offer index a =
      (true, { o with body := .invocation callee (operands ++ [a]) }) := by
    simp [offer, hopen, c.body, Body.respond, hroom]
  rw [hoffer]
  refine ⟨rfl, rfl, ?_, fun hclosed => ?_⟩
  · rw [List.length_append]
    exact hroom
  · have hboth : false = true := hopen.symm.trans hclosed
    cases hboth

theorem offer_of_full (c : o.Calls callee operands) (hfull : operands.length = maxCallOperands)
    (index : Nat) (a : Operand) :
    (o.offer index a).1 = false ∧ (o.offer index a).2.Calls callee operands := by
  have hrefused : (o.offer index a).1 = false := by
    simp [offer, c.body, Body.respond, hfull]
    split <;> rfl
  rw [offer_refused hrefused]
  exact ⟨hrefused, c.body, c.length_le, fun _ => hfull⟩

theorem askAll (c : o.Calls callee operands) (requests : List Request) :
    granted requests (o.askAll requests).1 =
        (offered requests).take (maxCallOperands - operands.length) ∧
      (o.askAll requests).2.Calls callee
        (operands ++ granted requests (o.askAll requests).1) := by
  induction requests generalizing o operands with
  | nil => simpa [Object.askAll, granted, offered] using c
  | cons r rest ih =>
    cases r with
    | giveName seg =>
      obtain ⟨hgranted, hcalls⟩ := ih (c.ask_giveName seg)
      rw [askAll_cons, granted_giveName, offered_giveName]
      exact ⟨hgranted, hcalls⟩
    | offer index a =>
      by_cases hroom : operands.length < maxCallOperands
      · obtain ⟨htaken, hnext⟩ := c.offer_of_room hroom index a
        obtain ⟨hgranted, hcalls⟩ := ih hnext
        have hleft : maxCallOperands - operands.length =
            (maxCallOperands - (operands ++ [a]).length) + 1 := by
          rw [List.length_append, List.length_singleton]
          omega
        rw [List.append_assoc, List.singleton_append] at hcalls
        rw [askAll_cons, ask, htaken, granted_taken, offered_offer, hleft, List.take_succ_cons]
        exact ⟨congrArg (a :: ·) hgranted, hcalls⟩
      · have hfull : operands.length = maxCallOperands :=
          Nat.le_antisymm c.length_le (Nat.le_of_not_lt hroom)
        obtain ⟨hrefused, hnext⟩ := c.offer_of_full hfull index a
        obtain ⟨hgranted, hcalls⟩ := ih hnext
        rw [hfull, Nat.sub_self, List.take_zero] at hgranted
        rw [askAll_cons, ask, hrefused, granted_refused, hfull, Nat.sub_self, List.take_zero]
        exact ⟨hgranted, hcalls⟩

end Calls

theorem Constructed.calls (h : o.Constructed) (hkind : o.kind = .invocation) :
    ∃ callee, o.Calls callee [] := by
  cases h with
  | invocation table method =>
    exact ⟨{ name := method }, rfl, Nat.zero_le _, fun hclosed => by cases hclosed⟩
  | _ => cases hkind

theorem textual_of_offer (h : (o.offer index a).2.name ≠ o.name) :
    ∃ seg, (o.offer index a).2.name = some seg ∧ NameSeg.Textual seg.bytes := by
  rcases o.offer_cases index a with ho | ho | ⟨body, -, ho⟩ | ⟨seg, named, hr, hn, ho⟩
  · exact absurd (congrArg Object.name ho) h
  · exact absurd (congrArg Object.name ho) h
  · exact absurd (congrArg Object.name ho) h
  · obtain ⟨-, rfl⟩ := giveName?_eq_some.1 hn
    have hsegment := Body.segment?_of_respond hr
    exact ⟨seg, congrArg Object.name ho, Operand.textual_of_segment? hsegment⟩

/-- Whatever a new object is asked to take, and in whatever order, it stays of its kind. A mutex has
one of the levels there are. A call holds the first seven operands that were offered, and those are
the ones that it took. A field whose width is fixed has that width, and counts bits if that is one
bit; any other field counts bits. A name that an operand gave is written in letters, digits and
underscores, so that it is not the name of the root scope. -/
theorem limits_of_askAll (h : o.Constructed) (requests : List Request) :
    (o.askAll requests).2.kind = o.kind ∧
    (∀ level, (o.askAll requests).2.body = .mutex level → level ≤ 15) ∧
    (∀ callee operands, (o.askAll requests).2.body = .invocation callee operands →
      operands.length ≤ 7 ∧ operands = granted requests (o.askAll requests).1 ∧
        operands = (offered requests).take 7) ∧
    (∀ f, (o.askAll requests).2.body = .bufferField f →
      (∀ w, o.opcode.fieldWidth? = some w →
        f.width = .integer w.toUInt64 ∧ (f.bitIndexed = true ↔ w = 1)) ∧
      (o.opcode.fieldWidth? = none → f.bitIndexed = true)) ∧
    ∀ i index a, requests[i]? = some (.offer index a) →
      (o.afterFirst requests (i + 1)).name ≠ (o.afterFirst requests i).name →
      ∃ seg, (o.afterFirst requests (i + 1)).name = some seg ∧ seg.bytes.length = 4 ∧
        (∀ b ∈ seg.bytes, NameSeg.IsNameCode b.toNat) ∧ seg ≠ .root := by
  have hkeeps := o.keeps_askAll requests
  have hlimited := limited_askAll h.limited requests
  rw [Limited, hkeeps.opcode] at hlimited
  refine ⟨hkeeps.kind, ?_, ?_, ?_, ?_⟩
  · intro level hbody
    rw [hbody] at hlimited
    exact hlimited
  · intro callee operands hbody
    have hkind : o.kind = .invocation := by
      rw [← hkeeps.kind, kind, hbody]
      rfl
    obtain ⟨callee', hcalls⟩ := h.calls hkind
    obtain ⟨hgranted, hend⟩ := hcalls.askAll requests
    obtain ⟨-, rfl⟩ : callee = callee' ∧ operands = granted requests (o.askAll requests).1 := by
      simpa using hbody.symm.trans hend.body
    exact ⟨hend.length_le, rfl, hgranted⟩
  · intro f hbody
    rw [hbody] at hlimited
    obtain ⟨hfixed, hwidth⟩ := hlimited
    refine ⟨fun w hw => ⟨hwidth w hw, ?_⟩, fun hnone => ?_⟩
    · rw [BufferField.bitIndexed, hfixed, hw]
      exact beq_iff_eq
    · rw [BufferField.bitIndexed, hfixed, hnone]
  · intro i index a hr hname
    rw [afterFirst_succ o hr] at hname ⊢
    obtain ⟨seg, hseg, htextual⟩ := textual_of_offer hname
    exact ⟨seg, hseg, seg.length_eq, htextual.2.2, NameSeg.ne_root_of_textual htextual⟩

example : ((invocation ⟨1⟩ "_CRS").askAll (List.replicate 8 (.offer 0 .absent))).1 =
    List.replicate 7 true ++ [false] := by decide +kernel

/-- The index before the buffer, then again, a name, and at last a width where the name belongs. -/
def offersOutOfOrder : List Request :=
  [.offer 1 (.integer 9), .offer 0 (.text "BUF0"), .offer 1 (.integer 4), .offer 2 (.text "WRD"),
    .offer 2 (.integer 5)]

/-- A field of sixteen bits keeps its width and the name that it got. -/
theorem limits_of_offersOutOfOrder :
    (bufferField .createWordField ⟨1⟩).Constructed ∧
      ((bufferField .createWordField ⟨1⟩).askAll offersOutOfOrder).1 =
        [true, true, true, true, false] ∧
      ∃ f, ((bufferField .createWordField ⟨1⟩).askAll offersOutOfOrder).2.body = .bufferField f ∧
        f.index = .integer 4 ∧ f.width = .integer 16 ∧ f.bitIndexed = false ∧
        ∃ seg, ((bufferField .createWordField ⟨1⟩).afterFirst offersOutOfOrder 4).name = some seg ∧
          seg.text = "WRD_" ∧ seg ≠ .root := by
  have h : (bufferField .createWordField ⟨1⟩).Constructed := .bufferField _ _
  have hbody : ((bufferField .createWordField ⟨1⟩).askAll offersOutOfOrder).2.body =
      .bufferField
        { source := .text "BUF0"
          index := .integer 4
          width := .integer 16
          fixedWidth := some 16 } := by decide +kernel
  have hnew : ((bufferField .createWordField ⟨1⟩).afterFirst offersOutOfOrder 4).name ≠
      ((bufferField .createWordField ⟨1⟩).afterFirst offersOutOfOrder 3).name := by
    decide +kernel
  have htext : ∀ seg ∈ ((bufferField .createWordField ⟨1⟩).afterFirst offersOutOfOrder 4).name,
      seg.text = "WRD_" := by decide +kernel
  obtain ⟨-, -, -, hfields, hnames⟩ := limits_of_askAll h offersOutOfOrder
  obtain ⟨hwidth, hbits⟩ := (hfields _ hbody).1 16 rfl
  obtain ⟨seg, hseg, -, -, hroot⟩ := hnames 3 2 (.text "WRD") rfl hnew
  have hbytes := Bool.eq_false_iff.2 fun hb => absurd (hbits.1 hb) (by decide)
  exact ⟨h, by decide +kernel, _, hbody, rfl, hwidth, hbytes, seg, hseg, htext seg hseg, hroot⟩

end Object

end Acpi
