import Mathlib.Data.List.Basic
import Acpi.Object.Offer
import Acpi.Proofs.Name.Segment

namespace Acpi

/-- What a position takes. -/
inductive Slot
  | any
  /-- A string that writes a segment. It names the object. -/
  | name
  | string
  | bytes
  /-- An integer below `bound`. -/
  | below (bound : Nat)
  deriving DecidableEq

namespace Operand

/-- The segment that a string writes. -/
def segment? : Operand → Option NameSeg
  | .text s =>
    if h : NameSeg.Textual (utf8 s.toList) then
      some ⟨NameSeg.padded (utf8 s.toList), NameSeg.length_padded h⟩
    else none
  | _ => none

/-- The value that an integer stands for. -/
def number? {α : Type} (value : Nat → α) : Operand → Option α
  | .integer v => some (value v.toNat)
  | _ => none

def string? : Operand → Option String
  | .text s => some s
  | _ => none

def bytes? : Operand → Option (List UInt8)
  | .bytes data => some data
  | _ => none

end Operand

def Slot.takes : Slot → Operand → Bool
  | .any, _ => true
  | .name, a => a.segment?.isSome
  | .string, .text _ => true
  | .bytes, .bytes _ => true
  | .below bound, .integer v => v.toNat < bound
  | _, _ => false

/-- The positions of a kind in turn. At most one of them takes a name. -/
structure Signature where
  slots : List Slot
  /-- After them come any operands, without an end. -/
  endless : Bool := false
  name_once : slots.Pairwise fun s t => s = .name → t ≠ .name := by decide

namespace Signature

def slot? (sig : Signature) (index : Nat) : Option Slot :=
  sig.slots[index]?.or (if sig.endless then some .any else none)

/-- Each operand is one that its position takes. -/
def Matches (sig : Signature) (operands : List Operand) : Prop :=
  ∀ p ∈ operands.zipIdx, ∃ slot ∈ sig.slot? p.2, slot.takes p.1 = true

instance (sig : Signature) (operands : List Operand) : Decidable (sig.Matches operands) :=
  inferInstanceAs (Decidable (∀ p ∈ operands.zipIdx, _))

/-- The segment at the position that takes a name. -/
def nameIn? (sig : Signature) (operands : List Operand) : Option NameSeg :=
  (sig.slots.idxOf? .name).bind fun i => operands[i]?.bind Operand.segment?

end Signature

namespace Body

def signature : Body → Signature
  | .generic _ => { slots := [], endless := true }
  | .namedGeneric _ => { slots := [.name], endless := true }
  | .constant _ | .scope | .device | .thermalZone => { slots := [.any] }
  | .processor _ => { slots := [.below 0x100, .below 0x100000000, .below 0x100] }
  | .powerResource _ => { slots := [.below 0x100, .below 0x10000] }
  | .method _ => { slots := [.any, .below 0x100] }
  | .buffer _ => { slots := [.any, .bytes] }
  | .bufferField f =>
    match f.fixedWidth with
    | some _ => { slots := [.any, .any, .name] }
    | none => { slots := [.any, .any, .any, .name] }
  | .region _ => { slots := [.name, .below 0x100, .any, .any] }
  | .mutex _ => { slots := [.name, .below 16] }
  | .event => { slots := [.name] }
  | .field _ => { slots := [.string, .below 0x100] }
  | .indexField _ => { slots := [.string, .string, .below 0x100] }
  | .bankField _ => { slots := [.string, .string, .any, .below 0x100] }
  | .fieldUnit _ | .reference _ => { slots := [] }
  | .invocation _ _ => { slots := List.replicate 7 .any }

end Body

namespace AddressSpace

/-- The spaces in the order of their codes. -/
def inOrder : List AddressSpace :=
  [.systemMemory, .systemIo, .pciConfig, .embeddedControl, .smBus, .systemCmos, .pciBarTarget, .ipmi,
    .generalPurposeIo, .genericSerialBus, .platformChannel]

/-- A code past the last of them stands for itself. -/
def numbered (code : Nat) : AddressSpace := inOrder[code]?.getD (.other (.ofNat code))

end AddressSpace

/-- The operand at a position as a value, or the old value where there is no such operand. -/
def valueAt {α : Type} (operands : List Operand) (index : Nat) (read : Operand → Option α)
    (old : α) : α :=
  (operands[index]?.bind read).getD old

/-- The body that operands come to which match its signature. -/
def Body.filled (operands : List Operand) : Body → Body
  | .generic _ => .generic operands
  | .namedGeneric _ => .namedGeneric operands.tail
  | .constant value => .constant (valueAt operands 0 some value)
  | .processor p => .processor
      { id := valueAt operands 0 (Operand.number? .ofNat) p.id
        blockAddress := valueAt operands 1 (Operand.number? .ofNat) p.blockAddress
        blockLength := valueAt operands 2 (Operand.number? .ofNat) p.blockLength }
  | .powerResource p => .powerResource
      { systemLevel := valueAt operands 0 (Operand.number? .ofNat) p.systemLevel
        order := valueAt operands 1 (Operand.number? .ofNat) p.order }
  | .method flags => .method
      { bits := valueAt operands 1 (Operand.number? .ofNat) flags.bits }
  | .buffer b => .buffer
      { size := valueAt operands 0 some b.size
        data := valueAt operands 1 Operand.bytes? b.data }
  | .bufferField f => .bufferField
      { source := valueAt operands 0 some f.source
        index := valueAt operands 1 some f.index
        width := match f.fixedWidth with
          | some _ => f.width
          | none => valueAt operands 2 some f.width
        fixedWidth := f.fixedWidth }
  | .region r => .region
      { space := valueAt operands 1 (Operand.number? .numbered) r.space
        offset := valueAt operands 2 some r.offset
        length := valueAt operands 3 some r.length }
  | .mutex level => .mutex (valueAt operands 1 (Operand.number? .ofNat) level)
  | .field f => .field
      { region := { f.region with name := valueAt operands 0 Operand.string? f.region.name }
        flags.bits := valueAt operands 1 (Operand.number? .ofNat) f.flags.bits }
  | .indexField f => .indexField
      { indexRegister :=
          { f.indexRegister with name := valueAt operands 0 Operand.string? f.indexRegister.name }
        dataRegister :=
          { f.dataRegister with name := valueAt operands 1 Operand.string? f.dataRegister.name }
        flags.bits := valueAt operands 2 (Operand.number? .ofNat) f.flags.bits }
  | .bankField f => .bankField
      { region := { f.region with name := valueAt operands 0 Operand.string? f.region.name }
        bankRegister :=
          { f.bankRegister with name := valueAt operands 1 Operand.string? f.bankRegister.name }
        bankValue := valueAt operands 2 some f.bankValue
        flags.bits := valueAt operands 3 (Operand.number? .ofNat) f.flags.bits }
  | .invocation callee _ => .invocation callee operands
  | .scope => .scope
  | .device => .device
  | .thermalZone => .thermalZone
  | .event => .event
  | .fieldUnit u => .fieldUnit u
  | .reference target => .reference target

/-- The object that operands come to which match its signature. A name that it has stays. -/
def Object.filled (o : Object) (operands : List Operand) : Object :=
  { o with
    name := o.name.or (o.body.signature.nameIn? operands)
    body := o.body.filled operands }

variable {sig : Signature} {slot : Slot} {operands : List Operand} {a : Operand} {b : Body}
  {index : Nat}

namespace Signature

theorem Matches.take (h : sig.Matches operands) (n : Nat) : sig.Matches (operands.take n) := by
  rw [← List.take_append_drop n operands, Matches, List.zipIdx_append] at h
  exact fun p hp => h p (List.mem_append_left _ hp)

theorem Matches.length_le (h : sig.Matches operands) (hend : sig.endless = false) :
    operands.length ≤ sig.slots.length := by
  by_contra hlong
  have hlt : sig.slots.length < operands.length := by omega
  obtain ⟨slot, hslot, -⟩ := h (operands[sig.slots.length], sig.slots.length)
    (List.mk_mem_zipIdx_iff_getElem?.2 (List.getElem?_eq_getElem hlt))
  simp [slot?, hend] at hslot

end Signature

namespace Operand

/-- What is written as a segment is read as that segment. -/
theorem segment?_text (s : String) : segment? (.text s) = (NameSeg.ofText s).toOption := by
  rw [segment?, NameSeg.ofText]
  split
  next h =>
    obtain ⟨seg, hread⟩ := NameSeg.exists_ofChars h
    have hbytes := (NameSeg.ofChars_eq_ok_iff.1 hread).2
    rw [hread]
    exact congrArg some (NameSeg.bytes_inj.1 hbytes.symm)
  next h =>
    cases hread : NameSeg.ofChars s.toList with
    | ok seg => exact absurd (NameSeg.ofChars_eq_ok_iff.1 hread).1 h
    | error e => rfl

end Operand

namespace Response

theorem ofName_eq (a : Operand) :
    ofName a = match a.segment? with
      | some seg => .names seg
      | none => .refused := by
  cases a with
  | text s =>
    rw [ofName, Operand.segment?_text]
    cases NameSeg.ofText s <;> rfl
  | _ => rfl

end Response

/-- What a position answers, where the body to come is `next`. -/
def Slot.response (slot : Slot) (a : Operand) (next : Body) : Response :=
  match slot with
  | .name => .ofName a
  | slot => if slot.takes a then .fills next else .refused

def Signature.response (sig : Signature) (index : Nat) (a : Operand) (next : Body) : Response :=
  match sig.slot? index with
  | some slot => slot.response a next
  | none => .refused

end Acpi
