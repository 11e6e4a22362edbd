namespace Acpi

/-- Why a written name is refused. -/
inductive NameError
  | emptyPath
  | emptySegment
  | invalidSegment
  | tooDeep
  deriving DecidableEq

def NameError.message : NameError → String
  | .emptyPath => "empty path expression"
  | .emptySegment => "empty name segment"
  | .invalidSegment => "invalid name segment"
  | .tooDeep => "path exceeds maximum depth"

structure NameSeg where
  bytes : List UInt8
  length_eq : bytes.length = 4
  deriving DecidableEq

namespace NameSeg

def ofFour (a b c d : UInt8) : NameSeg := ⟨[a, b, c, d], rfl⟩

/-- The name of the root scope. No written segment has it, since a backslash is no letter. -/
def root : NameSeg := ⟨[0x5C, 0, 0, 0], rfl⟩

def pad : UInt8 := 0x5F

def blank : NameSeg := ⟨[pad, pad, pad, pad], rfl⟩

/-- The first four bytes as they are. -/
def ofBytes? (bytes : List UInt8) : Option NameSeg :=
  if h : (bytes.take 4).length = 4 then some ⟨bytes.take 4, h⟩ else none

theorem ofBytes?_bytes (s : NameSeg) : ofBytes? s.bytes = some s := by
  have h : s.bytes.take 4 = s.bytes := List.take_of_length_le (Nat.le_of_eq s.length_eq)
  simp [ofBytes?, h, s.length_eq]

def isNameChar (c : Char) : Bool := c.isAlphanum || c == '_'

def ofChars (cs : List Char) : Except NameError NameSeg :=
  if cs = [] then .error .emptySegment
  else if h : cs.length ≤ 4 ∧ cs.all isNameChar then
    .ok ⟨cs.map Char.toUInt8 ++ List.replicate (4 - cs.length) pad, by simp; omega⟩
  else .error .invalidSegment

def ofText (text : String) : Except NameError NameSeg := ofChars text.toList

/-- The bytes before the first zero, read as UTF-8; nothing if they are not UTF-8. -/
def text (s : NameSeg) : String :=
  (String.fromUTF8? ⟨(s.bytes.takeWhile (· != 0)).toArray⟩).getD ""

def describe (s : NameSeg) : String := "NameSeg(\"" ++ s.text ++ "\")"

end NameSeg

end Acpi
