namespace Acpi

def ObjectId.last : Nat := 0xFFFFFFFF

/-- A position in the arena of all objects, in 32 bits. -/
@[ext] structure ObjectId where
  index : Nat
  index_le : index ≤ ObjectId.last
  deriving DecidableEq

namespace ObjectId

/-- Every position past the last id is given the last id. -/
def ofIndex (n : Nat) : ObjectId := ⟨min n last, Nat.min_le_right n last⟩

theorem index_ofIndex {n : Nat} (h : n ≤ last) : (ofIndex n).index = n := Nat.min_eq_left h

@[simp] theorem ofIndex_index (id : ObjectId) : ofIndex id.index = id :=
  ObjectId.ext (index_ofIndex id.index_le)

/-- The root scope is the first object of every arena. -/
def root : ObjectId := ⟨0, Nat.zero_le _⟩

@[simp] theorem index_root : root.index = 0 := rfl

def text (id : ObjectId) : String := s!"#{id.index}"

end ObjectId

/-- The number of the table an object was read from. -/
structure TableId where
  number : UInt8
  deriving DecidableEq

namespace TableId

/-- Set aside for the root scope, which no table declares. -/
def root : TableId := ⟨0⟩

def text (t : TableId) : String := s!"{t.number.toNat}"

end TableId

end Acpi
