import Acpi.Name.Path

namespace Acpi

def Anchor.chars : Anchor → List Char
  | .relative => []
  | .root => ['\\']
  | .parent n => List.replicate n '^'

namespace Path

def chars (p : Path) : List Char :=
  p.anchor.chars ++ List.intercalate ['.'] (p.segments.map fun s => s.text.toList)

def text (p : Path) : String := String.ofList p.chars

def describe (p : Path) : String := s!"AmlPath({p.text})"

end Path

end Acpi
