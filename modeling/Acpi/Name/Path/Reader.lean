import Acpi.Name.Path

namespace Acpi

/-- The anchor that starts a text, and what follows it. -/
def Anchor.split : List Char → Anchor × List Char
  | '\\' :: rest => (.root, rest)
  | cs =>
    match (cs.takeWhile (· == '^')).length with
    | 0 => (.relative, cs)
    | n + 1 => (.parent (n + 1), cs.dropWhile (· == '^'))

namespace Path

/-- The pieces between dots: one more than there are dots. -/
def pieces : List Char → List (List Char)
  | [] => [[]]
  | c :: rest =>
    if c = '.' then [] :: pieces rest
    else
      match pieces rest with
      | [] => [[c]]
      | piece :: others => (c :: piece) :: others

/-- Adds the pieces in turn; each is read before it is asked whether it still fits. -/
def extend (p : Path) : List (List Char) → Except NameError Path
  | [] => .ok p
  | piece :: others =>
    match NameSeg.ofChars piece with
    | .error e => .error e
    | .ok seg =>
      match p.push? seg with
      | none => .error .tooDeep
      | some q => q.extend others

def ofChars (cs : List Char) : Except NameError Path :=
  if cs = [] then .error .emptyPath
  else
    let (anchor, rest) := Anchor.split cs
    if rest = [] then .ok (ofAnchor anchor) else (ofAnchor anchor).extend (pieces rest)

def ofText (text : String) : Except NameError Path := ofChars text.toList

end Path

end Acpi
