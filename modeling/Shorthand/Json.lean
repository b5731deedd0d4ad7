import Shorthand.Text

/-!
JSON values, printed over several lines with two spaces for each level.
-/

namespace Shorthand

inductive Json where
  | null
  | boolean (b : Bool)
  | number (n : Nat)
  | text (t : Text)
  | array (items : List Json)
  | object (fields : List (Text × Json))
  deriving Repr

namespace Json

def ofText? : Option Text → Json
  | some t => text t
  | none => null

def escapedChar (c : Char) : Text :=
  if c = '"' ∨ c = '\\' then ['\\', c]
  else if c = '\x08' then ['\\', 'b']
  else if c = '\t' then ['\\', 't']
  else if c = '\n' then ['\\', 'n']
  else if c = '\x0c' then ['\\', 'f']
  else if c = '\r' then ['\\', 'r']
  else if c < ' ' then
    let digits := Nat.toDigits 16 c.toNat
    ['\\', 'u'] ++ List.replicate (4 - digits.length) '0' ++ digits
  else [c]

def writeText (t : Text) : Text :=
  '"' :: (t.flatMap escapedChar ++ ['"'])

def indent (level : Nat) : Text :=
  '\n' :: List.replicate (2 * level) ' '

/-- The members of an array or object between its delimiters, each on a line of its own. -/
def enclose (opener closer : Char) (level : Nat) (members : List Text) : Text :=
  if members = [] then [opener, closer]
  else
    let own := indent (level + 1)
    opener :: (own ++ Text.joinWith (',' :: own) members ++ indent level ++ [closer])

mutual

def writeAt (level : Nat) : Json → Text
  | null => "null"
  | boolean true => "true"
  | boolean false => "false"
  | number n => Text.ofNat n
  | text t => writeText t
  | array items => enclose '[' ']' level (writeItems (level + 1) items)
  | object fields => enclose '\x7b' '\x7d' level (writeFields (level + 1) fields)

def writeItems (level : Nat) : List Json → List Text
  | [] => []
  | j :: rest => writeAt level j :: writeItems level rest

def writeFields (level : Nat) : List (Text × Json) → List Text
  | [] => []
  | (name, j) :: rest => (writeText name ++ ": " ++ writeAt level j) :: writeFields level rest

end

def write (j : Json) : Text :=
  writeAt 0 j

end Json
end Shorthand
