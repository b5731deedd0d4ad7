import Shorthand.Toml.Value

/-!
The statements of a document: pairs and table headers, each with the white space and comments
in front of it.
-/

namespace Shorthand
namespace Toml

inductive Statement where
  | pair (path : List Key) (key : Key) (item : Item)
  | header (path : List Key) (decor : Decor)
  | arrayHeader (path : List Key) (decor : Decor)

/-- The text in front of a statement belongs to its key. -/
def Key.prepend (before : Text) (k : Key) : Key :=
  { k with decor := { k.decor with before := some (before ++ k.decor.before.getD []) } }

/-- The line tail after a value belongs to the value. -/
def Item.extend (tail : Text) : Item → Item
  | .scalar v s d => .scalar v s { d with after := some (d.after.getD [] ++ tail) }
  | .array es c t d => .array es c t { d with after := some (d.after.getD [] ++ tail) }
  | .inline m o es d => .inline m o es { d with after := some (d.after.getD [] ++ tail) }
  | i => i

namespace Reader

/-- One piece of the text between statements. The last line may lack its line end. -/
def leadPiece : Reader Unit :=
  newline <|> (comment *> (newline <|> atEnd)) <|> do
    guard ((← spaces) ≠ [])

def leadPieces : Nat → Reader Unit
  | 0 => pure ()
  | fuel + 1 => do
      match ← optional? leadPiece with
      | some _ => leadPieces fuel
      | none => pure ()

def lead : Reader Text := do
  return (← spelled (bounded leadPieces)).2

def header (before : Text) : Reader Statement := do
  exactly ['[']
  let double := (← optional? (exactly ['['])).isSome
  let path ← dottedKey
  exactly (if double then [']', ']'] else [']'])
  let tail ← lineTail
  let decor : Decor := ⟨some before, some tail⟩
  return if double then .arrayHeader path decor else .header path decor

/-- A statement after the text in front of it. If that is followed by a comment or line end, it
is one that could not be read. -/
def statement (before : Text) : Reader Statement := do
  match ← peek with
  | some '[' => header before
  | some '#' | some '\r' => throw .unexplained
  | _ =>
      let (path, key, item) ← pair (value (depthLimit - 1))
      let tail ← lineTail
      return .pair path (key.prepend before) (item.extend tail)

end Reader

namespace Statement

/-- The statements up to the end or the first fault, and the text after the last of them or the
fault. -/
def read : Nat → Text → List Statement × Except Fault Text
  | 0, _ => ([], .error .unexpected)
  | fuel + 1, s =>
      match Reader.lead s with
      | .error fault => ([], .error fault)
      | .ok (before, []) => ([], .ok before)
      | .ok (before, s) =>
          match Reader.statement before s with
          | .error fault => ([], .error fault)
          | .ok (first, s) =>
              let (rest, outcome) := read fuel s
              (first :: rest, outcome)

/-- A byte order mark in front is no part of the document. -/
def readAll (content : Text) : List Statement × Except Fault Text :=
  let content := (List.isPrefixOf? ['\uFEFF'] content).getD content
  read (content.length + 1) content

end Statement
end Toml
end Shorthand
