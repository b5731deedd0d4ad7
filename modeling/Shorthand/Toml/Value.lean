import Shorthand.Toml.Document
import Shorthand.Toml.Number

/-!
Readers of keys and values. Containers nest at most as deep as a reader's room allows.
-/

namespace Shorthand
namespace Toml

/-- Keys have fewer segments, and containers fewer levels, than this. -/
def depthLimit : Nat := 80

def isBareChar (c : Char) : Bool :=
  c.isAlphanum || c = '-' || c = '_'

namespace Reader

def bareKey : Reader Text := do
  let name ← takeWhile isBareChar
  guard (name ≠ [])
  return name

/-- One segment of a dotted key with the white space around it. -/
def segment : Reader Key := do
  let before ← spaces
  let (name, spelling) ← spelled (basic <|> literal <|> bareKey)
  let after ← spaces
  return { name, spelling, inner := ⟨some before, some after⟩ }

def segments : Nat → Reader (List Key)
  | 0 => failure
  | fuel + 1 => do
      let first ← segment
      match ← optional? (exactly ['.']) with
      | some _ => return first :: (← segments fuel)
      | none => return [first]

end Reader

/-- The white space at both ends of a dotted key is the decor of its last segment. -/
def decorateKey (outerBefore outerAfter : Option Text) : List Key → List Key
  | [] => []
  | [k] => [{ k with
      decor := ⟨outerBefore, outerAfter⟩
      inner := { k.inner with after := some [] } }]
  | k :: rest => k :: decorateKey outerBefore outerAfter rest

def decorateKeys (keys : List Key) : List Key :=
  match keys with
  | [] => []
  | first :: rest =>
      decorateKey first.inner.before (keys.getLast?.bind (·.inner.after))
        ({ first with inner := { first.inner with before := some [] } } :: rest)

namespace Reader

def dottedKey : Reader (List Key) := do
  let keys ← bounded segments
  guard (keys.length < depthLimit)
  return decorateKeys keys

end Reader

namespace Entries

/-- Goes down the dotted keys of an inline table and changes the entries it ends at. A table on
the way must have been made by dotted keys too. -/
def insertInline (key : Key) (item : Item) : (path : List Key) → (dotted : Bool) → Entries →
    Option Entries
  | [], _, es => if es.has key.name then none else some (es ++ [(key, item)])
  | k :: path, _, es =>
      match es.get? k.name with
      | none => do
          let inner ← insertInline key item path true []
          return es ++ [(k, .inline true [] inner {})]
      | some (.inline true opening inner decor) => do
          let inner ← insertInline key item path true inner
          return es.set k.name (.inline true opening inner decor)
      | some _ => none

def ofInlinePairs? (pairs : List (List Key × Key × Item)) : Option Entries :=
  pairs.foldlM (fun es (path, key, item) => insertInline key item path false es) []

end Entries

namespace Reader

/-- A key, `=` and a value. The last segment of the key is given apart. -/
def pair (value : Reader Item) : Reader (List Key × Key × Item) := do
  let keys ← dottedKey
  exactly ['=']
  let before ← spaces
  if (← peek).isNone then throw .unexplained
  let item ← value
  let after ← spaces
  match keys.getLast? with
  | some key => return (keys.dropLast, key, item.withDecor ⟨some before, some after⟩)
  | none => failure

/-- The elements of an array after its bracket; a comma may stand after the last. A comment or
line end that is none is explained after an element, but not before one. -/
def elements (value : Reader Item) : (comma : Bool) → Nat → Reader (List Item × Bool × Text)
  | _, 0 => failure
  | comma, fuel + 1 => do
      let before ← gap
      match ← peek with
      | none => failure
      | some '#' | some '\r' => throw .unexplained
      | some ']' =>
          exactly [']']
          return ([], comma, before)
      | some _ =>
          let item ← value
          let after ← gap
          let item := item.withDecor ⟨some before, some after⟩
          match ← peek with
          | some ',' =>
              exactly [',']
              let (rest, comma, closing) ← elements value true fuel
              return (item :: rest, comma, closing)
          | _ =>
              exactly [']']
              return ([item], false, [])

def array (value : Reader Item) : Reader Item := do
  exactly ['[']
  let (items, comma, closing) ← bounded (elements value false)
  return .array items comma closing {}

/-- The pairs of an inline table after its brace. -/
def pairs (value : Reader Item) : Nat → Reader (List (List Key × Key × Item))
  | 0 => failure
  | fuel + 1 => do
      let first ← pair value
      match ← optional? (exactly [',']) with
      | some _ => return first :: (← pairs value fuel)
      | none =>
          exactly ['}']
          return [first]

/-- The pairs of an inline table are all read before they are put together. -/
def inlineTable (value : Reader Item) : Reader Item := do
  exactly ['{']
  match ← optional? (spaces <* exactly ['}']) with
  | some blank => return .inline false blank [] {}
  | none =>
      let read ← bounded (pairs value)
      match Entries.ofInlinePairs? read with
      | some es => return .inline false [] es {}
      | none => failure

def boolean : Reader Bool :=
  (exactly "true" *> pure true) <|> (exactly "false" *> pure false)

def scalar : Reader Item := do
  let (value, spelling) ← spelled
    ((.text <$> string) <|> (.boolean <$> boolean) <|> (moment *> pure .moment) <|>
      (number *> pure .number))
  return .scalar value spelling {}

/-- A value in which at most `room` containers are nested. -/
def value : (room : Nat) → Reader Item
  | 0 => scalar
  | room + 1 => do
      match ← peek with
      | some '[' => array (value room)
      | some '{' => inlineTable (value room)
      | _ => scalar

end Reader
end Toml
end Shorthand
