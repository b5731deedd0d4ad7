import Shorthand.Text

/-!
TOML documents that remember how they were written: white space, comments, quoting and the order
and style of tables. A document that is edited and printed differs only where it was edited.
-/

namespace Shorthand
namespace Toml

/-- What is written before and after an item. Where nothing is recorded the place decides. -/
structure Decor where
  before : Option Text := none
  after : Option Text := none
  deriving DecidableEq, Repr

/-- A segment of a dotted key. The decor of the whole key belongs to its last segment. -/
structure Key where
  name : Text
  /-- The segment as spelled, bare or quoted. -/
  spelling : Text
  decor : Decor := {}
  /-- White space at the dots. -/
  inner : Decor := {}
  deriving DecidableEq, Repr

/-- A key with a name that needs no quotes. -/
def Key.bare (name : Text) : Key :=
  { name, spelling := name }

/-- How a table that is not a value came to be. -/
structure Head where
  decor : Decor := {}
  /-- The rank of its header among all headers. -/
  position : Option Nat := none
  /-- It has no header of its own. -/
  implicit : Bool := false
  /-- It was made by a dotted key. -/
  dotted : Bool := false
  deriving DecidableEq, Repr

/-- Numbers, dates and times are kept as written and not looked into. -/
inductive Scalar where
  | text (value : Text)
  | boolean (value : Bool)
  | number
  /-- A date, a time or both. -/
  | moment
  deriving DecidableEq, Repr

inductive Item where
  | scalar (value : Scalar) (spelling : Text) (decor : Decor)
  | array (elements : List Item) (trailingComma : Bool) (closing : Text) (decor : Decor)
  | inline (dotted : Bool) (opening : Text) (entries : List (Key × Item)) (decor : Decor)
  | table (head : Head) (entries : List (Key × Item))
  | tables (elements : List (Head × List (Key × Item)))
  deriving Repr

abbrev Entries := List (Key × Item)

structure Document where
  entries : Entries
  /-- What stands after the last line that defines something. -/
  trailing : Text

namespace Item

def withDecor (decor : Decor) : Item → Item
  | scalar value spelling _ => scalar value spelling decor
  | array elements comma closing _ => array elements comma closing decor
  | inline dotted opening entries _ => inline dotted opening entries decor
  | i => i

def text? : Item → Option Text
  | scalar (.text value) _ _ => some value
  | _ => none

def boolean? : Item → Option Bool
  | scalar (.boolean value) _ _ => some value
  | _ => none

def texts? : Item → Option (List Text)
  | array elements _ _ _ => elements.mapM text?
  | _ => none

end Item

namespace Entries

def get? (name : Text) : Entries → Option Item
  | [] => none
  | (k, i) :: rest => if k.name = name then some i else get? name rest

def has (name : Text) (es : Entries) : Bool :=
  (get? name es).isSome

/-- Gives an existing key another item. -/
def set (name : Text) (item : Item) (es : Entries) : Entries :=
  es.map fun (k, i) => if k.name = name then (k, item) else (k, i)

def erase (name : Text) (es : Entries) : Entries :=
  es.filter fun (k, _) => k.name ≠ name

/-- The entries of an item that is a table, whether written as a value or not. -/
def of? : Item → Option Entries
  | .inline _ _ es _ => some es
  | .table _ es => some es
  | _ => none

end Entries
end Toml
end Shorthand
