import Shorthand.Path

/-!
What a link asks for and what it resolves to.
-/

namespace Shorthand

/-- The shape of the answer. An absolute location wins over a workspace-relative text. -/
structure Mode where
  absolute : Bool := false
  workspaceRelative : Bool := false
  deriving DecidableEq, Repr

namespace Mode

def location : Mode := { absolute := true }

def fromDocument : Mode := {}

def fromWorkspace : Mode := { workspaceRelative := true }

end Mode

structure Request where
  target : Text
  label : Text
  /-- The document that holds the link. -/
  source : Option Path
  mode : Mode := {}
  deriving DecidableEq, Repr

inductive Resolution where
  /-- A path relative to the anchor of the mode, or absolute if it is not under it. -/
  | display (text : Text)
  /-- A URL. -/
  | external (text : Text)
  | location (path : Path)
  /-- There was no document to start from. -/
  | unresolved
  deriving DecidableEq, Repr

namespace Resolution

def text : Resolution → Text
  | display t | external t => t
  | location p => p.text
  | unresolved => []

def kind : Resolution → Text
  | display _ => "display"
  | external _ => "external"
  | location _ => "location"
  | unresolved => "unresolved"

/-- The file that the link opens. -/
def tooltip (r : Resolution) : Text :=
  "Open: " ++ r.text.afterLast '/'

end Resolution
end Shorthand
