import Shorthand.Text

/-!
Paths as written. A path keeps its exact text; its components are a view that drops repeated
separators and inner `.` segments. Nothing here looks at a file system.
-/

namespace Shorthand

structure Path where
  text : Text
  deriving DecidableEq, Repr, Inhabited

inductive Component where
  | root
  | current
  | parent
  | name (text : Text)
  deriving DecidableEq, Repr

namespace Component

def text : Component → Text
  | .root => ['/']
  | .current => ['.']
  | .parent => ['.', '.']
  | .name n => n

/-- Empty segments and `.` stand for nothing. -/
def ofSegment? (segment : Text) : Option Component :=
  if segment = [] ∨ segment = ['.'] then none
  else if segment = ['.', '.'] then some .parent
  else some (.name segment)

end Component

namespace Path

def isAbsolute (p : Path) : Bool :=
  p.text.head? = some '/'

/-- The component that opens the path, if it is the root or a `.`, and the segments after it. -/
def opening (p : Path) : Option Component × List Text :=
  match p.text with
  | '/' :: rest => (some .root, rest.splitOn '/')
  | text =>
      match text.splitOn '/' with
      | ['.'] :: segments => (some .current, segments)
      | segments => (none, segments)

/-- The path with a given opening, written with its segments as they are. -/
def ofOpening : Option Component → List Text → Path
  | some .root, segments => ⟨'/' :: Text.joinWith ['/'] segments⟩
  | some c, segments => ⟨Text.joinWith ['/'] (c.text :: segments)⟩
  | none, segments => ⟨Text.joinWith ['/'] segments⟩

def components (p : Path) : List Component :=
  let (first, segments) := p.opening
  first.toList ++ segments.filterMap Component.ofSegment?

/-- The path with exactly these components, the root only in front. -/
def ofComponents : List Component → Path
  | .root :: rest => ⟨'/' :: Text.joinWith ['/'] (rest.map Component.text)⟩
  | rest => ⟨Text.joinWith ['/'] (rest.map Component.text)⟩

/-- Segments that stand for nothing are dropped at the end. -/
def trimSegments (segments : List Text) : List Text :=
  (segments.reverse.dropWhile fun s => (Component.ofSegment? s).isNone).reverse

/-- The path without its last component; empty if there is none to drop. -/
def directory (p : Path) : Path :=
  let (first, segments) := p.opening
  match trimSegments segments with
  | [] => ⟨[]⟩
  | kept => ofOpening first (trimSegments kept.dropLast)

/-- `rest` after the separator that `base` needs. An absolute `rest` replaces the base. -/
def join (base : Path) (rest : Text) : Path :=
  if rest.head? = some '/' then ⟨rest⟩
  else if base.text = [] ∨ base.text.getLast? = some '/' then ⟨base.text ++ rest⟩
  else ⟨base.text ++ '/' :: rest⟩

/-- Whether `base` is a prefix, component by component. -/
def isUnder (p base : Path) : Bool :=
  base.components.isPrefixOf p.components

end Path
end Shorthand
