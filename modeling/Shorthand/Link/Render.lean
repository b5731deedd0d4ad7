import Shorthand.Link
import Shorthand.Resolve

/-!
Rendering: every link target of a document becomes the site-rooted address that it resolves to,
and all other text stays as it is.
-/

namespace Shorthand

/-- With a `/` in front unless there is one. -/
def siteRooted (path : Text) : Text :=
  if path.head? = some '/' then path else '/' :: path

namespace Resolver

/-- The address of a link in a rendered page, if the link can be resolved. -/
def href? (r : Resolver) (source : Path) (l : Link) : Option Text :=
  match r.resolve { target := l.target, label := l.label, source, mode := .fromWorkspace } with
  | .display text => some (siteRooted text)
  | .location path => some (siteRooted path.text)
  | .external url => some url
  | .unresolved => none

def renderPiece (r : Resolver) (source : Path) : Piece → Text
  | .plain c => [c]
  | .link l => Link.written { l with target := (r.href? source l).getD l.target }

def render (r : Resolver) (source : Path) (content : Text) : Text :=
  content.lines.flatMap fun line => (Piece.ofLine line).flatMap (r.renderPiece source)

end Resolver
end Shorthand
