import Shorthand.Namespace.Placement
import Shorthand.Path.Relative
import Shorthand.Placeholder
import Shorthand.Resolution
import Shorthand.Text.Blank
import Shorthand.Workspace

/-!
Resolution of a link: its target is expanded, takes in the label, is placed under its namespace,
joined onto a base directory and written in the shape that was asked for. A link without a
target names the file that its label spells.
-/

namespace Shorthand

structure Resolver where
  table : NamespaceTable
  options : Options
  workspaces : Workspaces
  deriving DecidableEq, Repr

namespace Path

/-- The normal form of a document's directory. -/
def sourceDirectory (document : Path) : Path :=
  document.directory.normalize

end Path

/-- The file that a label spells beside the document, or the index file of that directory. -/
def labelTarget (options : Options) (label : Text) (source : Path) : Path :=
  let name := label.trimmed
  let location := source.sourceDirectory.joinTarget name
  if name.getLast? = some '/' then location.join options.indexFile else location

namespace Workspaces

/-- Rooted targets start at the workspace of the document, all others at its directory. -/
def baseDirectory (w : Workspaces) (target : Text) (source : Path) : Path :=
  if target.head? = some '/' then (w.rootOf? source).getD source.sourceDirectory
  else source.sourceDirectory

/-- A location in the shape that the mode asks for. -/
def present (w : Workspaces) (mode : Mode) (source location : Path) : Resolution :=
  if mode.absolute then .location location
  else
    let anchor := if mode.workspaceRelative then w.rootOf? source else some source.sourceDirectory
    .display ((anchor.bind location.relativeTo?).getD location.text)

end Workspaces

namespace Resolver

/-- Where a canonical target lies. -/
def locate (r : Resolver) (canonical : Text) (source : Path) : Path :=
  let placed := r.table.applyDefaults r.options canonical
  (r.workspaces.baseDirectory placed source).joinTarget placed

def resolve (r : Resolver) (q : Request) : Resolution :=
  let target := q.target.trimmed
  if target = [] then
    match q.source with
    | none => .unresolved
    | some source => r.workspaces.present q.mode source (labelTarget r.options q.label source)
  else
    let canonical := r.table.expandTarget r.options target q.label
    if hasProtocol canonical then .external canonical
    else match q.source with
      | none => .unresolved
      | some source => r.workspaces.present q.mode source (r.locate canonical source)

end Resolver
end Shorthand
