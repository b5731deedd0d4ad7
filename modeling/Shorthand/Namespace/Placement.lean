import Shorthand.Namespace.Table
import Shorthand.Options
import Shorthand.Scheme

/-!
Placement of a target: a payload goes under the root of its namespace unless it brings an anchor
of its own, and a target that names a directory is completed by the index file.
-/

namespace Shorthand

/-- Whether a payload starts with `./` or `/`. -/
def isAnchored (payload : Text) : Bool :=
  ['.', '/'].isPrefixOf payload || payload.head? = some '/'

def underRoot (root payload : Text) : Text :=
  let root := root.trimEnd (· == '/')
  if isAnchored payload ∨ root = [] then payload else root ++ '/' :: payload

namespace NamespaceTable

/-- The target under its namespace's root, or under the default root if there is no namespace. -/
def place (t : NamespaceTable) (target : Text) : Text :=
  match t.splitPrefix? target with
  | some (name, payload) => underRoot ((t.root? name).getD []) payload
  | none =>
      match t.rootDefault with
      | some root => underRoot root target
      | none => target

/-- A protocol link stays as it is; any other target is placed and completed. -/
def applyDefaults (t : NamespaceTable) (options : Options) (target : Text) : Text :=
  if hasProtocol target then target
  else
    let placed := t.place target
    if placed.getLast? = some '/' then placed ++ options.indexFile else placed

end NamespaceTable
end Shorthand
