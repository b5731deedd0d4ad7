import Shorthand.Error
import Shorthand.Namespace.Name
import Shorthand.Registry
import Shorthand.Wrapper

/-!
Namespace tables: the root directory of each namespace, the namespace that each wrapper family
stands for, and a root for targets without a namespace that no configuration sets.
-/

namespace Shorthand

structure NamespaceTable where
  roots : Registry := []
  brackets : Option Text := none
  parens : Option Text := none
  rootDefault : Option Text := none
  deriving DecidableEq, Repr

namespace NamespaceTable

def empty : NamespaceTable := {}

/-- The namespaces and wrappers that exist before any configuration. -/
def default : NamespaceTable where
  roots := [("blocks", "src/cavalion-blocks"), ("comps", "src/vcl-comps")]
  brackets := some "blocks"
  parens := some "comps"

def root? (t : NamespaceTable) (name : Text) : Option Text :=
  t.roots.get? name

def wrapperNamespace? (t : NamespaceTable) : Wrapper → Option Text
  | .brackets => t.brackets
  | .parens => t.parens

/-- Registers a namespace or gives a registered one another root. -/
def insert (t : NamespaceTable) (name root : Text) : Except Error NamespaceTable :=
  match Namespace.nameFault? name with
  | some reason => .error (.invalidNamespace name reason)
  | none => .ok { t with roots := t.roots.put name root }

/-- Points a wrapper family at a registered namespace. -/
def setWrapper (t : NamespaceTable) (w : Wrapper) (name : Text) : Except Error NamespaceTable :=
  if t.roots.has name then
    .ok (match w with
      | .brackets => { t with brackets := some name }
      | .parens => { t with parens := some name })
  else .error (.unknownNamespace name)

def withRootDefault (t : NamespaceTable) (root : Text) : NamespaceTable :=
  { t with rootDefault := some root }

/-- The registered namespace before the first colon, and the payload after it. -/
def splitPrefix? (t : NamespaceTable) (target : Text) : Option (Text × Text) :=
  match target.splitFirst? ':' with
  | some (name, payload) => if t.roots.has name then some (name, payload) else none
  | none => none

end NamespaceTable
end Shorthand
