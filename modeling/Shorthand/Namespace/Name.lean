import Shorthand.Text

/-!
Names of namespaces: non-empty, of ASCII letters, digits, `-` and `_`.
-/

namespace Shorthand
namespace Namespace

def isNameChar (c : Char) : Bool :=
  c.isAlphanum || c = '-' || c = '_'

/-- Why a text cannot be a name, if it cannot. -/
def nameFault? (name : Text) : Option Text :=
  if name = [] then some "name is empty"
  else (name.find? fun c => !isNameChar c).map fun c =>
    "character `" ++ ([c] : Text) ++ "` is not allowed"

/-- The names that exist without being configured. -/
def builtins : List Text := ["blocks", "comps"]

def isBuiltin (name : Text) : Bool :=
  builtins.contains name

end Namespace
end Shorthand
