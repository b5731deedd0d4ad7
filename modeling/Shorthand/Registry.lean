import Shorthand.Text

/-!
Registries: texts kept under names, each name once, listed in the order of the names by code
point.
-/

namespace Shorthand

/-- The order of two texts by code point. -/
def Text.before (a b : Text) : Bool :=
  List.lex a b (· < ·)

abbrev Registry := List (Text × Text)

namespace Registry

def get? (name : Text) : Registry → Option Text
  | [] => none
  | (n, value) :: rest => if n = name then some value else get? name rest

def put (name value : Text) : Registry → Registry
  | [] => [(name, value)]
  | (n, old) :: rest =>
      if n = name then (name, value) :: rest
      else if name.before n then (name, value) :: (n, old) :: rest
      else (n, old) :: put name value rest

def has (name : Text) (r : Registry) : Bool :=
  (r.get? name).isSome

end Registry
end Shorthand
