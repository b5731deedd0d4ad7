import Shorthand.Text

/-!
Protocol markers: a target that starts with ASCII letters and `://` is a URL.
-/

namespace Shorthand

/-- The length of the `scheme://` at the start of a target. -/
def schemeLength? (target : Text) : Option Nat :=
  let letters := target.takeWhile Char.isAlpha
  if letters ≠ [] ∧ [':', '/', '/'].isPrefixOf (target.drop letters.length) then
    some (letters.length + 3)
  else none

def hasProtocol (target : Text) : Bool :=
  (schemeLength? target).isSome

end Shorthand
