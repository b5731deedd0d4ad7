import Shorthand.Text

/-!
Why a text is not a TOML document. A fault without an explanation leaves the line empty on which
others are explained.
-/

namespace Shorthand
namespace Toml

inductive Fault where
  /-- Something else is expected, or the same thing is defined twice. -/
  | unexpected
  /-- A stray carriage return, a control character in a comment, or an end of the text where a
  value should be. Nothing is said about what is expected there. -/
  | unexplained
  deriving DecidableEq, Repr

namespace Fault

def summary : Text := "the text is not a TOML document"

def message : Fault → Text
  | unexpected => summary
  | unexplained => summary ++ "\n"

end Fault
end Toml
end Shorthand
