import Shorthand.Text

/-!
The two delimiter pairs that select a namespace by the shape of a target: `[X]` and `(X)`.
-/

namespace Shorthand

inductive Wrapper where
  | brackets
  | parens
  deriving DecidableEq, Repr

namespace Wrapper

/-- Both families, in the order in which rules try them. -/
def all : List Wrapper := [.brackets, .parens]

def opener : Wrapper → Char
  | .brackets => '['
  | .parens => '('

def closer : Wrapper → Char
  | .brackets => ']'
  | .parens => ')'

/-- The name of the family in a configuration. -/
def key : Wrapper → Text
  | .brackets => "brackets"
  | .parens => "parens"

def ofKey? (key : Text) : Option Wrapper :=
  all.find? fun w => w.key = key

def wrap (w : Wrapper) (payload : Text) : Text :=
  w.opener :: (payload ++ [w.closer])

/-- The text between the delimiters. A lone opener does not close itself. -/
def payload? (w : Wrapper) : Text → Option Text
  | [] => none
  | c :: rest => if c = w.opener then List.isSuffixOf? [w.closer] rest else none

end Wrapper
end Shorthand
