import Shorthand.Toml.Fault

/-!
Readers take a value off the front of a text or end with a fault. Of two alternatives that both
fail, the second gives the fault. A reader that repeats is bounded by the length of the text that
is left.
-/

namespace Shorthand
namespace Toml

instance : Alternative (Except Fault) where
  failure := .error .unexpected
  orElse
    | .ok a, _ => .ok a
    | .error _, next => next ()

abbrev Reader := StateT Text (Except Fault)

namespace Reader

/-- Takes off what a function finds at the front. -/
def ofOption (f : Text → Option (α × Text)) : Reader α := fun s =>
  match f s with
  | some found => .ok found
  | none => .error .unexpected

def peek : Reader (Option Char) := fun s => .ok (s.head?, s)

def exactly (t : Text) : Reader Unit :=
  ofOption fun s => (List.isPrefixOf? t s).map fun rest => ((), rest)

def takeWhile (p : Char → Bool) : Reader Text := fun s =>
  .ok (s.takeWhile p, s.dropWhile p)

def optional? (r : Reader α) : Reader (Option α) := fun s =>
  match r s with
  | .ok (a, rest) => .ok (some a, rest)
  | .error _ => .ok (none, s)

/-- The value together with the text it was read from. -/
def spelled (r : Reader α) : Reader (α × Text) := fun s =>
  (r s).map fun (a, rest) => ((a, s.take (s.length - rest.length)), rest)

/-- Runs a reader that counts its own repetitions with as many as there are characters left. -/
def bounded (r : Nat → Reader α) : Reader α := fun s =>
  r (s.length + 1) s

def atEnd : Reader Unit :=
  ofOption fun s => if s = [] then some ((), s) else none

end Reader

/-- Every character that needs no escape: all but control characters, and the tab. -/
def isPrintable (c : Char) : Bool :=
  c = '\t' || (' ' ≤ c && c ≠ '\x7f')

def isSpace (c : Char) : Bool :=
  c = ' ' || c = '\t'

namespace Reader

def spaces : Reader Text :=
  takeWhile isSpace

def newline : Reader Unit :=
  exactly ['\n'] <|> exactly ['\r', '\n']

def comment : Reader Unit := do
  exactly ['#']
  discard <| takeWhile isPrintable

/-- One piece of the white space that may stand between the elements of an array. -/
def gapPiece : Reader Unit :=
  newline <|> (comment *> newline) <|> do
    guard ((← spaces) ≠ [])

def gapPieces : Nat → Reader Unit
  | 0 => pure ()
  | fuel + 1 => do
      match ← optional? gapPiece with
      | some _ => gapPieces fuel
      | none => pure ()

/-- White space, comments and line ends. -/
def gap : Reader Text := do
  return (← spelled (bounded gapPieces)).2

/-- White space and a comment up to the end of the line, without the line end. -/
def lineTail : Reader Text := do
  let (_, tail) ← spelled (spaces *> optional? comment)
  newline <|> atEnd
  return tail

end Reader
end Toml
end Shorthand
