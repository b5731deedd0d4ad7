import Shorthand.Link
import Shorthand.Resolution

/-!
Occurrences: the links of a document in reading order, each with its line and column. Columns
count bytes of UTF-8. Both numbers start at one and stop at the largest 32-bit number.
-/

namespace Shorthand

def lastPosition : Nat := 4294967295

/-- The position after `n` others. -/
def position (n : Nat) : Nat :=
  min (n + 1) lastPosition

structure Occurrence where
  link : Link
  source : Path
  line : Nat
  column : Nat
  deriving DecidableEq, Repr

namespace Piece

/-- The links among pieces that start at byte `offset`, each with the offset of its bracket. -/
def linksFrom : (offset : Nat) → List Piece → List (Nat × Link)
  | _, [] => []
  | offset, plain c :: rest => linksFrom (offset + c.utf8Size) rest
  | offset, link l :: rest => (offset, l) :: linksFrom (offset + l.written.byteLength) rest

end Piece

namespace Occurrence

def request (o : Occurrence) (mode : Mode) : Request where
  target := o.link.target
  label := o.link.label
  source := some o.source
  mode := mode

def ofLine (source : Path) (number : Nat) (line : Text) : List Occurrence :=
  (Piece.linksFrom 0 (Piece.ofLine line.chomp)).map fun (offset, link) =>
    { link, source, line := position number, column := position offset }

def ofDocument (source : Path) (content : Text) : List Occurrence :=
  content.lines.zipIdx.flatMap fun (line, number) => ofLine source number line

end Occurrence
end Shorthand
