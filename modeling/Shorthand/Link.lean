import Shorthand.Text.Blank

/-!
Inline links `[label](target)` and the recognition of them in a line. A label is a non-empty run
without `]`. A target has no white space, and its parentheses come in pairs that do not nest,
so at each place there is at most one link.
-/

namespace Shorthand

structure Link where
  label : Text
  target : Text
  deriving DecidableEq, Repr

namespace Link

/-- The link as it stands in a document. -/
def written (l : Link) : Text :=
  '[' :: (l.label ++ [']', '('] ++ l.target ++ [')'])

/-- The target before the `)` that closes the link, read inside or outside a parenthesis. -/
def target? : (inside : Bool) → Text → Option Text
  | _, [] => none
  | false, c :: rest =>
      if c = ')' then some []
      else if c = '(' then (target? true rest).map (c :: ·)
      else if Text.isBlank c then none
      else (target? false rest).map (c :: ·)
  | true, c :: rest =>
      if c = ')' then (target? false rest).map (c :: ·)
      else if c = '(' || Text.isBlank c then none
      else (target? true rest).map (c :: ·)

/-- The link at the start of a text. -/
def atStart? : Text → Option Link
  | [] => none
  | c :: rest =>
      let label := rest.takeWhile (· ≠ ']')
      if c ≠ '[' ∨ label = [] then none
      else match List.isPrefixOf? [']', '('] (rest.drop label.length) with
        | none => none
        | some after => (target? false after).map fun target => ⟨label, target⟩

end Link

/-- A part of a line: a link, or a character outside all links. -/
inductive Piece where
  | plain (c : Char)
  | link (l : Link)
  deriving DecidableEq, Repr

namespace Piece

def written : Piece → Text
  | plain c => [c]
  | link l => l.written

/-- The first `skip` characters belong to a link already found. -/
def ofLineFrom : (skip : Nat) → Text → List Piece
  | _, [] => []
  | skip + 1, _ :: rest => ofLineFrom skip rest
  | 0, c :: rest =>
      match Link.atStart? (c :: rest) with
      | some l => link l :: ofLineFrom (l.written.length - 1) rest
      | none => plain c :: ofLineFrom 0 rest

/-- The pieces of a line. Links are found from the left and do not overlap. -/
def ofLine (line : Text) : List Piece :=
  ofLineFrom 0 line

end Piece
end Shorthand
