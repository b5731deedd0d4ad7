import Shorthand.Toml.Reader

/-!
The four string forms of TOML, read to the text they stand for. A line end inside a string
stands for a line feed.
-/

namespace Shorthand
namespace Toml

def hexDigit? (c : Char) : Option Nat :=
  if c.isDigit then some (c.toNat - '0'.toNat)
  else if 'a' ≤ c ∧ c ≤ 'f' then some (c.toNat - 'a'.toNat + 10)
  else if 'A' ≤ c ∧ c ≤ 'F' then some (c.toNat - 'A'.toNat + 10)
  else none

def hexValue? (digits : Text) : Option Nat :=
  digits.foldlM (fun n c => (hexDigit? c).map (16 * n + ·)) 0

/-- The character with this number, if there is one. -/
def scalarValue? (n : Nat) : Option Char :=
  if n.isValidChar then some (Char.ofNat n) else none

def shortEscape? : Char → Option Char
  | 'b' => some '\x08'
  | 't' => some '\t'
  | 'n' => some '\n'
  | 'f' => some '\x0c'
  | 'r' => some '\r'
  | '"' => some '"'
  | '\\' => some '\\'
  | _ => none

/-- The character that an escape stands for, and the number of characters after its `\`. -/
def escape? : Text → Option (Char × Nat)
  | 'u' :: rest =>
      if rest.length < 4 then none
      else ((hexValue? (rest.take 4)).bind scalarValue?).map fun c => (c, 5)
  | 'U' :: rest =>
      if rest.length < 8 then none
      else ((hexValue? (rest.take 8)).bind scalarValue?).map fun c => (c, 9)
  | c :: _ => (shortEscape? c).map fun c => (c, 1)
  | [] => none

def consTo (c : Char) (r : Option (Text × Text)) : Option (Text × Text) :=
  r.map fun (value, rest) => (c :: value, rest)

/-- The rest of a one-line string with escapes; `skip` characters belong to an escape. -/
def basicTail : (skip : Nat) → Text → Option (Text × Text)
  | _, [] => none
  | skip + 1, _ :: rest => basicTail skip rest
  | 0, c :: rest =>
      if c = '"' then some ([], rest)
      else if c = '\\' then
        match escape? rest with
        | some (e, n) => consTo e (basicTail n rest)
        | none => none
      else if isPrintable c then consTo c (basicTail 0 rest)
      else none

def literalTail : Text → Option (Text × Text)
  | [] => none
  | c :: rest =>
      if c = '\'' then some ([], rest)
      else if isPrintable c then consTo c (literalTail rest)
      else none

/-- What follows three closing quotes: up to two more quotes belong to the string. -/
def closeQuotes (quote : Char) : Text → Text × Text
  | c₁ :: c₂ :: rest =>
      if c₁ = quote then (if c₂ = quote then ([quote, quote], rest) else ([quote], c₂ :: rest))
      else ([], c₁ :: c₂ :: rest)
  | [c] => if c = quote then ([quote], []) else ([], [c])
  | [] => ([], [])

/-- Whether a `\` stands at the end of its line. -/
def endsLine (s : Text) : Bool :=
  match s.dropWhile isSpace with
  | '\n' :: _ | '\r' :: '\n' :: _ => true
  | _ => false

/-- The rest of a string of several lines. With escapes, a `\` at the end of a line takes away
all white space up to the next text; `folding` says that it does so here. -/
def blockTail (quote : Char) (escapes : Bool) : (folding : Bool) → (skip : Nat) → Text →
    Option (Text × Text)
  | _, _, [] => none
  | folding, skip + 1, _ :: rest => blockTail quote escapes folding skip rest
  | folding, 0, c :: rest =>
      if c = '\n' then
        if folding then blockTail quote escapes true 0 rest
        else consTo '\n' (blockTail quote escapes false 0 rest)
      else if c = '\r' then
        if rest.head? = some '\n' then blockTail quote escapes folding 0 rest else none
      else if folding && isSpace c then blockTail quote escapes true 0 rest
      else if [quote, quote, quote].isPrefixOf (c :: rest) then
        some (closeQuotes quote (rest.drop 2))
      else if escapes && c = '\\' then
        if endsLine rest then blockTail quote escapes true 0 rest
        else match escape? rest with
          | some (e, n) => consTo e (blockTail quote escapes false n rest)
          | none => none
      else if isPrintable c then consTo c (blockTail quote escapes false 0 rest)
      else none

namespace Reader

/-- A line end right after the opening quotes does not belong to the string. -/
def block (quote : Char) (escapes : Bool) : Reader Text := do
  exactly [quote, quote, quote]
  discard <| optional? newline
  ofOption (blockTail quote escapes false 0)

def basic : Reader Text := do
  exactly ['"']
  ofOption (basicTail 0)

def literal : Reader Text := do
  exactly ['\'']
  ofOption literalTail

def string : Reader Text :=
  block '"' true <|> basic <|> block '\'' false <|> literal

end Reader
end Toml
end Shorthand
