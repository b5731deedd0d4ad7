import Shorthand.Toml.Document

/-!
Printing of documents. What was recorded when a document was read is printed as it was, except
that carriage returns around items are dropped. Tables are printed in the order of their headers
and a table made by dotted keys among the pairs of the table around it.
-/

namespace Shorthand
namespace Toml

def withoutReturns (s : Text) : Text :=
  s.filter (· ≠ '\r')

namespace Decor

/-- `body` between the decor's texts, or the given ones where nothing is recorded. -/
def around (d : Decor) (before after body : Text) : Text :=
  withoutReturns (d.before.getD before) ++ body ++ withoutReturns (d.after.getD after)

end Decor

/-- The segments of a dotted key with their dots, without the white space at either end. -/
def writeSegments : List Key → Text
  | [] => []
  | [k] => k.spelling
  | k :: next :: rest =>
      k.spelling ++ withoutReturns (k.inner.after.getD []) ++ ['.'] ++
        withoutReturns (next.inner.before.getD []) ++ writeSegments (next :: rest)

def writeKeys (keys : List Key) (before after : Text) : Text :=
  ((keys.getLast?.map Key.decor).getD {}).around before after (writeSegments keys)

/-- Joins the written entries of an inline table. Each is told whether it is the last. -/
def joinEntries : List (Bool → Text) → Text
  | [] => []
  | [entry] => entry true
  | entry :: rest => entry false ++ [','] ++ joinEntries rest

mutual

/-- A value with the white space that it gets where none is recorded. -/
def Item.write : Item → (before after : Text) → Text
  | .scalar _ spelling decor, before, after => decor.around before after spelling
  | .array elements comma closing decor, before, after =>
      decor.around before after
        (['['] ++ writeElements true elements ++ (if comma then [','] else []) ++
          withoutReturns closing ++ [']'])
  | .inline _ opening entries decor, before, after =>
      decor.around before after
        (['{'] ++ withoutReturns opening ++ joinEntries (inlineEntries [] entries) ++ ['}'])
  | .table _ _, _, _ => []
  | .tables _, _, _ => []

def writeElements : (first : Bool) → List Item → Text
  | _, [] => []
  | first, i :: rest =>
      (if first then i.write [] [] else ',' :: i.write [' '] []) ++ writeElements false rest

/-- The entries of an inline table, those of dotted keys with their whole path. -/
def inlineEntries (path : List Key) : List (Key × Item) → List (Bool → Text)
  | [] => []
  | (k, i) :: rest =>
      (match i with
        | .inline true _ inner _ => inlineEntries (path ++ [k]) inner
        | i => [fun last =>
            writeKeys (path ++ [k]) [' '] [' '] ++ ['='] ++
              i.write [' '] (if last then [' '] else [])]) ++
        inlineEntries path rest

end

mutual

/-- The lines of a table's pairs, those of dotted keys with their whole path. -/
def pairLines (path : List Key) : List (Key × Item) → List Text
  | [] => []
  | (k, i) :: rest => itemLines (path ++ [k]) i ++ pairLines path rest

def itemLines (path : List Key) : Item → List Text
  | .table head inner => if head.dotted then pairLines path inner else []
  | .tables _ => []
  | i => [writeKeys path [] [' '] ++ ['='] ++ i.write [' '] [] ++ ['\n']]

end

/-- A table with the path of its header. The root has an empty path. -/
structure Block where
  path : List Key
  isElement : Bool
  head : Head
  lines : List Text

/-- The block of a table, unless dotted keys made it. -/
def ownBlock (path : List Key) (isElement : Bool) (head : Head) (entries : List (Key × Item)) :
    List Block :=
  if head.dotted then [] else [⟨path, isElement, head, pairLines [] entries⟩]

mutual

/-- The blocks of the tables in a table, each before those of the tables in it. -/
def innerBlocks (path : List Key) : List (Key × Item) → List Block
  | [] => []
  | (k, i) :: rest => itemBlocks (path ++ [k]) i ++ innerBlocks path rest

def itemBlocks (path : List Key) : Item → List Block
  | .table head inner => ownBlock path false head inner ++ innerBlocks path inner
  | .tables elements => elementBlocks path elements
  | _ => []

def elementBlocks (path : List Key) : List (Head × List (Key × Item)) → List Block
  | [] => []
  | (head, inner) :: rest =>
      ownBlock path true head inner ++ innerBlocks path inner ++ elementBlocks path rest

end

/-- A table without a rank of its own is printed after the one before it. -/
def ranked : (last : Nat) → List Block → List (Nat × Block)
  | _, [] => []
  | last, b :: rest =>
      let rank := b.head.position.getD last
      (rank, b) :: ranked rank rest

/-- Puts a table before the first one whose rank is not lower. -/
def insertRanked (b : Nat × Block) : List (Nat × Block) → List (Nat × Block)
  | [] => [b]
  | c :: rest => if b.1 ≤ c.1 then b :: c :: rest else c :: insertRanked b rest

/-- The tables in the order of their ranks. Those of one rank stay as they were. -/
def sortRanked : List (Nat × Block) → List (Nat × Block)
  | [] => []
  | b :: rest => insertRanked b (sortRanked rest)

/-- The text of a table with its header. The header of a new table follows an empty line unless
nothing is printed before it. -/
def Block.write (first : Bool) (b : Block) : Text × Bool :=
  let pairs := b.lines.flatten
  let header (opener closer : Text) :=
    b.head.decor.around (if first then [] else ['\n']) []
      (opener ++ writeKeys b.path [] [] ++ closer) ++ ['\n']
  if b.path.isEmpty then (pairs, first && b.lines.isEmpty)
  else if b.isElement then (header ['[', '['] [']', ']'] ++ pairs, false)
  else if b.head.implicit && b.lines.isEmpty then (pairs, first)
  else (header ['['] [']'] ++ pairs, false)

def writeBlocks : (first : Bool) → List Block → Text
  | _, [] => []
  | first, b :: rest =>
      let (text, first) := b.write first
      text ++ writeBlocks first rest

def Document.write (d : Document) : Text :=
  let blocks := ownBlock [] false {} d.entries ++ innerBlocks [] d.entries
  writeBlocks true ((sortRanked (ranked 0 blocks)).map (·.2)) ++ withoutReturns d.trailing

end Toml
end Shorthand
