/-!
Texts are lists of characters. The cuts, joins and replacements that the rest of the library
makes in them are here, each by recursion on the text.
-/

namespace Shorthand

abbrev Text := List Char

instance : Coe String Text := ⟨String.toList⟩

namespace Text

/-- The parts before and after the first `c`. -/
def splitFirst? (c : Char) : Text → Option (Text × Text)
  | [] => none
  | x :: rest =>
      if x = c then some ([], rest)
      else (splitFirst? c rest).map fun (before, after) => (x :: before, after)

/-- The parts before and after the last `c`. -/
def splitLast? (c : Char) : Text → Option (Text × Text)
  | [] => none
  | x :: rest =>
      match splitLast? c rest with
      | some (before, after) => some (x :: before, after)
      | none => if x = c then some ([], rest) else none

/-- The part after the last `c`, or all of it. -/
def afterLast (c : Char) (s : Text) : Text :=
  match splitLast? c s with
  | some (_, after) => after
  | none => s

def trimEnd (drop : Char → Bool) (s : Text) : Text :=
  (s.reverse.dropWhile drop).reverse

def trim (drop : Char → Bool) (s : Text) : Text :=
  trimEnd drop (s.dropWhile drop)

def joinWith (separator : Text) (parts : List Text) : Text :=
  List.intercalate separator parts

/-- Whether `part` occurs somewhere in the text. -/
def occurs (part : Text) : Text → Bool
  | [] => part.isEmpty
  | c :: rest => part.isPrefixOf (c :: rest) || occurs part rest

/-- `skip` characters belong to an occurrence already replaced. -/
def replaceFrom (old new : Text) : Nat → Text → Text
  | _, [] => []
  | skip + 1, _ :: rest => replaceFrom old new skip rest
  | 0, c :: rest =>
      if old.isPrefixOf (c :: rest) then new ++ replaceFrom old new (old.length - 1) rest
      else c :: replaceFrom old new 0 rest

/-- Every occurrence of a non-empty `old`, from the left and without overlap, becomes `new`. -/
def replaceAll (old new s : Text) : Text :=
  replaceFrom old new 0 s

/-- The lines of a text, each with the line feed that ends it. -/
def lines : Text → List Text
  | [] => []
  | c :: rest =>
      if c = '\n' then ['\n'] :: lines rest
      else match lines rest with
        | [] => [[c]]
        | line :: more => (c :: line) :: more

/-- A line without its line feed and without one carriage return before it. -/
def chomp (line : Text) : Text :=
  match List.isSuffixOf? ['\n'] line with
  | none => line
  | some body => (List.isSuffixOf? ['\r'] body).getD body

/-- The length in UTF-8. -/
def byteLength : Text → Nat
  | [] => 0
  | c :: rest => c.utf8Size + byteLength rest

def ofNat (n : Nat) : Text :=
  Nat.toDigits 10 n

end Text
end Shorthand
