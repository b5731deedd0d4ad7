import Shorthand.Text

/-!
The spelling of a text as a TOML string: the plainest form that needs no escapes, or else one
with escapes, over several lines if the text has a line feed.
-/

namespace Shorthand
namespace Toml

/-- Control characters other than the tab and the line feed. -/
def needsCode (c : Char) : Bool :=
  (c < ' ' && c ≠ '\t' && c ≠ '\n') || c = '\x7f'

/-- The longest run of `c`, given the length of the run that ends here. -/
def longestRun (c : Char) : (current : Nat) → Text → Nat
  | current, [] => current
  | current, x :: rest =>
      if x = c then longestRun c (current + 1) rest
      else max current (longestRun c 0 rest)

def codeEscape (c : Char) : Text :=
  let digits := (Nat.toDigits 16 c.toNat).map Char.toUpper
  '\\' :: 'u' :: (List.replicate (4 - digits.length) '0' ++ digits)

/-- With escapes. Up to `quotes` quotes in a row are left as they are, and line feeds if the
string may have several lines; `run` counts the quotes just before. -/
def escaped (block : Bool) (quotes : Nat) : (run : Nat) → Text → Text
  | _, [] => []
  | run, c :: rest =>
      if c = '"' then
        if run < quotes then '"' :: escaped block quotes (run + 1) rest
        else '\\' :: '"' :: escaped block quotes 0 rest
      else
        let shown : Text :=
          if c = '\x08' then ['\\', 'b']
          else if c = '\t' then ['\\', 't']
          else if c = '\n' then (if block then ['\n'] else ['\\', 'n'])
          else if c = '\x0c' then ['\\', 'f']
          else if c = '\r' then ['\\', 'r']
          else if c = '\\' then ['\\', '\\']
          else if needsCode c then codeEscape c
          else [c]
        shown ++ escaped block quotes 0 rest

def basicSpelling (value : Text) : Text :=
  '"' :: (escaped false 0 0 value ++ ['"'])

/-- The line feed after the opening quotes is there only if the text has one itself. -/
def blockStart (quote : Char) (value : Text) : Text :=
  [quote, quote, quote] ++ if value.contains '\n' then ['\n'] else []

def blockSpelling (value : Text) : Text :=
  blockStart '"' value ++ escaped true 2 0 value ++ ['"', '"', '"']

def stringSpelling (value : Text) : Text :=
  let coded := value.any needsCode
  let feeds := value.contains '\n'
  let slashes := value.contains '\\'
  let doubles := longestRun '"' 0 value
  let singles := longestRun '\'' 0 value
  if !coded && !slashes && doubles = 0 && !feeds then basicSpelling value
  else if !coded && singles = 0 && !feeds then '\'' :: (value ++ ['\''])
  else if !coded && !slashes && doubles ≤ 2 then blockSpelling value
  else if !coded && singles ≤ 2 then blockStart '\'' value ++ value ++ ['\'', '\'', '\'']
  else if feeds then blockSpelling value
  else basicSpelling value

end Toml
end Shorthand
