import Shorthand.Text.Graphic

/-!
Texts between double quotes, with an escape for every character that would end the quotation or
would not show.
-/

namespace Shorthand
namespace Text

def quotedChar (c : Char) : Text :=
  if c = '\x00' then ['\\', '0']
  else if c = '\t' then ['\\', 't']
  else if c = '\r' then ['\\', 'r']
  else if c = '\n' then ['\\', 'n']
  else if c = '\\' ∨ c = '"' then ['\\', c]
  else if isGraphic c then [c]
  else ['\\', 'u', '\x7b'] ++ Nat.toDigits 16 c.toNat ++ ['\x7d']

def quoted (s : Text) : Text :=
  '"' :: (s.flatMap quotedChar ++ ['"'])

end Text
end Shorthand
