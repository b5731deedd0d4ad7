import Shorthand.Text

/-!
The white space of the Unicode standard, and texts without it at their ends.
-/

namespace Shorthand

/-- The characters with the property `White_Space`. -/
def Text.isBlank (c : Char) : Bool :=
  let n := c.toNat
  (9 ≤ n && n ≤ 13) || n = 0x20 || n = 0x85 || n = 0xA0 || n = 0x1680 ||
    (0x2000 ≤ n && n ≤ 0x200A) || n = 0x2028 || n = 0x2029 || n = 0x202F || n = 0x205F ||
    n = 0x3000

/-- Without white space at either end. -/
def Text.trimmed (s : Text) : Text :=
  s.trim isBlank

end Shorthand
