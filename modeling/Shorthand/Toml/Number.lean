import Shorthand.Toml.Strings

/-!
Numbers, dates and times. They are only checked: integers have 64 bits, a float is not too large
to be finite, and a date is in the calendar.
-/

namespace Shorthand
namespace Toml

/-- Single underscores stand between digits and nowhere else. -/
def underscoresSeparate : Text → Bool
  | [] => false
  | [c] => c ≠ '_'
  | c :: d :: rest => c ≠ '_' && (if d = '_' then underscoresSeparate rest
      else underscoresSeparate (d :: rest))

def decimalValue (digits : Text) : Nat :=
  digits.foldl (fun n c => 10 * n + (c.toNat - '0'.toNat)) 0

/-- One more than the largest integer. -/
def integerBound : Nat := 9223372036854775808

namespace Reader

/-- Digits of a base, without the underscores between them. -/
def digits (isDigit : Char → Bool) : Reader Text := do
  let run ← takeWhile fun c => isDigit c || c = '_'
  guard (underscoresSeparate run)
  return run.filter (· ≠ '_')

def sign : Reader (Option Char) := do
  optional? ((exactly ['+'] *> pure '+') <|> (exactly ['-'] *> pure '-'))

/-- A sign and decimal digits without a leading zero. -/
def decimal : Reader (Option Char × Text) := do
  let s ← sign
  let ds ← digits Char.isDigit
  guard (ds.head? ≠ some '0' ∨ ds.length = 1)
  return (s, ds)

def decimalInteger : Reader Unit := do
  let (s, ds) ← decimal
  guard (decimalValue ds < integerBound + if s = some '-' then 1 else 0)

def based (marker : Char) (base : Nat) : Reader Unit := do
  exactly ['0', marker]
  let ds ← digits fun c => match hexDigit? c with
    | some d => d < base
    | none => false
  guard (ds.foldl (fun n c => base * n + (hexDigit? c).getD 0) 0 < integerBound)

def integer : Reader Unit := do
  if (← optional? (exactly ['0', 'x'] <|> exactly ['0', 'o'] <|> exactly ['0', 'b'])).isSome then
    failure
  decimalInteger

end Reader

/-- Whether the decimal `m * 10 ^ e` is nearer to infinity than to the largest finite double. -/
def overflows (m : Nat) (e : Int) : Bool :=
  let bound := Nat.pow 2 1024 - Nat.pow 2 970
  let size := (Nat.toDigits 10 m).length
  if m = 0 then false
  else if e + size < 300 then false
  else if e + size > 320 then true
  else if 0 ≤ e then bound ≤ m * Nat.pow 10 e.toNat
  else bound * Nat.pow 10 (-e).toNat ≤ m

namespace Reader

def exponent : Reader Int := do
  exactly ['e'] <|> exactly ['E']
  let s ← sign
  let ds ← digits Char.isDigit
  return if s = some '-' then -(decimalValue ds : Int) else decimalValue ds

def decimalFloat : Reader Unit := do
  let (s, whole) ← decimal
  let fraction ← optional? (exactly ['.'] *> digits Char.isDigit)
  let e ← optional? exponent
  guard (fraction.isSome ∨ e.isSome)
  let part := fraction.getD []
  guard (s = some '-' ∨ !overflows (decimalValue (whole ++ part)) (e.getD 0 - part.length))

def specialFloat : Reader Unit := do
  discard sign
  exactly "inf" <|> exactly "nan"

/-- A number of exactly `n` digits from `least` to `greatest`. -/
def field (n least greatest : Nat) : Reader Nat := do
  let ds ← ofOption fun s => some (s.take n, s.drop n)
  guard (ds.length = n ∧ ds.all Char.isDigit)
  let value := decimalValue ds
  guard (least ≤ value ∧ value ≤ greatest)
  return value

end Reader

def daysIn (year month : Nat) : Nat :=
  if month = 2 then
    if year % 4 = 0 ∧ (year % 100 ≠ 0 ∨ year % 400 = 0) then 29 else 28
  else if month = 4 ∨ month = 6 ∨ month = 9 ∨ month = 11 then 30
  else 31

namespace Reader

def date : Reader Unit := do
  let year ← field 4 0 9999
  exactly ['-']
  let month ← field 2 1 12
  exactly ['-']
  let day ← field 2 1 31
  guard (day ≤ daysIn year month)

/-- The last second of a minute may be a leap second. -/
def time : Reader Unit := do
  discard <| field 2 0 23
  exactly [':']
  discard <| field 2 0 59
  exactly [':']
  discard <| field 2 0 60
  if (← optional? (exactly ['.'])).isSome then
    guard ((← takeWhile Char.isDigit) ≠ [])

def timeOffset : Reader Unit :=
  exactly ['Z'] <|> exactly ['z'] <|> do
    exactly ['+'] <|> exactly ['-']
    discard <| field 2 0 23
    exactly [':']
    discard <| field 2 0 59

def moment : Reader Unit :=
  (do
    date
    discard <| optional? do
      exactly ['T'] <|> exactly ['t'] <|> exactly [' ']
      time
      discard <| optional? timeOffset) <|> time

def number : Reader Unit :=
  decimalFloat <|> specialFloat <|> based 'x' 16 <|> based 'o' 8 <|> based 'b' 2 <|>
    integer

end Reader
end Toml
end Shorthand
