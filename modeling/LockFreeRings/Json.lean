import LockFreeRings.Decimal.Shortest
import LockFreeRings.Text.Quoted
set_option autoImplicit false

/-!
# JSON values

A JSON value, with numbers kept as what they can be held in: a number without
fraction and exponent is a word or a negative 64-bit integer, every other number
is a floating-point number.  `Json.compact` is the text of a value without
blanks.
-/

namespace LockFreeRings

/-- A number. -/
inductive JsonNumber where
  /-- an integer from 0 to `2 ^ 64 - 1` -/
  | natural (n : UInt64)
  /-- the integer `-(n + 1)`, from `-2 ^ 63` to -1 -/
  | negSucc (n : Fin 0x8000000000000000)
  /-- any other number -/
  | float (x : Binary64)
  deriving DecidableEq

/-- A JSON value; the members of an object are in order. -/
inductive Json where
  | null
  | bool (b : Bool)
  | number (n : JsonNumber)
  | string (s : String)
  | array (items : List Json)
  | object (members : List (String × Json))
  deriving Inhabited

/-! ## Numbers -/

namespace ScaledDecimal

/-- The digits with a point after the first `whole` of them. -/
def pointed (ds : List Char) (whole : Nat) : List Char :=
  ds.take whole ++ '.' :: ds.drop whole

/-- The exponent after the letter that marks it, always with a sign. -/
def exponentPart (e : Int) : List Char :=
  'e' :: (if e < 0 then '-' else '+') :: Decimal.digits e.natAbs

/-- The text of a decimal: positional from `0.00001` on and below `10 ^ 16`,
always with a point and a digit on both sides of it, else with one digit before
the point and an exponent. -/
def chars (d : ScaledDecimal) : List Char :=
  let ds := Decimal.digits d.digits
  let point : Int := ds.length + d.exponent
  if d.digits = 0 then ['0', '.', '0']
  else if 0 ≤ d.exponent ∧ point ≤ 16 then
    ds ++ List.replicate d.exponent.toNat '0' ++ ['.', '0']
  else if 0 < point ∧ point ≤ 16 then pointed ds point.toNat
  else if -5 < point ∧ point ≤ 0 then
    '0' :: '.' :: List.replicate (-point).toNat '0' ++ ds
  else if ds.length = 1 then ds ++ exponentPart (point - 1)
  else pointed ds 1 ++ exponentPart (point - 1)

end ScaledDecimal

/-- The text of a floating-point number: its sign and its shortest decimal. -/
def Binary64.chars (x : Binary64) : List Char :=
  if x.isNegative then '-' :: x.shortest.chars else x.shortest.chars

/-- The text of a number. -/
def JsonNumber.chars : JsonNumber → List Char
  | .natural n => Decimal.digits n.toNat
  | .negSucc n => '-' :: Decimal.digits (n.val + 1)
  | .float x => x.chars

/-! ## Texts -/

namespace Json

/-- How a character stands in a JSON string. -/
def escapeChar (c : Char) : List Char :=
  if c = '"' then ['\\', '"']
  else if c = '\\' then ['\\', '\\']
  else if c.toNat = 8 then ['\\', 'b']
  else if c.toNat = 12 then ['\\', 'f']
  else if c = '\n' then ['\\', 'n']
  else if c = '\r' then ['\\', 'r']
  else if c = '\t' then ['\\', 't']
  else if c.toNat < 32 then
    ['\\', 'u', '0', '0', Text.hexDigit (c.toNat / 16), Text.hexDigit (c.toNat % 16)]
  else [c]

/-- A string between quotes. -/
def stringChars (s : String) : List Char :=
  '"' :: s.toList.flatMap escapeChar ++ ['"']

mutual

/-- The text of a value without blanks. -/
def chars : Json → List Char
  | .null => ['n', 'u', 'l', 'l']
  | .bool true => ['t', 'r', 'u', 'e']
  | .bool false => ['f', 'a', 'l', 's', 'e']
  | .number n => n.chars
  | .string s => stringChars s
  | .array [] => ['[', ']']
  | .array (v :: vs) => '[' :: v.chars ++ itemsChars vs
  | .object [] => ['\x7b', '\x7d']
  | .object ((k, v) :: ms) => '\x7b' :: stringChars k ++ ':' :: v.chars ++ membersChars ms

/-- What follows an item of an array: the other items and the end. -/
def itemsChars : List Json → List Char
  | [] => [']']
  | v :: vs => ',' :: v.chars ++ itemsChars vs

/-- What follows a member of an object: the other members and the end. -/
def membersChars : List (String × Json) → List Char
  | [] => ['\x7d']
  | (k, v) :: ms => ',' :: stringChars k ++ ':' :: v.chars ++ membersChars ms

end

/-- The text of a value without blanks, as a string. -/
def compact (v : Json) : String := String.ofList v.chars

end Json

end LockFreeRings
