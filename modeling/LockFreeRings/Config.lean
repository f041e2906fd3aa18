import LockFreeRings.DebugText
import LockFreeRings.Json.Scan
set_option autoImplicit false

/-!
# Ring configurations

The parameters for building a ring: the capacity asked for, 1024 unless given.
A configuration is written as a JSON object with the one member `capacity`.  It
is read from an object with or without that member, other members being ignored,
or from an array of at most one element, the capacity by position.

A capacity is an integer from 0 to `2 ^ 64 - 1` written without fraction and
exponent.  What can be wrong with one is an inductive type, `ConfigError`; its
wording is one function.
-/

namespace LockFreeRings

/-- The parameters for building a ring. -/
structure RingConfig where
  capacity : UInt64 := 1024
  deriving DecidableEq, Repr, Inhabited

/-! ## Errors -/

/-- What stands where something else was expected. -/
inductive FoundValue where
  | null
  | bool (b : Bool)
  | integer (n : Int)
  | float (x : Binary64)
  | string (s : String)
  | sequence
  | map
  deriving DecidableEq

/-- What was expected. -/
inductive ExpectedValue where
  /-- a capacity -/
  | capacity
  /-- a configuration -/
  | config
  deriving DecidableEq, Repr

/-- Why no configuration can be read. -/
inductive ConfigError where
  /-- a value of another kind stands there -/
  | wrongKind (found : FoundValue) (expected : ExpectedValue)
  /-- the capacity is an integer below zero -/
  | belowZero (n : Int)
  /-- a second capacity is given -/
  | repeatedCapacity
  /-- an array of so many elements, more than one -/
  | tooManyElements (count : Nat)
  /-- the text is not JSON -/
  | text (fault : TextFault)
  deriving DecidableEq

namespace FoundValue

/-- What stands for a number. -/
def ofNumber : JsonNumber → FoundValue
  | .natural n => .integer n.toNat
  | .negSucc n => .integer (Int.negSucc n.val)
  | .float x => .float x

/-- What stands for a value. -/
def ofJson : Json → FoundValue
  | .null => .null
  | .bool b => .bool b
  | .number n => ofNumber n
  | .string s => .string s
  | .array _ => .sequence
  | .object _ => .map

/-- The wording of what stands there. -/
def text : FoundValue → String
  | .null => "null"
  | .bool true => "boolean `true`"
  | .bool false => "boolean `false`"
  | .integer n => "integer `" ++ toString n ++ "`"
  | .float x => "floating point `" ++ String.ofList x.chars ++ "`"
  | .string s => "string " ++ Text.quoted s
  | .sequence => "sequence"
  | .map => "map"

end FoundValue

/-- The wording of what was expected. -/
def ExpectedValue.text : ExpectedValue → String
  | .capacity => "usize"
  | .config => "struct RingConfig"

/-- The wording of an error; a text that is not JSON has none. -/
def ConfigError.message? : ConfigError → Option String
  | .wrongKind found expected =>
    some ("invalid type: " ++ found.text ++ ", expected " ++ expected.text)
  | .belowZero n =>
    some ("invalid value: integer `" ++ toString n ++ "`, expected " ++
      ExpectedValue.text .capacity)
  | .repeatedCapacity => some "duplicate field `capacity`"
  | .tooManyElements count =>
    some ("invalid length " ++ toString count ++ ", expected fewer elements in array")
  | .text _ => none

/-! ## Capacities -/

namespace RingConfig

/-- The name of the one member. -/
def memberName : String := "capacity"

/-- The capacity that a number stands for. -/
def capacityOfNumber : JsonNumber → Except ConfigError UInt64
  | .natural n => .ok n
  | .negSucc n => .error (.belowZero (Int.negSucc n.val))
  | .float x => .error (.wrongKind (.float x) .capacity)

/-- The capacity that a value stands for. -/
def capacityOfJson : Json → Except ConfigError UInt64
  | .number n => capacityOfNumber n
  | v => .error (.wrongKind (.ofJson v) .capacity)

/-! ## Writing -/

/-- A configuration as a JSON value. -/
def toJson (config : RingConfig) : Json :=
  .object [(memberName, .number (.natural config.capacity))]

/-- How a configuration is shown to a programmer. -/
def debugText (config : RingConfig) : DebugText :=
  .record "RingConfig" [("capacity", .number config.capacity.toNat)] false

end RingConfig

end LockFreeRings
