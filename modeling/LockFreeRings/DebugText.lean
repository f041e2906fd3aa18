set_option autoImplicit false

/-!
# Debug texts

The text that shows a value to a programmer: a named record of fields, a list,
or a text that stands for itself.  There are two layouts.  The compact one is a
single line, `Name { a: 1, b: [2, 3] }`; the open one puts every field and item
on a line of its own, four blanks further in than its record or list, with a
comma after each.  A record may admit that it has more than it shows, with `..`
in place of a last field.
-/

namespace LockFreeRings

/-- What a debug text shows. -/
inductive DebugText where
  /-- a text that stands for itself -/
  | atom (text : String)
  /-- a named record; `hidden` when it has more than these fields -/
  | record (name : String) (fields : List (String × DebugText)) (hidden : Bool)
  /-- the items of a list -/
  | list (items : List DebugText)
  deriving Repr

namespace DebugText

/-- A number in decimal. -/
def number (n : Nat) : DebugText := .atom (toString n)

/-- A truth value. -/
def truth (b : Bool) : DebugText := .atom (if b then "true" else "false")

/-! ## One line -/

mutual

/-- The text on one line. -/
def compact : DebugText → String
  | .atom text => text
  | .record name fields hidden =>
    match compactFields fields ++ (if hidden then [".."] else []) with
    | [] => name
    | shown => name ++ " \x7b " ++ String.intercalate ", " shown ++ " \x7d"
  | .list items => "[" ++ String.intercalate ", " (compactItems items) ++ "]"

/-- The fields of a record, each with its name. -/
def compactFields : List (String × DebugText) → List String
  | [] => []
  | (name, value) :: rest => (name ++ ": " ++ value.compact) :: compactFields rest

/-- The items of a list. -/
def compactItems : List DebugText → List String
  | [] => []
  | value :: rest => value.compact :: compactItems rest

end

/-! ## Open layout -/

/-- A new line at the given depth. -/
def newLine (depth : Nat) : String := "\n" ++ String.ofList (List.replicate (4 * depth) ' ')

mutual

/-- The text with a line for each field and item, of which the first line stands
at `depth`. -/
def openAt (depth : Nat) : DebugText → String
  | .atom text => text
  | .record name fields hidden =>
    match openFields (depth + 1) fields ++
        (if hidden then newLine (depth + 1) ++ ".." else "") with
    | "" => name
    | shown => name ++ " \x7b" ++ shown ++ newLine depth ++ "\x7d"
  | .list [] => "[]"
  | .list (item :: rest) => "[" ++ openItems (depth + 1) (item :: rest) ++ newLine depth ++ "]"

/-- The fields of a record, a line for each. -/
def openFields (depth : Nat) : List (String × DebugText) → String
  | [] => ""
  | (name, value) :: rest =>
    newLine depth ++ name ++ ": " ++ value.openAt depth ++ "," ++ openFields depth rest

/-- The items of a list, a line for each. -/
def openItems (depth : Nat) : List DebugText → String
  | [] => ""
  | value :: rest => newLine depth ++ value.openAt depth ++ "," ++ openItems depth rest

end

/-- The open layout from the left margin. -/
def expanded (text : DebugText) : String := text.openAt 0

end DebugText

end LockFreeRings
