import NetRanges.Decimal.Shortest

/-!
# JSON values

The library exchanges its values as JSON. A `Value` is a JSON tree as read. A number is an
integer when it was written as one and fits a 64-bit word, from `-2 ^ 63` to `2 ^ 64 - 1`, and
otherwise a binary64 value kept as its sign and magnitude, so that a negative zero is a float.
Objects keep their members in order (a reader that sorts keys hands them over sorted).

`Value.render` writes a value compactly: no blanks, strings in double quotes with `"` and `\`
escaped, the controls backspace, form feed, line feed, carriage return and tab as their short
escapes, other controls as `\u00XX` in lowercase hex, and every other character as it is.
-/

-- Powers of numbers are taken through the core instance, whatever else is in scope.
attribute [local instance (1100)] instPowNat

namespace NetRanges.Json

inductive Value where
  | null
  | bool (b : Bool)
  | int (n : Int)
  | float (negative : Bool) (magnitude : Decimal.Binary)
  | str (s : String)
  | arr (items : List Value)
  | obj (fields : List (String × Value))
  deriving Inhabited

namespace Value

/-- The hex digit of a value below 16, lowercase. -/
def hexDigit (n : Nat) : Char := if n < 10 then Char.ofNat (48 + n) else Char.ofNat (87 + n)

/-- How one character is written inside a JSON string. -/
def escapeChar (c : Char) : List Char :=
  if c = '"' then ['\\', '"']
  else if c = '\\' then ['\\', '\\']
  else if c = '\x08' then ['\\', 'b']
  else if c = '\x0c' then ['\\', 'f']
  else if c = '\n' then ['\\', 'n']
  else if c = '\r' then ['\\', 'r']
  else if c = '\t' then ['\\', 't']
  else if c.toNat < 0x20 then ['\\', 'u', '0', '0', hexDigit (c.toNat / 16), hexDigit (c.toNat % 16)]
  else [c]

/-- A string as a JSON string literal. -/
def quote (s : String) : String := String.ofList ('"' :: s.toList.flatMap escapeChar ++ ['"'])

/-- The text of a float: its sign and the shortest digits of its magnitude. -/
def floatText (negative : Bool) (magnitude : Decimal.Binary) : String :=
  (if negative then "-" else "") ++ magnitude.text

mutual

/-- The compact text of a value. -/
def render : Value → String
  | null => "null"
  | bool b => if b then "true" else "false"
  | int n => toString n
  | float neg m => floatText neg m
  | str s => quote s
  | arr items => "[" ++ renderItems items ++ "]"
  | obj fields => "\x7b" ++ renderFields fields ++ "\x7d"

/-- The texts of array items, separated by commas. -/
def renderItems : List Value → String
  | [] => ""
  | [v] => render v
  | v :: vs => render v ++ "," ++ renderItems vs

/-- The texts of object members, separated by commas. -/
def renderFields : List (String × Value) → String
  | [] => ""
  | [(k, v)] => quote k ++ ":" ++ render v
  | (k, v) :: fs => quote k ++ ":" ++ render v ++ "," ++ renderFields fs

end

def strings (xs : List String) : Value := arr (xs.map str)

example : render (strings ["1.2.3.4", "a\"b\n"]) = "[\"1.2.3.4\",\"a\\\"b\\n\"]" := by
  rfl

end Value

end NetRanges.Json
