import NetRanges.Json.Value
import NetRanges.Text.Quoted

/-!
# Decoding JSON values

A decoder reads a typed value from a JSON value or says why it cannot. Its errors name what was
found and what was expected:

* a value of the wrong kind: `invalid type: <found>, expected <what>`, where the found value is
  `null`, ``boolean `true` ``, ``integer `5` ``, ``floating point `1.5` ``, `string "…"` (quoted as
  `Text.quote` does), `sequence` or `map`;
* a number out of range: ``invalid value: integer `300`, expected u8``;
* a list of the wrong length, a missing field, an unknown variant of an enumeration, or a message
  of the type's own reader.

A float is shown by the shortest digits that read back as it, with `.0` when they have no
fraction (`Value.floatText`).
-/
namespace NetRanges.Json

/-- How a found value is named in errors. -/
def Value.unexpected : Value → String
  | .null => "null"
  | .bool b => "boolean `" ++ (if b then "true" else "false") ++ "`"
  | .int n => "integer `" ++ toString n ++ "`"
  | .float neg m => "floating point `" ++ Value.floatText neg m ++ "`"
  | .str s => "string " ++ Text.quote s
  | .arr _ => "sequence"
  | .obj _ => "map"

/-- Why a value could not be decoded. -/
inductive DecodeError where
  | invalidType (found expected : String)
  | invalidValue (found expected : String)
  | invalidLength (length : Nat) (expected : String)
  | missingField (name : String)
  | unknownVariant (name : String) (expected : List String)
  | custom (message : String)

/-- Names written in backquotes: `a`, `a` or `b`, or one of `a`, `b`, `c`. -/
def oneOf (names : List String) : String :=
  let q := fun (n : String) => "`" ++ n ++ "`"
  match names with
  | [a] => q a
  | [a, b] => q a ++ " or " ++ q b
  | _ => "one of " ++ ", ".intercalate (names.map q)

def DecodeError.message : DecodeError → String
  | .invalidType f e => "invalid type: " ++ f ++ ", expected " ++ e
  | .invalidValue f e => "invalid value: " ++ f ++ ", expected " ++ e
  | .invalidLength n e => "invalid length " ++ toString n ++ ", expected " ++ e
  | .missingField n => "missing field `" ++ n ++ "`"
  | .unknownVariant n es => "unknown variant `" ++ n ++ "`, expected " ++ oneOf es
  | .custom m => m

/-- A decoder of values of type `α`. -/
abbrev Decoder (α : Type) := Value → Except DecodeError α

namespace Decoder

def string : Decoder String
  | .str s => .ok s
  | v => .error (.invalidType v.unexpected "a string")

/-- An unsigned integer at most `bound`, of the type named `name`. -/
def unsigned (bound : Nat) (name : String) : Decoder Nat
  | .int n =>
    if 0 ≤ n ∧ n.toNat ≤ bound then .ok n.toNat
    else .error (.invalidValue ("integer `" ++ toString n ++ "`") name)
  | v => .error (.invalidType v.unexpected name)

/-- A list of values, each decoded by `d`. -/
def list {α : Type} (d : Decoder α) : Decoder (List α)
  | .arr items => items.mapM d
  | v => .error (.invalidType v.unexpected "a sequence")

/-- The name of a unit variant of an enumeration with the given names: a string, or a map of
one key whose value is `null`. -/
def variant (names : List String) : Decoder String
  | .str s => if names.contains s then .ok s else .error (.unknownVariant s names)
  | .obj [(k, v)] =>
    if names.contains k then
      match v with
      | .null => .ok k
      | v => .error (.invalidType v.unexpected "unit")
    else .error (.unknownVariant k names)
  | .obj _ => .error (.invalidValue "map" "map with a single key")
  | v => .error (.invalidType v.unexpected "string or map")

/-- A value read by a text reader whose errors become messages. -/
def parsed {α ε : Type} (read : String → Except ε α) (message : ε → String) : Decoder α :=
  fun v => string v >>= fun s => (read s).mapError fun e => .custom (message e)

end Decoder

end NetRanges.Json
