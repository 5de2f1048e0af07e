import NetRanges.Json.Decode
import NetRanges.Policy
import NetRanges.Entry

/-!
# JSON forms of the library's values

Addresses, blocks, ranges and entries travel as their texts and are read back by their text
readers (a range from any entry's text). Families and modes travel as their short names. A step
is a record `{"prefix_len": …, "min_count": …}` or a pair `[len, count]`; a policy is a record
of its mode, family (IPv4 when absent), steps and reserved blocks (none when absent), checked
like every policy and then given its reserved blocks.

Records are read member by member in the order given, unknown members ignored, and missing
members reported afterwards in the record's own field order.
-/
namespace NetRanges.Json

namespace Decoder

def u8 : Decoder Nat := unsigned 255 "u8"

def usize : Decoder Nat := unsigned Step.countBound "usize"

/-- An address from its text, not trimmed. -/
def address : Decoder Address := parsed Address.parse ParseError.message

def block : Decoder Block := parsed Block.parse ParseError.message

/-- An entry from its text, trimmed. -/
def entry : Decoder Entry := parsed Entry.parse ParseError.message

/-- A range from the text of any entry. -/
def range : Decoder Range := fun v => Entry.toRange <$> entry v

/-- A family from `v4` or `v6`. -/
def family : Decoder Family := fun v => do
  let n ← variant ["v4", "v6"] v
  pure (if n = "v4" then .v4 else .v6)

/-- A mode from `independent` or `cascading`. -/
def mode : Decoder Mode := fun v => do
  let n ← variant ["independent", "cascading"] v
  pure (if n = "independent" then .independent else .cascading)

/-- What a step record or pair is called in errors. -/
def stepName : String := "struct AggregationStep"

/-- A step member of a record. -/
def stepMember (acc : Option Nat × Option Nat) (kv : String × Value) :
    Except DecodeError (Option Nat × Option Nat) :=
  match kv.1 with
  | "prefix_len" => (fun n => (some n, acc.2)) <$> u8 kv.2
  | "min_count" => (fun n => (acc.1, some n)) <$> usize kv.2
  | _ => pure acc

/-- A step, from a record or a pair. -/
def step : Decoder Step
  | .obj fields => do
    let (len, count) ← fields.foldlM stepMember (none, none)
    match len, count with
    | none, _ => .error (.missingField "prefix_len")
    | _, none => .error (.missingField "min_count")
    | some l, some c => pure ⟨l, c⟩
  | .arr [] => .error (.invalidLength 0 (stepName ++ " with 2 elements"))
  | .arr [a] => do
    let _ ← u8 a
    .error (.invalidLength 1 (stepName ++ " with 2 elements"))
  | .arr [a, b] => do pure ⟨← u8 a, ← usize b⟩
  | .arr (a :: b :: rest) => do
    let _ ← u8 a
    let _ ← usize b
    .error (.invalidLength (rest.length + 2) "fewer elements in array")
  | v => .error (.invalidType v.unexpected stepName)

/-- The members of a policy record read so far. -/
structure PolicyParts where
  mode : Option Mode := none
  family : Option Family := none
  steps : Option (List Step) := none
  reserved : Option (List Block) := none

/-- What a policy record is called in errors. -/
def policyName : String := "struct PolicyConfig"

/-- A policy member of a record. -/
def policyMember (acc : PolicyParts) (kv : String × Value) : Except DecodeError PolicyParts :=
  match kv.1 with
  | "mode" => (fun m => { acc with mode := some m }) <$> mode kv.2
  | "family" => (fun f => { acc with family := some f }) <$> family kv.2
  | "steps" => (fun s => { acc with steps := some s }) <$> list step kv.2
  | "reserved" => (fun r => { acc with reserved := some r }) <$> list block kv.2
  | _ => pure acc

/-- The parts of a policy from a list: mode, family, steps, reserved, the second and last
optional. -/
def policyItems : List Value → Except DecodeError PolicyParts
  | [] => .error (.invalidLength 0 (policyName ++ " with 4 elements"))
  | [m] => do
    let _ ← mode m
    .error (.invalidLength 2 (policyName ++ " with 4 elements"))
  | [m, f] => do
    let _ ← mode m
    let _ ← family f
    .error (.invalidLength 2 (policyName ++ " with 4 elements"))
  | [m, f, s] => do pure ⟨some (← mode m), some (← family f), some (← list step s), none⟩
  | [m, f, s, r] =>
    do pure ⟨some (← mode m), some (← family f), some (← list step s), some (← list block r)⟩
  | m :: f :: s :: r :: rest => do
    let _ ← mode m
    let _ ← family f
    let _ ← list step s
    let _ ← list block r
    .error (.invalidLength (rest.length + 4) "fewer elements in array")

/-- A policy, checked, with its reserved blocks. -/
def policy : Decoder Policy := fun v => do
  let parts ← match v with
    | .obj fields => fields.foldlM policyMember {}
    | .arr items => policyItems items
    | v => .error (.invalidType v.unexpected policyName)
  match parts.mode, parts.steps with
  | none, _ => .error (.missingField "mode")
  | _, none => .error (.missingField "steps")
  | some m, some s =>
    match Policy.make m (parts.family.getD .v4) s with
    | .ok p => pure (p.withReserved (parts.reserved.getD []))
    | .error e => .error (.custom e.message)

end Decoder

namespace Encode

/-- A step as a record. -/
def step (s : Step) : Value :=
  .obj [("min_count", .int s.minCount), ("prefix_len", .int s.len)]

/-- A policy as a record. -/
def policy (p : Policy) : Value :=
  .obj [("family", .str p.family.code), ("mode", .str p.mode.name),
    ("reserved", .arr (p.reserved.map fun b => .str b.text)), ("steps", .arr (p.steps.map step))]

end Encode

end NetRanges.Json
