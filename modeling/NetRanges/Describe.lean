import NetRanges.Settings

/-!
# Structural descriptions

Every value has a structural description: the name of its kind with its parts, the way it
appears in trace notes and diagnostics. Addresses, blocks and ranges show their text inside
their kind's name (`Address(10.0.0.1)`); records list their fields by name in braces; lists are
bracketed with `, ` between items; optional text is `Some("…")` or `None`, the text quoted.
-/
namespace NetRanges

namespace Describe

/-- A bracketed list of descriptions. -/
def list (items : List String) : String := "[" ++ ", ".intercalate items ++ "]"

/-- A record: its name and its named fields in braces. -/
def record (name : String) (fields : List (String × String)) : String :=
  name ++ " \x7b " ++ ", ".intercalate (fields.map fun (k, v) => k ++ ": " ++ v) ++ " \x7d"

def optionText : Option String → String
  | some t => "Some(" ++ Text.quote t ++ ")"
  | none => "None"

def switch (b : Bool) : String := if b then "true" else "false"

end Describe

def Address.describe (a : Address) : String := "Address(" ++ a.text ++ ")"

def Block.describe (b : Block) : String := "CidrBlock(" ++ b.text ++ ")"

def Range.describe (r : Range) : String := "AddressRange(" ++ r.text ++ ")"

/-- The description of an entry, by its form. -/
def Entry.describe : Entry → String
  | .host a => "SingleHost(" ++ a.describe ++ ")"
  | .network b => "Network(" ++ b.describe ++ ")"
  | .range r => "Range(" ++ r.describe ++ ")"

def ParseError.describe : ParseError → String
  | .address t => "InvalidAddress(" ++ Text.quote t ++ ")"
  | .block t => "InvalidCidr(" ++ Text.quote t ++ ")"
  | .range t => "InvalidRange(" ++ Text.quote t ++ ")"

def Step.describe (s : Step) : String :=
  Describe.record "AggregationStep"
    [("prefix_len", Address.decimal s.len), ("min_count", Address.decimal s.minCount)]

def Policy.describe (p : Policy) : String :=
  Describe.record "AggregationPolicy"
    [("mode", p.mode.tag), ("family", p.family.tag),
     ("steps", Describe.list (p.steps.map Step.describe)),
     ("reserved", Describe.list (p.reserved.map Block.describe))]

def Settings.describe (s : Settings) : String :=
  Describe.record "Settings"
    [("mode", s.mode.tag), ("policy", Describe.optionText s.policy),
     ("exclude_private", Describe.switch s.excludePrivate),
     ("exclude", Describe.list (s.exclude.map Entry.describe))]

end NetRanges
