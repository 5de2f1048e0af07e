import NetRanges.Block
import NetRanges.Text.Blank
import NetRanges.Text.Unsigned

/-!
# Coarsening policies

A policy says how observed blocks are folded into wider ones: a list of steps, each a prefix
length and the least number of entries that a block of that length must gather to replace them;
a mode saying whether the steps all look at the input (`independent`) or each looks at what the
previous one left (`cascading`); the family whose blocks are folded; and reserved blocks that
no folded block may overlap.

A policy is checked when it is made (`Policy.make`): it has steps, every step's length fits
the family and every minimum count is at least one, and in cascading mode the lengths strictly
decrease. The built-in policies (`Policy.builtIn`) are IPv4 policies.
-/

-- Powers go through the core instance; a literal exponent carries its type for the same reason.
attribute [local instance (1100)] instPowNat

namespace NetRanges

/-- How the steps of a policy are applied. -/
inductive Mode where
  /-- Every step looks at the whole input; the outputs are concatenated. -/
  | independent
  /-- Each step looks at what the previous one left. -/
  | cascading
  deriving DecidableEq, Repr

/-- One step: fold groups of at least `minCount` entries into their block of length `len`. -/
structure Step where
  len : Nat
  minCount : Nat
  deriving DecidableEq, Repr

/-- Why a policy, a step or a mode was refused. -/
inductive PolicyError where
  /-- The policy has no steps. -/
  | empty
  /-- A step's length exceeds the family's width `bits`. -/
  | prefixTooLong (len bits : Nat)
  /-- A step's minimum count is zero. -/
  | zeroCount (len : Nat)
  /-- In cascading mode a step's length is not below the previous one. -/
  | notDecreasing (previous next : Nat)
  /-- A text is not a step `prefix:count`. -/
  | invalidStep (text : String)
  /-- A text is not a mode. -/
  | unknownMode (text : String)
  deriving DecidableEq, Repr

/-- A checked coarsening policy. -/
structure Policy where
  mode : Mode
  family : Family
  steps : List Step
  reserved : List Block

namespace Mode

def name : Mode → String
  | independent => "independent"
  | cascading => "cascading"

/-- The mode's name in structural descriptions. -/
def tag : Mode → String
  | independent => "Independent"
  | cascading => "Cascading"

/-- Reads a mode: blanks trimmed, letters compared without case; `v1` and `v2` name the
independent and the cascading mode. The error keeps the text as given. -/
def parse (s : String) : Except PolicyError Mode :=
  match (Text.trim s).map Char.toLower with
  | "independent" | "v1" => .ok independent
  | "cascading" | "v2" => .ok cascading
  | _ => .error (.unknownMode s)

end Mode

namespace Step

/-- The largest minimum count a step can hold. -/
def countBound : Nat := 2 ^ (64 : Nat) - 1

/-- The text `len:count`. -/
def text (s : Step) : String := Address.decimal s.len ++ ":" ++ Address.decimal s.minCount

/-- Reads `len:count`, blanks trimmed around the whole and around both numbers; the length is
at most 255. The error keeps the text as given. -/
def parse (s : String) : Except PolicyError Step :=
  match Text.cutAt? ':' (Text.trim s) with
  | none => .error (.invalidStep s)
  | some (l, c) =>
    match Text.unsigned? (Text.trim l) 255, Text.unsigned? (Text.trim c) countBound with
    | some l, some c => .ok ⟨l, c⟩
    | _, _ => .error (.invalidStep s)

end Step

/-- Reads a list of steps separated by blanks, commas or semicolons. -/
def parseSteps (s : String) : Except PolicyError (List Step) :=
  (Text.pieces s).mapM Step.parse

namespace PolicyError

def message : PolicyError → String
  | empty => "aggregation policy has no steps"
  | prefixTooLong len bits =>
    "prefix length /" ++ Address.decimal len ++ " exceeds the " ++ Address.decimal bits ++
      "-bit address width"
  | zeroCount len => "minimum count for /" ++ Address.decimal len ++ " must be at least 1"
  | notDecreasing p n =>
    "cascading prefix lengths must decrease, got /" ++ Address.decimal p ++ " then /" ++
      Address.decimal n
  | invalidStep t => "invalid aggregation step " ++ Text.quote t ++ ", expected prefix:count"
  | unknownMode t =>
    "unknown aggregation mode " ++ Text.quote t ++ ", expected independent or cascading"

end PolicyError

namespace Policy

/-- The first adjacent pair of steps whose length does not decrease. -/
def firstRise : List Step → Option (Nat × Nat)
  | a :: b :: rest => if a.len ≤ b.len then some (a.len, b.len) else firstRise (b :: rest)
  | _ => none

/-- The first fault of a list of steps, checking emptiness, then each step in order (length,
then count), then in cascading mode the order of lengths. -/
def stepsFault (mode : Mode) (family : Family) (steps : List Step) : Option PolicyError :=
  if steps.isEmpty then some .empty
  else
    match steps.find? fun s => family.width < s.len || s.minCount == 0 with
    | some s =>
      if family.width < s.len then some (.prefixTooLong s.len family.width)
      else some (.zeroCount s.len)
    | none =>
      match mode, firstRise steps with
      | .cascading, some (p, n) => some (.notDecreasing p n)
      | _, _ => none

/-- The policy of the given mode, family and steps, without reserved blocks, if the steps pass
the checks. -/
def make (mode : Mode) (family : Family) (steps : List Step) : Except PolicyError Policy :=
  match stepsFault mode family steps with
  | some e => .error e
  | none => .ok ⟨mode, family, steps, []⟩

/-- The policy with more reserved blocks after its own. -/
def withReserved (p : Policy) (blocks : List Block) : Policy := { p with reserved := p.reserved ++ blocks }

/-- The built-in IPv4 policy of a mode. -/
def builtIn : Mode → Policy
  | .independent =>
    ⟨.independent, .v4, [⟨8, 100⟩, ⟨16, 50⟩, ⟨24, 25⟩, ⟨25, 20⟩, ⟨26, 10⟩, ⟨27, 5⟩, ⟨28, 4⟩,
      ⟨29, 3⟩, ⟨30, 2⟩], []⟩
  | .cascading => ⟨.cascading, .v4, [⟨24, 1⟩, ⟨16, 3⟩, ⟨8, 10⟩], []⟩

end Policy

end NetRanges
