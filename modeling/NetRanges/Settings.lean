import NetRanges.Export

/-!
# Settings

Settings come from four variables, looked up by name: the mode, a policy text, whether private
networks are excluded, and a list of excluded entries. They are read in that order and the
first bad value stops the reading. A policy text is only checked for its step syntax when read;
the full checks of a policy run when the settings' policy is built (`Settings.policy`).
-/
namespace NetRanges

/-- The variables that settings are read from. -/
inductive Variable where
  | mode
  | policy
  | excludePrivate
  | exclude
  deriving DecidableEq, Repr

def Variable.name : Variable → String
  | .mode => "CIDR_MERGER_MODE"
  | .policy => "CIDR_MERGER_POLICY"
  | .excludePrivate => "CIDR_MERGER_EXCLUDE_PRIVATE"
  | .exclude => "CIDR_MERGER_EXCLUDE"

/-- Why settings could not be read or used. -/
inductive ConfigError where
  /-- A variable holds a bad mode or policy. -/
  | policy (var : Variable) (e : PolicyError)
  /-- A variable holds a text that is not a switch value. -/
  | invalidBool (var : Variable) (value : String)
  deriving DecidableEq, Repr

def ConfigError.message : ConfigError → String
  | .policy v e => v.name ++ ": " ++ e.message
  | .invalidBool v t => v.name ++ ": expected true or false, got " ++ Text.quote t

/-- Reads a switch: blanks trimmed, letters compared without case; `1`, `true`, `yes`, `on` or
`0`, `false`, `no`, `off`. -/
def parseSwitch (s : String) : Option Bool :=
  match (Text.trim s).map Char.toLower with
  | "1" | "true" | "yes" | "on" => some true
  | "0" | "false" | "no" | "off" => some false
  | _ => none

/-- The settings of an export. -/
structure Settings where
  mode : Mode
  policy : Option String
  excludePrivate : Bool
  exclude : List Entry

namespace Settings

/-- Cascading mode, the built-in policy, private networks excluded, nothing else excluded. -/
def standard : Settings := ⟨.cascading, none, true, []⟩

def switchText (b : Bool) : String := if b then "true" else "false"

/-- Reads the settings from a lookup of variables; an unset variable keeps its standard value,
and a blank policy text counts as unset. -/
def ofLookup (lookup : String → Option String) : Traced (Except ConfigError Settings) := do
  let mode ← match lookup Variable.mode.name with
    | none => pure (Except.ok Mode.cascading)
    | some t => pure ((Mode.parse t).mapError (.policy .mode))
  match mode with
  | .error e => pure (.error e)
  | .ok mode =>
    let policy : Except ConfigError (Option String) :=
      match lookup Variable.policy.name with
      | some t =>
        if (Text.trim t).isEmpty then .ok none
        else (parseSteps t).map (fun _ => some t) |>.mapError (.policy .policy)
      | none => .ok none
    match policy with
    | .error e => pure (.error e)
    | .ok policy =>
      let excludePrivate : Except ConfigError Bool :=
        match lookup Variable.excludePrivate.name with
        | some t =>
          match parseSwitch t with
          | some b => .ok b
          | none => .error (.invalidBool .excludePrivate t)
        | none => .ok true
      match excludePrivate with
      | .error e => pure (.error e)
      | .ok excludePrivate =>
        let exclude ← match lookup Variable.exclude.name with
          | some t => Entry.parseAll [t]
          | none => pure []
        Traced.note .debug .settings ("Settings: mode=" ++ mode.name ++ " policy=" ++
          policy.getD "default" ++ " exclude_private=" ++ switchText excludePrivate ++
          " exclude=" ++ Address.decimal exclude.length)
        pure (.ok ⟨mode, policy, excludePrivate, exclude⟩)

/-- The policy the settings name: the policy text's steps in the settings' mode for IPv4,
checked, or the mode's built-in policy. -/
def toPolicy (s : Settings) : Except ConfigError Policy :=
  match s.policy with
  | some t => (parseSteps t >>= Policy.make s.mode .v4).mapError (.policy .policy)
  | none => .ok (Policy.builtIn s.mode)

def exportOptions (s : Settings) : Except ConfigError ExportOptions :=
  s.toPolicy.map fun p => ⟨p, s.excludePrivate, s.exclude⟩

end Settings

end NetRanges
