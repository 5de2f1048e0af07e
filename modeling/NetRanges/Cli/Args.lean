import NetRanges.Policy

/-!
# Command-line arguments

The command line is `[--json] <command> [options] [entries]`, with three commands:

* `merge [--ranges] [ENTRIES]`;
* `subtract (-x | --exclude) <EXCLUDE>... [--ranges] [ENTRIES]`, at least one exclusion;
* `export [(-m | --mode) <MODE>] [(-p | --policy) <POLICY>] [--keep-private]
  [(-x | --exclude) <EXCLUDE>]... [(-s | --separator) <SEPARATOR>] [ENTRIES]`, the separator
  `,` unless given.

`--json` may stand before or after the command; `-h` or `--help` asks for help anywhere and
`-V` or `--version` for the version before the command; `help` is a command that asks for help.

Options are read left to right, and the first fault ends the reading, with one delay: an option
whose value is the next argument is checked, for a repeat and for its value, only when the next
option, `--`, an entry or the end comes, so an unknown option or a flag given a value after it
is reported first. A value follows its
option as the next argument, after `=` (`--policy=24:1`), or, for a short option, in the same
argument (`-p24:1`, `-p=24:1`); an argument that starts with `-` (other than `-` alone) is never
taken as a value. After `--` every argument is an entry. An option given twice is a fault unless
it may repeat (`-x`), and a mode value must read as a mode.
-/
namespace NetRanges.Cli

/-- Why the command line was not accepted, or that it asked for help or the version. -/
inductive ArgsError where
  | displayHelp
  | displayVersion
  | displayHelpOnMissingArgumentOrSubcommand
  | missingSubcommand
  | invalidSubcommand
  | unknownArgument
  | invalidValue
  | valueValidation
  | missingRequiredArgument
  | argumentConflict
  | tooManyValues
  deriving DecidableEq, Repr

/-- The name of the kind of outcome. -/
def ArgsError.name : ArgsError → String
  | .displayHelp => "DisplayHelp"
  | .displayVersion => "DisplayVersion"
  | .displayHelpOnMissingArgumentOrSubcommand => "DisplayHelpOnMissingArgumentOrSubcommand"
  | .missingSubcommand => "MissingSubcommand"
  | .invalidSubcommand => "InvalidSubcommand"
  | .unknownArgument => "UnknownArgument"
  | .invalidValue => "InvalidValue"
  | .valueValidation => "ValueValidation"
  | .missingRequiredArgument => "MissingRequiredArgument"
  | .argumentConflict => "ArgumentConflict"
  | .tooManyValues => "TooManyValues"

/-- A command with its options and entries. -/
inductive Command where
  | merge (ranges : Bool) (entries : List String)
  | subtract (exclude : List String) (ranges : Bool) (entries : List String)
  | exportBlocks (mode : Option Mode) (policy : Option String) (keepPrivate : Bool)
      (exclude : List String) (separator : String) (entries : List String)
  deriving DecidableEq

/-- A whole command line: the command and whether output is JSON. -/
structure Invocation where
  json : Bool
  command : Command

/-- An option of a command. -/
structure Switch where
  long : String
  short : Option Char
  takesValue : Bool
  repeatable : Bool
  accepts : String → Bool

/-- A flag: no value, given at most once. -/
def Switch.flag (long : String) : Switch := ⟨long, none, false, false, fun _ => true⟩

/-- What one command's arguments gave: every option given, with its value (empty for a flag),
in order, and the entries. -/
structure Found where
  given : List (String × String)
  entries : List String

/-- The values given for an option, in order. -/
def Found.get (f : Found) (long : String) : List String :=
  (f.given.filter (·.1 == long)).map (·.2)

def Found.has (f : Found) (long : String) : Bool := !(f.get long).isEmpty

/-- Whether an argument looks like an option and so cannot be a value. -/
def looksLikeOption (arg : String) : Bool := arg.startsWith "-" && arg != "-"

/-- Records an occurrence of `s` with `value`, refusing a repeat and a value `s` does not
accept. -/
def record (found : Found) (s : Switch) (value : String) : Except ArgsError Found :=
  if !s.repeatable && !(found.get s.long).isEmpty then .error .argumentConflict
  else if !s.accepts value then .error .valueValidation
  else .ok { found with given := found.given ++ [(s.long, value)] }

/-- The name and attached value of a long option's argument body (`name` or `name=value`). -/
def splitLong (body : String) : String × Option String :=
  match Text.cutAt? '=' body with
  | some (n, v) => (n, some v)
  | none => (body, none)

/-- The value attached to a short option in its cluster: the rest of the cluster, without one
leading `=`. -/
def shortAttached : List Char → Option String
  | [] => none
  | '=' :: v => some (String.ofList v)
  | v => some (String.ofList v)

/-- An option whose value is the next argument: the option, and the value once read. It is
checked, for a repeat and for its value, only when the next option, `--`, an entry or the end
settles it; an unknown option or a flag given a value is reported before it. -/
abbrev Pending := Option (Switch × Option String)

/-- Settles a pending option: records it, or fails when it never got its value. -/
def settle (found : Found) : Pending → Except ArgsError Found
  | none => .ok found
  | some (_, none) => .error .invalidValue
  | some (s, some v) => record found s v

/-- Reads a command's arguments. `cluster` holds short options still to read from the last
argument, `dashed` says whether `--` was passed. -/
def readArgs (switches : List Switch) (cluster : List Char) (args : List String) (dashed : Bool)
    (pending : Pending) (found : Found) : Except ArgsError Found :=
  match cluster with
  | c :: more =>
    match (if c == 'h' then none else switches.find? (·.short == some c)) with
    | none =>
      if c == 'h' then
        match settle found pending with
        | .ok _ => .error .displayHelp
        | .error e => .error e
      else .error .unknownArgument
    | some s =>
      match settle found pending with
      | .error e => .error e
      | .ok found =>
        if s.takesValue then
          match shortAttached more with
          | some v => match record found s v with
            | .ok f => readArgs switches [] args false none f
            | .error e => .error e
          | none => readArgs switches [] args false (some (s, none)) found
        else match record found s "" with
          | .ok f => readArgs switches more args false none f
          | .error e => .error e
  | [] =>
    match args with
    | [] => settle found pending
    | arg :: rest =>
      if dashed then readArgs switches [] rest true none { found with entries := found.entries ++ [arg] }
      else if arg == "--" then
        match settle found pending with
        | .ok f => readArgs switches [] rest true none f
        | .error e => .error e
      else if arg.startsWith "--" then
        let name := (splitLong (String.ofList (arg.toList.drop 2))).1
        let attached := (splitLong (String.ofList (arg.toList.drop 2))).2
        match (if name == "help" then none else switches.find? (·.long == name)) with
        | none =>
          if name == "help" then
            match attached with
            | some _ => .error .tooManyValues
            | none => match settle found pending with
              | .ok _ => .error .displayHelp
              | .error e => .error e
          else .error .unknownArgument
        | some s =>
          if !s.takesValue && attached.isSome then .error .tooManyValues
          else
            match settle found pending with
            | .error e => .error e
            | .ok found =>
              if s.takesValue then
                match attached with
                | some v => match record found s v with
                  | .ok f => readArgs switches [] rest false none f
                  | .error e => .error e
                | none => readArgs switches [] rest false (some (s, none)) found
              else match record found s "" with
                | .ok f => readArgs switches [] rest false none f
                | .error e => .error e
      else if looksLikeOption arg then readArgs switches (arg.toList.drop 1) rest false pending found
      else
        match pending with
        | some (s, none) => readArgs switches [] rest false (some (s, some arg)) found
        | _ =>
          match settle found pending with
          | .ok f => readArgs switches [] rest false none { f with entries := f.entries ++ [arg] }
          | .error e => .error e
termination_by (args.length, cluster.length)

/-- The global `--json` flag, accepted by every command. -/
def jsonSwitch : Switch := Switch.flag "json"

def mergeSwitches : List Switch := [jsonSwitch, Switch.flag "ranges"]

/-- The option `-x`, long form `--exclude`, which may repeat. -/
def excludeSwitch : Switch := ⟨"exclude", some 'x', true, true, fun _ => true⟩

def subtractSwitches : List Switch := [jsonSwitch, excludeSwitch, Switch.flag "ranges"]

def exportSwitches : List Switch :=
  [jsonSwitch, ⟨"mode", some 'm', true, false, fun v => (Mode.parse v).toBool⟩,
   ⟨"policy", some 'p', true, false, fun _ => true⟩, Switch.flag "keep-private", excludeSwitch,
   ⟨"separator", some 's', true, false, fun _ => true⟩]

def commandNames : List String := ["merge", "subtract", "export", "help"]

/-- The mode given to `export`, if any. -/
def modeOf (values : List String) : Option Mode :=
  values.head?.bind fun v => (Mode.parse v).toOption

/-- Builds a command from what its arguments gave. -/
def commandOf (name : String) (f : Found) : Except ArgsError Command :=
  match name with
  | "merge" => .ok (.merge (f.has "ranges") f.entries)
  | "subtract" =>
    if (f.get "exclude").isEmpty then .error .missingRequiredArgument
    else .ok (.subtract (f.get "exclude") (f.has "ranges") f.entries)
  | _ => .ok (.exportBlocks (modeOf (f.get "mode")) (f.get "policy").head?
      (f.has "keep-private") (f.get "exclude") ((f.get "separator").head?.getD ",")
      f.entries)

/-- Reads the arguments after the command name. -/
def readCommand (name : String) (json : Bool) (args : List String) : Except ArgsError Invocation :=
  let switches := match name with
    | "merge" => mergeSwitches
    | "subtract" => subtractSwitches
    | _ => exportSwitches
  match readArgs switches [] args false none ⟨[], []⟩ with
  | .error e => .error e
  | .ok f => (fun c => ⟨json || f.has "json", c⟩) <$> commandOf name f

/-- Reads the arguments before the command, then the command. The first argument that is not
an option names the command; `help` asks for help, on its own or with one command name. After
`--` no command can follow. Without a command the outcome is a request for help when nothing
was given, and a missing command after `--json`. -/
def readTop (json dashed : Bool) : List String → Except ArgsError Invocation
  | [] => if json then .error .missingSubcommand else .error .displayHelpOnMissingArgumentOrSubcommand
  | arg :: rest =>
    if dashed then
      if commandNames.contains arg then .error .unknownArgument else .error .invalidSubcommand
    else if arg == "help" then
      match rest with
      | [] => .error .displayHelp
      | [name] => if commandNames.contains name then .error .displayHelp else .error .invalidSubcommand
      | _ => .error .invalidSubcommand
    else if commandNames.contains arg then readCommand arg json rest
    else if arg == "--" then readTop json true rest
    else if arg.startsWith "--" then
      let (name, attached) := splitLong (String.ofList (arg.toList.drop 2))
      if name == "json" || name == "help" || name == "version" then
        if attached.isSome then .error .tooManyValues
        else if name == "help" then .error .displayHelp
        else if name == "version" then .error .displayVersion
        else if json then .error .argumentConflict
        else readTop true false rest
      else .error .unknownArgument
    else if looksLikeOption arg then
      match arg.toList.drop 1 with
      | 'h' :: _ => .error .displayHelp
      | 'V' :: _ => .error .displayVersion
      | _ => .error .unknownArgument
    else .error .invalidSubcommand

/-- Reads a whole command line (without the program name). -/
def Invocation.parse (args : List String) : Except ArgsError Invocation := readTop false false args

end NetRanges.Cli
