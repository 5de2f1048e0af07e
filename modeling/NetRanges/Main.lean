import NetRanges.Cli.Run

/-!
# The command-line program

Reads the command line, the settings from the environment and, when the command has no
entries, the standard input; prints the command's output. Help and version requests print a
short text; a bad command line, bad settings or a failing command print a message on the error
stream and end with a failure status.
-/

open NetRanges NetRanges.Cli

def usage : String :=
  "Usage: cidr-merger [--json] <COMMAND>\n\nCommands:\n  merge     Merge entries into the fewest blocks or ranges\n  subtract  Remove excluded entries\n  export    Export observed addresses as coarsened blocks\n  help      Print this message"

/-- Reads the rest of a stream. -/
partial def readAll (stream : IO.FS.Stream) (acc : String) : IO String := do
  let line ← stream.getLine
  if line.isEmpty then pure acc else readAll stream (acc ++ line)

/-- Whether a command takes its entries from the input. -/
def readsInput : Command → Bool
  | .merge _ entries => entries.isEmpty
  | .subtract _ _ entries => entries.isEmpty
  | .exportBlocks _ _ _ _ _ entries => entries.isEmpty

def main (args : List String) : IO UInt32 := do
  match Invocation.parse args with
  | .error .displayHelp =>
    IO.println usage
    pure 0
  | .error .displayVersion =>
    IO.println "cidr-merger 0.1.0"
    pure 0
  | .error e =>
    IO.eprintln ("error: " ++ e.name ++ "\n\n" ++ usage)
    pure 2
  | .ok inv =>
    let names := [Variable.mode, .policy, .excludePrivate, .exclude].map Variable.name
    let vars ← names.filterMapM fun n => do
      pure ((← IO.getEnv n).map fun v => (n, v))
    match (Settings.ofLookup fun k => (vars.find? (·.1 == k)).map (·.2)).value with
    | .error e =>
      IO.eprintln ("Error: " ++ e.message)
      pure 1
    | .ok settings =>
      let input ← if readsInput inv.command then readAll (← IO.getStdin) "" else pure ""
      match (run inv settings input).value with
      | .ok out =>
        IO.println out
        pure 0
      | .error e =>
        IO.eprintln ("Error: " ++ e.message)
        pure 1
