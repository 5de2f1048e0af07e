import NetRanges.Cli.Args
import NetRanges.Describe
import NetRanges.Json.Value

/-!
# Running a command

A command reads its entries from its arguments, or from the lines of the input when it has
none, and returns its output as text:

* `merge` writes the union of the entries, as the fewest blocks or, with `--ranges`, as ranges;
* `subtract` writes the entries less the exclusions the same way;
* `export` exports the entries with the settings, overridden by the command's options, and joins
  the blocks with the separator.

Blocks and ranges are written one per line, or as a JSON list of texts with `--json`.
-/
namespace NetRanges.Cli

/-- The description of a command, as in trace notes. -/
def Command.describe : Command → String
  | .merge ranges entries =>
    Describe.record "Merge" [("ranges", Describe.switch ranges),
      ("entries", Describe.list (entries.map Text.quote))]
  | .subtract exclude ranges entries =>
    Describe.record "Subtract" [("exclude", Describe.list (exclude.map Text.quote)),
      ("ranges", Describe.switch ranges), ("entries", Describe.list (entries.map Text.quote))]
  | .exportBlocks mode policy keepPrivate exclude separator entries =>
    Describe.record "Export" [("mode", match mode with
        | some m => "Some(" ++ m.tag ++ ")"
        | none => "None"),
      ("policy", Describe.optionText policy), ("keep_private", Describe.switch keepPrivate),
      ("exclude", Describe.list (exclude.map Text.quote)), ("separator", Text.quote separator),
      ("entries", Describe.list (entries.map Text.quote))]

/-- The entries of a command: its arguments, or else the lines of the input. -/
def readEntries (entries : List String) (input : String) : Traced (List String) :=
  if entries.isEmpty then do
    Traced.note .debug .command "Reading entries from input"
    pure (Text.lines input)
  else pure entries

/-- Texts one per line, or as a JSON list. -/
def renderTexts (json : Bool) (texts : List String) : String :=
  if json then (Json.Value.strings texts).render else "\n".intercalate texts

/-- Merged ranges as ranges or as their fewest blocks. -/
def renderRanges (rs : List Range) (asRanges json : Bool) : String :=
  if asRanges then renderTexts json (rs.map Range.text)
  else renderTexts json ((rs.flatMap Range.cover).map Block.text)

/-- The ranges of the entries read from the items. -/
def rangesOf (items : List String) : Traced (List Range) := do
  let entries ← Entry.parseAll items
  pure (entries.map Entry.toRange)

/-- Runs a command line with the settings and the input, giving its output or a settings
error. -/
def run (inv : Invocation) (settings : Settings) (input : String) :
    Traced (Except ConfigError String) := do
  Traced.note .debug .command ("run(" ++ inv.command.describe ++ ")")
  match inv.command with
  | .merge ranges entries =>
    let entries ← readEntries entries input
    let merged := Range.union (← rangesOf entries)
    Traced.note .info .command ("Merged " ++ Address.decimal entries.length ++ " entries into " ++
      Address.decimal merged.length ++ " ranges")
    pure (.ok (renderRanges merged ranges inv.json))
  | .subtract exclude ranges entries =>
    let entries ← readEntries entries input
    let excluded ← rangesOf exclude
    if excluded.isEmpty then
      Traced.note .warn .command
        ("subtract no valid exclusions in " ++ Describe.list (exclude.map Text.quote))
    let base ← rangesOf entries
    pure (.ok (renderRanges (Range.difference base excluded) ranges inv.json))
  | .exportBlocks mode policy keepPrivate exclude separator entries =>
    let entries ← readEntries entries input
    let extra ← Entry.parseAll exclude
    let s : Settings :=
      { settings with
        mode := mode.getD settings.mode
        policy := match policy with
          | some p => some p
          | none => settings.policy
        excludePrivate := if keepPrivate then false else settings.excludePrivate
        exclude := settings.exclude ++ extra }
    match s.exportOptions with
    | .error e => pure (.error e)
    | .ok o =>
      let blocks ← exportBlocks entries o
      pure (.ok (if inv.json then renderTexts true (blocks.map Block.text) else render blocks separator))

end NetRanges.Cli
