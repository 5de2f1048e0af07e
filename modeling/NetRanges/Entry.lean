import NetRanges.Range.Cover
import NetRanges.Text.Blank
import NetRanges.Trace

/-!
# Entries

An entry is a set of addresses as somebody wrote it: a single host (`10.0.0.1`), a network
(`10.0.0.0/8`) or a range (`10.0.0.1-10.0.0.9`). Reading trims blanks, then looks for a `/`
(a network), then for a `-` (a range, both sides trimmed), and otherwise reads an address.

Every entry denotes a range (`toRange`) and a list of blocks (`blocks`); a range has a simplest
entry (`ofRange`): a host if it holds one address, a network if it is one block, and otherwise
the range itself.
-/
namespace NetRanges

/-- A set of addresses in one of its three written forms. -/
inductive Entry where
  | host (a : Address)
  | network (b : Block)
  | range (r : Range)
  deriving DecidableEq

namespace Entry

def family : Entry → Family
  | host a => a.family
  | network b => b.family
  | range r => r.family

def toRange : Entry → Range
  | host a => Range.single a
  | network b => b.toRange
  | range r => r

/-- The blocks of the entry: the host's block, the network itself, or the range's cover. -/
def blocks : Entry → List Block
  | host a => [Block.host a]
  | network b => [b]
  | range r => r.cover

/-- The simplest entry for a range. -/
def ofRange (r : Range) : Entry :=
  if r.lo = r.hi then host r.first
  else
    match r.cover with
    | [b] => network b
    | _ => range r

def text : Entry → String
  | host a => a.text
  | network b => b.text
  | range r => r.text

/-- The name of the entry's form: `single`, `network` or `range`. -/
def kind : Entry → String
  | host _ => "single"
  | network _ => "network"
  | range _ => "range"

/-- Reads an entry from a text, trimmed of blanks. A text holding `/` is a network, else one
holding `-` is a range, else an address. A range whose sides are not addresses, are of two
families or are out of order is an error naming the whole trimmed text. -/
def parse (s : String) : Except ParseError Entry :=
  let t := Text.trim s
  if t.toList.contains '/' then network <$> Block.parse t
  else
    match Text.cutAt? '-' t with
    | some (l, r) =>
      match Address.ofText? (Text.trim l), Address.ofText? (Text.trim r) with
      | some a, some b =>
        match Range.ofBounds? a b with
        | some r => .ok (range r)
        | none => .error (.range t)
      | _, _ => .error (.range t)
    | none => host <$> Address.parse t

/-- The note left for a piece that could not be read. -/
def skipNote (e : ParseError) : Note :=
  ⟨.debug, .reading, "skip " ++ e.text ++ " (" ++ e.reason ++ ")"⟩

/-- Reads every piece of every item (`Text.pieces`), keeping the entries that read and
leaving a note for each piece that does not, and a summary if any was skipped. -/
def parseAll (items : List String) : Traced (List Entry) :=
  let results := (items.flatMap Text.pieces).map parse
  let kept := results.filterMap fun r => r.toOption
  let skipped := results.filterMap fun r => match r with
    | .error e => some e
    | .ok _ => none
  let summary :=
    if skipped.isEmpty then []
    else [⟨.info, .reading, "Skipped " ++ Address.decimal skipped.length ++
      " unparsable entries, kept " ++ Address.decimal kept.length⟩]
  ⟨skipped.map skipNote ++ summary, kept⟩

end Entry

end NetRanges
