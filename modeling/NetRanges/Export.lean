import NetRanges.Coarsen
import NetRanges.Private
import NetRanges.Range.Difference

/-!
# Export

Export turns a history of observed addresses, as text, into a short list of blocks:

1. read every entry (`Entry.parseAll`) and take the blocks of each;
2. if private networks are excluded, drop the blocks whose network address is private, cut
   the private networks out of the result, and reserve them so that no coarsened block covers
   them;
3. coarsen by the policy;
4. merge the coarsened blocks;
5. cut out the excluded entries;
6. cover what remains with the fewest blocks.

The result is sorted, its blocks are disjoint and not mergeable, and it holds no excluded
address.
-/
namespace NetRanges

/-- What an export does besides reading the entries. -/
structure ExportOptions where
  policy : Policy
  excludePrivate : Bool
  exclude : List Entry

/-- The built-in cascading policy, private networks excluded, no other exclusions. -/
def ExportOptions.standard : ExportOptions := ⟨Policy.builtIn .cascading, true, []⟩

/-- The blocks kept when private networks are dropped, or all of them. -/
def dropPrivate (excludePrivate : Bool) (blocks : List Block) : List Block :=
  if excludePrivate then blocks.filter fun b => !b.isPrivate else blocks

def exportBlocks (entries : List String) (o : ExportOptions) : Traced (List Block) := do
  let parsed ← Entry.parseAll entries
  let blocks := parsed.flatMap Entry.blocks
  let kept := dropPrivate o.excludePrivate blocks
  let excluded := o.exclude.map Entry.toRange ++
    (if o.excludePrivate then privateBlocks.map Block.toRange else [])
  let policy := if o.excludePrivate then o.policy.withReserved privateBlocks else o.policy
  if o.excludePrivate then
    Traced.note .debug .exporting
      ("Dropped " ++ Address.decimal (blocks.length - kept.length) ++ " private entries")
  let coarse ← coarsen policy kept
  let result := (Range.difference (Range.union (coarse.map Block.toRange)) excluded).flatMap
    Range.cover
  Traced.note .info .exporting ("Exported " ++ Address.decimal result.length ++ " blocks from " ++
    Address.decimal blocks.length ++ " entries (" ++ policy.mode.name ++ " mode)")
  pure result

/-- The blocks' texts joined by a separator. -/
def render (blocks : List Block) (separator : String) : String :=
  separator.intercalate (blocks.map Block.text)

end NetRanges
