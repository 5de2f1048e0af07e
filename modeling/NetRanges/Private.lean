import NetRanges.Block

/-!
# Private networks

The private IPv4 networks of RFC 1918: `10.0.0.0/8`, `172.16.0.0/12` and `192.168.0.0/16`. A
block counts as private when its network address lies in one of them.
-/
namespace NetRanges

/-- The three private IPv4 networks. -/
def privateBlocks : List Block :=
  [⟨.v4, 8, 0x0a000000, by decide, by decide, by decide⟩,
   ⟨.v4, 12, 0xac100000, by decide, by decide, by decide⟩,
   ⟨.v4, 16, 0xc0a80000, by decide, by decide, by decide⟩]

/-- Whether the block's network address lies in a private network. -/
def Block.isPrivate (b : Block) : Bool := privateBlocks.any fun p => p.contains b.first

end NetRanges
