import NetRanges.Range

/-!
# Covering a range with blocks

Every range is the union of a unique shortest list of blocks, its cover. The cover is built
from the range's first address on: each block starts at the cursor and is the largest block
that both starts there and ends within the range. Its length is the larger of two bounds
(`coverLen`):

* alignment: a block starting at the cursor may only have host bits where the cursor has zero
  bits, so its length is at least `width - trailingZeros cursor`;
* end: the block must stop before `hi + 1`, so its length reaches the highest bit in which the
  cursor and `hi + 1` differ; a range ending at the family's last address has no such bound.

The next block starts right after the last address of the previous one, until the range's end
is reached.
-/

-- Powers of numbers are taken through the core instance, whatever else is in scope.
attribute [local instance (1100)] instPowNat

namespace NetRanges

namespace Range

/-- The length of the block the cover takes at `cursor` for a range ending at `hi`. -/
def coverLen (f : Family) (cursor hi : Nat) : Nat :=
  max (f.width - Address.lowZeros f.width cursor)
    (if hi + 1 < f.size then Address.highBitPos f.width ((hi + 1) ^^^ cursor) else 0)

theorem coverLen_le (f : Family) (cursor hi : Nat) : coverLen f cursor hi ≤ f.width := by
  unfold coverLen
  have := Address.highBitPos_le f.width ((hi + 1) ^^^ cursor)
  split <;> omega

/-- The block the cover takes at `cursor` for a range ending at `hi`. -/
def coverBlock (f : Family) (hi cursor : Nat) (h : cursor < f.size) : Block :=
  Block.containing ⟨f, cursor, h⟩ (coverLen f cursor hi) (coverLen_le f cursor hi)

@[simp] theorem coverBlock_family (f : Family) (hi cursor : Nat) (h : cursor < f.size) :
    (coverBlock f hi cursor h).family = f := rfl

theorem le_coverBlock_top (f : Family) (hi cursor : Nat) (h : cursor < f.size) :
    cursor ≤ (coverBlock f hi cursor h).top := by
  have := Nat.lt_div_mul_add (a := cursor) (Address.span_pos f (coverLen f cursor hi))
  simp only [coverBlock, Block.top, Block.span, Block.containing_base, Block.containing_family,
    Block.containing_len]
  omega

/-- The blocks covering the values from `cursor` to `hi` of family `f`. -/
def coverFrom (f : Family) (hi : Nat) (hhi : hi < f.size) (cursor : Nat) (h : cursor < f.size) :
    List Block :=
  if hlt : (coverBlock f hi cursor h).top < hi then
    coverBlock f hi cursor h ::
      coverFrom f hi hhi ((coverBlock f hi cursor h).top + 1) (by omega)
  else [coverBlock f hi cursor h]
termination_by hi + 1 - cursor
decreasing_by
  have := le_coverBlock_top f hi cursor h
  omega

/-- The shortest list of blocks whose union is the range, in address order. -/
def cover (r : Range) : List Block :=
  coverFrom r.family r.hi r.hi_lt r.lo r.lo_lt_size

end Range

end NetRanges
