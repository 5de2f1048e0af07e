import NetRanges.Range.Union

/-!
# Difference of ranges

The difference of two lists of ranges holds the addresses of the first list that no range of
the second list holds, as a merged list. Both lists are merged first; each base range is then
carved by the exclusions in order: an exclusion may cut a hole in the middle, trim either end
or remove the range entirely, and once an exclusion reaches past the range's end nothing is
left to carve.

The sweep (`sweepDifference`) carves the same way but visits fewer exclusions: for each base
range it skips the leading exclusions that end before the range (a partition point), visits the
following ones while they start no later than the range's end, breaks off once nothing of the
range is left and passes over an exclusion that misses what is left. It builds every piece with
the checked operations, so a cut that lay outside the range's family or ends would fault.
-/
namespace NetRanges

namespace Range

/-- The part of `r` below the first address of `x`, if any. -/
def below (r x : Range) : Option Range :=
  if h : r.lo < x.lo then
    some ⟨r.family, r.lo, min (x.lo - 1) r.hi, by have := r.lo_le; omega,
      by have := r.hi_lt; omega⟩
  else none

/-- The part of `r` above the last address of `x`, if any. -/
def above (r x : Range) : Option Range :=
  if h : x.hi < r.hi then some ⟨r.family, x.hi + 1, r.hi, by omega, r.hi_lt⟩ else none

/-- What is left of `r` after removing the sorted, disjoint exclusions. An exclusion of
another family, or wholly before `r`, is passed over; one wholly after `r` ends the carving. -/
def carve (r : Range) : List Range → List Range
  | [] => [r]
  | x :: xs =>
    if x.family ≠ r.family ∨ x.hi < r.lo then carve r xs
    else if r.hi < x.lo then [r]
    else
      (below r x).toList ++
        match above r x with
        | some rest => carve rest xs
        | none => []

/-- The merged list of the addresses of `base` that no range of `excluded` holds. -/
def difference (base excluded : List Range) : List Range :=
  let cuts := union excluded
  union ((union base).flatMap fun r => carve r cuts)

/-! ### The sweep -/

/-- The part of `r` below a cut `x`, if `x` starts after `r`: its last address is the
predecessor of `x`'s first, both taken by the checked operations. -/
def cutBelow (r x : Range) : Except Fault (Option Range) :=
  if r.first < x.first then do
    let e ← x.first.decrement
    let piece ← Range.new r.first e
    pure (some piece)
  else pure none

/-- The part of `r` above a cut `x`, if `x` ends before `r`: its first address is the successor
of `x`'s last, both taken by the checked operations. -/
def cutAbove (r x : Range) : Except Fault (Option Range) :=
  if x.last < r.last then do
    let s ← x.last.increment
    let piece ← Range.new s r.last
    pure (some piece)
  else pure none

/-- The pieces of `r` around a cut `x`: the part below `x` and the part above it, each `none`
where `x` reaches that end of `r`. -/
def splitAround (r x : Range) : Except Fault (Option Range × Option Range) := do
  let below ← cutBelow r x
  let above ← cutAbove r x
  pure (below, above)

/-- The sweep of what is left of a base range, `rest`, through the exclusions it visits, in
order: with nothing left it breaks off, an exclusion that misses what is left is passed over, and
otherwise the part below the exclusion is kept and the sweep goes on with the part above. Gives
the parts kept and what is left at the end. -/
def sweepCuts : Option Range → List Range → Except Fault (List Range × Option Range)
  | rest, [] => pure ([], rest)
  | none, _ :: _ => pure ([], none)
  | some cur, x :: xs =>
    if cur.overlaps x then do
      let (below, above) ← splitAround cur x
      let (kept, rest) ← sweepCuts above xs
      pure (below.toList ++ kept, rest)
    else sweepCuts (some cur) xs

/-- The exclusions the sweep of `r` visits: from the partition point, the number of leading
exclusions that end before `r` (where a bisection lands when those come first), as long as they
start no later than `r`'s end. -/
def visited (r : Range) (cuts : List Range) : List Range :=
  (cuts.drop (cuts.takeWhile fun x => x.last < r.first).length).takeWhile fun x => x.first ≤ r.last

/-- What is left of `r` once the sweep has cut out the exclusions it visits. -/
def sweepRange (r : Range) (cuts : List Range) : Except Fault (List Range) := do
  let (kept, rest) ← sweepCuts (some r) (visited r cuts)
  pure (kept ++ rest.toList)

/-- The difference as the sweep computes it: both lists merged, each base range swept through
the merged exclusions, and the pieces left merged. -/
def sweepDifference (base excluded : List Range) : Except Fault (List Range) := do
  let cuts := union excluded
  let pieces ← (union base).mapM fun r => sweepRange r cuts
  pure (union pieces.flatten)

end Range

/-- The difference of entries, every remaining range written as a range. -/
def Entry.subtract (base excluded : List Entry) : List Entry :=
  (Range.difference (base.map Entry.toRange) (excluded.map Entry.toRange)).map Entry.range

end NetRanges
