import NetRanges.Entry

/-!
# Union of ranges

The union of a list of ranges is written as a merged list: sorted by first address, every
IPv4 range before every IPv6 range, and two neighbours of one family separated by at least one
address that neither holds. Each set of addresses has exactly one merged list, so the union
does not depend on the order of its input.

The union sorts the ranges by first address (`List.mergeSort`, which keeps equal keys in input
order) and sweeps once, joining each range into the current one when it is of the same family
and starts no later than one past the current end.
-/
namespace NetRanges

namespace Range

/-- The smallest range holding two ranges of one family. -/
def hull (r s : Range) (h : r.family = s.family) : Range :=
  ⟨r.family, min r.lo s.lo, max r.hi s.hi, by have := r.lo_le; omega, by
    have := r.hi_lt
    have := s.hi_lt
    rw [← h] at this
    omega⟩

/-- Whether `s` can be joined to `r` without leaving a gap: same family, and `s` starts no
later than one past the end of `r`. -/
def touches (r s : Range) : Bool := r.family == s.family && s.lo ≤ r.hi + 1

/-- The sweep: `cur` is the range being grown, the list the remaining sorted ranges. -/
def sweep (cur : Range) : List Range → List Range
  | [] => [cur]
  | r :: rs =>
    if h : cur.family = r.family ∧ r.lo ≤ cur.hi + 1 then sweep (hull cur r h.1) rs
    else cur :: sweep r rs

/-- Ranges sorted by first address, keeping equal first addresses in input order. -/
def sortByFirst (rs : List Range) : List Range :=
  rs.mergeSort fun r s => r.first.key ≤ s.first.key

/-- The merged list of the union of the ranges. -/
def union (rs : List Range) : List Range :=
  match sortByFirst rs with
  | [] => []
  | r :: rs => sweep r rs

end Range

/-- The blocks of the union of blocks: the union's ranges, each covered by its fewest
blocks. -/
def Block.merge (bs : List Block) : List Block :=
  (Range.union (bs.map Block.toRange)).flatMap Range.cover

/-- The union of entries, each merged range in its simplest form. -/
def Entry.merge (es : List Entry) : List Entry :=
  (Range.union (es.map Entry.toRange)).map Entry.ofRange

end NetRanges
