import NetRanges.Address.Text

/-!
# Faults

Some operations have a precondition that their callers must keep: an address has a successor
only below the last address of its family, a block length is at most the family's width, and
the bounds of a range are of one family and in order. Where a request breaks one, the operation
reports a fault instead of a value. The faults' messages name the offending values.
-/
namespace NetRanges

/-- A broken precondition of an operation on addresses, blocks or ranges. -/
inductive Fault where
  /-- The last address of a family has no successor. -/
  | pastLast (a : Address)
  /-- The first address of a family has no predecessor. -/
  | beforeFirst (a : Address)
  /-- A block length longer than the family's width. -/
  | prefixTooLong (len : Nat) (family : Family)
  /-- Range bounds out of order. -/
  | startAfterEnd (first last : Address)
  /-- Range bounds of two families. -/
  | mixedRange (first last : Address)
  /-- Exclusive or of addresses of two families. -/
  | mixedXor (a b : Address)

namespace Fault

/-- The trailer of a fault about two families: the families of the two values, in order. -/
def familiesTrailer (f g : Family) : String :=
  "\n  left: " ++ f.tag ++ "\n right: " ++ g.tag

def message : Fault → String
  | pastLast a => "cannot increment " ++ a.text ++ ", the last " ++ a.family.name ++ " address"
  | beforeFirst a =>
    "cannot decrement " ++ a.text ++ ", the first " ++ a.family.name ++ " address"
  | prefixTooLong len f =>
    "prefix length /" ++ Address.decimal len ++ " exceeds the " ++ Address.decimal f.width ++
      "-bit " ++ f.name ++ " address width"
  | startAfterEnd s e => "range start " ++ s.text ++ " > end " ++ e.text
  | mixedRange s e =>
    "assertion `left == right` failed: range bounds of mismatched families: " ++ s.text ++ "-" ++
      e.text ++ familiesTrailer s.family e.family
  | mixedXor a b =>
    "assertion `left == right` failed: xor of mismatched families: " ++ a.text ++ " ^ " ++
      b.text ++ familiesTrailer a.family b.family

end Fault

end NetRanges
