/-!
# Unsigned decimal numbers

An unsigned number is written as an optional `+` followed by one or more ASCII digits; leading
zeros are allowed, and a value above the bound of the number's type is refused.
-/
namespace NetRanges.Text

/-- The value of ASCII digits, most significant first. -/
def decimalValue (ds : List Char) : Nat :=
  ds.foldl (fun acc c => acc * 10 + (c.toNat - '0'.toNat)) 0

/-- The unsigned number written by the whole text, if it is one and at most `bound`. -/
def unsigned? (s : String) (bound : Nat) : Option Nat :=
  let ds := match s.toList with
    | '+' :: rest => rest
    | cs => cs
  if ds.isEmpty || !ds.all Char.isDigit then none
  else
    let n := decimalValue ds
    if n ≤ bound then some n else none

example : unsigned? "+007" 255 = some 7 ∧ unsigned? "256" 255 = none ∧ unsigned? "+" 255 = none ∧
    unsigned? "-1" 255 = none := by decide +kernel

end NetRanges.Text
