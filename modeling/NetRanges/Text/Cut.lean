/-!
# Cutting text

Text is cut at the first occurrence of a character (`cutAt?`), and into lines (`lines`): a
line ends at a line feed, a carriage return right before that line feed belongs to the line
break, and a line feed at the very end opens no further line.
-/
namespace NetRanges.Text

/-- The characters before and after the first occurrence of `c`, if there is one. -/
def cutCharsAt (c : Char) : List Char → Option (List Char × List Char)
  | [] => none
  | d :: ds =>
    if d = c then some ([], ds)
    else (cutCharsAt c ds).map fun (l, r) => (d :: l, r)

/-- The text before and after the first occurrence of `c`, if there is one. -/
def cutAt? (c : Char) (s : String) : Option (String × String) :=
  (cutCharsAt c s.toList).map fun (l, r) => (String.ofList l, String.ofList r)

/-- The line without a carriage return at its end. -/
def dropReturn (cs : List Char) : List Char :=
  if cs.getLast? = some '\r' then cs.dropLast else cs

def lines (s : String) : List String :=
  let parts := s.toList.splitOn '\n'
  let parts := if parts.getLast? = some [] then parts.dropLast else parts
  parts.map fun p => String.ofList (dropReturn p)

example : lines "a\r\nb\n\nc\n" = ["a", "b", "", "c"] := by decide +kernel

example : lines "" = [] := by decide +kernel

example : cutAt? '-' "1-2-3" = some ("1", "2-3") := by decide +kernel

end NetRanges.Text
