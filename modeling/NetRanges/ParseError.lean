import NetRanges.Text.Quoted

/-!
# Reading errors

Text that is not an address, a block or a range is rejected with the kind of thing that was
expected and the rejected text itself. The message shows that text quoted (`Text.quote`); the
reason is a short fixed tag of the kind.
-/
namespace NetRanges

/-- Why a text could not be read, with the rejected text. -/
inductive ParseError where
  /-- The text is not an address. -/
  | address (text : String)
  /-- The text is not a block `address/length`. -/
  | block (text : String)
  /-- The text is not a range `first-last`. -/
  | range (text : String)
  deriving DecidableEq, Repr

namespace ParseError

def text : ParseError → String
  | address t => t
  | block t => t
  | range t => t

/-- The short tag of the kind of error. -/
def reason : ParseError → String
  | address _ => "invalid-address"
  | block _ => "invalid-cidr"
  | range _ => "invalid-range"

def message : ParseError → String
  | address t => "invalid IP address: " ++ Text.quote t
  | block t => "invalid CIDR network: " ++ Text.quote t
  | range t => "invalid address range: " ++ Text.quote t

end ParseError

end NetRanges
