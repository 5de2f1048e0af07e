/-!
# Blank characters

A blank is a character with the Unicode `White_Space` property: the ASCII controls tab to
carriage return, the space, next line, no-break space, Ogham space mark, the spaces U+2000 to
U+200A, the line and paragraph separators, the narrow no-break space, the medium mathematical
space and the ideographic space. The zero-width space U+200B is not one.

Entries are trimmed of blanks at both ends, and lists of entries are cut at runs of blanks,
commas and semicolons (`pieces`). Every character that core's `Char.isWhitespace` accepts is a
blank (`isBlank_of_isWhitespace`).
-/
namespace NetRanges.Text

/-- Whether the character has the Unicode `White_Space` property. -/
def isBlank (c : Char) : Bool :=
  let n := c.toNat
  (0x9 ≤ n && n ≤ 0xd) || n == 0x20 || n == 0x85 || n == 0xa0 || n == 0x1680 ||
    (0x2000 ≤ n && n ≤ 0x200a) || n == 0x2028 || n == 0x2029 || n == 0x202f || n == 0x205f ||
    n == 0x3000

/-- The characters with blanks removed from both ends. -/
def trimChars (cs : List Char) : List Char :=
  ((cs.dropWhile isBlank).reverse.dropWhile isBlank).reverse

def trim (s : String) : String := String.ofList (trimChars s.toList)

/-- Whether the character separates entries of a list: a blank, a comma or a semicolon. -/
def isSeparator (c : Char) : Bool := isBlank c || c == ',' || c == ';'

/-- Cuts the characters at every separator, given the reversed characters `cur` of the piece
being read; empty pieces are dropped. -/
def piecesFrom (sep : Char → Bool) : List Char → List Char → List (List Char)
  | [], cur => if cur.isEmpty then [] else [cur.reverse]
  | c :: cs, cur =>
    if sep c then
      if cur.isEmpty then piecesFrom sep cs [] else cur.reverse :: piecesFrom sep cs []
    else piecesFrom sep cs (c :: cur)

/-- The non-empty pieces of a text between runs of separators. -/
def pieces (s : String) : List String :=
  (piecesFrom isSeparator s.toList []).map String.ofList

theorem isBlank_of_isWhitespace {c : Char} (h : c.isWhitespace = true) : isBlank c = true := by
  simp only [Char.isWhitespace, Bool.or_eq_true, decide_eq_true_eq] at h
  simp only [isBlank, Bool.or_eq_true, Bool.and_eq_true, decide_eq_true_eq, beq_iff_eq]
  rcases h with ((h | h) | h) | h <;> subst h <;> decide

example : isBlank '\u3000' = true ∧ isBlank '\u200b' = false ∧ isBlank '\u00a0' = true := by
  decide

example : pieces "a, b;;c  d" = ["a", "b", "c", "d"] := by decide

end NetRanges.Text
