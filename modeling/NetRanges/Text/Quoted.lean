import NetRanges.Text.Printable

/-!
# Quoted text

Rejected text is shown in double quotes. Inside the quotes a NUL, tab, carriage return, line
feed, backslash and double quote are written as `\0`, `\t`, `\r`, `\n`, `\\` and `\"`; any other
character that is not printable (`isPrintable`) is written as `\u` followed by its code point in
lowercase hex, without padding, between braces; every other character, the single quote
included, stands as it is.
-/
namespace NetRanges.Text

/-- The lowercase hex digits of a code point, most significant first. -/
def hexDigits (n : Nat) : List Char := Nat.toDigits 16 n

/-- How one character is written inside quotes. -/
def escapeChar (c : Char) : List Char :=
  if c = '\x00' then ['\\', '0']
  else if c = '\t' then ['\\', 't']
  else if c = '\r' then ['\\', 'r']
  else if c = '\n' then ['\\', 'n']
  else if c = '\\' then ['\\', '\\']
  else if c = '"' then ['\\', '"']
  else if isPrintable c then [c]
  else ['\\', 'u', '\x7b'] ++ hexDigits c.toNat ++ ['\x7d']

/-- The text in double quotes, with escapes. -/
def quote (s : String) : String :=
  String.ofList ('"' :: s.toList.flatMap escapeChar ++ ['"'])

example : quote "a\"b\\c\n" = "\"a\\\"b\\\\c\\n\"" := by decide +kernel

example : quote "e\u0301'" = "\"e\\u\x7b301\x7d'\"" := by decide +kernel

end NetRanges.Text
