import NetRanges.Json.Value

/-!
# Reading JSON text

`Value.read` reads one JSON value from a text, with nothing but blanks (space, tab, line feed,
carriage return) around it, or says why the text is not JSON and where: the message is the
reason followed by `at line L column C`, where `C` counts the bytes of line `L` before the
position.

The reader follows one greedy pass over the text, so the reason and the position are those of
the first byte that cannot continue what was read. A fault found while looking at a byte
without taking it (a comma, a closing bracket, a blank's end) points one byte further, never
past the end of the text.

Numbers are read as follows.
* A number without fraction or exponent is an integer when it fits a 64-bit word: up to
  `2 ^ 64 - 1`, or down to `-2 ^ 63` when negative. `-0` is the float negative zero.
* Any other number is a float. Its digits are gathered into a 64-bit significand (digits past
  that are dropped and counted in the exponent) and a decimal exponent `e`. The float is the
  significand rounded to binary64, then multiplied by the binary64 nearest to `10 ^ e`, or
  divided by the one nearest to `10 ^ (-e)`, each step rounded to nearest. An exponent below
  `-308` first divides by the binary64 nearest to `10 ^ 308`. A product past the largest
  binary64 is refused as out of range; this value is not always the binary64 nearest to the
  written number.

Objects hold their members sorted by key, and a key written twice keeps its last value.
Nesting is limited to 127 levels of lists and objects.
-/

-- Powers and the zero of a sum go through the core instances; literal exponents carry their type.
attribute [local instance (1100)] instPowNat Zero.ofOfNat0

namespace NetRanges.Json

/-- Why a text is not JSON. -/
inductive SyntaxCode where
  | eofList
  | eofObject
  | eofString
  | eofValue
  | expectedColon
  | expectedListEnd
  | expectedObjectEnd
  | expectedIdent
  | expectedValue
  | invalidEscape
  | invalidNumber
  | numberOutOfRange
  | controlCharacter
  | keyNotString
  | loneSurrogate
  | trailingComma
  | trailingCharacters
  | hexEscapeEnd
  | tooDeep
  deriving DecidableEq, Repr

/-- The text of a reason. -/
def SyntaxCode.text : SyntaxCode → String
  | .eofList => "EOF while parsing a list"
  | .eofObject => "EOF while parsing an object"
  | .eofString => "EOF while parsing a string"
  | .eofValue => "EOF while parsing a value"
  | .expectedColon => "expected `:`"
  | .expectedListEnd => "expected `,` or `]`"
  | .expectedObjectEnd => "expected `,` or `\x7d`"
  | .expectedIdent => "expected ident"
  | .expectedValue => "expected value"
  | .invalidEscape => "invalid escape"
  | .invalidNumber => "invalid number"
  | .numberOutOfRange => "number out of range"
  | .controlCharacter => "control character (\\u0000-\\u001F) found while parsing a string"
  | .keyNotString => "key must be a string"
  | .loneSurrogate => "lone leading surrogate in hex escape"
  | .trailingComma => "trailing comma"
  | .trailingCharacters => "trailing characters"
  | .hexEscapeEnd => "unexpected end of hex escape"
  | .tooDeep => "recursion limit exceeded"

/-- A reason with the byte offset it points at. -/
structure SyntaxError where
  code : SyntaxCode
  offset : Nat
  deriving DecidableEq, Repr

/-- The line and the byte offset of the line's start, for a byte offset into `text`: the lines
are those ended by the line feeds before the offset. -/
def lineOf (offset : Nat) : List Char → Nat → Nat → Nat → Nat × Nat
  | [], _, line, start => (line, start)
  | c :: cs, pos, line, start =>
    if pos < offset then
      if c = '\n' then lineOf offset cs (pos + 1) (line + 1) (pos + 1)
      else lineOf offset cs (pos + c.utf8Size) line start
    else (line, start)

/-- The message of a syntax error in `text`: the reason, then its line and column, the offset
held to the end of the text. -/
def SyntaxError.message (text : String) (e : SyntaxError) : String :=
  let offset := min e.offset text.utf8ByteSize
  let (line, start) := lineOf offset text.toList 0 1 0
  e.code.text ++ " at line " ++ toString line ++ " column " ++ toString (offset - start)

/-- The characters still to read and the number of bytes read before them. -/
structure Cursor where
  rest : List Char
  offset : Nat

namespace Cursor

def fail (c : Cursor) (code : SyntaxCode) : SyntaxError := ⟨code, c.offset⟩

/-- A fault at the byte the cursor looks at. -/
def failAhead (c : Cursor) (code : SyntaxCode) : SyntaxError := ⟨code, c.offset + 1⟩

end Cursor

/-- Whether a character is a blank between tokens. -/
def isBlank (c : Char) : Bool := c = ' ' || c = '\n' || c = '\t' || c = '\r'

def skipBlank : List Char → Nat → Cursor
  | c :: cs, pos => if isBlank c then skipBlank cs (pos + 1) else ⟨c :: cs, pos⟩
  | [], pos => ⟨[], pos⟩

/-- Takes the rest of a literal (`ull` of `null`); a byte that differs is taken and refused. -/
def literal : List Char → List Char → Nat → Except SyntaxError Cursor
  | [], cs, pos => .ok ⟨cs, pos⟩
  | _ :: _, [], pos => .error ⟨.eofValue, pos⟩
  | e :: es, c :: cs, pos => if c = e then literal es cs (pos + 1) else .error ⟨.expectedIdent, pos + 1⟩

/-! ### Strings -/

def hexValue (c : Char) : Option Nat :=
  if c.isDigit then some (c.toNat - 48)
  else if 'a' ≤ c ∧ c ≤ 'f' then some (c.toNat - 87)
  else if 'A' ≤ c ∧ c ≤ 'F' then some (c.toNat - 55)
  else none

/-- Whether at least `n` bytes are left. -/
def hasBytes (n : Nat) : List Char → Bool
  | [] => n == 0
  | c :: cs => n ≤ c.utf8Size || hasBytes (n - c.utf8Size) cs

/-- The number of bytes of characters. -/
def byteCount (cs : List Char) : Nat := (cs.map Char.utf8Size).sum

/-- Reads `k` hex digits into `n`. -/
def hexDigits : Nat → Nat → List Char → Nat → Except SyntaxError (Nat × List Char × Nat)
  | 0, n, cs, pos => .ok (n, cs, pos)
  | _ + 1, _, [], pos => .error ⟨.eofString, pos⟩
  | k + 1, n, c :: cs, pos =>
    match hexValue c with
    | some v => hexDigits k (n * 16 + v) cs (pos + 1)
    | none => .error ⟨.invalidEscape, pos + 1⟩

/-- Reads the four hex digits of a `\u` escape; fewer than four bytes left is an unfinished
string. -/
def hexQuad (cs : List Char) (pos : Nat) : Except SyntaxError (Nat × List Char × Nat) :=
  if hasBytes 4 cs then hexDigits 4 0 cs pos else .error ⟨.eofString, pos + byteCount cs⟩

/-- Reads an escape after its backslash, giving the character it stands for. A `\u` escape of
a leading surrogate must be followed by one of a trailing surrogate; the two stand for one
character past the basic plane. -/
def escape (cs : List Char) (pos : Nat) : Except SyntaxError (Char × List Char × Nat) :=
  match cs with
  | [] => .error ⟨.eofString, pos⟩
  | '"' :: rest => .ok ('"', rest, pos + 1)
  | '\\' :: rest => .ok ('\\', rest, pos + 1)
  | '/' :: rest => .ok ('/', rest, pos + 1)
  | 'b' :: rest => .ok ('\x08', rest, pos + 1)
  | 'f' :: rest => .ok ('\x0c', rest, pos + 1)
  | 'n' :: rest => .ok ('\n', rest, pos + 1)
  | 'r' :: rest => .ok ('\r', rest, pos + 1)
  | 't' :: rest => .ok ('\t', rest, pos + 1)
  | 'u' :: rest =>
    match hexQuad rest (pos + 1) with
    | .error e => .error e
    | .ok (n, rest, pos) =>
      if 0xDC00 ≤ n ∧ n ≤ 0xDFFF then .error ⟨.loneSurrogate, pos⟩
      else if 0xD800 ≤ n ∧ n ≤ 0xDBFF then
        match rest with
        | [] => .error ⟨.eofString, pos⟩
        | '\\' :: [] => .error ⟨.eofString, pos + 1⟩
        | '\\' :: 'u' :: more =>
          match hexQuad more (pos + 2) with
          | .error e => .error e
          | .ok (m, more, pos) =>
            if 0xDC00 ≤ m ∧ m ≤ 0xDFFF then
              .ok (Char.ofNat ((n - 0xD800) * 0x400 + (m - 0xDC00) + 0x10000), more, pos)
            else .error ⟨.loneSurrogate, pos⟩
        | '\\' :: _ :: _ => .error ⟨.hexEscapeEnd, pos + 2⟩
        | _ :: _ => .error ⟨.hexEscapeEnd, pos + 1⟩
      else .ok (Char.ofNat n, rest, pos)
  | _ :: _ => .error ⟨.invalidEscape, pos + 1⟩

/-- Reads the rest of a string after its opening quote. `acc` holds the characters read, last
first; `fuel` bounds the steps, each of which takes pos least one character. -/
def readString : Nat → List Char → List Char → Nat → Except SyntaxError (String × Cursor)
  | 0, _, _, pos => .error ⟨.eofString, pos⟩
  | _ + 1, _, [], pos => .error ⟨.eofString, pos⟩
  | fuel + 1, acc, c :: cs, pos =>
    if c = '"' then .ok (String.ofList acc.reverse, ⟨cs, pos + 1⟩)
    else if c = '\\' then
      match escape cs (pos + 1) with
      | .ok (e, rest, pos) => readString fuel (e :: acc) rest pos
      | .error e => .error e
    else if c.toNat < 0x20 then .error ⟨.controlCharacter, pos + 1⟩
    else readString fuel (c :: acc) cs (pos + c.utf8Size)

/-! ### Numbers -/

/-- The greatest 64-bit word. -/
def wordMax : Nat := 2 ^ (64 : Nat) - 1

/-- The least and greatest 32-bit signed integers, the range of a decimal exponent. -/
def exponentMin : Int := -(2 ^ (31 : Nat))

def exponentMax : Int := 2 ^ (31 : Nat) - 1

/-- The decimal exponent held to its range. -/
def clampExponent (e : Int) : Int := max exponentMin (min exponentMax e)

def digitOf (c : Char) : Nat := c.toNat - 48

/-- Reads digits into `sig` while it stays a 64-bit word; a digit that would overflow it is left
unread, and the flag says so. -/
def wordDigits (sig : Nat) : List Char → Nat → Nat × Bool × Cursor
  | c :: cs, pos =>
    if c.isDigit then
      if wordMax < sig * 10 + digitOf c then (sig, true, ⟨c :: cs, pos⟩)
      else wordDigits (sig * 10 + digitOf c) cs (pos + 1)
    else (sig, false, ⟨c :: cs, pos⟩)
  | [], pos => (sig, false, ⟨[], pos⟩)

/-- Skips digits, counting them. -/
def skipDigits (n : Nat) : List Char → Nat → Nat × Cursor
  | c :: cs, pos => if c.isDigit then skipDigits (n + 1) cs (pos + 1) else (n, ⟨c :: cs, pos⟩)
  | [], pos => (n, ⟨[], pos⟩)

def zeroBinary : Decimal.Binary := ⟨0, 0⟩

/-- A positive fraction rounded to binary64; zero for a fraction past every binary64, which the
callers rule out. -/
def roundOf (x : Nat × Nat) : Decimal.Binary := (Decimal.Binary.nearest x).getD zeroBinary

/-- The binary64 nearest to `10 ^ k`. -/
def tenTo (k : Nat) : Decimal.Binary := roundOf (10 ^ k, 1)

/-- A product of binary64 values rounded to binary64, or `none` past the largest one. -/
def mulRound (a b : Decimal.Binary) : Option Decimal.Binary :=
  if a.mantissa = 0 then some zeroBinary else Decimal.Binary.nearest (Decimal.fracMul a.value b.value)

/-- A quotient of binary64 values, the divisor pos least one, rounded to binary64. -/
def divRound (a b : Decimal.Binary) : Decimal.Binary :=
  if a.mantissa = 0 then zeroBinary
  else roundOf (a.value.1 * b.value.2, a.value.2 * b.value.1)

/-- Scales by `10 ^ e`; an exponent below `-308` first divides by `10 ^ 308`, which brings every
64-bit significand to zero within three steps, so `fuel` 8 is never spent. -/
def scaleBy : Nat → Decimal.Binary → Int → Option Decimal.Binary
  | 0, f, _ => some f
  | fuel + 1, f, e =>
    if e.natAbs ≤ 308 then
      if 0 ≤ e then mulRound f (tenTo e.natAbs) else some (divRound f (tenTo e.natAbs))
    else if f.mantissa = 0 then some f
    else if 0 ≤ e then none
    else scaleBy fuel (divRound f (tenTo 308)) (e + 308)

/-- The magnitude of `sig * 10 ^ e` as read, or `none` when it is out of range. -/
def fromParts (sig : Nat) (e : Int) : Option Decimal.Binary :=
  scaleBy 8 (if sig = 0 then zeroBinary else roundOf (sig, 1)) e

/-- Ends a float at the cursor. -/
def finishFloat (sig : Nat) (e : Int) (c : Cursor) : Except SyntaxError (Decimal.Binary × Cursor) :=
  match fromParts sig e with
  | some b => .ok (b, c)
  | none => .error (c.fail .numberOutOfRange)

/-- Reads exponent digits after the first into `e`. An exponent past the 32-bit range gives
zero when it is negative or the significand is zero, and is out of range otherwise. -/
def exponentDigits (sig : Nat) (start : Int) (up : Bool) (e : Nat) :
    List Char → Nat → Except SyntaxError (Decimal.Binary × Cursor)
  | c :: cs, pos =>
    if c.isDigit then
      if (exponentMax.toNat) < e * 10 + digitOf c then
        if sig ≠ 0 ∧ up then .error ⟨.numberOutOfRange, pos + 1⟩
        else .ok (zeroBinary, (skipDigits 0 cs (pos + 1)).2)
      else exponentDigits sig start up (e * 10 + digitOf c) cs (pos + 1)
    else finishFloat sig (clampExponent (if up then start + e else start - e)) ⟨c :: cs, pos⟩
  | [], pos => finishFloat sig (clampExponent (if up then start + e else start - e)) ⟨[], pos⟩

/-- Reads an exponent from its `e`, `start` being the exponent gathered so far. -/
def readExponent (sig : Nat) (start : Int) (c : Cursor) : Except SyntaxError (Decimal.Binary × Cursor) :=
  let (up, rest, pos) : Bool × List Char × Nat := match c.rest with
    | _ :: '+' :: cs => (true, cs, c.offset + 2)
    | _ :: '-' :: cs => (false, cs, c.offset + 2)
    | _ :: cs => (true, cs, c.offset + 1)
    | [] => (true, [], c.offset)
  match rest with
  | [] => .error ⟨.eofValue, pos⟩
  | d :: ds =>
    if d.isDigit then exponentDigits sig start up (digitOf d) ds (pos + 1)
    else .error ⟨.invalidNumber, pos + 1⟩

/-- Goes on after the digits of a float: an exponent, or the end. -/
def afterDigits (sig : Nat) (e : Int) (c : Cursor) : Except SyntaxError (Decimal.Binary × Cursor) :=
  match c.rest with
  | 'e' :: _ | 'E' :: _ => readExponent sig e c
  | _ => finishFloat sig e c

/-- Reads a fraction from its `.`; it needs pos least one digit. -/
def readFraction (sig : Nat) (start : Int) (c : Cursor) : Except SyntaxError (Decimal.Binary × Cursor) :=
  let rest := c.rest.drop 1
  let pos := c.offset + 1
  match wordDigits sig rest pos with
  | (sig, true, d) =>
    let (_, d') := skipDigits 0 d.rest d.offset
    afterDigits sig (start - (d.offset - pos : Nat)) d'
  | (sig, false, d) =>
    if d.offset = pos then
      match d.rest with
      | [] => .error (d.failAhead .eofValue)
      | _ => .error (d.failAhead .invalidNumber)
    else afterDigits sig (start - (d.offset - pos : Nat)) d

/-- Reads the rest of an integer too long for a word, whose dropped digits count in the
exponent. -/
def readLongInteger (sig : Nat) (c : Cursor) : Except SyntaxError (Decimal.Binary × Cursor) :=
  let (k, d) := skipDigits 0 c.rest c.offset
  match d.rest with
  | '.' :: _ => readFraction sig k d
  | _ => afterDigits sig k d

def signed (negative : Bool) (r : Except SyntaxError (Decimal.Binary × Cursor)) :
    Except SyntaxError (Value × Cursor) :=
  (fun (b, c) => (Value.float negative b, c)) <$> r

/-- Goes on after the integer digits `sig` of a number: a fraction, an exponent, or the end,
where the number is an integer. -/
def afterInteger (negative : Bool) (sig : Nat) (c : Cursor) : Except SyntaxError (Value × Cursor) :=
  match c.rest with
  | '.' :: _ => signed negative (readFraction sig 0 c)
  | 'e' :: _ | 'E' :: _ => signed negative (readExponent sig 0 c)
  | _ =>
    if !negative then .ok (.int sig, c)
    else if sig = 0 then .ok (.float true zeroBinary, c)
    else if sig ≤ 2 ^ (63 : Nat) then .ok (.int (-(sig : Int)), c)
    else .ok (.float true (roundOf (sig, 1)), c)

/-- Reads a number from its first digit (after the sign). A leading zero stands alone. -/
def readNumber (negative : Bool) (c : Cursor) : Except SyntaxError (Value × Cursor) :=
  match c.rest with
  | [] => .error (c.fail .eofValue)
  | '0' :: cs =>
    let d : Cursor := ⟨cs, c.offset + 1⟩
    match cs with
    | x :: _ => if x.isDigit then .error (d.failAhead .invalidNumber) else afterInteger negative 0 d
    | [] => afterInteger negative 0 d
  | x :: cs =>
    if x.isDigit then
      match wordDigits (digitOf x) cs (c.offset + 1) with
      | (sig, true, d) => signed negative (readLongInteger sig d)
      | (sig, false, d) => afterInteger negative sig d
    else .error ⟨.invalidNumber, c.offset + 1⟩

/-! ### Values -/

/-- Puts a member into members sorted by key, replacing one of the same key. -/
def insertMember (k : String) (v : Value) : List (String × Value) → List (String × Value)
  | [] => [(k, v)]
  | (k', v') :: ms =>
    if k = k' then (k, v) :: ms
    else if k < k' then (k, v) :: (k', v') :: ms
    else (k', v') :: insertMember k v ms

/-- The nesting room at the top: a list or object may open while more than one is left. -/
def nestingRoom : Nat := 128

mutual

/-- Reads a value after blanks. `room` is what is left of the nesting room; `fuel` bounds the
steps, and every second step takes pos least one character. -/
def readValue : Nat → Nat → Cursor → Except SyntaxError (Value × Cursor)
  | 0, _, c => .error (c.fail .eofValue)
  | fuel + 1, room, c =>
    let c := skipBlank c.rest c.offset
    match c.rest with
    | [] => .error (c.failAhead .eofValue)
    | 'n' :: cs => (fun d => (.null, d)) <$> literal ['u', 'l', 'l'] cs (c.offset + 1)
    | 't' :: cs => (fun d => (.bool true, d)) <$> literal ['r', 'u', 'e'] cs (c.offset + 1)
    | 'f' :: cs => (fun d => (.bool false, d)) <$> literal ['a', 'l', 's', 'e'] cs (c.offset + 1)
    | '-' :: cs => readNumber true ⟨cs, c.offset + 1⟩
    | '"' :: cs => (fun (s, d) => (.str s, d)) <$> readString (cs.length + 1) [] cs (c.offset + 1)
    | '[' :: cs =>
      if room ≤ 1 then .error (c.failAhead .tooDeep)
      else (fun (items, d) => (.arr items, d)) <$> readItems fuel (room - 1) true [] ⟨cs, c.offset + 1⟩
    | '{' :: cs =>
      if room ≤ 1 then .error (c.failAhead .tooDeep)
      else (fun (ms, d) => (.obj ms, d)) <$> readMembers fuel (room - 1) true [] ⟨cs, c.offset + 1⟩
    | x :: _ => if x.isDigit then readNumber false c else .error (c.failAhead .expectedValue)

/-- Reads the items of a list up to and with its `]`; `acc` holds the items read, last first. -/
def readItems : Nat → Nat → Bool → List Value → Cursor → Except SyntaxError (List Value × Cursor)
  | 0, _, _, _, c => .error (c.fail .eofList)
  | fuel + 1, room, first, acc, c =>
    let c := skipBlank c.rest c.offset
    match c.rest with
    | [] => .error (c.failAhead .eofList)
    | ']' :: cs => .ok (acc.reverse, ⟨cs, c.offset + 1⟩)
    | x :: cs =>
      let item := fun (d : Cursor) =>
        match readValue fuel room d with
        | .ok (v, e) => readItems fuel room false (v :: acc) e
        | .error err => .error err
      if first then item c
      else if x = ',' then
        let d := skipBlank cs (c.offset + 1)
        match d.rest with
        | [] => .error (d.failAhead .eofValue)
        | ']' :: _ => .error (d.failAhead .trailingComma)
        | _ :: _ => item d
      else .error (c.failAhead .expectedListEnd)

/-- Reads the members of an object up to and with its closing brace; `acc` holds the members
read, sorted by key. -/
def readMembers : Nat → Nat → Bool → List (String × Value) → Cursor →
    Except SyntaxError (List (String × Value) × Cursor)
  | 0, _, _, _, c => .error (c.fail .eofObject)
  | fuel + 1, room, first, acc, c =>
    let c := skipBlank c.rest c.offset
    match c.rest with
    | [] => .error (c.failAhead .eofObject)
    | '\x7d' :: cs => .ok (acc, ⟨cs, c.offset + 1⟩)
    | x :: cs =>
      let member := fun (d : Cursor) =>
        match readString (d.rest.length + 1) [] (d.rest.drop 1) (d.offset + 1) with
        | .error err => .error err
        | .ok (k, e) =>
          let e := skipBlank e.rest e.offset
          match e.rest with
          | [] => .error (e.failAhead .eofObject)
          | ':' :: more =>
            match readValue fuel room ⟨more, e.offset + 1⟩ with
            | .ok (v, f) => readMembers fuel room false (insertMember k v acc) f
            | .error err => .error err
          | _ :: _ => .error (e.failAhead .expectedColon)
      if first then
        if x = '"' then member c else .error (c.failAhead .keyNotString)
      else if x = ',' then
        let d := skipBlank cs (c.offset + 1)
        match d.rest with
        | [] => .error (d.failAhead .eofValue)
        | '"' :: _ => member d
        | '\x7d' :: _ => .error (d.failAhead .trailingComma)
        | _ :: _ => .error (d.failAhead .keyNotString)
      else .error (c.failAhead .expectedObjectEnd)

end

/-- Reads a whole text as one JSON value. -/
def Value.read (text : String) : Except SyntaxError Value :=
  let cs := text.toList
  match readValue (2 * cs.length + 4) nestingRoom ⟨cs, 0⟩ with
  | .error e => .error e
  | .ok (v, c) =>
    let c := skipBlank c.rest c.offset
    match c.rest with
    | [] => .ok v
    | _ :: _ => .error (c.failAhead .trailingCharacters)

end NetRanges.Json
