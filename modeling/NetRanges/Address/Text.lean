import NetRanges.Address.Basic
import NetRanges.ParseError

/-!
# Address text

Addresses are read and written in their usual forms.

* IPv4: four decimal parts of one to three digits, each at most 255, with no leading zero in a
  part of two or more digits.
* IPv6: up to eight groups of one to four hex digits separated by `:`, at most one `::`
  standing for one or more zero groups, and an optional dotted IPv4 address as the last 32 bits.

A text holding a valid IPv4 prefix is read as IPv4 or not at all. The reader takes the longest
run of digits for every part and then checks it, so `1234` is never read as `123` and `4`.

Writing follows RFC 5952: lowercase hex without leading zeros, the first longest run of two or
more zero groups shortened to `::`, and an IPv4-mapped address (`::ffff:0:0/96`) written with its
last 32 bits in dotted form.
-/

-- Powers go through the core instance; a literal exponent carries its type for the same reason.
attribute [local instance (1100)] instPowNat

namespace NetRanges

namespace Address

/-! ### Reading -/

/-- The value of a digit in the given radix (at most 16), if the character is one. -/
def digitValue (radix : Nat) (c : Char) : Option Nat :=
  let d :=
    if '0' ≤ c ∧ c ≤ '9' then some (c.toNat - '0'.toNat)
    else if 'a' ≤ c ∧ c ≤ 'f' then some (c.toNat - 'a'.toNat + 10)
    else if 'A' ≤ c ∧ c ≤ 'F' then some (c.toNat - 'A'.toNat + 10)
    else none
  d.filter (· < radix)

/-- The longest run of digits at the head of the text, and what follows it. -/
def spanDigits (radix : Nat) : List Char → List Nat × List Char
  | [] => ([], [])
  | c :: cs =>
    match digitValue radix c with
    | some d => let r := spanDigits radix cs; (d :: r.1, r.2)
    | none => ([], c :: cs)

/-- The number written by a list of digits, most significant first. -/
def digitsValue (radix : Nat) (ds : List Nat) : Nat :=
  ds.foldl (fun acc d => acc * radix + d) 0

/-- Folding digits below the radix into a number below `radix ^ k` gives a number below
`radix ^ (k + number of digits)`. -/
theorem foldl_digits_lt {B : Nat} {l : List Nat} (hl : ∀ d ∈ l, d < B) (acc k : Nat)
    (h : acc < B ^ k) : l.foldl (fun acc d => acc * B + d) acc < B ^ (k + l.length) := by
  induction l generalizing acc k with
  | nil => simpa using h
  | cons d l ih =>
    have hd : d < B := hl d List.mem_cons_self
    have hstep : (acc + 1) * B ≤ B ^ k * B := Nat.mul_le_mul_right B h
    rw [Nat.succ_mul] at hstep
    rw [List.foldl_cons, List.length_cons, Nat.add_comm l.length 1, ← Nat.add_assoc]
    exact ih (fun e he => hl e (List.mem_cons_of_mem d he)) (acc * B + d) (k + 1)
      (by rw [Nat.pow_succ]; omega)

/-- Digits below the radix write a number below the radix to the number of digits. -/
theorem digitsValue_lt {B : Nat} {l : List Nat} (hl : ∀ d ∈ l, d < B) :
    digitsValue B l < B ^ l.length := by
  have h := foldl_digits_lt hl 0 0 (by simp)
  rwa [Nat.zero_add] at h

/-- Reads a number of one to `maxDigits` digits whose value is at most `bound`; a leading zero
in a number of two or more digits is refused unless `zeroPrefix` holds. -/
def readNumber (radix maxDigits bound : Nat) (zeroPrefix : Bool) (cs : List Char) :
    Option (Nat × List Char) :=
  let (ds, rest) := spanDigits radix cs
  if ds.isEmpty || maxDigits < ds.length || bound < digitsValue radix ds then none
  else if !zeroPrefix && 1 < ds.length && ds.head? == some 0 then none
  else some (digitsValue radix ds, rest)

/-- Reads `inner`, preceded by `sep` unless it is the first item (`index = 0`). -/
def readSeparated {α : Type} (sep : Char) (index : Nat)
    (inner : List Char → Option (α × List Char)) (cs : List Char) : Option (α × List Char) :=
  if index = 0 then inner cs
  else
    match cs with
    | c :: rest => if c = sep then inner rest else none
    | [] => none

/-- Reads the four parts of a dotted IPv4 address as one 32-bit value. -/
def readDotted (cs : List Char) : Option (Nat × List Char) := do
  let part := readNumber 10 3 255 false
  let (a, cs) ← part cs
  let (b, cs) ← readSeparated '.' 1 part cs
  let (c, cs) ← readSeparated '.' 2 part cs
  let (d, cs) ← readSeparated '.' 3 part cs
  return (((a * 256 + b) * 256 + c) * 256 + d, cs)

/-- Reads up to `limit - index` further colon-separated groups, the group at position `index`
being the next one. A dotted IPv4 address is tried first wherever at least two groups are
left, and ends the run as two groups. Returns the groups, whether the run ended with an IPv4
address, and the rest of the text. -/
def readGroups (limit index : Nat) (cs : List Char) : List Nat × Bool × List Char :=
  if _h : index < limit then
    let dotted := if index + 1 < limit then readSeparated ':' index readDotted cs else none
    match dotted with
    | some (v, rest) => ([v / 65536, v % 65536], true, rest)
    | none =>
      match readSeparated ':' index (readNumber 16 4 65535 true) cs with
      | some (g, rest) =>
        let r := readGroups limit (index + 1) rest
        (g :: r.1, r.2.1, r.2.2)
      | none => ([], false, cs)
  else ([], false, cs)
termination_by limit - index

/-- The value of eight 16-bit groups, most significant first. -/
def groupsValue (gs : List Nat) : Nat := digitsValue 65536 gs

/-- Reads an IPv6 address: groups, then `::` and more groups if fewer than eight were read. -/
def readColon (cs : List Char) : Option (Nat × List Char) :=
  let (head, headDotted, rest) := readGroups 8 0 cs
  if head.length = 8 then some (groupsValue head, rest)
  else if headDotted then none
  else
    match rest with
    | ':' :: ':' :: rest =>
      let (tail, _, rest) := readGroups (8 - (head.length + 1)) 0 rest
      some (groupsValue (head ++ List.replicate (8 - head.length - tail.length) 0 ++ tail), rest)
    | _ => none

/-- Reads an address: IPv4 if the text starts with one, otherwise IPv6. -/
def readPrefix (cs : List Char) : Option (Family × Nat × List Char) :=
  match readDotted cs with
  | some (v, rest) => some (.v4, v, rest)
  | none => (readColon cs).map fun (v, rest) => (.v6, v, rest)

/-- The address written by the whole text, if it is one. -/
def ofText? (s : String) : Option Address :=
  match readPrefix s.toList with
  | some (f, v, []) => ofValue? f v
  | _ => none

/-- Reads an address from the whole text, which is not trimmed. -/
def parse (s : String) : Except ParseError Address :=
  match ofText? s with
  | some a => .ok a
  | none => .error (.address s)

/-! ### Writing -/

def decimal (n : Nat) : String := String.ofList (Nat.toDigits 10 n)

/-- The lowercase hex text of a number, without leading zeros. -/
def hex (n : Nat) : String := String.ofList (Nat.toDigits 16 n)

/-- The dotted text of a 32-bit value. -/
def dottedText (v : Nat) : String :=
  ".".intercalate ([3, 2, 1, 0].map fun (i : Nat) => decimal (v / 256 ^ i % 256))

/-- The eight 16-bit groups of a 128-bit value, most significant first. -/
def groupsOf (v : Nat) : List Nat :=
  (List.range 8).map fun i => v / 65536 ^ (7 - i) % 65536

/-- Scans groups from position `index` on, with the current zero run `cur` and the longest run
so far `best`, each as (start, length). A run replaces the longest only when strictly longer,
so the first of equally long runs wins. -/
def zeroRunFrom : List Nat → Nat → Nat × Nat → Nat × Nat → Nat × Nat
  | [], _, _, best => best
  | g :: gs, index, cur, best =>
    if g = 0 then
      let cur := if cur.2 = 0 then (index, 1) else (cur.1, cur.2 + 1)
      zeroRunFrom gs (index + 1) cur (if best.2 < cur.2 then cur else best)
    else zeroRunFrom gs (index + 1) (0, 0) best

/-- The first longest run of zero groups, as (start, length). -/
def longestZeroRun (gs : List Nat) : Nat × Nat := zeroRunFrom gs 0 (0, 0) (0, 0)

/-- The colon-separated hex text of groups. -/
def groupsText (gs : List Nat) : String := ":".intercalate (gs.map hex)

/-- RFC 5952 text of a 128-bit value. -/
def colonText (v : Nat) : String :=
  let gs := groupsOf v
  if v / 2 ^ (32 : Nat) = 65535 then "::ffff:" ++ dottedText (v % 2 ^ (32 : Nat))
  else
    let (start, len) := longestZeroRun gs
    if 1 < len then groupsText (gs.take start) ++ "::" ++ groupsText (gs.drop (start + len))
    else groupsText gs

def text (a : Address) : String :=
  match a.family with
  | .v4 => dottedText a.value
  | .v6 => colonText a.value

/-- The bytes of the address as lowercase hex, two digits a byte. -/
def bytesHex (a : Address) : String :=
  String.join (a.bytes.map fun b => hex (b / 16) ++ hex (b % 16))

end Address

end NetRanges
