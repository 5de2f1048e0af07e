import NetRanges.Address.Bytewise
import NetRanges.Json.Decode

/-!
# Addresses as stored

An address is stored as its family and sixteen octets, most significant first; an IPv4 address
uses the first four. The type says nothing about the other twelve: each operation that makes an
address writes all sixteen. `fromBytes` copies the family's bytes to the front of sixteen zeros,
`zero` writes none and `allOnes` fills the family's octets with `0xFF`. The conversion from an
address value, reading from text or JSON, and the byte operations end in `fromBytes`; the byte
operations first write the operand's octets, or their images, into a scratch array of sixteen
zeros and store its family's part (`scratch`).

Equality and order are derived field by field: the family, IPv4 first, then the sixteen octets
lexicographically. `Proofs/StoredForm.lean` shows that every operation leaves the unused octets
zero, and that the derived order is then that of family and value.
-/
namespace NetRanges

namespace Address

/-- An address as stored: its family and sixteen octets. -/
structure Stored where
  family : Family
  octets : Vector UInt8 16
  deriving DecidableEq

namespace Stored

/-- Writes `bytes` into the octets from position `i` on, one at a time; a write past the end is
dropped. -/
def writeFrom : Vector UInt8 16 → Nat → List UInt8 → Vector UInt8 16
  | o, _, [] => o
  | o, i, b :: bs => writeFrom (o.setIfInBounds i b) (i + 1) bs

def blank : Vector UInt8 16 := Vector.replicate 16 0

/-- The address of family `f` whose bytes, most significant first, are `bytes`: sixteen zeros
with the bytes copied to the front. -/
def fromBytes (f : Family) (bytes : List UInt8) (_ : bytes.length = f.byteLen) : Stored :=
  ⟨f, writeFrom blank 0 bytes⟩

def zero (f : Family) : Stored := ⟨f, blank⟩

/-- The last address of a family: its octets filled with `0xFF`. -/
def allOnes (f : Family) : Stored := ⟨f, writeFrom blank 0 (List.replicate f.byteLen 0xFF)⟩

/-- The family's octets, most significant first. -/
def asBytes (s : Stored) : List UInt8 := s.octets.toList.take s.family.byteLen

@[simp] theorem length_asBytes (s : Stored) : s.asBytes.length = s.family.byteLen := by
  simp [asBytes, s.family.byteLen_le]

/-- The address the family's octets write. -/
def toAddress (s : Stored) : Address := Bytewise.fromBytes s.family s.asBytes s.length_asBytes

/-- The stored form of an address, from its bytes. -/
def ofAddress (a : Address) : Stored :=
  fromBytes a.family (Bytewise.bytesOf a) (Bytewise.length_bytesOf a)

/-- Reads an address from the whole text. -/
def parse (text : String) : Except ParseError Stored := ofAddress <$> Address.parse text

/-- An address read from JSON, as its text. -/
def decoder : Json.Decoder Stored := Json.Decoder.parsed parse ParseError.message

def isZero (s : Stored) : Bool := s.asBytes.all (· == 0)

def isAllOnes (s : Stored) : Bool := s.asBytes.all (· == 0xFF)

/-! ### Byte operations -/

/-- The family's part of a scratch array of sixteen zeros into which `bytes` are written from
the front. -/
def scratch (f : Family) (bytes : List UInt8) : List UInt8 :=
  (writeFrom blank 0 bytes).toList.take f.byteLen

@[simp] theorem length_scratch (f : Family) (bytes : List UInt8) :
    (scratch f bytes).length = f.byteLen := by
  simp [scratch, f.byteLen_le]

/-- The address of the same family whose octet at each position `i` is `g i` of the octet
there. -/
def mapBytes (s : Stored) (g : Nat → UInt8 → UInt8) : Stored :=
  fromBytes s.family (scratch s.family (s.asBytes.mapIdx g)) (length_scratch _ _)

def network (s : Stored) (len : Nat) : Except Fault Stored := do
  Bytewise.checkPrefixLen s.family len
  return s.mapBytes fun i b => b &&& Bytewise.maskByte i len

def broadcast (s : Stored) (len : Nat) : Except Fault Stored := do
  Bytewise.checkPrefixLen s.family len
  return s.mapBytes fun i b => b ||| ~~~Bytewise.maskByte i len

/-- The next address: the octets copied to a scratch array, the carry run from its last byte. -/
def increment (s : Stored) : Except Fault Stored :=
  if s.isAllOnes then .error (.pastLast s.toAddress)
  else .ok (fromBytes s.family (Bytewise.carry (scratch s.family s.asBytes).reverse).reverse
    (by simp))

/-- The previous address: the octets copied to a scratch array, the borrow run from its last
byte. -/
def decrement (s : Stored) : Except Fault Stored :=
  if s.isZero then .error (.beforeFirst s.toAddress)
  else .ok (fromBytes s.family (Bytewise.borrow (scratch s.family s.asBytes).reverse).reverse
    (by simp))

def xor (s t : Stored) : Except Fault Stored :=
  if s.family = t.family then .ok (s.mapBytes fun i x => x ^^^ t.asBytes.getD i 0)
  else .error (.mixedXor s.toAddress t.toAddress)

/-! ### Order -/

/-- The derived order: the family, IPv4 first, then the sixteen octets lexicographically. -/
def Lt (s t : Stored) : Prop :=
  s.family.rank < t.family.rank ∨ s.family = t.family ∧ s.octets.toList < t.octets.toList

instance : LT Stored := ⟨Lt⟩

instance (s t : Stored) : Decidable (s < t) :=
  inferInstanceAs (Decidable
    (s.family.rank < t.family.rank ∨ s.family = t.family ∧ s.octets.toList < t.octets.toList))

end Stored

end Address

end NetRanges
