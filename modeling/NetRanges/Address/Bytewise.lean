import NetRanges.Fault

/-!
# Byte-wise address arithmetic

The operations of `Address/Bits` as they are carried out on an address's bytes, most significant
first, so that one piece of code serves four bytes and sixteen:

* a prefix length becomes one mask byte per position (`maskByte`), and the network and broadcast
  addresses and the exclusive or treat every byte on its own (`mapBytes`);
* the successor and the predecessor carry or borrow from the last byte towards the first and stop
  at the first byte that absorbs the change (`carry`, `borrow`);
* the two bit counts scan for the first nonzero byte, from the left for the highest set bit and
  from the right for the trailing zeros, and add the byte's own count to its index scaled by
  eight, in bytes (`UInt8`), as the results are bytes.

Each of them computes the value-level operation of the same name (`Proofs/Bytewise.lean`).
-/
namespace NetRanges

namespace Bytewise

/-- The bytes of an address, most significant first. -/
def bytesOf (a : Address) : List UInt8 := a.bytes.map Nat.toUInt8

@[simp] theorem length_bytesOf (a : Address) : (bytesOf a).length = a.family.byteLen := by
  simp [bytesOf, Address.bytes]

/-- The address of family `f` whose bytes, most significant first, are `bs`. -/
def fromBytes (f : Family) (bs : List UInt8) (h : bs.length = f.byteLen) : Address :=
  ⟨f, Address.digitsValue 256 (bs.map UInt8.toNat), by
    have hlt := Address.digitsValue_lt (B := 256) (l := bs.map UInt8.toNat) (by
      intro d hd
      obtain ⟨b, -, rfl⟩ := List.mem_map.1 hd
      exact b.toNat_lt)
    rwa [List.length_map, h, ← f.size_eq_pow_byteLen] at hlt⟩

@[simp] theorem fromBytes_family (f : Family) (bs : List UInt8) (h : bs.length = f.byteLen) :
    (fromBytes f bs h).family = f := rfl

@[simp] theorem fromBytes_value (f : Family) (bs : List UInt8) (h : bs.length = f.byteLen) :
    (fromBytes f bs h).value = Address.digitsValue 256 (bs.map UInt8.toNat) := rfl

def isZero (a : Address) : Bool := (bytesOf a).all (· == 0)

def isAllOnes (a : Address) : Bool := (bytesOf a).all (· == 0xFF)

/-! ### Successor and predecessor -/

/-- Add one to bytes listed least significant first: a byte `0xFF` becomes `0` and passes the
carry on, and the first other byte takes it, leaving the bytes after it as they are. -/
def carry : List UInt8 → List UInt8
  | [] => []
  | b :: bs => if b = 0xFF then 0 :: carry bs else (b + 1) :: bs

/-- Subtract one from bytes listed least significant first: a byte `0` becomes `0xFF` and passes
the borrow on, and the first other byte takes it. -/
def borrow : List UInt8 → List UInt8
  | [] => []
  | b :: bs => if b = 0 then 0xFF :: borrow bs else (b - 1) :: bs

@[simp] theorem length_carry (bs : List UInt8) : (carry bs).length = bs.length := by
  induction bs with
  | nil => rfl
  | cons b bs ih => by_cases hb : b = 0xFF <;> simp [carry, hb, ih]

@[simp] theorem length_borrow (bs : List UInt8) : (borrow bs).length = bs.length := by
  induction bs with
  | nil => rfl
  | cons b bs ih => by_cases hb : b = 0 <;> simp [borrow, hb, ih]

/-- The next address, carrying from the last byte; a fault at the last address of the family. -/
def increment (a : Address) : Except Fault Address :=
  if isAllOnes a then .error (.pastLast a)
  else .ok (fromBytes a.family (carry (bytesOf a).reverse).reverse (by simp))

/-- The previous address, borrowing from the last byte; a fault at the first address of the
family. -/
def decrement (a : Address) : Except Fault Address :=
  if isZero a then .error (.beforeFirst a)
  else .ok (fromBytes a.family (borrow (bytesOf a).reverse).reverse (by simp))

/-! ### Masks -/

/-- The mask byte at position `index` for a prefix of `len` bits: the leading `covered` bits are
set, where `covered` is the number of the prefix's bits that fall in this byte. -/
def maskByte (index len : Nat) : UInt8 :=
  let covered := min (len - index * 8) 8
  if covered = 0 then 0 else 0xFF <<< (8 - covered).toUInt8

/-- A prefix length is at most the family's width. -/
def checkPrefixLen (f : Family) (len : Nat) : Except Fault Unit :=
  if len ≤ f.width then pure () else throw (.prefixTooLong len f)

/-- The address of `a`'s family whose byte at each position `i` is `g i` of `a`'s byte there. -/
def mapBytes (a : Address) (g : Nat → UInt8 → UInt8) : Address :=
  fromBytes a.family ((bytesOf a).mapIdx g) (by simp)

/-- The first address of the length-`len` block holding `a`: every byte masked. -/
def network (a : Address) (len : Nat) : Except Fault Address := do
  checkPrefixLen a.family len
  return mapBytes a fun i b => b &&& maskByte i len

/-- The last address of the length-`len` block holding `a`: every byte joined with the inverted
mask, so the host bits of `a` need not be zero. -/
def broadcast (a : Address) (len : Nat) : Except Fault Address := do
  checkPrefixLen a.family len
  return mapBytes a fun i b => b ||| ~~~maskByte i len

/-- Exclusive or, byte by byte; a fault for addresses of two families. -/
def xor (a b : Address) : Except Fault Address :=
  if a.family = b.family then .ok (mapBytes a fun i x => x ^^^ (bytesOf b).getD i 0)
  else .error (.mixedXor a b)

/-! ### Bit counts -/

/-- The number of leading zero bits of a byte; `8` for the zero byte. -/
def byteLeadingZeros (b : UInt8) : Nat := b.toBitVec.clz.toNat

/-- The number of trailing zero bits of a byte; `8` for the zero byte. -/
def byteTrailingZeros (b : UInt8) : Nat := b.toBitVec.ctz.toNat

/-- The 1-based position, counted from the left, of the most significant set bit: the index of
the first nonzero byte scaled by eight, plus that byte's leading zero bits, plus one; `0` when
every byte is zero. -/
def leadingOneBitPosition (a : Address) : UInt8 :=
  (((bytesOf a).zipIdx.find? fun p => p.1 != 0).map fun (b, i) =>
    (i * 8).toUInt8 + (byteLeadingZeros b).toUInt8 + 1).getD 0

/-- The number of zero bits at the right end: the index, counted from the right, of the last
nonzero byte scaled by eight, plus that byte's trailing zero bits; the family's width when every
byte is zero. -/
def trailingZeroBitCount (a : Address) : UInt8 :=
  (((bytesOf a).reverse.zipIdx.find? fun p => p.1 != 0).map fun (b, i) =>
    (i * 8).toUInt8 + (byteTrailingZeros b).toUInt8).getD a.family.width.toUInt8

end Bytewise

end NetRanges
