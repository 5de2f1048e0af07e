import NetRanges.Family

/-!
# Addresses

An address is a number below `2 ^ width` tagged with its family. Everything the library does
with addresses is arithmetic on that number: bytes are its big-endian base-256 digits, the zero
address is `0`, the last address is `2 ^ width - 1`, and the order is the order of the key
`rank * 2 ^ 128 + value`, which puts every IPv4 address before every IPv6 address and compares
two addresses of one family as unsigned numbers (`Address.lt_iff`).
-/

-- Powers go through the core instance; a literal exponent carries its type for the same reason.
attribute [local instance (1100)] instPowNat

namespace NetRanges

/-- An address of a family: its value as an unsigned number below the family's size. -/
structure Address where
  family : Family
  value : Nat
  lt_size : value < family.size
  deriving DecidableEq

namespace Address

/-- The address of family `f` with value `n`, if `n` is small enough. -/
def ofValue? (f : Family) (n : Nat) : Option Address :=
  if h : n < f.size then some ⟨f, n, h⟩ else none

def zero (f : Family) : Address := ⟨f, 0, f.size_pos⟩

/-- The last address of a family, all bits set. -/
def allOnes (f : Family) : Address := ⟨f, f.size - 1, Nat.sub_lt f.size_pos (by decide)⟩

def isZero (a : Address) : Bool := a.value == 0

def isAllOnes (a : Address) : Bool := a.value + 1 == a.family.size

/-- The sort key: the family's rank above every value of either family. -/
def key (a : Address) : Nat := a.family.rank * 2 ^ (128 : Nat) + a.value

/-- The bytes of the address, most significant first. -/
def bytes (a : Address) : List Nat :=
  (List.range a.family.byteLen).map fun i => a.value / 256 ^ (a.family.byteLen - 1 - i) % 256

instance : Ord Address := ⟨fun a b => compare a.key b.key⟩

instance : LT Address := ⟨fun a b => a.key < b.key⟩

instance : LE Address := ⟨fun a b => a.key ≤ b.key⟩

instance (a b : Address) : Decidable (a < b) := inferInstanceAs (Decidable (a.key < b.key))

instance (a b : Address) : Decidable (a ≤ b) := inferInstanceAs (Decidable (a.key ≤ b.key))

/-! ### The order -/

theorem value_lt_pow (a : Address) : a.value < 2 ^ (128 : Nat) :=
  Nat.lt_of_lt_of_le a.lt_size (Nat.pow_le_pow_right (by decide) a.family.width_le)

theorem ext_iff' {a b : Address} : a = b ↔ a.family = b.family ∧ a.value = b.value := by
  constructor
  · rintro rfl
    exact ⟨rfl, rfl⟩
  · cases a
    cases b
    rintro ⟨rfl, rfl⟩
    rfl

theorem key_inj {a b : Address} (h : a.key = b.key) : a = b := by
  have ha := a.value_lt_pow
  have hb := b.value_lt_pow
  have hra := a.family.rank_lt_two
  have hrb := b.family.rank_lt_two
  unfold key at h
  have hr : a.family.rank = b.family.rank := by
    rcases Nat.lt_or_ge a.family.rank b.family.rank with hl | hl
    · have : (a.family.rank + 1) * 2 ^ 128 ≤ b.family.rank * 2 ^ 128 := Nat.mul_le_mul_right _ hl
      rw [Nat.succ_mul] at this
      omega
    · rcases Nat.lt_or_ge b.family.rank a.family.rank with hl' | hl'
      · have : (b.family.rank + 1) * 2 ^ 128 ≤ a.family.rank * 2 ^ 128 :=
          Nat.mul_le_mul_right _ hl'
        rw [Nat.succ_mul] at this
        omega
      · omega
  rw [hr] at h
  exact ext_iff'.2 ⟨Family.rank_inj hr, by omega⟩

theorem lt_iff {a b : Address} (h : a.family = b.family) : a < b ↔ a.value < b.value := by
  show a.key < b.key ↔ _
  unfold key
  rw [h]
  omega

theorem le_iff {a b : Address} (h : a.family = b.family) : a ≤ b ↔ a.value ≤ b.value := by
  show a.key ≤ b.key ↔ _
  unfold key
  rw [h]
  omega

theorem isAllOnes_iff (a : Address) : a.isAllOnes = true ↔ a.value + 1 = a.family.size := by
  simp [isAllOnes]

theorem isZero_iff (a : Address) : a.isZero = true ↔ a.value = 0 := by
  simp [isZero]

end Address

end NetRanges
