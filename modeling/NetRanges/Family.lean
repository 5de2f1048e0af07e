/-!
# Address families

An address belongs to one of two families: IPv4, whose addresses are 32-bit numbers, and IPv6,
whose addresses are 128-bit numbers. The two are never mixed: a block, a range or a merged run
lies wholly inside one family, and every IPv4 address sorts before every IPv6 address, which is
what `Family.rank` records.
-/

-- Powers of numbers are taken through the core instance, whatever else is in scope.
attribute [local instance (1100)] instPowNat

namespace NetRanges

/-- The two address families. -/
inductive Family where
  | v4
  | v6
  deriving DecidableEq, Repr, Inhabited

namespace Family

def width : Family → Nat
  | v4 => 32
  | v6 => 128

def byteLen : Family → Nat
  | v4 => 4
  | v6 => 16

/-- Number of addresses of the family, `2 ^ width`. -/
def size (f : Family) : Nat := 2 ^ f.width

/-- The family's display name. -/
def name : Family → String
  | v4 => "IPv4"
  | v6 => "IPv6"

/-- The family's short code, `v4` or `v6`, used in serialized values. -/
def code : Family → String
  | v4 => "v4"
  | v6 => "v6"

/-- The family's name in structural descriptions, `V4` or `V6`. -/
def tag : Family → String
  | v4 => "V4"
  | v6 => "V6"

/-- Position of the family in the order of addresses: IPv4 first. -/
def rank : Family → Nat
  | v4 => 0
  | v6 => 1

@[simp] theorem width_v4 : v4.width = 32 := rfl
@[simp] theorem width_v6 : v6.width = 128 := rfl

theorem width_le (f : Family) : f.width ≤ 128 := by
  cases f <;> decide

theorem size_pos (f : Family) : 0 < f.size := Nat.two_pow_pos _

theorem byteLen_mul (f : Family) : f.byteLen * 8 = f.width := by
  cases f <;> rfl

theorem size_eq_pow_byteLen (f : Family) : f.size = 256 ^ f.byteLen := by
  cases f <;> rfl

theorem byteLen_le (f : Family) : f.byteLen ≤ 16 := by
  cases f <;> decide

theorem rank_lt_two (f : Family) : f.rank < 2 := by
  cases f <;> decide

theorem rank_inj {f g : Family} (h : f.rank = g.rank) : f = g := by
  cases f <;> cases g <;> simp [rank] at h ⊢

end Family

end NetRanges
