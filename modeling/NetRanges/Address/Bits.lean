import NetRanges.Fault

/-!
# Bit arithmetic on addresses

A prefix length `len` splits an address into `len` network bits and `width - len` host bits. The
addresses sharing the network bits form an aligned run of `span f len = 2 ^ (width - len)`
values; clearing the host bits gives its first address (`maskTo`), setting them its last
(`fillTo`). Successor, predecessor, exclusive or, the position of the highest set bit and the
count of trailing zero bits complete what blocks and ranges need.

Each operation is total on the values where it is defined; the checked forms (`increment`,
`network`, `xor`, ...) report a `Fault` where a precondition is broken.
-/

-- Powers of numbers are taken through the core instance, whatever else is in scope.
attribute [local instance (1100)] instPowNat

namespace NetRanges

namespace Address

/-- The number of addresses of family `f` that share `len` leading bits. -/
def span (f : Family) (len : Nat) : Nat := 2 ^ (f.width - len)

theorem span_pos (f : Family) (len : Nat) : 0 < span f len := Nat.two_pow_pos _

theorem span_dvd_size (f : Family) (len : Nat) : span f len ∣ f.size :=
  Nat.pow_dvd_pow 2 (Nat.sub_le _ _)

/-- Rounding down to a multiple of a divisor of `n` stays a whole step below `n`. -/
theorem div_mul_add_le {v s n : Nat} (hs : 0 < s) (hd : s ∣ n) (h : v < n) :
    v / s * s + s ≤ n := by
  obtain ⟨k, rfl⟩ := hd
  have hk : v / s < k := (Nat.div_lt_iff_lt_mul hs).2 (by rw [Nat.mul_comm]; exact h)
  have := Nat.mul_le_mul_right s hk
  rw [Nat.succ_mul] at this
  rw [Nat.mul_comm s k]
  exact this

/-- The address with the host bits below the first `len` bits cleared. -/
def maskTo (a : Address) (len : Nat) : Address :=
  ⟨a.family, a.value / span a.family len * span a.family len,
    Nat.lt_of_le_of_lt (Nat.div_mul_le_self _ _) a.lt_size⟩

/-- The address with the host bits below the first `len` bits set. -/
def fillTo (a : Address) (len : Nat) : Address :=
  ⟨a.family, a.value / span a.family len * span a.family len + span a.family len - 1, by
    have := div_mul_add_le (span_pos a.family len) (span_dvd_size a.family len) a.lt_size
    have := span_pos a.family len
    omega⟩

/-- The next address, if the address is not the last of its family. -/
def next? (a : Address) : Option Address := ofValue? a.family (a.value + 1)

/-- The previous address, if the address is not the first of its family. -/
def prev? (a : Address) : Option Address :=
  if a.value = 0 then none else some ⟨a.family, a.value - 1, by have := a.lt_size; omega⟩

def xorOf (a b : Address) (h : a.family = b.family) : Address :=
  ⟨a.family, a.value ^^^ b.value, Nat.xor_lt_two_pow a.lt_size (h ▸ b.lt_size)⟩

/-- The 1-based position, counted from the most significant of `w` bits, of the highest set bit
of `n`; `0` when no bit is set. -/
def highBitPos (w n : Nat) : Nat := if n = 0 then 0 else w - Nat.log2 n

theorem highBitPos_le (w n : Nat) : highBitPos w n ≤ w := by
  unfold highBitPos
  split <;> omega

/-- The 1-based position, counted from the most significant bit, of the highest set bit; `0`
for the zero address. -/
def leadingOne (a : Address) : Nat := highBitPos a.family.width a.value

/-- The number of trailing zero bits of `n` seen through a window of `w` bits: the exponent of
the largest power of two dividing `n`, or `w` when the window holds only zeros. -/
def lowZeros : Nat → Nat → Nat
  | 0, _ => 0
  | w + 1, n => if n % 2 = 0 then lowZeros w (n / 2) + 1 else 0

/-- The number of trailing zero bits; the family's width for the zero address. -/
def trailingZeros (a : Address) : Nat := lowZeros a.family.width a.value

/-! ### Checked forms -/

/-- The next address, or a fault at the last address of the family. -/
def increment (a : Address) : Except Fault Address :=
  match a.next? with
  | some b => .ok b
  | none => .error (.pastLast a)

/-- The previous address, or a fault at the first address of the family. -/
def decrement (a : Address) : Except Fault Address :=
  match a.prev? with
  | some b => .ok b
  | none => .error (.beforeFirst a)

/-- The first address of the length-`len` block holding `a`, or a fault if `len` exceeds the
family's width. -/
def network (a : Address) (len : Nat) : Except Fault Address :=
  if len ≤ a.family.width then .ok (a.maskTo len) else .error (.prefixTooLong len a.family)

/-- The last address of the length-`len` block holding `a`, or a fault if `len` exceeds the
family's width. -/
def broadcast (a : Address) (len : Nat) : Except Fault Address :=
  if len ≤ a.family.width then .ok (a.fillTo len) else .error (.prefixTooLong len a.family)

/-- Exclusive or, or a fault for addresses of two families. -/
def xor (a b : Address) : Except Fault Address :=
  if h : a.family = b.family then .ok (xorOf a b h) else .error (.mixedXor a b)

/-! ### Small facts -/

@[simp] theorem maskTo_family (a : Address) (len : Nat) : (a.maskTo len).family = a.family := rfl

@[simp] theorem fillTo_family (a : Address) (len : Nat) : (a.fillTo len).family = a.family := rfl

@[simp] theorem maskTo_value (a : Address) (len : Nat) :
    (a.maskTo len).value = a.value / span a.family len * span a.family len := rfl

@[simp] theorem fillTo_value (a : Address) (len : Nat) :
    (a.fillTo len).value =
      a.value / span a.family len * span a.family len + span a.family len - 1 := rfl

theorem next?_eq_some {a b : Address} (h : a.next? = some b) :
    b.family = a.family ∧ b.value = a.value + 1 := by
  unfold next? ofValue? at h
  split at h
  · cases h
    exact ⟨rfl, rfl⟩
  · cases h

theorem next?_isSome_iff (a : Address) : a.next?.isSome ↔ a.isAllOnes = false := by
  have := a.lt_size
  unfold next? ofValue?
  simp only [isAllOnes, beq_eq_false_iff_ne]
  split <;> simp <;> omega

end Address

end NetRanges
