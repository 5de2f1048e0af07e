import NetRanges.Address.Bits
import NetRanges.Text.Cut

/-!
# Blocks

A block is the set of addresses of a family that share their first `len` bits: an aligned run
of `span = 2 ^ (width - len)` addresses starting at its network address `base`, which has no host
bits set. It is written `network/len`.

Two blocks are nested or disjoint; `containsBlock` and `overlaps` decide this from the
lengths and the network addresses alone. Blocks are ordered by network address, then length.
-/
namespace NetRanges

/-- An aligned block of addresses: a family, a prefix length and a network address whose host
bits are clear. -/
structure Block where
  family : Family
  len : Nat
  base : Nat
  len_le : len ≤ family.width
  aligned : base % Address.span family len = 0
  base_lt : base < family.size

namespace Block

instance : DecidableEq Block := fun b c =>
  if h : b.family = c.family ∧ b.len = c.len ∧ b.base = c.base then
    isTrue (by
      cases b
      cases c
      obtain ⟨h1, h2, h3⟩ := h
      subst h1 h2 h3
      rfl)
  else isFalse (by
    rintro rfl
    exact h ⟨rfl, rfl, rfl⟩)

/-- The number of addresses of the block. -/
def span (b : Block) : Nat := Address.span b.family b.len

theorem span_pos (b : Block) : 0 < b.span := Address.span_pos _ _

theorem base_div_mul (b : Block) : b.base / b.span * b.span = b.base := by
  have := Nat.div_add_mod b.base b.span
  have h := b.aligned
  unfold span
  rw [Nat.mul_comm]
  unfold span at this
  omega

theorem base_add_span_le (b : Block) : b.base + b.span ≤ b.family.size := by
  have := Address.div_mul_add_le b.span_pos (Address.span_dvd_size b.family b.len) b.base_lt
  rw [b.base_div_mul] at this
  exact this

/-- The value of the last address of the block. -/
def top (b : Block) : Nat := b.base + b.span - 1

theorem top_lt (b : Block) : b.top < b.family.size := by
  have := b.base_add_span_le
  have := b.span_pos
  unfold top
  omega

theorem base_le_top (b : Block) : b.base ≤ b.top := by
  have := b.span_pos
  unfold top
  omega

/-- The network address, the block's first address. -/
def first (b : Block) : Address := ⟨b.family, b.base, b.base_lt⟩

/-- The block's last address, all host bits set. -/
def last (b : Block) : Address := ⟨b.family, b.top, b.top_lt⟩

/-- The block of length `len` that holds the address. -/
def containing (a : Address) (len : Nat) (h : len ≤ a.family.width) : Block :=
  ⟨a.family, len, (a.maskTo len).value, h, Nat.mul_mod_left _ _, (a.maskTo len).lt_size⟩

/-- The block holding just the address. -/
def host (a : Address) : Block := containing a a.family.width (Nat.le_refl _)

def isHost (b : Block) : Bool := b.len == b.family.width

def contains (b : Block) (a : Address) : Bool :=
  a.family == b.family && b.base ≤ a.value && a.value ≤ b.top

/-- Whether every address of `c` is in `b`: `c` is of `b`'s family, at least as long, and
shares `b`'s network bits. -/
def containsBlock (b c : Block) : Bool :=
  c.family == b.family && b.len ≤ c.len && c.base / b.span * b.span == b.base

/-- Whether the blocks share an address; blocks are nested or disjoint. -/
def overlaps (b c : Block) : Bool := b.containsBlock c || c.containsBlock b

/-- The order of blocks: network address, then length. -/
def compare (b c : Block) : Ordering :=
  (Ord.compare b.first.key c.first.key).then (Ord.compare b.len c.len)

instance : Ord Block := ⟨Block.compare⟩

/-- The text `network/len`. -/
def text (b : Block) : String := b.first.text ++ "/" ++ Address.decimal b.len

/-- The block with the given network address and length, if the length fits the family and
the address has no host bits set; otherwise the error names the text `address/len`. -/
def new (a : Address) (len : Nat) : Except ParseError Block :=
  if h : len ≤ a.family.width then
    if a.maskTo len = a then .ok (containing a len h)
    else .error (.block (a.text ++ "/" ++ Address.decimal len))
  else .error (.block (a.text ++ "/" ++ Address.decimal len))

/-- The block of length `len` holding `a`, or a fault if `len` exceeds the family's width. -/
def containingChecked (a : Address) (len : Nat) : Except Fault Block :=
  if h : len ≤ a.family.width then .ok (containing a len h)
  else .error (.prefixTooLong len a.family)

/-- Reads `address/len`: the address exactly as written, the length as one or more ASCII digits
with a value of at most 255 and at most the family's width. Host bits of the address are
cleared. Any other text is an error naming the whole text. -/
def parse (s : String) : Except ParseError Block :=
  match Text.cutAt? '/' s with
  | none => .error (.block s)
  | some (addr, len) =>
    match Address.ofText? addr with
    | none => .error (.block s)
    | some a =>
      let ds := len.toList
      if ds.isEmpty || !ds.all Char.isDigit then .error (.block s)
      else
        let n := Address.digitsValue 10 (ds.map fun c => c.toNat - '0'.toNat)
        if 255 < n then .error (.block s)
        else if h : n ≤ a.family.width then .ok (containing a n h)
        else .error (.block s)

/-! ### Small facts -/

@[simp] theorem containing_family (a : Address) (len : Nat) (h : len ≤ a.family.width) :
    (containing a len h).family = a.family := rfl

@[simp] theorem containing_len (a : Address) (len : Nat) (h : len ≤ a.family.width) :
    (containing a len h).len = len := rfl

@[simp] theorem containing_base (a : Address) (len : Nat) (h : len ≤ a.family.width) :
    (containing a len h).base = a.value / Address.span a.family len * Address.span a.family len :=
  rfl

/-- A block holds exactly the values from its network address to its last address. -/
theorem contains_iff (b : Block) (a : Address) :
    b.contains a = true ↔ a.family = b.family ∧ b.base ≤ a.value ∧ a.value ≤ b.top := by
  simp [contains, Bool.and_eq_true, beq_iff_eq, decide_eq_true_eq, and_assoc]

end Block

end NetRanges
