import NetRanges.Block

/-!
# Ranges

A range is the run of addresses of one family from a first to a last address, both included,
written `first-last`. Every block is a range (`Block.toRange`). Ranges are ordered by first
address, then last address.
-/
namespace NetRanges

/-- The addresses of one family with values from `lo` to `hi`, both included. -/
structure Range where
  family : Family
  lo : Nat
  hi : Nat
  lo_le : lo ≤ hi
  hi_lt : hi < family.size

namespace Range

instance : DecidableEq Range := fun r s =>
  if h : r.family = s.family ∧ r.lo = s.lo ∧ r.hi = s.hi then
    isTrue (by
      cases r
      cases s
      obtain ⟨h1, h2, h3⟩ := h
      subst h1 h2 h3
      rfl)
  else isFalse (by
    rintro rfl
    exact h ⟨rfl, rfl, rfl⟩)

theorem lo_lt_size (r : Range) : r.lo < r.family.size := Nat.lt_of_le_of_lt r.lo_le r.hi_lt

def first (r : Range) : Address := ⟨r.family, r.lo, r.lo_lt_size⟩

def last (r : Range) : Address := ⟨r.family, r.hi, r.hi_lt⟩

/-- The range from `a` to `b`, if they are of one family and in order. -/
def ofBounds? (a b : Address) : Option Range :=
  if h : a.family = b.family ∧ a.value ≤ b.value then
    some ⟨a.family, a.value, b.value, h.2, h.1 ▸ b.lt_size⟩
  else none

/-- The range from `a` to `b`, or a fault: first for two families, then for bounds out of
order. -/
def new (a b : Address) : Except Fault Range :=
  if a.family ≠ b.family then .error (.mixedRange a b)
  else
    match ofBounds? a b with
    | some r => .ok r
    | none => .error (.startAfterEnd a b)

def single (a : Address) : Range := ⟨a.family, a.value, a.value, Nat.le_refl _, a.lt_size⟩

def isSingle (r : Range) : Bool := r.lo == r.hi

def contains (r : Range) (a : Address) : Bool :=
  a.family == r.family && r.lo ≤ a.value && a.value ≤ r.hi

/-- Whether the range holds both ends of the other. -/
def containsRange (r s : Range) : Bool := r.contains s.first && r.contains s.last

def overlaps (r s : Range) : Bool := r.family == s.family && r.lo ≤ s.hi && s.lo ≤ r.hi

/-- The order of ranges: first address, then last address. -/
def compare (r s : Range) : Ordering :=
  (Ord.compare r.first.key s.first.key).then (Ord.compare r.hi s.hi)

instance : Ord Range := ⟨Range.compare⟩

/-- The text `first-last`. -/
def text (r : Range) : String := r.first.text ++ "-" ++ r.last.text

def Mem (r : Range) (a : Address) : Prop := a.family = r.family ∧ r.lo ≤ a.value ∧ a.value ≤ r.hi

instance (r : Range) (a : Address) : Decidable (r.Mem a) := inferInstanceAs (Decidable (_ ∧ _))

theorem contains_iff (r : Range) (a : Address) : r.contains a = true ↔ r.Mem a := by
  simp [contains, Mem, Bool.and_eq_true, beq_iff_eq, decide_eq_true_eq, and_assoc]

end Range

/-- The addresses of a block as a range. -/
def Block.toRange (b : Block) : Range := ⟨b.family, b.base, b.top, b.base_le_top, b.top_lt⟩

@[simp] theorem Block.toRange_family (b : Block) : b.toRange.family = b.family := rfl

@[simp] theorem Block.toRange_lo (b : Block) : b.toRange.lo = b.base := rfl

@[simp] theorem Block.toRange_hi (b : Block) : b.toRange.hi = b.top := rfl

end NetRanges
