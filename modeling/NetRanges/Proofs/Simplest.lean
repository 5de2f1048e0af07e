import NetRanges.Proofs.Canonical
import NetRanges.Proofs.Cover

/-!
# The simplest entry of a range

`Entry.ofRange` writes a range in its simplest form: a host when the range holds one address, a
network when the range is the address set of a block, and the range itself otherwise. Which form
it takes rests on the cover: a range is one block's address set exactly when its cover is that
block alone (`Range.cover_eq_singleton_iff`), because the cover is the shortest list of blocks
holding the range and a block's range is covered by the block itself.

Every form stands for the range it was made from (`Entry.toRange_ofRange`), so merging entries
and writing each merged range simply keeps the merged ranges (`Entry.merge_toRange`). The main
statement is `Entry.ofRange_forms`.
-/
namespace NetRanges

namespace Range

theorem mem_last (r : Range) : r.Mem r.last := ⟨rfl, r.lo_le, Nat.le_refl _⟩

theorem first_eq_last_iff (r : Range) : r.first = r.last ↔ r.lo = r.hi := by
  simp [Address.ext_iff', first, last]

theorem first_lt_last_iff (r : Range) : r.first < r.last ↔ r.lo < r.hi :=
  Address.lt_iff rfl

/-- A block whose addresses are those of the range is the range. -/
theorem toRange_eq_of_same_addresses {b : Block} {r : Range}
    (h : ∀ a, b.contains a = true ↔ r.Mem a) : b.toRange = r := by
  obtain ⟨hf, hlo, -⟩ := (Block.contains_iff b r.first).1 ((h _).2 r.mem_first)
  obtain ⟨-, -, hhi⟩ := (Block.contains_iff b r.last).1 ((h _).2 r.mem_last)
  obtain ⟨-, hlo', -⟩ := (h _).1 b.contains_first
  obtain ⟨-, -, hhi'⟩ := (h _).1 b.contains_last
  exact ext_of_bounds hf.symm (Nat.le_antisymm hlo hlo') (Nat.le_antisymm hhi' hhi)

/-- A range is the address set of a block exactly when its cover is that block alone. -/
theorem cover_eq_singleton_iff (r : Range) (b : Block) :
    r.cover = [b] ↔ ∀ a, b.contains a = true ↔ r.Mem a := by
  constructor
  · intro hcover a
    have := r.cover_tiling.mem_iff a
    rw [hcover] at this
    simpa [Range.Mem] using this
  · intro h
    rw [← toRange_eq_of_same_addresses h, Block.cover_toRange]

end Range

namespace Entry

/-- The three ways `ofRange` can go: a host for a single address, a network when the cover is one
block, the range itself otherwise. -/
theorem ofRange_cases (r : Range) :
    (r.lo = r.hi ∧ ofRange r = host r.first) ∨
    (r.lo < r.hi ∧ ∃ b, r.cover = [b] ∧ ofRange r = network b) ∨
    (r.lo < r.hi ∧ (∀ b, r.cover ≠ [b]) ∧ ofRange r = range r) := by
  unfold ofRange
  by_cases hsingle : r.lo = r.hi
  · exact Or.inl ⟨hsingle, if_pos hsingle⟩
  · have hlt : r.lo < r.hi := Nat.lt_of_le_of_ne r.lo_le hsingle
    rw [if_neg hsingle]
    split
    · next b hcover => exact Or.inr (Or.inl ⟨hlt, b, hcover, rfl⟩)
    · next hnot => exact Or.inr (Or.inr ⟨hlt, hnot, rfl⟩)

theorem toRange_ofRange (r : Range) : (ofRange r).toRange = r := by
  rcases ofRange_cases r with ⟨hsingle, he⟩ | ⟨-, b, hcover, he⟩ | ⟨-, -, he⟩ <;> rw [he]
  · exact Range.ext_of_bounds rfl rfl hsingle
  · exact Range.toRange_eq_of_same_addresses ((r.cover_eq_singleton_iff b).1 hcover)
  · rfl

theorem ofRange_eq_host_iff (r : Range) (a : Address) :
    ofRange r = host a ↔ r.first = r.last ∧ a = r.first := by
  rw [Range.first_eq_last_iff]
  rcases ofRange_cases r with ⟨hsingle, he⟩ | ⟨hlt, b, -, he⟩ | ⟨hlt, -, he⟩ <;> rw [he]
  · simp [hsingle, eq_comm]
  · simp [Nat.ne_of_lt hlt]
  · simp [Nat.ne_of_lt hlt]

theorem ofRange_eq_network_iff (r : Range) (b : Block) :
    ofRange r = network b ↔ r.first < r.last ∧ ∀ a, b.contains a = true ↔ r.Mem a := by
  rw [Range.first_lt_last_iff, ← Range.cover_eq_singleton_iff]
  rcases ofRange_cases r with ⟨hsingle, he⟩ | ⟨hlt, c, hcover, he⟩ | ⟨hlt, hnot, he⟩ <;> rw [he]
  · simp [hsingle]
  · simp [hlt, hcover, eq_comm]
  · simp [hnot b]

theorem ofRange_eq_range_iff (r : Range) :
    ofRange r = range r ↔ r.first < r.last ∧ ¬∃ b : Block, ∀ a, b.contains a = true ↔ r.Mem a := by
  simp only [Range.first_lt_last_iff, ← Range.cover_eq_singleton_iff]
  rcases ofRange_cases r with ⟨hsingle, he⟩ | ⟨hlt, c, hcover, he⟩ | ⟨hlt, hnot, he⟩ <;> rw [he]
  · simp [hsingle]
  · simp [hcover]
  · simp [hlt, hnot]

/-- Merging entries merges their ranges: each merged range is written in its simplest form and
stands for itself. -/
theorem merge_toRange (es : List Entry) :
    (merge es).map toRange = Range.union (es.map toRange) := by
  unfold merge
  rw [List.map_map]
  exact List.map_congr_left (fun r _ => toRange_ofRange r) |>.trans (List.map_id _)

/-- The simplest entry of a range stands for the range, and it is a host exactly when the range
holds one address, a network `b` exactly when the range holds more and is `b`'s address set, and
the range itself exactly when it holds more and is no block's address set. -/
theorem ofRange_forms (r : Range) :
    (ofRange r).toRange = r ∧
    (∀ a, ofRange r = host a ↔ r.first = r.last ∧ a = r.first) ∧
    (∀ b, ofRange r = network b ↔ r.first < r.last ∧ ∀ a, b.contains a = true ↔ r.Mem a) ∧
    (ofRange r = range r ↔
      r.first < r.last ∧ ¬∃ b : Block, ∀ a, b.contains a = true ↔ r.Mem a) ∧
    ∀ es : List Entry, (merge es).map toRange = Range.union (es.map toRange) :=
  ⟨toRange_ofRange r, ofRange_eq_host_iff r, ofRange_eq_network_iff r, ofRange_eq_range_iff r,
    merge_toRange⟩

end Entry

end NetRanges
