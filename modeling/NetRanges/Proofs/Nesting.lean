import NetRanges.Block
import NetRanges.Proofs.Alignment

/-!
# Nested blocks

An address lies in a block exactly when rounding its value down to a multiple of the block's span
gives the block's network address (`contains_iff_div_mul`). The span of a block divides the span
of every shorter block of its family, and rounding down to a coarse grid after a finer one is
rounding down to the coarse grid alone (`div_mul_div_of_dvd`). From these two facts:

* `containsBlock` decides holding: a block that holds another holds all its addresses
  (`contains_of_containsBlock`), and holding is transitive (`containsBlock_trans`);
* `overlaps` decides sharing an address (`overlaps_iff`): two blocks are nested or disjoint.
-/
namespace NetRanges

namespace Address

/-- Rounding down to multiples of `s` and then of a multiple `t` of `s` is rounding down to
multiples of `t`. -/
theorem div_mul_div_of_dvd {x s t : Nat} (hs : 0 < s) (h : s ∣ t) : x / s * s / t = x / t := by
  obtain ⟨k, rfl⟩ := h
  rw [Nat.mul_comm s k, Nat.mul_div_mul_right _ _ hs, Nat.div_div_eq_div_mul, Nat.mul_comm]

end Address

namespace Block

theorem span_dvd_span {b c : Block} (hf : c.family = b.family) (hlen : b.len ≤ c.len) :
    c.span ∣ b.span := by
  unfold span Address.span
  rw [hf]
  exact Nat.pow_dvd_pow 2 (Nat.sub_le_sub_left hlen _)

theorem top_eq (b : Block) : b.top + 1 = b.base + b.span := by
  have := b.span_pos
  unfold top
  omega

/-- An address lies in a block exactly when it rounds down to the block's network address. -/
theorem contains_iff_div_mul (b : Block) (a : Address) :
    b.contains a = true ↔ a.family = b.family ∧ a.value / b.span * b.span = b.base := by
  rw [contains_iff]
  have htop := b.top_eq
  constructor
  · rintro ⟨hf, hlo, hhi⟩
    refine ⟨hf, Address.div_mul_eq_of_le_of_lt ?_ hlo (by omega)⟩
    exact Nat.dvd_of_mod_eq_zero b.aligned
  · rintro ⟨hf, hbase⟩
    have hlt := Nat.lt_div_mul_add (a := a.value) b.span_pos
    have hle := Nat.div_mul_le_self a.value b.span
    exact ⟨hf, by omega, by omega⟩

theorem containsBlock_iff (b c : Block) :
    b.containsBlock c = true ↔
      c.family = b.family ∧ b.len ≤ c.len ∧ c.base / b.span * b.span = b.base := by
  simp [containsBlock, Bool.and_eq_true, beq_iff_eq, decide_eq_true_eq, and_assoc]

theorem containsBlock_refl (b : Block) : b.containsBlock b = true :=
  (containsBlock_iff b b).2 ⟨rfl, Nat.le_refl _, b.base_div_mul⟩

/-- Rounding an address of `c` down to the span of a block holding `c` gives what rounding `c`'s
network address does. -/
theorem div_mul_eq_of_containsBlock {b c : Block} (h : b.containsBlock c = true) {a : Address}
    (ha : c.contains a = true) : a.value / b.span * b.span = c.base / b.span * b.span := by
  obtain ⟨hf, hlen, -⟩ := (containsBlock_iff b c).1 h
  obtain ⟨-, hround⟩ := (contains_iff_div_mul c a).1 ha
  rw [← hround, Address.div_mul_div_of_dvd c.span_pos (span_dvd_span hf hlen)]

theorem contains_of_containsBlock {b c : Block} (h : b.containsBlock c = true) {a : Address}
    (ha : c.contains a = true) : b.contains a = true := by
  obtain ⟨hf, -, hbase⟩ := (containsBlock_iff b c).1 h
  have hfa := ((contains_iff_div_mul c a).1 ha).1
  refine (contains_iff_div_mul b a).2 ⟨hfa.trans hf, ?_⟩
  rw [div_mul_eq_of_containsBlock h ha, hbase]

theorem containsBlock_trans {b c d : Block} (hbc : b.containsBlock c = true)
    (hcd : c.containsBlock d = true) : b.containsBlock d = true := by
  obtain ⟨hf, hlen, hbase⟩ := (containsBlock_iff b c).1 hbc
  obtain ⟨hf', hlen', -⟩ := (containsBlock_iff c d).1 hcd
  refine (containsBlock_iff b d).2 ⟨hf'.trans hf, Nat.le_trans hlen hlen', ?_⟩
  have hd : c.contains d.first = true :=
    contains_of_containsBlock hcd ((contains_iff d d.first).2 ⟨rfl, Nat.le_refl _, d.base_le_top⟩)
  rw [← hbase]
  exact div_mul_eq_of_containsBlock hbc hd

/-- The shorter of two blocks sharing an address holds the longer. -/
theorem containsBlock_of_contains {b c : Block} (hlen : b.len ≤ c.len) {a : Address}
    (hb : b.contains a = true) (hc : c.contains a = true) : b.containsBlock c = true := by
  obtain ⟨hfb, hroundb⟩ := (contains_iff_div_mul b a).1 hb
  obtain ⟨hfc, hroundc⟩ := (contains_iff_div_mul c a).1 hc
  have hf : c.family = b.family := hfc.symm.trans hfb
  refine (containsBlock_iff b c).2 ⟨hf, hlen, ?_⟩
  rw [← hroundc, Address.div_mul_div_of_dvd c.span_pos (span_dvd_span hf hlen), hroundb]

theorem overlaps_comm (b c : Block) : b.overlaps c = c.overlaps b := by
  simp [overlaps, Bool.or_comm]

theorem overlaps_iff (b c : Block) :
    b.overlaps c = true ↔ ∃ a, b.contains a = true ∧ c.contains a = true := by
  have hfirst : ∀ d : Block, d.contains d.first = true := fun d =>
    (contains_iff d d.first).2 ⟨rfl, Nat.le_refl _, d.base_le_top⟩
  constructor
  · intro h
    rcases Bool.or_eq_true_iff.1 h with hbc | hcb
    · exact ⟨c.first, contains_of_containsBlock hbc (hfirst c), hfirst c⟩
    · exact ⟨b.first, hfirst b, contains_of_containsBlock hcb (hfirst b)⟩
  · rintro ⟨a, hb, hc⟩
    unfold overlaps
    rcases Nat.le_total b.len c.len with hlen | hlen
    · rw [containsBlock_of_contains hlen hb hc, Bool.true_or]
    · rw [containsBlock_of_contains hlen hc hb, Bool.or_true]

end Block

end NetRanges
