import NetRanges.Proofs.Nesting
import NetRanges.Proofs.Cover

/-!
# What a block is

Whichever way a block is made, its prefix length is at most its family's width and its network
address has no host bits set: clearing them changes nothing, and every bit below the prefix is
zero. On that alignment rest the laws of blocks (`Block.aligned_laminar`):

* a block holds another (`containsBlock`) exactly when it holds every address of it
  (`containsBlock_iff_subset`), and two blocks overlap exactly when they share an address;
* two blocks are nested or disjoint (`nested_or_disjoint`);
* a block holds exactly the addresses of its family from its first to its last address, and its
  last address, the network address with every host bit set, lies `2 ^ (width - len) - 1` above
  its first.
-/
namespace NetRanges

namespace Block

theorem network_first (b : Block) : b.first.network b.len = .ok b.first := by
  have hmask : b.first.maskTo b.len = b.first := Address.ext_iff'.2 ⟨rfl, b.base_div_mul⟩
  unfold Address.network
  rw [if_pos (show b.len ≤ b.first.family.width from b.len_le), hmask]

/-- No bit below the prefix of a block's network address is set. -/
theorem testBit_base (b : Block) {i : Nat} (hi : i < b.family.width - b.len) :
    b.base.testBit i = false := by
  have hmod := Nat.testBit_mod_two_pow b.base (b.family.width - b.len) i
  have haligned : b.base % 2 ^ (b.family.width - b.len) = 0 := b.aligned
  rw [haligned, Nat.zero_testBit] at hmod
  simpa [hi] using hmod.symm

theorem broadcast_first (b : Block) : b.first.broadcast b.len = .ok b.last := by
  have hfill : b.first.fillTo b.len = b.last :=
    Address.ext_iff'.2 ⟨rfl, congrArg (· + b.span - 1) b.base_div_mul⟩
  unfold Address.broadcast
  rw [if_pos (show b.len ≤ b.first.family.width from b.len_le), hfill]

theorem last_value_sub_first (b : Block) :
    b.last.value - b.first.value = 2 ^ (b.family.width - b.len) - 1 := by
  have := b.span_pos
  show b.base + b.span - 1 - b.base = b.span - 1
  omega

/-- A block holds exactly the addresses of its family from its first to its last address. -/
theorem contains_iff_between (b : Block) (a : Address) :
    b.contains a = true ↔ a.family = b.family ∧ b.first ≤ a ∧ a ≤ b.last := by
  rw [contains_iff]
  constructor
  · rintro ⟨hf, hlo, hhi⟩
    exact ⟨hf, (Address.le_iff hf.symm).2 hlo, (Address.le_iff hf).2 hhi⟩
  · rintro ⟨hf, hlo, hhi⟩
    exact ⟨hf, (Address.le_iff hf.symm).1 hlo, (Address.le_iff hf).1 hhi⟩

/-- A block holding every address of another is at least as large, so its prefix is no longer. -/
theorem len_le_of_subset {b c : Block} (h : ∀ a, c.contains a = true → b.contains a = true) :
    b.len ≤ c.len := by
  obtain ⟨hf, hlo, -⟩ := (contains_iff b c.first).1 (h _ c.contains_first)
  obtain ⟨-, -, hhi⟩ := (contains_iff b c.last).1 (h _ c.contains_last)
  have hfam : c.family = b.family := hf
  have hspan : c.span ≤ b.span := by
    have := b.top_eq
    have := c.top_eq
    simp only [first, last] at hlo hhi
    omega
  unfold span Address.span at hspan
  rw [hfam] at hspan
  have := (Nat.pow_le_pow_iff_right (by decide)).1 hspan
  have := b.len_le
  have := c.len_le
  rw [hfam] at this
  omega

theorem containsBlock_iff_subset (b c : Block) :
    b.containsBlock c = true ↔ ∀ a, c.contains a = true → b.contains a = true := by
  constructor
  · exact fun h _ => contains_of_containsBlock h
  · intro h
    exact containsBlock_of_contains (len_le_of_subset h) (h _ c.contains_first) c.contains_first

theorem nested_or_disjoint (b c : Block) :
    (∀ a, c.contains a = true → b.contains a = true) ∨
      (∀ a, b.contains a = true → c.contains a = true) ∨
      ¬∃ a, b.contains a = true ∧ c.contains a = true := by
  rw [← containsBlock_iff_subset, ← containsBlock_iff_subset, ← overlaps_iff]
  unfold overlaps
  cases b.containsBlock c <;> cases c.containsBlock b <;> simp

/-- Every block has a prefix length within its family's width and a network address without
host bits, whether clearing them or reading them bit by bit; holding a block is holding its
addresses, overlapping is sharing one, and two blocks are nested or disjoint; a block holds the
addresses of its family between its first and last address, the last being the first with every
host bit set, `2 ^ (width - len) - 1` above it. -/
theorem aligned_laminar (b c : Block) (x : Address) :
    b.len ≤ b.family.width ∧
    b.first.network b.len = .ok b.first ∧
    (∀ i < b.family.width - b.len, b.first.value.testBit i = false) ∧
    (b.containsBlock c = true ↔ ∀ a, c.contains a = true → b.contains a = true) ∧
    (b.overlaps c = true ↔ ∃ a, b.contains a = true ∧ c.contains a = true) ∧
    ((∀ a, c.contains a = true → b.contains a = true) ∨
      (∀ a, b.contains a = true → c.contains a = true) ∨
      ¬∃ a, b.contains a = true ∧ c.contains a = true) ∧
    (b.contains x = true ↔ x.family = b.family ∧ b.first ≤ x ∧ x ≤ b.last) ∧
    b.first.broadcast b.len = .ok b.last ∧
    b.last.value - b.first.value = 2 ^ (b.family.width - b.len) - 1 :=
  ⟨b.len_le, b.network_first, fun _ hi => b.testBit_base hi, containsBlock_iff_subset b c,
    overlaps_iff b c, nested_or_disjoint b c, contains_iff_between b x, b.broadcast_first,
    b.last_value_sub_first⟩

end Block

end NetRanges
