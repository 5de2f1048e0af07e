import Mathlib.Order.Bounds.Defs
import NetRanges.Proofs.Cover

/-!
# The length of the block taken at the cursor

Each block of a cover starts at the cursor, and its length is the larger of an alignment bound,
the width less the cursor's trailing zero bits, and an end bound, the position of the highest bit
in which the cursor and the address past the range differ (none for a range that ends at the
family's last address). That length is exactly the least one whose block at the cursor has the
cursor as its network address and a broadcast address within the range
(`coverBlock_len_isLeast`): the two bounds are computed by the checked address operations
without fault, and every longer length up to the width fits as well (`fits_iff`).
-/
namespace NetRanges

namespace Address

/-- The network address of the length-`p` block holding `a` is `a` itself exactly when the
length fits the family and `a` is aligned to the block's size. -/
theorem network_eq_self_iff {a : Address} {p : Nat} :
    a.network p = .ok a ↔ p ≤ a.family.width ∧ span a.family p ∣ a.value := by
  unfold network
  split
  · next hp =>
    simp only [Except.ok.injEq, hp, true_and, ext_iff', maskTo_family, maskTo_value]
    exact (Nat.dvd_iff_div_mul_eq _ _).symm
  · next hp => simp [hp]

theorem broadcast_eq_ok_iff {a b : Address} {p : Nat} :
    a.broadcast p = .ok b ↔ p ≤ a.family.width ∧ a.fillTo p = b := by
  unfold broadcast
  split <;> simp [*]

theorem increment_eq_ok {a : Address} (h : a.value + 1 < a.family.size) :
    a.increment = .ok ⟨a.family, a.value + 1, h⟩ := by
  simp [increment, next?, ofValue?, h]

theorem xor_eq_ok {a b : Address} (h : a.family = b.family) : a.xor b = .ok (xorOf a b h) := by
  simp [Address.xor, h]

end Address

namespace Range

@[simp] theorem coverBlock_len (f : Family) (hi cursor : Nat) (h : cursor < f.size) :
    (coverBlock f hi cursor h).len = coverLen f cursor hi := rfl

/-- The two bounds of the length the cover takes at the cursor, as the checked address
operations compute them: the alignment bound from the cursor's trailing zero bits, and, unless
the range ends at the family's last address, the end bound from the highest bit of the exclusive
or of the address past the range and the cursor. Neither operation faults. -/
theorem coverBlock_len_eq (cursor hi : Address) (hf : cursor.family = hi.family) :
    (hi.isAllOnes = true → (coverBlock cursor.family hi.value cursor.value cursor.lt_size).len =
        cursor.family.width - cursor.trailingZeros) ∧
      (hi.isAllOnes = false → ∃ l x, hi.increment = .ok l ∧ l.xor cursor = .ok x ∧
        (coverBlock cursor.family hi.value cursor.value cursor.lt_size).len =
          max (cursor.family.width - cursor.trailingZeros) x.leadingOne) := by
  have hsize : hi.family.size = cursor.family.size := by rw [hf]
  refine ⟨fun hlast => ?_, fun hlast => ?_⟩
  · -- the range ends at the family's last address: no end bound
    have hend : ¬ hi.value + 1 < cursor.family.size := by
      have := (Address.isAllOnes_iff hi).1 hlast
      omega
    rw [coverBlock_len, coverLen, if_neg hend, Nat.max_zero]
    rfl
  · have hnext : hi.value + 1 < hi.family.size := by
      have := hi.lt_size
      have := (Address.isAllOnes_iff hi).not.1 (by simp [hlast])
      omega
    have hend : hi.value + 1 < cursor.family.size := hsize ▸ hnext
    have hlc : (⟨hi.family, hi.value + 1, hnext⟩ : Address).family = cursor.family := hf.symm
    refine ⟨_, _, Address.increment_eq_ok hnext, Address.xor_eq_ok hlc, ?_⟩
    rw [coverBlock_len, coverLen, if_pos hend]
    simp only [Address.trailingZeros, Address.leadingOne, Address.xorOf, hf]

/-- The block of length `p` at the cursor has the cursor as its network address and ends within
the range exactly when `p` lies between the length the cover takes there and the width. -/
theorem fits_iff {cursor hi : Address} (hf : cursor.family = hi.family) (hle : cursor ≤ hi)
    (p : Nat) :
    (cursor.network p = .ok cursor ∧ ∃ b, cursor.broadcast p = .ok b ∧ b ≤ hi) ↔
      coverLen cursor.family cursor.value hi.value ≤ p ∧ p ≤ cursor.family.width := by
  have hc : cursor.value ≤ hi.value := (Address.le_iff hf).1 hle
  have hhi : hi.value < cursor.family.size := hf ▸ hi.lt_size
  have hq := coverLen_le cursor.family cursor.value hi.value
  have hspan : Address.span cursor.family p = 2 ^ (cursor.family.width - p) := rfl
  have hpos := Address.span_pos cursor.family p
  have hb : cursor.fillTo p ≤ hi ↔ (cursor.fillTo p).value ≤ hi.value := Address.le_iff hf
  rw [Address.network_eq_self_iff]
  by_cases hp : p ≤ cursor.family.width
  · have hk := le_coverHostBits_iff hc hhi (Nat.sub_le cursor.family.width p)
    rw [← hspan] at hk
    constructor
    · rintro ⟨⟨-, hd⟩, b, hbroad, hble⟩
      obtain ⟨-, rfl⟩ := Address.broadcast_eq_ok_iff.1 hbroad
      have htop := hb.1 hble
      rw [Address.fillTo_value, Nat.div_mul_cancel hd] at htop
      have := hk.2 ⟨hd, by omega⟩
      omega
    · rintro ⟨hqp, -⟩
      obtain ⟨hd, hfit⟩ := hk.1 (by omega)
      refine ⟨⟨hp, hd⟩, cursor.fillTo p, Address.broadcast_eq_ok_iff.2 ⟨hp, rfl⟩, hb.2 ?_⟩
      rw [Address.fillTo_value, Nat.div_mul_cancel hd]
      omega
  · simp [hp]

/-- One step of the cover: for a cursor and a last address of one family, in order, the length
of the block the cover takes at the cursor is the larger of the alignment bound (the width less
the cursor's trailing zero bits) and the end bound (the leading one of the exclusive or of the
incremented last address and the cursor, or zero when the last address is the family's last),
computed without fault; and it is the least length whose block at the cursor has the cursor as
network address and a broadcast address no later than the last address. -/
theorem coverBlock_len_isLeast (cursor hi : Address) (hf : cursor.family = hi.family)
    (hle : cursor ≤ hi) :
    ((hi.isAllOnes = true → (coverBlock cursor.family hi.value cursor.value cursor.lt_size).len =
        cursor.family.width - cursor.trailingZeros) ∧
      (hi.isAllOnes = false → ∃ l x, hi.increment = .ok l ∧ l.xor cursor = .ok x ∧
        (coverBlock cursor.family hi.value cursor.value cursor.lt_size).len =
          max (cursor.family.width - cursor.trailingZeros) x.leadingOne)) ∧
    IsLeast {p | cursor.network p = .ok cursor ∧ ∃ b, cursor.broadcast p = .ok b ∧ b ≤ hi}
      (coverBlock cursor.family hi.value cursor.value cursor.lt_size).len := by
  refine ⟨coverBlock_len_eq cursor hi hf, ?_, fun p hp => ?_⟩
  · rw [coverBlock_len]
    exact (fits_iff hf hle _).2 ⟨Nat.le_refl _, coverLen_le _ _ _⟩
  · rw [coverBlock_len]
    exact ((fits_iff hf hle p).1 hp).1

/-- At `10.6.2.80`, for a range ending at `10.6.7.255`, the cover takes a block of length 28:
the cursor's four trailing zero bits allow no shorter one. -/
theorem coverBlock_len_unaligned_start :
    (⟨.v4, 168165968, by decide⟩ : Address).family = (⟨.v4, 168167423, by decide⟩ : Address).family ∧
    (⟨.v4, 168165968, by decide⟩ : Address) ≤ ⟨.v4, 168167423, by decide⟩ ∧
    IsLeast {p | (⟨.v4, 168165968, by decide⟩ : Address).network p = .ok ⟨.v4, 168165968, by decide⟩ ∧
      ∃ b, (⟨.v4, 168165968, by decide⟩ : Address).broadcast p = .ok b ∧
        b ≤ ⟨.v4, 168167423, by decide⟩} 28 := by
  have hle : (⟨.v4, 168165968, by decide⟩ : Address) ≤ ⟨.v4, 168167423, by decide⟩ := by decide
  have hlen : (coverBlock .v4 168167423 168165968 (by decide)).len = 28 := by decide +kernel
  obtain ⟨-, hleast⟩ :=
    coverBlock_len_isLeast ⟨.v4, 168165968, by decide⟩ ⟨.v4, 168167423, by decide⟩ rfl hle
  exact ⟨rfl, hle, hlen ▸ hleast⟩

end Range

end NetRanges
