import Mathlib.Data.Nat.Bitwise
import NetRanges.Address.Bits

/-!
# Alignment

The cover of a range sizes each block with two bit counts: `lowZeros`, the trailing zero bits of
the cursor, and `highBitPos` of an exclusive or, the highest bit in which the cursor and the
address past the range differ. This module turns both into facts about multiples of powers of
two, which is how blocks are described (`Block.aligned`):

* `2 ^ lowZeros w n` divides `n`, and no larger power of two up to `2 ^ w` does
  (`pow_dvd_iff_le_lowZeros`);
* two numbers agree above the highest bit of their exclusive or, and at that bit the smaller one
  has a zero and the larger one a one (`div_pow_eq_of_log2_xor_lt`, `div_pow_log2_xor_lt`);
* so an aligned run of `2 ^ k` numbers starting at `c < d` stops at or before `d` exactly when
  `k` is at most the position of that bit (`add_pow_le_iff_le_log2_xor`).
-/
namespace NetRanges

namespace Address

/-! ### Trailing zero bits -/

theorem lowZeros_le (w n : Nat) : lowZeros w n ≤ w := by
  induction w generalizing n with
  | zero => simp [lowZeros]
  | succ w ih =>
    unfold lowZeros
    split
    · have := ih (n / 2)
      omega
    · omega

theorem pow_lowZeros_dvd (w n : Nat) : 2 ^ lowZeros w n ∣ n := by
  induction w generalizing n with
  | zero => simp [lowZeros]
  | succ w ih =>
    unfold lowZeros
    split
    · next heven =>
      have hn : n / 2 * 2 = n := Nat.div_mul_cancel (Nat.dvd_of_mod_eq_zero heven)
      have hd := Nat.mul_dvd_mul_right (ih (n / 2)) 2
      rw [hn, ← Nat.pow_succ] at hd
      exact hd
    · exact Nat.one_dvd n

/-- Within a window of `w` bits, `2 ^ k` divides `n` exactly when `n` has at least `k` trailing
zero bits. -/
theorem pow_dvd_iff_le_lowZeros {w n k : Nat} (hk : k ≤ w) : 2 ^ k ∣ n ↔ k ≤ lowZeros w n := by
  constructor
  · intro hd
    induction w generalizing n k with
    | zero => omega
    | succ w ih =>
      cases k with
      | zero => exact Nat.zero_le _
      | succ k =>
        rw [Nat.pow_succ, Nat.mul_comm] at hd
        have heven : n % 2 = 0 :=
          Nat.mod_eq_zero_of_dvd (Nat.dvd_trans (Nat.dvd_mul_right 2 _) hd)
        have := ih (by omega) (Nat.dvd_div_of_mul_dvd hd)
        simp only [lowZeros, heven, if_true]
        omega
  · intro hle
    exact Nat.dvd_trans (Nat.pow_dvd_pow 2 hle) (pow_lowZeros_dvd w n)

/-! ### The highest differing bit -/

/-- Two numbers agree on every bit above the highest bit of their exclusive or. -/
theorem div_pow_eq_of_log2_xor_lt {a b k : Nat} (h : (a ^^^ b).log2 < k) :
    a / 2 ^ k = b / 2 ^ k := by
  have hlt : a ^^^ b < 2 ^ k := by
    by_cases hz : a ^^^ b = 0
    · rw [hz]
      exact Nat.two_pow_pos k
    · exact (Nat.log2_lt hz).1 h
  have hz : (a ^^^ b) / 2 ^ k = 0 := Nat.div_eq_of_lt hlt
  rw [Nat.xor_div_two_pow] at hz
  exact Nat.eq_of_xor_eq_zero hz

/-- At the highest bit of their exclusive or, the smaller of two numbers has a zero and the
larger a one, so the larger is the greater seen from that bit up. -/
theorem div_pow_log2_xor_lt {a b : Nat} (h : a < b) :
    a / 2 ^ (a ^^^ b).log2 < b / 2 ^ (a ^^^ b).log2 := by
  have hne : a ^^^ b ≠ 0 := fun hz => Nat.ne_of_lt h (Nat.eq_of_xor_eq_zero hz)
  have hone : 1 ≤ (a ^^^ b) / 2 ^ (a ^^^ b).log2 :=
    (Nat.le_div_iff_mul_le (Nat.two_pow_pos _)).2 (by simpa using Nat.log2_self_le hne)
  rw [Nat.xor_div_two_pow] at hone
  have hle : a / 2 ^ (a ^^^ b).log2 ≤ b / 2 ^ (a ^^^ b).log2 := Nat.div_le_div_right h.le
  have hdiff : a / 2 ^ (a ^^^ b).log2 ≠ b / 2 ^ (a ^^^ b).log2 := by
    intro heq
    rw [heq, Nat.xor_self] at hone
    omega
  omega

theorem log2_xor_lt {a b w : Nat} (ha : a < 2 ^ w) (hb : b < 2 ^ w) (hne : a ≠ b) :
    (a ^^^ b).log2 < w :=
  (Nat.log2_lt fun hz => hne (Nat.eq_of_xor_eq_zero hz)).2 (Nat.xor_lt_two_pow ha hb)

/-! ### Aligned runs -/

/-- A run of `2 ^ k` numbers starting at a multiple of `2 ^ k` ends no later than the next
multiple of any larger power of two. -/
theorem add_pow_le_of_dvd {c k m : Nat} (hk : k ≤ m) (hc : 2 ^ k ∣ c) :
    c + 2 ^ k ≤ c / 2 ^ m * 2 ^ m + 2 ^ m := by
  have hkm : 2 ^ k ∣ 2 ^ m := Nat.pow_dvd_pow 2 hk
  have hmod : 2 ^ k ∣ c % 2 ^ m := (Nat.dvd_mod_iff hkm).2 hc
  have hrun := div_mul_add_le (Nat.two_pow_pos k) hkm (Nat.mod_lt c (Nat.two_pow_pos m))
  rw [Nat.div_mul_cancel hmod] at hrun
  have hsplit := Nat.div_add_mod c (2 ^ m)
  rw [Nat.mul_comm] at hsplit
  omega

/-- An aligned run of `2 ^ k` numbers that starts below `2 ^ w`, for `k ≤ w`, ends within it. -/
theorem add_pow_le_two_pow {c k w : Nat} (hk : k ≤ w) (hc : 2 ^ k ∣ c) (hw : c < 2 ^ w) :
    c + 2 ^ k ≤ 2 ^ w := by
  have hrun := add_pow_le_of_dvd hk hc
  rw [Nat.div_eq_of_lt hw, Nat.zero_mul, Nat.zero_add] at hrun
  exact hrun

/-- A multiple of `s` at most `x` and within `s` of it is `x` rounded down to a multiple
of `s`. -/
theorem div_mul_eq_of_le_of_lt {x base s : Nat} (hd : s ∣ base) (hle : base ≤ x)
    (hlt : x < base + s) : x / s * s = base := by
  obtain ⟨q, rfl⟩ := hd
  have hq : x / s = q := by
    apply Nat.div_eq_of_lt_le
    · rw [Nat.mul_comm]
      exact hle
    · rw [Nat.succ_mul, Nat.mul_comm]
      exact hlt
  rw [hq, Nat.mul_comm]

/-- An aligned run of `2 ^ k` numbers starting at `c` stops at or before a larger `d` exactly
when `k` is at most the highest bit in which `c` and `d` differ. -/
theorem add_pow_le_iff_le_log2_xor {c d k : Nat} (hcd : c < d) (hc : 2 ^ k ∣ c) :
    c + 2 ^ k ≤ d ↔ k ≤ (c ^^^ d).log2 := by
  constructor
  · intro hle
    -- Below the highest differing bit `c` and `d` agree, which leaves no room for the run.
    apply Nat.le_of_not_lt
    intro hlt
    have hagree := div_pow_eq_of_log2_xor_lt hlt
    obtain ⟨q, rfl⟩ := hc
    have hq : 2 ^ k * q / 2 ^ k = q := Nat.mul_div_cancel_left q (Nat.two_pow_pos k)
    have hd : q + 1 ≤ d / 2 ^ k := by
      rw [Nat.le_div_iff_mul_le (Nat.two_pow_pos k), Nat.succ_mul, Nat.mul_comm]
      exact hle
    omega
  · intro hk
    have hrun := add_pow_le_of_dvd hk hc
    have hstep : (c / 2 ^ (c ^^^ d).log2 + 1) * 2 ^ (c ^^^ d).log2 ≤
        d / 2 ^ (c ^^^ d).log2 * 2 ^ (c ^^^ d).log2 :=
      Nat.mul_le_mul_right _ (div_pow_log2_xor_lt hcd)
    have hdown := Nat.div_mul_le_self d (2 ^ (c ^^^ d).log2)
    rw [Nat.succ_mul] at hstep
    omega

end Address

end NetRanges
