import Mathlib.NumberTheory.Padics.PadicVal.Basic
import NetRanges.Proofs.Alignment
import NetRanges.Proofs.Bytewise

/-!
# The bit counts scanned byte by byte

Both counts scan the bytes for the first nonzero one, the leading one from the first byte and the
trailing zeros from the last. A scan that stops at byte `b`, at index `i`, has passed `i` zero
bytes (`scan_eq_some`), so the number the bytes write, read in the scan's direction, starts with
`i` zero digits and then `b`. Read from the left that places the value between `b` and `b + 1`
times the weight of `b`'s position, which gives its highest set bit from `b`'s
(`leadingOneBitPosition_toNat`); read from the right it makes the value `256 ^ i` times a number
whose last digit is `b`, which gives its trailing zeros from `b`'s
(`trailingZeroBitCount_toNat`). Each sum stays at most the family's width, so no byte addition
wraps.
-/
namespace NetRanges

namespace Address

theorem lowZeros_zero (w : Nat) : lowZeros w 0 = w := by
  induction w with
  | zero => rfl
  | succ w ih => simp [lowZeros, ih]

/-- A window count of trailing zeros is the exponent of the largest power of two dividing the
number, when that exponent is below the window. -/
theorem lowZeros_eq_of_dvd {w n t : Nat} (ht : t < w) (hd : 2 ^ t ∣ n) (hnd : ¬ 2 ^ (t + 1) ∣ n) :
    lowZeros w n = t := by
  have hle : t ≤ lowZeros w n := (pow_dvd_iff_le_lowZeros (Nat.le_of_lt ht)).1 hd
  have hlt : ¬ t + 1 ≤ lowZeros w n := fun h => hnd ((pow_dvd_iff_le_lowZeros ht).2 h)
  omega

theorem lowZeros_eq_padicValNat {w n : Nat} (hn : n ≠ 0) (hlt : n < 2 ^ w) :
    lowZeros w n = padicValNat 2 n := by
  have hdvd : 2 ^ padicValNat 2 n ∣ n := pow_padicValNat_dvd
  have hw : padicValNat 2 n < w :=
    (Nat.pow_lt_pow_iff_right (by decide)).1
      (Nat.lt_of_le_of_lt (Nat.le_of_dvd (Nat.pos_of_ne_zero hn) hdvd) hlt)
  exact lowZeros_eq_of_dvd hw hdvd (pow_succ_padicValNat_not_dvd hn)

end Address

namespace Bytewise

open Address

/-! ### One byte -/

/-- The two counts on every nonzero byte, by enumeration of the 255 of them: the highest set bit
is bit `7 - leading zeros`, and two to the trailing zeros divides the byte while twice that does
not. -/
theorem byte_counts : ∀ n < 256, n ≠ 0 →
    2 ^ (7 - byteLeadingZeros n.toUInt8) ≤ n ∧ n < 2 ^ (8 - byteLeadingZeros n.toUInt8) ∧
      byteLeadingZeros n.toUInt8 ≤ 7 ∧
    n % 2 ^ byteTrailingZeros n.toUInt8 = 0 ∧ n % 2 ^ (byteTrailingZeros n.toUInt8 + 1) ≠ 0 ∧
      byteTrailingZeros n.toUInt8 ≤ 7 := by
  decide +kernel

theorem byteLeadingZeros_add_log2 {b : UInt8} (hb : b ≠ 0) :
    byteLeadingZeros b + b.toNat.log2 = 7 := by
  obtain ⟨hlo, hhi, hle, -⟩ := byte_counts b.toNat b.toNat_lt (toNat_ne_zero hb)
  simp only [Nat.toUInt8_eq, UInt8.ofNat_toNat] at hlo hhi hle
  have hlog := (Nat.log2_eq_iff (toNat_ne_zero hb)).2
    ⟨hlo, by rwa [show 7 - byteLeadingZeros b + 1 = 8 - byteLeadingZeros b by omega]⟩
  omega

theorem byteTrailingZeros_spec {b : UInt8} (hb : b ≠ 0) :
    2 ^ byteTrailingZeros b ∣ b.toNat ∧ ¬ 2 ^ (byteTrailingZeros b + 1) ∣ b.toNat ∧
      byteTrailingZeros b ≤ 7 := by
  obtain ⟨-, -, -, hd, hnd, hle⟩ := byte_counts b.toNat b.toNat_lt (toNat_ne_zero hb)
  simp only [Nat.toUInt8_eq, UInt8.ofNat_toNat] at hd hnd hle
  exact ⟨Nat.dvd_of_mod_eq_zero hd, fun h => hnd (Nat.mod_eq_zero_of_dvd h), hle⟩

/-! ### The scans -/

/-- A scan for the first nonzero byte that stops at `b`, at index `i` counted from `k`, has passed
`i - k` zero bytes. -/
theorem scan_eq_some {bs : List UInt8} {k i : Nat} {b : UInt8}
    (h : (bs.zipIdx k).find? (fun p => p.1 != 0) = some (b, i)) :
    b ≠ 0 ∧ k ≤ i ∧ ∃ rest, bs = List.replicate (i - k) 0 ++ b :: rest := by
  induction bs generalizing k with
  | nil => simp at h
  | cons d bs ih =>
    rw [List.zipIdx_cons] at h
    by_cases hd : d = 0
    · -- a zero byte is passed over
      rw [List.find?_cons_of_neg (by simp [hd])] at h
      obtain ⟨hb, hki, rest, hsplit⟩ := ih h
      have hsucc : i - k = i - (k + 1) + 1 := by omega
      refine ⟨hb, by omega, rest, ?_⟩
      rw [hsucc, List.replicate_succ, List.cons_append, ← hsplit, hd]
    · rw [List.find?_cons_of_pos (by simp [hd]), Option.some.injEq, Prod.mk.injEq] at h
      obtain ⟨rfl, rfl⟩ := h
      exact ⟨hd, Nat.le_refl _, bs, by simp⟩

theorem scan_eq_none {bs : List UInt8} {k : Nat}
    (h : (bs.zipIdx k).find? (fun p => p.1 != 0) = none) : bs.all (· == 0) = true := by
  induction bs generalizing k with
  | nil => rfl
  | cons d bs ih =>
    rw [List.zipIdx_cons] at h
    by_cases hd : d = 0
    · rw [List.find?_cons_of_neg (by simp [hd])] at h
      simp [hd, ih h]
    · rw [List.find?_cons_of_pos (by simp [hd])] at h
      cases h

/-- The scan from the left stops at the byte `b` at index `i` exactly below the highest set bit:
the value lies between `b` and `b + 1` times the weight of `b`'s position. -/
theorem value_of_scan_left {a : Address} {b : UInt8} {i : Nat}
    (h : ((bytesOf a).zipIdx.find? fun p => p.1 != 0) = some (b, i)) :
    b ≠ 0 ∧ i < a.family.byteLen ∧
      b.toNat * 256 ^ (a.family.byteLen - 1 - i) ≤ a.value ∧
      a.value < (b.toNat + 1) * 256 ^ (a.family.byteLen - 1 - i) := by
  obtain ⟨hb, -, rest, hsplit⟩ := scan_eq_some h
  simp only [Nat.sub_zero] at hsplit
  have hlen := congrArg List.length hsplit
  simp only [length_bytesOf, List.length_append, List.length_replicate, List.length_cons] at hlen
  have hrest := digitsValue_lt (B := 256) (l := rest.map UInt8.toNat)
    (by simp only [List.mem_map]; rintro _ ⟨c, -, rfl⟩; exact c.toNat_lt)
  have hv : a.value = b.toNat * 256 ^ rest.length + digitsValue 256 (rest.map UInt8.toNat) := by
    rw [← digitsValue_bytes, ← map_toNat_bytesOf, hsplit, List.map_append, List.map_replicate,
      UInt8.toNat_zero, digitsValue_append, digitsValue_replicate_zero, Nat.zero_mul,
      Nat.zero_add, List.map_cons, digitsValue_cons, List.length_map]
  rw [List.length_map] at hrest
  rw [show a.family.byteLen - 1 - i = rest.length by omega]
  refine ⟨hb, by omega, by omega, ?_⟩
  rw [Nat.succ_mul]
  omega

/-- The scan from the right stops at the byte `b` at index `i` at the lowest set bit: the value
is `256 ^ i` times a number whose last digit is `b`. -/
theorem value_of_scan_right {a : Address} {b : UInt8} {i : Nat}
    (h : ((bytesOf a).reverse.zipIdx.find? fun p => p.1 != 0) = some (b, i)) :
    b ≠ 0 ∧ i < a.family.byteLen ∧
      ∃ q, a.value = 256 ^ i * (b.toNat + 256 * q) := by
  obtain ⟨hb, -, rest, hsplit⟩ := scan_eq_some h
  simp only [Nat.sub_zero] at hsplit
  have hlen := congrArg List.length hsplit
  simp only [List.length_reverse, length_bytesOf, List.length_append, List.length_replicate,
    List.length_cons] at hlen
  refine ⟨hb, by omega, Nat.ofDigits 256 (rest.map UInt8.toNat), ?_⟩
  rw [value_eq_ofDigits, hsplit, List.map_append, List.map_replicate, UInt8.toNat_zero,
    Nat.ofDigits_append, Nat.ofDigits_replicate_zero, List.length_replicate, Nat.zero_add,
    ofDigits_cons_byte]

/-- The scan from the left stops at the byte holding the highest set bit: the value's binary
logarithm is that of `b` raised by the bytes after it. -/
theorem log2_of_scan_left {a : Address} {b : UInt8} {i : Nat}
    (h : ((bytesOf a).zipIdx.find? fun p => p.1 != 0) = some (b, i)) :
    a.value ≠ 0 ∧ a.value.log2 = 8 * (a.family.byteLen - 1 - i) + b.toNat.log2 := by
  obtain ⟨hb, -, hlo, hhi⟩ := value_of_scan_left h
  generalize a.family.byteLen - 1 - i = e at hlo hhi ⊢
  have hv : a.value ≠ 0 := by
    have := Nat.mul_le_mul_right (256 ^ e) (Nat.one_le_iff_ne_zero.2 (toNat_ne_zero hb))
    have := Nat.pow_pos (n := e) (show 0 < 256 by decide)
    omega
  have hpow : 2 ^ (8 * e + b.toNat.log2) = 256 ^ e * 2 ^ b.toNat.log2 := by
    rw [Nat.pow_add, Nat.pow_mul]
  refine ⟨hv, ?_⟩
  rw [Nat.log2_eq_iff hv, Nat.pow_succ, hpow]
  constructor
  · calc 256 ^ e * 2 ^ b.toNat.log2
        ≤ 256 ^ e * b.toNat := Nat.mul_le_mul_left _ (Nat.log2_self_le (toNat_ne_zero hb))
      _ ≤ a.value := by rw [Nat.mul_comm]; exact hlo
  · calc a.value < (b.toNat + 1) * 256 ^ e := hhi
      _ ≤ 2 ^ (b.toNat.log2 + 1) * 256 ^ e :=
          Nat.mul_le_mul_right _ (Nat.lt_log2_self : b.toNat < _)
      _ = 256 ^ e * 2 ^ b.toNat.log2 * 2 := by ring

/-- The scan from the right stops at the byte holding the lowest set bit: the value's trailing
zeros are those of `b` raised by the zero bytes before it. -/
theorem trailingZeros_of_scan_right {a : Address} {b : UInt8} {i : Nat}
    (h : ((bytesOf a).reverse.zipIdx.find? fun p => p.1 != 0) = some (b, i)) :
    a.trailingZeros = 8 * i + byteTrailingZeros b := by
  have hw := a.family.byteLen_mul
  obtain ⟨hb, hi, q, hv⟩ := value_of_scan_right h
  obtain ⟨hd, hnd, hle⟩ := byteTrailingZeros_spec hb
  have hweight : (256 : Nat) ^ i = 2 ^ (8 * i) := by rw [Nat.pow_mul]
  have hunit : ∀ m ≤ 8, 2 ^ m ∣ 256 * q := fun m hm =>
    Nat.dvd_trans (Nat.pow_dvd_pow 2 hm) (Nat.dvd_mul_right 256 q)
  refine lowZeros_eq_of_dvd (by omega) ?_ ?_
  · rw [hv, hweight, Nat.pow_add]
    exact Nat.mul_dvd_mul_left _ (Nat.dvd_add hd (hunit _ (by omega)))
  · rw [hv, hweight, Nat.add_assoc, Nat.pow_add]
    intro hdvd
    have hlow := Nat.dvd_of_mul_dvd_mul_left (Nat.two_pow_pos _) hdvd
    exact hnd ((Nat.dvd_add_left (hunit _ (by omega))).1 hlow)

/-! ### The counts -/

/-- The highest set bit scanned byte by byte is the value's: its position is the width less the
binary logarithm, and zero for the zero address. -/
theorem leadingOneBitPosition_toNat (a : Address) :
    (leadingOneBitPosition a).toNat = a.leadingOne := by
  have hw := a.family.byteLen_mul
  have hw16 := a.family.byteLen_le
  unfold leadingOneBitPosition
  cases h : ((bytesOf a).zipIdx.find? fun p => p.1 != 0) with
  | none =>
    have hv : a.value = 0 := (isZero_iff a).1 (scan_eq_none h)
    simp [Address.leadingOne, highBitPos, hv]
  | some p =>
    obtain ⟨b, i⟩ := p
    obtain ⟨hb, hi, -⟩ := value_of_scan_left h
    obtain ⟨hv, hlog⟩ := log2_of_scan_left h
    have hlz := byteLeadingZeros_add_log2 hb
    simp only [Option.map_some, Option.getD_some, UInt8.toNat_add, Nat.toUInt8_eq,
      UInt8.toNat_ofNat', UInt8.reduceToNat, Nat.reducePow]
    simp only [Address.leadingOne, highBitPos, hv, if_false, hlog]
    omega

/-- The trailing zeros scanned byte by byte are the value's: the count of its zero bits from the
right, the whole width for the zero address. -/
theorem trailingZeroBitCount_toNat (a : Address) :
    (trailingZeroBitCount a).toNat = a.trailingZeros := by
  have hw := a.family.byteLen_mul
  have hw16 := a.family.byteLen_le
  unfold trailingZeroBitCount
  cases h : ((bytesOf a).reverse.zipIdx.find? fun p => p.1 != 0) with
  | none =>
    have hv : a.value = 0 := (isZero_iff a).1 (by simpa [isZero] using scan_eq_none h)
    simp only [Option.map_none, Option.getD_none, Nat.toUInt8_eq, UInt8.toNat_ofNat',
      Address.trailingZeros, hv, lowZeros_zero]
    omega
  | some p =>
    obtain ⟨b, i⟩ := p
    obtain ⟨hb, hi, -⟩ := value_of_scan_right h
    have hle := (byteTrailingZeros_spec hb).2.2
    simp only [Option.map_some, Option.getD_some, UInt8.toNat_add, Nat.toUInt8_eq,
      UInt8.toNat_ofNat', Nat.reducePow, trailingZeros_of_scan_right h]
    omega

theorem scan_left_sum_le {a : Address} {b : UInt8} {i : Nat}
    (h : ((bytesOf a).zipIdx.find? fun p => p.1 != 0) = some (b, i)) :
    i * 8 + byteLeadingZeros b + 1 ≤ a.family.width := by
  obtain ⟨hb, hi, -⟩ := value_of_scan_left h
  have := byteLeadingZeros_add_log2 hb
  have := a.family.byteLen_mul
  omega

theorem scan_right_sum_lt {a : Address} {b : UInt8} {i : Nat}
    (h : ((bytesOf a).reverse.zipIdx.find? fun p => p.1 != 0) = some (b, i)) :
    i * 8 + byteTrailingZeros b < a.family.width := by
  obtain ⟨hb, hi, -⟩ := value_of_scan_right h
  have := (byteTrailingZeros_spec hb).2.2
  have := a.family.byteLen_mul
  omega

/-- The bit counts and the exclusive or computed byte by byte: the position of the highest set bit
is `0` for the zero address and otherwise the width less the binary logarithm of the value; the
trailing zero count is the width for the zero address and otherwise the exponent of the largest
power of two dividing the value; the byte sums the two scans form stay within the width (at most
128), so none wraps; and the exclusive or of two addresses of one family has the exclusive or of
their values, while addresses of two families fault. -/
theorem leadingOne_trailingZeros_xor_values (x a b : Address) :
    (leadingOneBitPosition x).toNat =
        (if x.value = 0 then 0 else x.family.width - x.value.log2) ∧
    (trailingZeroBitCount x).toNat =
        (if x.value = 0 then x.family.width else padicValNat 2 x.value) ∧
    (∀ c i, ((bytesOf x).zipIdx.find? fun p => p.1 != 0) = some (c, i) →
      i * 8 + byteLeadingZeros c + 1 ≤ x.family.width) ∧
    (∀ c i, ((bytesOf x).reverse.zipIdx.find? fun p => p.1 != 0) = some (c, i) →
      i * 8 + byteTrailingZeros c < x.family.width) ∧
    (a.family = b.family →
      ∃ c, xor a b = .ok c ∧ c.family = a.family ∧ c.value = a.value ^^^ b.value) ∧
    (a.family ≠ b.family → xor a b = .error (.mixedXor a b)) := by
  refine ⟨leadingOneBitPosition_toNat x, ?_, fun c i => scan_left_sum_le,
    fun c i => scan_right_sum_lt, fun h => ⟨xorOf a b h, ?_, rfl, rfl⟩, fun h => ?_⟩
  · rw [trailingZeroBitCount_toNat, Address.trailingZeros]
    split
    · next hv => rw [hv, lowZeros_zero]
    · next hv => exact lowZeros_eq_padicValNat hv x.lt_size
  · rw [xor_eq, Address.xor_eq_ok h]
  · simp [xor_eq, Address.xor, h]

end Bytewise

end NetRanges
