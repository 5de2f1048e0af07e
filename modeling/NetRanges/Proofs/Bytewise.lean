import NetRanges.Address.Bytewise
import NetRanges.Proofs.AddressText
import NetRanges.Proofs.ByteDigits
import NetRanges.Proofs.Sweep

/-!
# Byte-wise arithmetic computes the value operations

The bytes of an address, most significant first, write its value; read from the last byte they
are the base-256 digits of `Nat.ofDigits`, which is how every loop that runs from the last byte
is proved (`value_eq_ofDigits`). Two facts carry the rest:

* one step of the carry adds one to a number that is not the last of its length, and one step of
  the borrow subtracts one from a number that is not zero (`carry_value`, `borrow_value`); so the
  successor and the predecessor of the bytes are those of the value (`increment_eq`,
  `decrement_eq`, and `increment_decrement_values` in the value's terms);
* bit `j` of an address mapped byte by byte is bit `j % 8` of the image of the byte at `j / 8`
  from the right (`testBit_mapBytes`), and bit `t` of the mask byte at position `i` is set
  exactly when bit `t` of that byte lies within the prefix (`testBit_maskByte`); so masking
  keeps the bits from `width - len` up, the inverted mask sets those below it, and the exclusive
  or of bytes is that of values (`network_eq`, `broadcast_eq`, `xor_eq`, and
  `network_broadcast_values` in the value's terms).
-/
namespace NetRanges

namespace Bytewise

open Address

/-! ### Bytes and values -/

theorem digitsValue_map_eq_ofDigits (bs : List UInt8) :
    digitsValue 256 (bs.map UInt8.toNat) = Nat.ofDigits 256 (bs.reverse.map UInt8.toNat) := by
  rw [← digitsValue_reverse, List.map_reverse, List.reverse_reverse]

@[simp] theorem ofDigits_cons_byte (b : UInt8) (bs : List UInt8) :
    Nat.ofDigits 256 ((b :: bs).map UInt8.toNat) =
      b.toNat + 256 * Nat.ofDigits 256 (bs.map UInt8.toNat) := by
  simp [Nat.ofDigits_cons]

theorem ofDigits_bytes_lt (bs : List UInt8) :
    Nat.ofDigits 256 (bs.map UInt8.toNat) < 256 ^ bs.length := by
  have h := Nat.ofDigits_lt_base_pow_length (b := 256) (l := bs.map UInt8.toNat) (by decide)
    (by simp only [List.mem_map]; rintro _ ⟨b, -, rfl⟩; exact b.toNat_lt)
  rwa [List.length_map] at h

theorem toNat_ne_zero {b : UInt8} (hb : b ≠ 0) : b.toNat ≠ 0 :=
  fun h => hb (UInt8.toNat_inj.1 h)

theorem map_toNat_bytesOf (a : Address) : (bytesOf a).map UInt8.toNat = a.bytes := by
  conv_rhs => rw [← List.map_id a.bytes]
  rw [bytesOf, List.map_map]
  refine List.map_congr_left fun d hd => ?_
  simp [Nat.mod_eq_of_lt (lt_of_mem_bytes hd)]

/-- The value of an address is the number its bytes write read from the last byte. -/
theorem value_eq_ofDigits (a : Address) :
    a.value = Nat.ofDigits 256 ((bytesOf a).reverse.map UInt8.toNat) := by
  rw [← digitsValue_map_eq_ofDigits, map_toNat_bytesOf, digitsValue_bytes]

/-- Bit `j` of the number that bytes write, least significant first, is bit `j % 8` of the byte
at `j / 8`. -/
theorem testBit_ofDigits (bs : List UInt8) (j : Nat) :
    (Nat.ofDigits 256 (bs.map UInt8.toNat)).testBit j =
      (bs.getD (j / 8) 0).toNat.testBit (j % 8) := by
  induction bs generalizing j with
  | nil => simp
  | cons b bs ih =>
    have hsplit : b.toNat + 256 * Nat.ofDigits 256 (bs.map UInt8.toNat) =
        2 ^ 8 * Nat.ofDigits 256 (bs.map UInt8.toNat) + b.toNat := by
      simp only [Nat.reducePow]
      omega
    rw [ofDigits_cons_byte, hsplit, Nat.testBit_two_pow_mul_add _ b.toNat_lt]
    split
    · next hj =>
      rw [Nat.div_eq_of_lt hj, Nat.mod_eq_of_lt hj, List.getD_cons_zero]
    · next hj =>
      obtain ⟨m, rfl⟩ : ∃ m, j = m + 8 := ⟨j - 8, by omega⟩
      rw [Nat.add_sub_cancel, ih, Nat.add_div_right _ (by decide), List.getD_cons_succ,
        Nat.add_mod_right]

theorem testBit_value (a : Address) (j : Nat) :
    a.value.testBit j = ((bytesOf a).reverse.getD (j / 8) 0).toNat.testBit (j % 8) := by
  rw [value_eq_ofDigits, testBit_ofDigits]

theorem testBit_value_of_le (a : Address) {j : Nat} (hj : a.family.width ≤ j) :
    a.value.testBit j = false :=
  Nat.testBit_lt_two_pow (Nat.lt_of_lt_of_le a.lt_size (Nat.pow_le_pow_right (by decide) hj))

theorem getD_reverse_mapIdx (l : List UInt8) (g : Nat → UInt8 → UInt8) (k : Nat) :
    (l.mapIdx g).reverse.getD k 0 =
      if k < l.length then g (l.length - 1 - k) (l.reverse.getD k 0) else 0 := by
  simp only [List.getD_eq_getElem?_getD]
  split
  · next hk =>
    rw [List.getElem?_reverse (by simpa using hk), List.getElem?_reverse hk]
    simp [List.getElem?_eq_getElem (show l.length - 1 - k < l.length by omega)]
  · next hk =>
    rw [List.getElem?_eq_none (by simpa using hk)]
    rfl

/-- Bit `j` of an address mapped byte by byte is bit `j % 8` of the image of the byte at `j / 8`
from the right, within the family's width. -/
theorem testBit_mapBytes (a : Address) (g : Nat → UInt8 → UInt8) (j : Nat) :
    (mapBytes a g).value.testBit j =
      (decide (j < a.family.width) && (g (a.family.byteLen - 1 - j / 8)
        ((bytesOf a).reverse.getD (j / 8) 0)).toNat.testBit (j % 8)) := by
  have hw := a.family.byteLen_mul
  rw [mapBytes, fromBytes_value, digitsValue_map_eq_ofDigits, testBit_ofDigits,
    getD_reverse_mapIdx, length_bytesOf]
  by_cases hj : j < a.family.width
  · simp [hj, show j / 8 < a.family.byteLen by omega]
  · simp [hj, show ¬ j / 8 < a.family.byteLen by omega]

/-- A byte map gives the address of the same family whose bits below the width are those of the
images of the bytes: the bits above the width are zero on both sides. -/
theorem mapBytes_eq_of_testBit {a c : Address} {g : Nat → UInt8 → UInt8}
    (hf : c.family = a.family)
    (hbit : ∀ j < a.family.width,
      (g (a.family.byteLen - 1 - j / 8) ((bytesOf a).reverse.getD (j / 8) 0)).toNat.testBit (j % 8) =
        c.value.testBit j) :
    mapBytes a g = c := by
  rw [ext_iff']
  refine ⟨hf.symm, Nat.eq_of_testBit_eq fun j => ?_⟩
  rw [testBit_mapBytes]
  by_cases hj : j < a.family.width
  · rw [decide_eq_true hj, Bool.true_and, hbit j hj]
  · simp [hj, testBit_value_of_le c (hf ▸ Nat.le_of_not_lt hj)]

/-! ### Successor and predecessor -/

/-- One carry through bytes listed least significant first adds one, unless every byte is
`0xFF`. -/
theorem carry_value {bs : List UInt8} (h : bs.all (· == 0xFF) = false) :
    Nat.ofDigits 256 ((carry bs).map UInt8.toNat) = Nat.ofDigits 256 (bs.map UInt8.toNat) + 1 := by
  induction bs with
  | nil => simp at h
  | cons b bs ih =>
    by_cases hb : b = 0xFF
    · -- the byte wraps to zero and the carry moves on
      subst hb
      have hrest : bs.all (· == 0xFF) = false := by simpa using h
      simp only [carry, if_true, ofDigits_cons_byte, ih hrest, UInt8.reduceToNat]
      omega
    · have hlt : b.toNat < 255 := by
        have hne : b.toNat ≠ 255 := fun he => hb (UInt8.toNat_inj.1 he)
        have := b.toNat_lt
        omega
      simp only [carry, hb, if_false, ofDigits_cons_byte, UInt8.toNat_add, UInt8.reduceToNat]
      omega

/-- One borrow through bytes listed least significant first subtracts one, unless every byte is
zero. -/
theorem borrow_value {bs : List UInt8} (h : bs.all (· == 0) = false) :
    Nat.ofDigits 256 ((borrow bs).map UInt8.toNat) + 1 = Nat.ofDigits 256 (bs.map UInt8.toNat) := by
  induction bs with
  | nil => simp at h
  | cons b bs ih =>
    by_cases hb : b = 0
    · -- the byte wraps to `0xFF` and the borrow moves on
      subst hb
      have hrest : bs.all (· == 0) = false := by simpa using h
      simp only [borrow, if_true, ofDigits_cons_byte, ← ih hrest, UInt8.reduceToNat]
      omega
    · have hpos : 0 < b.toNat := Nat.pos_of_ne_zero (toNat_ne_zero hb)
      simp only [borrow, hb, if_false, ofDigits_cons_byte,
        UInt8.toNat_sub_of_le b 1 (UInt8.le_iff_toNat_le.2 hpos), UInt8.reduceToNat]
      omega

/-- Bytes write the last number of their length exactly when every byte is `0xFF`. -/
theorem ofDigits_add_one_eq_pow_iff (bs : List UInt8) :
    Nat.ofDigits 256 (bs.map UInt8.toNat) + 1 = 256 ^ bs.length ↔ bs.all (· == 0xFF) = true := by
  induction bs with
  | nil => simp
  | cons b bs ih =>
    have hb := b.toNat_lt
    have hrest := ofDigits_bytes_lt bs
    have hff : b = 0xFF ↔ b.toNat = 255 := ⟨fun h => by rw [h]; rfl, fun h => UInt8.toNat_inj.1 h⟩
    rw [ofDigits_cons_byte, List.length_cons, Nat.pow_succ, List.all_cons, Bool.and_eq_true,
      ← ih, beq_iff_eq, hff]
    simp only [Nat.reducePow] at hb
    omega

theorem ofDigits_eq_zero_iff (bs : List UInt8) :
    Nat.ofDigits 256 (bs.map UInt8.toNat) = 0 ↔ bs.all (· == 0) = true := by
  induction bs with
  | nil => simp
  | cons b bs ih =>
    have hzero : b = 0 ↔ b.toNat = 0 := ⟨fun h => by rw [h]; rfl, fun h => UInt8.toNat_inj.1 h⟩
    rw [ofDigits_cons_byte, List.all_cons, Bool.and_eq_true, ← ih, beq_iff_eq, hzero]
    omega

theorem isAllOnes_iff (a : Address) : isAllOnes a = true ↔ a.value + 1 = a.family.size := by
  rw [isAllOnes, ← List.all_reverse, ← ofDigits_add_one_eq_pow_iff, List.length_reverse,
    length_bytesOf, ← value_eq_ofDigits, Family.size_eq_pow_byteLen]

theorem isZero_iff (a : Address) : isZero a = true ↔ a.value = 0 := by
  rw [isZero, ← List.all_reverse, ← ofDigits_eq_zero_iff, ← value_eq_ofDigits]

theorem increment_eq (a : Address) : increment a = a.increment := by
  have hlt := a.lt_size
  by_cases h : isAllOnes a = true
  · have hlast : ¬ a.value + 1 < a.family.size := by
      rw [isAllOnes_iff] at h
      omega
    simp [increment, h, Address.increment, Address.next?, Address.ofValue?, hlast]
  · have hnext : a.value + 1 < a.family.size := by
      rw [isAllOnes_iff] at h
      omega
    have hcarry : (bytesOf a).reverse.all (· == 0xFF) = false := by
      simpa [List.all_reverse, isAllOnes] using h
    rw [Address.increment_eq_ok hnext, increment, if_neg h, Except.ok.injEq, ext_iff']
    refine ⟨rfl, ?_⟩
    rw [fromBytes_value, digitsValue_map_eq_ofDigits, List.reverse_reverse, carry_value hcarry,
      ← value_eq_ofDigits]

theorem decrement_eq (a : Address) : decrement a = a.decrement := by
  by_cases h : isZero a = true
  · have hfirst : a.value = 0 := (isZero_iff a).1 h
    simp [decrement, h, Address.decrement, Address.prev?, hfirst]
  · have hpos : a.value ≠ 0 := fun h0 => h ((isZero_iff a).2 h0)
    have hborrow : (bytesOf a).reverse.all (· == 0) = false := by
      simpa [List.all_reverse, isZero] using h
    rw [Address.decrement_eq_ok hpos, decrement, if_neg h, Except.ok.injEq, ext_iff']
    refine ⟨rfl, ?_⟩
    have hv := borrow_value hborrow
    rw [← value_eq_ofDigits] at hv
    rw [fromBytes_value, digitsValue_map_eq_ofDigits, List.reverse_reverse]
    show _ = a.value - 1
    omega

/-- The successor and the predecessor carried and borrowed through the bytes: incrementing
faults exactly at the family's last address and otherwise adds one, decrementing faults exactly at
its first address and otherwise subtracts one, both keeping the family. -/
theorem increment_decrement_values (a : Address) :
    (a.value = 2 ^ a.family.width - 1 → increment a = .error (.pastLast a)) ∧
    (a.value ≠ 2 ^ a.family.width - 1 →
      ∃ b, increment a = .ok b ∧ b.family = a.family ∧ b.value = a.value + 1) ∧
    (a.value = 0 → decrement a = .error (.beforeFirst a)) ∧
    (a.value ≠ 0 → ∃ b, decrement a = .ok b ∧ b.family = a.family ∧ b.value = a.value - 1) := by
  have hlt : a.value < 2 ^ a.family.width := a.lt_size
  refine ⟨fun hlast => ?_, fun hlast => ?_, fun hzero => ?_, fun hzero => ?_⟩
  · have h : isAllOnes a = true := by
      rw [isAllOnes_iff, Family.size]
      omega
    simp [increment, h]
  · have hnext : a.value + 1 < a.family.size := by
      rw [Family.size]
      omega
    exact ⟨_, (increment_eq a).trans (Address.increment_eq_ok hnext), rfl, rfl⟩
  · have h : isZero a = true := (isZero_iff a).2 hzero
    simp [decrement, h]
  · exact ⟨_, (decrement_eq a).trans (Address.decrement_eq_ok hzero), rfl, rfl⟩

/-! ### Masks -/

/-- Bit `t` of the mask byte at position `i` is set exactly when it lies within the byte and its
position from the left, `i * 8 + (7 - t)`, within the prefix. -/
theorem testBit_maskByte (i len t : Nat) :
    (maskByte i len).toNat.testBit t = decide (t < 8 ∧ i * 8 + 8 ≤ len + t) := by
  unfold maskByte
  dsimp only
  split
  · next h =>
    simp only [UInt8.toNat_zero, Nat.zero_testBit, false_eq_decide_iff]
    omega
  · next h =>
    have hs : (8 - min (len - i * 8) 8) % 8 = 8 - min (len - i * 8) 8 :=
      Nat.mod_eq_of_lt (by omega)
    simp only [UInt8.toNat_shiftLeft, Nat.toUInt8_eq, UInt8.toNat_ofNat']
    rw [Nat.mod_eq_of_lt (show 8 - min (len - i * 8) 8 < 2 ^ 8 by omega), hs,
      Nat.testBit_mod_two_pow, Nat.testBit_shiftLeft,
      show (255 : UInt8).toNat = 2 ^ 8 - 1 from rfl, Nat.testBit_two_pow_sub_one, Bool.eq_iff_iff]
    simp only [Bool.and_eq_true, decide_eq_true_eq]
    omega

/-- Masking every byte keeps the bits from `width - len` up: the network address. -/
theorem mapBytes_mask (a : Address) (len : Nat) :
    mapBytes a (fun i b => b &&& maskByte i len) = a.maskTo len := by
  have hw := a.family.byteLen_mul
  refine mapBytes_eq_of_testBit rfl fun j hj => ?_
  rw [UInt8.toNat_and, Nat.testBit_and, ← testBit_value, testBit_maskByte, maskTo_value, span,
    Nat.testBit_mul_two_pow, Nat.testBit_div_two_pow]
  by_cases hs : a.family.width - len ≤ j
  · have hin : (a.family.byteLen - 1 - j / 8) * 8 + 8 ≤ len + j % 8 := by omega
    simp [Nat.sub_add_cancel hs, hs, hin, Nat.mod_lt j (show 0 < 8 by decide)]
  · have hout : ¬ (a.family.byteLen - 1 - j / 8) * 8 + 8 ≤ len + j % 8 := by omega
    simp [hs, hout]

/-- Joining every byte with the inverted mask sets the bits below `width - len`: the broadcast
address. -/
theorem mapBytes_fill (a : Address) (len : Nat) :
    mapBytes a (fun i b => b ||| ~~~maskByte i len) = a.fillTo len := by
  have hw := a.family.byteLen_mul
  have hspan : span a.family len = 2 ^ (a.family.width - len) := rfl
  have hfill : (a.fillTo len).value =
      2 ^ (a.family.width - len) * (a.value / 2 ^ (a.family.width - len)) +
        (2 ^ (a.family.width - len) - 1) := by
    rw [fillTo_value, hspan, Nat.mul_comm]
    have := Nat.two_pow_pos (a.family.width - len)
    omega
  have hnot : ∀ m : UInt8, (~~~m).toNat = 2 ^ 8 - (m.toNat + 1) := fun m => by
    rw [UInt8.toNat_not]
    show 256 - 1 - m.toNat = 256 - (m.toNat + 1)
    omega
  refine mapBytes_eq_of_testBit rfl fun j hj => ?_
  rw [UInt8.toNat_or, Nat.testBit_or, ← testBit_value, hnot,
    Nat.testBit_two_pow_sub_succ (UInt8.toNat_lt _), testBit_maskByte, hfill,
    Nat.testBit_two_pow_mul_add _ (Nat.sub_lt (Nat.two_pow_pos _) Nat.one_pos),
    Nat.testBit_two_pow_sub_one]
  split
  · next hs =>
    have hout : ¬ (a.family.byteLen - 1 - j / 8) * 8 + 8 ≤ len + j % 8 := by omega
    simp [hs, hout, Nat.mod_lt j (show 0 < 8 by decide)]
  · next hs =>
    have hin : (a.family.byteLen - 1 - j / 8) * 8 + 8 ≤ len + j % 8 := by omega
    rw [Nat.testBit_div_two_pow, Nat.sub_add_cancel (Nat.le_of_not_lt hs)]
    simp [hin]

theorem getD_reverse (l : List UInt8) {k : Nat} (hk : k < l.length) :
    l.reverse.getD k 0 = l.getD (l.length - 1 - k) 0 := by
  simp only [List.getD_eq_getElem?_getD, List.getElem?_reverse hk]

theorem mapBytes_xor (a b : Address) (h : a.family = b.family) :
    mapBytes a (fun i x => x ^^^ (bytesOf b).getD i 0) = xorOf a b h := by
  have hw := a.family.byteLen_mul
  refine mapBytes_eq_of_testBit rfl fun j hj => ?_
  have hk : j / 8 < (bytesOf b).length := by
    rw [length_bytesOf, ← h]
    omega
  have hlen : a.family.byteLen = (bytesOf b).length := by rw [length_bytesOf, h]
  show _ = (a.value ^^^ b.value).testBit j
  rw [UInt8.toNat_xor, Nat.testBit_xor, ← testBit_value, hlen, ← getD_reverse _ hk,
    ← testBit_value, Nat.testBit_xor]

theorem checkPrefixLen_bind {β : Type} (f : Family) (len : Nat) (k : Unit → Except Fault β) :
    checkPrefixLen f len >>= k = if len ≤ f.width then k () else .error (.prefixTooLong len f) := by
  unfold checkPrefixLen
  split <;> rfl

theorem network_eq (a : Address) (len : Nat) : network a len = a.network len := by
  rw [network, checkPrefixLen_bind, Address.network, mapBytes_mask]
  rfl

theorem broadcast_eq (a : Address) (len : Nat) : broadcast a len = a.broadcast len := by
  rw [broadcast, checkPrefixLen_bind, Address.broadcast, mapBytes_fill]
  rfl

theorem xor_eq (a b : Address) : xor a b = a.xor b := by
  unfold xor Address.xor
  split
  · next h => rw [mapBytes_xor a b h]
  · rfl

/-- The network and broadcast addresses masked byte by byte: both fault exactly when the prefix
is longer than the family's width, and otherwise give addresses of the family whose values are
the value with its host bits cleared, and with them set. -/
theorem network_broadcast_values (a : Address) (p : Nat) :
    (a.family.width < p → network a p = .error (.prefixTooLong p a.family) ∧
      broadcast a p = .error (.prefixTooLong p a.family)) ∧
    (p ≤ a.family.width → ∃ n b, network a p = .ok n ∧ broadcast a p = .ok b ∧
      n.family = a.family ∧ b.family = a.family ∧
      n.value = a.value - a.value % 2 ^ (a.family.width - p) ∧
      b.value = a.value - a.value % 2 ^ (a.family.width - p) + 2 ^ (a.family.width - p) - 1) := by
  refine ⟨fun hp => ?_, fun hp => ?_⟩
  · have hnot : ¬ p ≤ a.family.width := Nat.not_le_of_lt hp
    rw [network_eq, broadcast_eq]
    exact ⟨by simp [Address.network, hnot], by simp [Address.broadcast, hnot]⟩
  · -- rounding down to a multiple of the block size removes the remainder
    have hround : a.value / 2 ^ (a.family.width - p) * 2 ^ (a.family.width - p) =
        a.value - a.value % 2 ^ (a.family.width - p) := by
      have := Nat.mod_add_div a.value (2 ^ (a.family.width - p))
      rw [Nat.mul_comm] at this
      omega
    refine ⟨a.maskTo p, a.fillTo p, ?_, ?_, rfl, rfl, ?_, ?_⟩
    · simp [network_eq, Address.network, hp]
    · simp [broadcast_eq, Address.broadcast, hp]
    · rw [maskTo_value, span, hround]
    · rw [fillTo_value, span, hround]

end Bytewise

end NetRanges
