import NetRanges.Address.Stored
import NetRanges.Proofs.Bytewise
import NetRanges.Proofs.CheckedPolicy

/-!
# The unused octets of a stored address stay zero

`fromBytes` starts from sixteen zeros and writes only the family's bytes (`toList_fromBytes`), and
`zero` writes nothing; every other way of making a stored address ends in `fromBytes`, whatever
the octets of its operands. So each of them leaves the octets past the family's bytes zero
(`TailZero`). On such addresses the octets are the value's big-endian bytes followed by zeros:
the derived equality is that of family and value, and since on digit lists of one length the
lexicographic order is that of the numbers they write, the derived order is the family's, IPv4
first, and then the value's (`stored_tailZero_order`).

The stored operations also compute the byte-wise ones on the address their octets write
(`increment_toAddress` and its neighbours).
-/
namespace NetRanges

namespace Address

/-- The order of addresses is the family's, IPv4 first, and then the value's. -/
theorem lt_iff_rank_or_value (a b : Address) :
    a < b ↔ a.family.rank < b.family.rank ∨ a.family = b.family ∧ a.value < b.value := by
  constructor
  · intro hab
    by_cases hf : a.family = b.family
    · exact Or.inr ⟨hf, (lt_iff hf).1 hab⟩
    · have hkey : a.key < b.key := hab
      exact Or.inl (rank_lt_of_le (show a.key ≤ b.key from Nat.le_of_lt hkey) hf)
  · rintro (hr | ⟨hf, hv⟩)
    · exact lt_of_rank_lt hr
    · exact (lt_iff hf).2 hv

namespace Stored

open Bytewise

theorem ext {s t : Stored} (hf : s.family = t.family) (ho : s.octets.toList = t.octets.toList) :
    s = t := by
  cases s
  cases t
  cases hf
  congr
  exact Vector.toList_inj.1 ho

/-! ### Writing octets -/

/-- Writing a run of bytes from position `i` replaces that run and leaves the octets before and
after it as they were. -/
theorem toList_writeFrom (o : Vector UInt8 16) (i : Nat) (bytes : List UInt8)
    (h : i + bytes.length ≤ 16) :
    (writeFrom o i bytes).toList =
      o.toList.take i ++ bytes ++ o.toList.drop (i + bytes.length) := by
  induction bytes generalizing o i with
  | nil => simp [writeFrom]
  | cons b bs ih =>
    simp only [List.length_cons] at h
    have hi : i < o.toList.length := by simp; omega
    rw [writeFrom, ih _ _ (by omega), Vector.toList_setIfInBounds, List.take_set,
      List.drop_set, if_pos (by omega), List.take_add_one, List.getElem?_eq_getElem hi]
    simp [Nat.min_eq_left (show i ≤ 16 by omega), Nat.add_assoc, Nat.add_comm 1 bs.length]

theorem toList_writeFrom_blank {bytes : List UInt8} (h : bytes.length ≤ 16) :
    (writeFrom blank 0 bytes).toList = bytes ++ List.replicate (16 - bytes.length) 0 := by
  rw [toList_writeFrom _ _ _ (by omega), blank, Vector.toList_replicate, List.drop_replicate]
  simp

theorem toList_fromBytes (f : Family) (bytes : List UInt8) (h : bytes.length = f.byteLen) :
    (fromBytes f bytes h).octets.toList = bytes ++ List.replicate (16 - f.byteLen) 0 := by
  rw [fromBytes, toList_writeFrom_blank (h ▸ f.byteLen_le), h]

@[simp] theorem fromBytes_family (f : Family) (bytes : List UInt8) (h : bytes.length = f.byteLen) :
    (fromBytes f bytes h).family = f := rfl

@[simp] theorem asBytes_fromBytes (f : Family) (bytes : List UInt8) (h : bytes.length = f.byteLen) :
    (fromBytes f bytes h).asBytes = bytes := by
  rw [asBytes, toList_fromBytes, fromBytes_family, List.take_left' h]

theorem scratch_eq {f : Family} {bytes : List UInt8} (h : bytes.length = f.byteLen) :
    scratch f bytes = bytes := by
  rw [scratch, toList_writeFrom_blank (h ▸ f.byteLen_le), List.take_left' h]

/-! ### The unused octets -/

/-- Every octet past the family's bytes is zero. -/
def TailZero (s : Stored) : Prop := ∀ b ∈ s.octets.toList.drop s.family.byteLen, b = 0

theorem tailZero_fromBytes (f : Family) (bytes : List UInt8) (h : bytes.length = f.byteLen) :
    (fromBytes f bytes h).TailZero := by
  intro b hb
  rw [toList_fromBytes, fromBytes_family, List.drop_left' h] at hb
  exact List.eq_of_mem_replicate hb

theorem tailZero_zero (f : Family) : (zero f).TailZero := by
  intro b hb
  rw [zero, blank, Vector.toList_replicate, List.drop_replicate] at hb
  exact List.eq_of_mem_replicate hb

theorem tailZero_mapBytes (s : Stored) (g : Nat → UInt8 → UInt8) : (s.mapBytes g).TailZero :=
  tailZero_fromBytes _ _ _

theorem tailZero_of_parse {text : String} {s : Stored} (h : parse text = .ok s) : s.TailZero := by
  obtain ⟨a, -, hs⟩ := Except.bind_eq_ok h
  cases hs
  exact tailZero_fromBytes _ _ _

theorem exists_parse_of_decoder {v : Json.Value} {s : Stored} (h : decoder v = .ok s) :
    ∃ text, parse text = .ok s := by
  obtain ⟨text, -, hread⟩ := Except.bind_eq_ok h
  refine ⟨text, ?_⟩
  cases hp : parse text with
  | error e =>
    rw [hp] at hread
    cases hread
  | ok x =>
    rw [hp] at hread
    cases hread
    rfl

theorem network_eq_ite (s : Stored) (len : Nat) :
    s.network len = if len ≤ s.family.width
      then .ok (s.mapBytes fun i b => b &&& maskByte i len)
      else .error (.prefixTooLong len s.family) := by
  rw [network, checkPrefixLen_bind]
  rfl

theorem broadcast_eq_ite (s : Stored) (len : Nat) :
    s.broadcast len = if len ≤ s.family.width
      then .ok (s.mapBytes fun i b => b ||| ~~~maskByte i len)
      else .error (.prefixTooLong len s.family) := by
  rw [broadcast, checkPrefixLen_bind]
  rfl

theorem tailZero_of_network {s t : Stored} {len : Nat}
    (h : s.network len = .ok t ∨ s.broadcast len = .ok t) : t.TailZero := by
  rcases h with h | h
  · rw [network_eq_ite] at h
    split at h
    · cases h
      exact tailZero_mapBytes _ _
    · cases h
  · rw [broadcast_eq_ite] at h
    split at h
    · cases h
      exact tailZero_mapBytes _ _
    · cases h

theorem tailZero_of_increment {s t : Stored} (h : s.increment = .ok t ∨ s.decrement = .ok t) :
    t.TailZero := by
  rcases h with h | h
  · unfold increment at h
    split at h
    · cases h
    · cases h
      exact tailZero_fromBytes _ _ _
  · unfold decrement at h
    split at h
    · cases h
    · cases h
      exact tailZero_fromBytes _ _ _

theorem tailZero_of_xor {s s' t : Stored} (h : s.xor s' = .ok t) : t.TailZero := by
  unfold xor at h
  split at h
  · cases h
    exact tailZero_mapBytes _ _
  · cases h

/-! ### The address the octets write -/

@[simp] theorem toAddress_family (s : Stored) : s.toAddress.family = s.family := rfl

theorem toAddress_value (s : Stored) :
    s.toAddress.value = digitsValue 256 (s.asBytes.map UInt8.toNat) := rfl

theorem toNat_lt_of_mem {l : List UInt8} {d : Nat} (h : d ∈ l.map UInt8.toNat) : d < 256 := by
  obtain ⟨b, -, rfl⟩ := List.mem_map.1 h
  exact b.toNat_lt

theorem eq_of_digitsValue_eq {l m : List UInt8} (hlen : l.length = m.length)
    (h : digitsValue 256 (l.map UInt8.toNat) = digitsValue 256 (m.map UInt8.toNat)) : l = m := by
  rw [digitsValue_map_eq_ofDigits, digitsValue_map_eq_ofDigits] at h
  have hrev := Nat.ofDigits_inj_of_len_eq (by decide) (by simp [hlen]) (fun _ => toNat_lt_of_mem)
    (fun _ => toNat_lt_of_mem) h
  exact List.reverse_injective (List.map_injective_iff.2 (fun _ _ => UInt8.toNat_inj.1) hrev)

theorem bytesOf_toAddress (s : Stored) : bytesOf s.toAddress = s.asBytes := by
  refine eq_of_digitsValue_eq (by simp) ?_
  rw [map_toNat_bytesOf, digitsValue_bytes, toAddress_value]

theorem toAddress_fromBytes (f : Family) (bytes : List UInt8) (h : bytes.length = f.byteLen) :
    (fromBytes f bytes h).toAddress = Bytewise.fromBytes f bytes h := by
  rw [ext_iff']
  exact ⟨rfl, by rw [toAddress_value, asBytes_fromBytes, Bytewise.fromBytes_value]⟩

theorem toAddress_ofAddress (a : Address) : (ofAddress a).toAddress = a := by
  rw [ofAddress, toAddress_fromBytes, ext_iff']
  exact ⟨rfl, by rw [Bytewise.fromBytes_value, map_toNat_bytesOf, digitsValue_bytes]⟩

theorem octets_of_tailZero {s : Stored} (hs : s.TailZero) :
    s.octets.toList = s.asBytes ++ List.replicate (16 - s.family.byteLen) 0 := by
  have hdrop : s.octets.toList.drop s.family.byteLen = List.replicate (16 - s.family.byteLen) 0 :=
    List.eq_replicate_iff.2 ⟨by simp, hs⟩
  rw [asBytes, ← hdrop, List.take_append_drop]

/-- A stored address with zero unused octets is the stored form of the address it writes. -/
theorem ofAddress_toAddress {s : Stored} (hs : s.TailZero) : ofAddress s.toAddress = s :=
  ext rfl (by rw [ofAddress, toList_fromBytes, bytesOf_toAddress, octets_of_tailZero hs]; rfl)

theorem eq_iff_toAddress_eq {s t : Stored} (hs : s.TailZero) (ht : t.TailZero) :
    s = t ↔ s.toAddress = t.toAddress :=
  ⟨congrArg toAddress, fun h => by rw [← ofAddress_toAddress hs, h, ofAddress_toAddress ht]⟩

/-! ### Order -/

theorem map_toNat_lt_iff {l m : List UInt8} : l.map UInt8.toNat < m.map UInt8.toNat ↔ l < m := by
  induction l generalizing m with
  | nil => cases m <;> simp [List.nil_lt_cons]
  | cons a l ih =>
    cases m with
    | nil => simp [List.not_lt_nil]
    | cons b m =>
      simp only [List.map_cons, List.cons_lt_cons_iff, ih, UInt8.lt_iff_toNat_lt, UInt8.toNat_inj]

theorem octets_lt_iff {s t : Stored} (hs : s.TailZero) (ht : t.TailZero)
    (hf : s.family = t.family) :
    s.octets.toList < t.octets.toList ↔ s.toAddress.value < t.toAddress.value := by
  rw [← map_toNat_lt_iff, octets_of_tailZero hs, octets_of_tailZero ht, hf,
    lt_iff_digitsValue_lt (by simp [hf]) (fun _ => toNat_lt_of_mem) (fun _ => toNat_lt_of_mem),
    List.map_append, List.map_append, digitsValue_append, digitsValue_append, List.map_replicate,
    UInt8.toNat_zero, digitsValue_replicate_zero, Nat.add_zero, Nat.add_zero, toAddress_value,
    toAddress_value]
  exact Nat.mul_lt_mul_right (Nat.pow_pos (by decide))

theorem lt_iff_value {s t : Stored} (hs : s.TailZero) (ht : t.TailZero) :
    s < t ↔ s.family.rank < t.family.rank ∨
      s.family = t.family ∧ s.toAddress.value < t.toAddress.value :=
  or_congr_right (and_congr_right fun hf => octets_lt_iff hs ht hf)

/-- Every way of making a stored address leaves the octets past its family's bytes zero: storing
bytes, the first and last addresses of a family, the stored form of an address, reading one from
text or from JSON, and the network, broadcast, successor, predecessor and exclusive-or
operations, whatever the octets of their operands. On stored addresses whose unused octets are
zero, the derived equality is that of the family and the big-endian value of the family's octets,
and the derived order, the family and then the sixteen octets, is that of the family, IPv4 first,
and then that value: the order of the addresses the octets write. -/
theorem stored_tailZero_order :
    (∀ (f : Family) (bytes : List UInt8) (h : bytes.length = f.byteLen),
      (fromBytes f bytes h).TailZero) ∧
    (∀ f : Family, (zero f).TailZero ∧ (allOnes f).TailZero) ∧
    (∀ a : Address, (ofAddress a).TailZero) ∧
    (∀ (text : String) (s : Stored), parse text = .ok s → s.TailZero) ∧
    (∀ (v : Json.Value) (s : Stored), decoder v = .ok s → s.TailZero) ∧
    (∀ (s : Stored) (len : Nat) (t : Stored),
      s.network len = .ok t ∨ s.broadcast len = .ok t → t.TailZero) ∧
    (∀ s t : Stored, s.increment = .ok t ∨ s.decrement = .ok t → t.TailZero) ∧
    (∀ s s' t : Stored, s.xor s' = .ok t → t.TailZero) ∧
    ∀ s t : Stored, s.TailZero → t.TailZero →
      (s = t ↔ s.family = t.family ∧
        digitsValue 256 (s.asBytes.map UInt8.toNat) =
          digitsValue 256 (t.asBytes.map UInt8.toNat)) ∧
      (s < t ↔ s.family.rank < t.family.rank ∨ s.family = t.family ∧
        digitsValue 256 (s.asBytes.map UInt8.toNat) <
          digitsValue 256 (t.asBytes.map UInt8.toNat)) ∧
      (s.family = .v4 → t.family = .v6 → s < t) ∧
      (s < t ↔ s.toAddress < t.toAddress) := by
  refine ⟨tailZero_fromBytes,
    fun f => ⟨tailZero_zero f, tailZero_fromBytes _ _ List.length_replicate⟩,
    fun a => tailZero_fromBytes _ _ _, fun _ _ => tailZero_of_parse, fun _ _ h => ?_,
    fun _ _ _ => tailZero_of_network, fun _ _ => tailZero_of_increment,
    fun _ _ _ => tailZero_of_xor, fun s t hs ht => ⟨?_, lt_iff_value hs ht, ?_, ?_⟩⟩
  · obtain ⟨text, htext⟩ := exists_parse_of_decoder h
    exact tailZero_of_parse htext
  · rw [eq_iff_toAddress_eq hs ht, ext_iff']
    rfl
  · intro h4 h6
    exact (lt_iff_value hs ht).2 (Or.inl (by rw [h4, h6]; decide))
  · rw [lt_iff_value hs ht, lt_iff_rank_or_value]
    rfl

example : (ofAddress ⟨.v4, 167772417, by decide⟩).octets.toList =
    [10, 0, 1, 1, 0, 0, 0, 0, 0, 0, 0, 0, 0, 0, 0, 0] := by
  decide

/-! ### The byte-wise operations -/

theorem isAllOnes_toAddress (s : Stored) : Bytewise.isAllOnes s.toAddress = s.isAllOnes := by
  rw [Bytewise.isAllOnes, bytesOf_toAddress, isAllOnes]

theorem isZero_toAddress (s : Stored) : Bytewise.isZero s.toAddress = s.isZero := by
  rw [Bytewise.isZero, bytesOf_toAddress, isZero]

theorem parse_toAddress (text : String) : (parse text).map toAddress = Address.parse text := by
  unfold parse
  cases Address.parse text with
  | error e => rfl
  | ok a => exact congrArg Except.ok (toAddress_ofAddress a)

theorem mapBytes_toAddress (s : Stored) (g : Nat → UInt8 → UInt8) :
    (s.mapBytes g).toAddress = Bytewise.mapBytes s.toAddress g := by
  rw [ext_iff']
  refine ⟨rfl, ?_⟩
  rw [toAddress_value, mapBytes, asBytes_fromBytes, scratch_eq (by simp), Bytewise.mapBytes,
    Bytewise.fromBytes_value, bytesOf_toAddress]

theorem network_toAddress (s : Stored) (len : Nat) :
    (s.network len).map toAddress = Bytewise.network s.toAddress len := by
  rw [network_eq_ite, Bytewise.network, checkPrefixLen_bind, toAddress_family]
  by_cases h : len ≤ s.family.width
  · rw [if_pos h, if_pos h]
    exact congrArg Except.ok (mapBytes_toAddress _ _)
  · rw [if_neg h, if_neg h]
    rfl

theorem broadcast_toAddress (s : Stored) (len : Nat) :
    (s.broadcast len).map toAddress = Bytewise.broadcast s.toAddress len := by
  rw [broadcast_eq_ite, Bytewise.broadcast, checkPrefixLen_bind, toAddress_family]
  by_cases h : len ≤ s.family.width
  · rw [if_pos h, if_pos h]
    exact congrArg Except.ok (mapBytes_toAddress _ _)
  · rw [if_neg h, if_neg h]
    rfl

theorem increment_toAddress (s : Stored) :
    s.increment.map toAddress = Bytewise.increment s.toAddress := by
  unfold increment Bytewise.increment
  rw [isAllOnes_toAddress]
  split
  · rfl
  · refine congrArg Except.ok (ext_iff'.2 ⟨rfl, ?_⟩)
    rw [toAddress_fromBytes, Bytewise.fromBytes_value, Bytewise.fromBytes_value,
      scratch_eq s.length_asBytes, bytesOf_toAddress]

theorem decrement_toAddress (s : Stored) :
    s.decrement.map toAddress = Bytewise.decrement s.toAddress := by
  unfold decrement Bytewise.decrement
  rw [isZero_toAddress]
  split
  · rfl
  · refine congrArg Except.ok (ext_iff'.2 ⟨rfl, ?_⟩)
    rw [toAddress_fromBytes, Bytewise.fromBytes_value, Bytewise.fromBytes_value,
      scratch_eq s.length_asBytes, bytesOf_toAddress]

theorem xor_toAddress (s t : Stored) :
    (s.xor t).map toAddress = Bytewise.xor s.toAddress t.toAddress := by
  unfold xor Bytewise.xor
  simp only [toAddress_family, bytesOf_toAddress]
  split
  · exact congrArg Except.ok (mapBytes_toAddress _ _)
  · rfl

end Stored

end Address

end NetRanges
