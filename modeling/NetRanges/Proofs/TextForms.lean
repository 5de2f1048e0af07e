import NetRanges.Proofs.AddressText
import NetRanges.Proofs.JsonString
import NetRanges.Json.Codec

/-!
# Reading back the texts of values

Every value the library writes as text is read back as itself: an address
(`Address.parse_text`), a block (`Block.parse_text`), a range (`Range.parse_text`) and an entry
of any of its three forms (`Entry.parse_text`), and so are their JSON strings
(`texts_read_back`).

An entry's reader trims blanks and then dispatches on `/` and `-`, so what makes this work is
the alphabet of address texts (`Address.IsTextChar`): hex digits, dots and colons, never a blank,
a slash or a dash. A block's text is then cut at its one slash and a range's at its one dash, and
the two sides are read by the address reader. A block comes back unchanged through the clearing
of host bits because its network address has none (`Block.containing_first`). No character of an
entry's text separates the entries of a list (`Entry.not_separator_of_mem_text`), and the text is
never empty (`Entry.text_toList_ne_nil`), so a written entry is one piece of a list.
-/
namespace NetRanges

namespace Address

/-! ### The alphabet of address texts -/

/-- The characters addresses are written with: hex digits, dots and colons. -/
def IsTextChar (c : Char) : Prop := c = '.' ∨ c = ':' ∨ ∃ d < 16, c = Nat.digitChar d

theorem isTextChar_of_mem_toDigits {b n : Nat} (hb : 1 < b) (hb16 : b ≤ 16) {c : Char}
    (h : c ∈ Nat.toDigits b n) : IsTextChar c := by
  obtain ⟨d, hd, rfl⟩ := mem_toDigits hb h
  exact .inr (.inr ⟨d, by omega, rfl⟩)

/-- No address character is a blank, a slash or a dash. -/
theorem IsTextChar.not_special {c : Char} (h : IsTextChar c) :
    Text.isBlank c = false ∧ c ≠ '/' ∧ c ≠ '-' := by
  rcases h with rfl | rfl | ⟨d, hd, rfl⟩
  · decide
  · decide
  · interval_cases d <;> decide

theorem isTextChar_dottedText (v : Nat) : ∀ c ∈ (dottedText v).toList, IsTextChar c := by
  intro c hc
  simp only [dottedText_toList, List.mem_append, List.mem_cons] at hc
  rcases hc with hc | rfl | hc | rfl | hc | rfl | hc
  all_goals first
    | exact isTextChar_of_mem_toDigits (by decide) (by decide) hc
    | exact .inl rfl

theorem isTextChar_groupsText (gs : List Nat) : ∀ c ∈ (groupsText gs).toList, IsTextChar c := by
  cases gs with
  | nil => simp [groupsText]
  | cons g gs =>
    intro c hc
    rw [groupsText_toList, List.mem_append, List.mem_flatMap] at hc
    rcases hc with hc | ⟨h, -, hc⟩
    · exact isTextChar_of_mem_toDigits (by decide) (by decide) hc
    · rcases List.mem_cons.1 hc with rfl | hc
      · exact .inr (.inl rfl)
      · exact isTextChar_of_mem_toDigits (by decide) (by decide) hc

theorem isTextChar_colonText (v : Nat) : ∀ c ∈ (colonText v).toList, IsTextChar c := by
  unfold colonText
  split
  · intro c hc
    rw [String.toList_append, List.mem_append] at hc
    rcases hc with hc | hc
    · -- the prefix `::ffff:`, whose `f` is the hex digit fifteen
      have hf : 'f' = Nat.digitChar 15 := rfl
      simp only [show "::ffff:".toList = [':', ':', 'f', 'f', 'f', 'f', ':'] from rfl,
        List.mem_cons, List.not_mem_nil, or_false] at hc
      rcases hc with rfl | rfl | rfl | rfl | rfl | rfl | rfl <;>
        first | exact .inr (.inl rfl) | exact .inr (.inr ⟨15, by decide, hf⟩)
    · exact isTextChar_dottedText _ c hc
  · dsimp only
    split
    · intro c hc
      simp only [String.toList_append, List.mem_append] at hc
      rcases hc with (hc | hc) | hc
      · exact isTextChar_groupsText _ c hc
      · simp only [show "::".toList = [':', ':'] from rfl, List.mem_cons, List.not_mem_nil,
          or_false, or_self] at hc
        exact .inr (.inl hc)
      · exact isTextChar_groupsText _ c hc
    · exact isTextChar_groupsText _

/-- The text of an address is written with hex digits, dots and colons only. -/
theorem isTextChar_text (a : Address) : ∀ c ∈ a.text.toList, IsTextChar c := by
  unfold text
  split
  · exact isTextChar_dottedText _
  · exact isTextChar_colonText _

theorem not_blank_of_mem_text {a : Address} {c : Char} (h : c ∈ a.text.toList) :
    Text.isBlank c = false :=
  (isTextChar_text a c h).not_special.1

theorem slash_not_mem_text (a : Address) : '/' ∉ a.text.toList := fun h =>
  (isTextChar_text a '/' h).not_special.2.1 rfl

theorem dash_not_mem_text (a : Address) : '-' ∉ a.text.toList := fun h =>
  (isTextChar_text a '-' h).not_special.2.2 rfl

theorem parse_text (a : Address) : Address.parse a.text = .ok a := by
  simp [Address.parse, ofText?_text]

/-- A length's decimal digits are read back as the length. -/
theorem digitsValue_decimal (n : Nat) :
    digitsValue 10 ((decimal n).toList.map fun c => c.toNat - '0'.toNat) = n := by
  rw [decimal_toList]
  rcases Nat.eq_zero_or_pos n with rfl | hn
  · rfl
  · have hdigit : ∀ d ∈ (Nat.digits 10 n).reverse, (Nat.digitChar d).toNat - '0'.toNat = d :=
      fun d hd => by
        rw [Nat.toNat_digitChar_of_lt_ten (Nat.digits_lt_base (by decide) (List.mem_reverse.1 hd))]
        exact Nat.add_sub_cancel_left 48 d
    have hmap : ((Nat.digits 10 n).reverse.map Nat.digitChar).map (fun c => c.toNat - '0'.toNat) =
        (Nat.digits 10 n).reverse :=
      calc _ = (Nat.digits 10 n).reverse.map id := by
              rw [List.map_map]
              exact List.map_congr_left hdigit
        _ = _ := List.map_id _
    rw [toDigits_eq_map_digits (by decide) hn, hmap, digitsValue_reverse, Nat.ofDigits_digits]

theorem isDigit_of_mem_decimal {n : Nat} {c : Char} (h : c ∈ (decimal n).toList) :
    c.isDigit = true := by
  rw [decimal_toList] at h
  obtain ⟨d, hd, rfl⟩ := mem_toDigits (by decide) h
  rw [Nat.isDigit_digitChar, decide_eq_true hd]

end Address

/-! ### Trimming and cutting -/

namespace Text

theorem trimChars_eq_self {cs : List Char} (h : ∀ c ∈ cs, isBlank c = false) :
    trimChars cs = cs := by
  have hdrop : ∀ l : List Char, (∀ c ∈ l, isBlank c = false) → l.dropWhile isBlank = l := by
    intro l hl
    cases l with
    | nil => rfl
    | cons c l => simp [hl c List.mem_cons_self]
  rw [trimChars, hdrop cs h, hdrop cs.reverse (fun c hc => h c (List.mem_reverse.1 hc)),
    List.reverse_reverse]

theorem trim_eq_self {s : String} (h : ∀ c ∈ s.toList, isBlank c = false) : trim s = s := by
  rw [trim, trimChars_eq_self h, String.ofList_toList]

theorem cutCharsAt_eq_none {c : Char} {l : List Char} (h : c ∉ l) : cutCharsAt c l = none := by
  induction l with
  | nil => rfl
  | cons d l ih =>
    have hd : d ≠ c := fun hd => h (hd ▸ List.mem_cons_self)
    simp [cutCharsAt, hd, ih (fun hl => h (List.mem_cons_of_mem d hl))]

/-- Cutting at a character that occurs once gives the text before and after it. -/
theorem cutCharsAt_append {c : Char} {l : List Char} (h : c ∉ l) (r : List Char) :
    cutCharsAt c (l ++ c :: r) = some (l, r) := by
  induction l with
  | nil => simp [cutCharsAt]
  | cons d l ih =>
    have hd : d ≠ c := fun hd => h (hd ▸ List.mem_cons_self)
    simp [cutCharsAt, hd, ih (fun hl => h (List.mem_cons_of_mem d hl))]

theorem cutAt?_append {c : Char} {x : String} (h : c ∉ x.toList) (y : String) :
    cutAt? c (x ++ String.singleton c ++ y) = some (x, y) := by
  simp [cutAt?, cutCharsAt_append h]

end Text

/-! ### Blocks -/

namespace Block

theorem containing_first (b : Block) : containing b.first b.len b.len_le = b := by
  have hbase : b.first.value / Address.span b.first.family b.len * Address.span b.first.family b.len =
      b.base := b.base_div_mul
  obtain ⟨f, len, base, hlen, haligned, hlt⟩ := b
  simp only [containing, first] at hbase ⊢
  congr

theorem text_toList (b : Block) :
    b.text.toList = b.first.text.toList ++ '/' :: (Address.decimal b.len).toList := by
  simp [text]

theorem parse_text (b : Block) : Block.parse b.text = .ok b := by
  have hcut : Text.cutAt? '/' b.text = some (b.first.text, Address.decimal b.len) :=
    Text.cutAt?_append (Address.slash_not_mem_text b.first) _
  have hdigits : (Address.decimal b.len).toList.all Char.isDigit = true :=
    List.all_eq_true.2 fun c hc => Address.isDigit_of_mem_decimal hc
  have hne : (Address.decimal b.len).toList.isEmpty = false := by
    rw [Address.decimal_toList]
    exact List.isEmpty_eq_false_iff.2 (Nat.toDigits_ne_nil)
  have hwidth : b.len ≤ 255 := by
    have hle := b.len_le
    have : b.family.width ≤ 128 := by cases b.family <;> decide
    omega
  simp only [Block.parse, hcut, Address.ofText?_text]
  rw [hne, hdigits, Address.digitsValue_decimal, if_neg (by decide), if_neg (Nat.not_lt.2 hwidth),
    dif_pos (show b.len ≤ b.first.family.width from b.len_le), containing_first]

end Block

/-! ### Ranges and entries -/

theorem Range.ofBounds?_first_last (r : Range) : Range.ofBounds? r.first r.last = some r := by
  simp [ofBounds?, first, last, r.lo_le]

theorem Range.text_toList (r : Range) :
    r.text.toList = r.first.text.toList ++ '-' :: r.last.text.toList := by
  simp [text]

theorem Address.IsTextChar.not_separator {c : Char} (h : IsTextChar c) :
    Text.isSeparator c = false := by
  rcases h with rfl | rfl | ⟨d, hd, rfl⟩
  · decide
  · decide
  · interval_cases d <;> decide

namespace Entry

/-- An entry's text holds no blank, comma or semicolon: it is address characters, a slash and
decimal digits, or a dash. -/
theorem not_separator_of_mem_text {v : Entry} {c : Char} (h : c ∈ v.text.toList) :
    Text.isSeparator c = false := by
  cases v with
  | host a => exact (Address.isTextChar_text a c h).not_separator
  | network b =>
    rw [text, Block.text_toList, List.mem_append, List.mem_cons] at h
    rcases h with h | rfl | h
    · exact (Address.isTextChar_text _ c h).not_separator
    · decide
    · rw [Address.decimal_toList] at h
      exact (Address.isTextChar_of_mem_toDigits (by decide) (by decide) h).not_separator
  | range r =>
    rw [text, Range.text_toList, List.mem_append, List.mem_cons] at h
    rcases h with h | rfl | h
    · exact (Address.isTextChar_text _ c h).not_separator
    · decide
    · exact (Address.isTextChar_text _ c h).not_separator

/-- An entry's text is not empty: an empty text is no address, and the texts of networks and
ranges hold a slash or a dash. -/
theorem text_toList_ne_nil (v : Entry) : v.text.toList ≠ [] := by
  cases v with
  | host a =>
    intro h
    have hempty : Address.readPrefix [] = none := by decide +kernel
    have hread := Address.ofText?_text a
    rw [Address.ofText?, show a.text.toList = [] from h, hempty] at hread
    cases hread
  | network b =>
    apply List.ne_nil_of_mem (a := '/')
    simp [text, Block.text_toList]
  | range r =>
    apply List.ne_nil_of_mem (a := '-')
    simp [text, Range.text_toList]

theorem not_blank_of_mem_text {v : Entry} {c : Char} (h : c ∈ v.text.toList) :
    Text.isBlank c = false := by
  have hsep := not_separator_of_mem_text h
  simp only [Text.isSeparator, Bool.or_eq_false_iff] at hsep
  exact hsep.1.1

end Entry

/-- A range's text is read as that range, in the range form. -/
theorem Range.parse_text (r : Range) : Entry.parse r.text = .ok (.range r) := by
  have hblank : ∀ c ∈ r.text.toList, Text.isBlank c = false := fun c hc =>
    Entry.not_blank_of_mem_text (v := .range r) hc
  have hslash : '/' ∉ r.text.toList := by
    rw [Range.text_toList]
    simp only [List.mem_append, List.mem_cons, not_or]
    exact ⟨Address.slash_not_mem_text r.first, by decide, Address.slash_not_mem_text r.last⟩
  have hcut : Text.cutAt? '-' r.text = some (r.first.text, r.last.text) :=
    Text.cutAt?_append (Address.dash_not_mem_text r.first) _
  simp [Entry.parse, Text.trim_eq_self hblank, hslash, hcut,
    Text.trim_eq_self fun c hc => Address.not_blank_of_mem_text (a := r.first) hc,
    Text.trim_eq_self fun c hc => Address.not_blank_of_mem_text (a := r.last) hc,
    Address.ofText?_text, Range.ofBounds?_first_last]

/-- Every entry is read back from its text, in its own form. -/
theorem Entry.parse_text (v : Entry) : Entry.parse v.text = .ok v := by
  cases v with
  | host a =>
    simp [Entry.text, Entry.parse, Text.trim_eq_self fun c hc => Address.not_blank_of_mem_text hc,
      Address.slash_not_mem_text, Text.cutAt?, Text.cutCharsAt_eq_none (Address.dash_not_mem_text a),
      Address.parse_text]
  | network b =>
    have hblank : ∀ c ∈ b.text.toList, Text.isBlank c = false := fun c hc =>
      not_blank_of_mem_text (v := .network b) hc
    have hslash : '/' ∈ b.text.toList := by
      simp [Block.text_toList]
    simp [Entry.text, Entry.parse, Text.trim_eq_self hblank, hslash, Block.parse_text]
  | range r => exact Range.parse_text r

/-! ### JSON strings -/

namespace Json.Decoder

theorem parsed_str {α ε : Type} (read : String → Except ε α) (message : ε → String) (t : String) :
    parsed read message (.str t) = (read t).mapError fun e => .custom (message e) :=
  rfl

theorem address_text (a : Address) : address (.str a.text) = .ok a := by
  rw [address, parsed_str, Address.parse_text]
  rfl

theorem block_text (b : Block) : block (.str b.text) = .ok b := by
  rw [block, parsed_str, Block.parse_text]
  rfl

theorem entry_text (v : Entry) : entry (.str v.text) = .ok v := by
  rw [entry, parsed_str, Entry.parse_text]
  rfl

theorem range_text (r : Range) : range (.str r.text) = .ok r := by
  rw [range, entry, parsed_str, Range.parse_text]
  rfl

end Json.Decoder

/-- Every address, block, range and entry is read back from its text (an entry in its own form),
and its JSON string is read back from its JSON text and decoded back to it. -/
theorem texts_read_back :
    (∀ a : Address, Address.parse a.text = .ok a ∧
      Json.Value.read (Json.Value.str a.text).render = .ok (.str a.text) ∧
      Json.Decoder.address (.str a.text) = .ok a) ∧
    (∀ b : Block, Block.parse b.text = .ok b ∧
      Json.Value.read (Json.Value.str b.text).render = .ok (.str b.text) ∧
      Json.Decoder.block (.str b.text) = .ok b) ∧
    (∀ r : Range, Entry.toRange <$> Entry.parse r.text = .ok r ∧
      Json.Value.read (Json.Value.str r.text).render = .ok (.str r.text) ∧
      Json.Decoder.range (.str r.text) = .ok r) ∧
    (∀ v : Entry, Entry.parse v.text = .ok v ∧
      Json.Value.read (Json.Value.str v.text).render = .ok (.str v.text) ∧
      Json.Decoder.entry (.str v.text) = .ok v) := by
  refine ⟨fun a => ⟨Address.parse_text a, Json.read_render_str _, Json.Decoder.address_text a⟩,
    fun b => ⟨Block.parse_text b, Json.read_render_str _, Json.Decoder.block_text b⟩,
    fun r => ⟨?_, Json.read_render_str _, Json.Decoder.range_text r⟩,
    fun v => ⟨Entry.parse_text v, Json.read_render_str _, Json.Decoder.entry_text v⟩⟩
  rw [Range.parse_text]
  rfl

end NetRanges
