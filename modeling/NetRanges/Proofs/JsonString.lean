import Mathlib.Tactic.IntervalCases
import NetRanges.Json.Read

/-!
# Reading back a JSON string

`Value.render` writes a string in double quotes with every character as `escapeChar` says, and
`Value.read` takes that text back to the same string, whatever its characters
(`read_render_str`).

The reader goes one character of the string at a time (`readString_escapeChar`): a plain
character is taken as it is, a short escape stands for its quote, backslash or control, and a
control written `\u00XX` is read through its four hex digits (`hexQuad_control`), which name a
character below the surrogates.
-/
namespace NetRanges.Json

/-! ### Hex escapes -/

theorem hexValue_hexDigit {n : Nat} (h : n < 16) : hexValue (Value.hexDigit n) = some n := by
  interval_cases n <;> decide

/-- At least `n` bytes are left when at least `n` characters are: every character takes a
byte or more. -/
theorem hasBytes_of_le_length {n : Nat} {cs : List Char} (h : n ≤ cs.length) :
    hasBytes n cs = true := by
  induction cs generalizing n with
  | nil =>
    rw [List.length_nil, Nat.le_zero] at h
    simp [hasBytes, h]
  | cons c cs ih =>
    have hsize := Char.utf8Size_pos c
    rw [hasBytes, ih (by simp at h; omega), Bool.or_true]

/-- The four hex digits of a `\u00XX` escape give back the number below 256 they write. -/
theorem hexQuad_control {n : Nat} (hn : n < 256) (more : List Char) (pos : Nat) :
    hexQuad ('0' :: '0' :: Value.hexDigit (n / 16) :: Value.hexDigit (n % 16) :: more) pos =
      .ok (n, more, pos + 4) := by
  have hzero : hexValue '0' = some 0 := by decide
  have hvalue : n / 16 * 16 + n % 16 = n := Nat.div_add_mod' n 16
  rw [hexQuad, hasBytes_of_le_length (by simp)]
  simp [hexDigits, hzero, hexValue_hexDigit (show n / 16 < 16 by omega),
    hexValue_hexDigit (Nat.mod_lt n (by decide)), hvalue]

/-! ### Strings -/

/-- A character written as `escapeChar` says is read back as that character, and the reading
of the string goes on right after it. -/
theorem readString_escapeChar (c : Char) (fuel : Nat) (acc more : List Char) (pos : Nat) :
    ∃ pos', readString (fuel + 1) acc (Value.escapeChar c ++ more) pos =
      readString fuel (c :: acc) more pos' := by
  unfold Value.escapeChar
  split_ifs with hquote hback hb hf hn hr ht hcontrol
  · subst hquote
    exact ⟨pos + 1 + 1, by simp [readString, escape]⟩
  · subst hback
    exact ⟨pos + 1 + 1, by simp [readString, escape]⟩
  · subst hb
    exact ⟨pos + 1 + 1, by simp [readString, escape]⟩
  · subst hf
    exact ⟨pos + 1 + 1, by simp [readString, escape]⟩
  · subst hn
    exact ⟨pos + 1 + 1, by simp [readString, escape]⟩
  · subst hr
    exact ⟨pos + 1 + 1, by simp [readString, escape]⟩
  · subst ht
    exact ⟨pos + 1 + 1, by simp [readString, escape]⟩
  · -- a control without a short escape goes through `\u00XX`, below the surrogates
    have hlow : ¬ (0xDC00 ≤ c.toNat ∧ c.toNat ≤ 0xDFFF) := by omega
    have hhigh : ¬ (0xD800 ≤ c.toNat ∧ c.toNat ≤ 0xDBFF) := by omega
    refine ⟨pos + 1 + 1 + 4, ?_⟩
    simp only [List.cons_append, readString, escape, hexQuad_control (show c.toNat < 256 by omega)]
    simp [hlow, hhigh, Char.ofNat_toNat]
  · -- a plain character is taken as it is
    exact ⟨pos + c.utf8Size, by simp [readString, hquote, hback, hcontrol]⟩

/-- The characters of a string, each written as `escapeChar` says and followed by the closing
quote, are read back as the string, with enough fuel for one step a character and one for the
quote. -/
theorem readString_escaped (s : List Char) (fuel : Nat) (hfuel : s.length ≤ fuel)
    (acc rest : List Char) (pos : Nat) :
    ∃ pos', readString (fuel + 1) acc (s.flatMap Value.escapeChar ++ '"' :: rest) pos =
      .ok (String.ofList (acc.reverse ++ s), ⟨rest, pos'⟩) := by
  induction s generalizing fuel acc pos with
  | nil => exact ⟨pos + 1, by simp [readString]⟩
  | cons c s ih =>
    obtain ⟨fuel, rfl⟩ : ∃ f, fuel = f + 1 := ⟨fuel - 1, by simp at hfuel; omega⟩
    obtain ⟨pos', hstep⟩ := readString_escapeChar c (fuel + 1) acc
      (s.flatMap Value.escapeChar ++ '"' :: rest) pos
    obtain ⟨pos'', hrest⟩ := ih fuel (by simp at hfuel; omega) (c :: acc) pos'
    refine ⟨pos'', ?_⟩
    rw [List.flatMap_cons, List.append_assoc, hstep, hrest]
    simp

theorem escapeChar_ne_nil (c : Char) : Value.escapeChar c ≠ [] := by
  unfold Value.escapeChar
  split_ifs <;> simp

theorem length_le_flatMap_escapeChar (l : List Char) :
    l.length ≤ (l.flatMap Value.escapeChar).length := by
  induction l with
  | nil => simp
  | cons c l ih =>
    have := List.length_pos_iff.2 (escapeChar_ne_nil c)
    simp only [List.flatMap_cons, List.length_append, List.length_cons]
    omega

theorem readValue_quote (fuel room : Nat) (cs : List Char) (pos : Nat) :
    readValue (fuel + 1) room ⟨'"' :: cs, pos⟩ =
      (fun x => (Value.str x.1, x.2)) <$> readString (cs.length + 1) [] cs (pos + 1) := by
  simp [readValue, skipBlank, isBlank]

/-- Every string is read back from its JSON text. -/
theorem read_render_str (s : String) : Value.read (Value.str s).render = .ok (.str s) := by
  have htext : (Value.str s).render.toList = '"' :: (s.toList.flatMap Value.escapeChar ++ ['"']) := by
    simp [Value.render, Value.quote]
  obtain ⟨pos, hread⟩ := readString_escaped s.toList
    (s.toList.flatMap Value.escapeChar ++ ['"']).length
    (by have := length_le_flatMap_escapeChar s.toList; simp only [List.length_append,
      List.length_singleton]; omega) [] [] 1
  simp only [Value.read, htext, List.length_cons]
  rw [readValue_quote, Nat.zero_add, hread]
  simp [skipBlank]

end NetRanges.Json
