import NetRanges.Proofs.TextForms

/-!
# Reading steps back from their texts

A list of steps written as their texts `len:count` and joined by any non-empty run of blanks,
commas and semicolons reads back as the same list (`parseSteps_intercalate_text`), for every
length a step can hold (at most 255) and every count up to `Step.countBound`.

Cutting the joined text gives the texts back (`Text.pieces_intercalate`): characters that are
no separator extend the piece being read, and a run of separators closes it and opens none.
Each piece then reads as its step (`Step.parse_text`): a step's text is decimal digits around
one colon, so trimming leaves it as it is, the cut at the first colon falls between the two
numbers, and a number's digits read back as the number when it is within the bound
(`Text.unsigned?_decimal`).
-/
namespace NetRanges

/-! ### Decimal digits -/

namespace Address

theorem digitChar_of_mem_decimal {n : Nat} {c : Char} (h : c ∈ (decimal n).toList) :
    ∃ d < 10, c = Nat.digitChar d := by
  rw [decimal_toList] at h
  exact mem_toDigits (by decide) h

theorem not_separator_of_mem_decimal {n : Nat} {c : Char} (h : c ∈ (decimal n).toList) :
    Text.isSeparator c = false ∧ c ≠ ':' := by
  obtain ⟨d, hd, rfl⟩ := digitChar_of_mem_decimal h
  interval_cases d <;> decide

end Address

namespace Text

/-! ### Cutting joined text -/

section Pieces

variable {sep : Char → Bool}

/-- Characters that are no separator extend the piece being read. -/
theorem piecesFrom_append_of_not_sep {cs : List Char} (h : ∀ c ∈ cs, sep c = false)
    (ds cur : List Char) :
    piecesFrom sep (cs ++ ds) cur = piecesFrom sep ds (cs.reverse ++ cur) := by
  induction cs generalizing cur with
  | nil => rfl
  | cons c cs ih =>
    rw [List.cons_append, piecesFrom, if_neg (by simp [h c List.mem_cons_self]),
      ih (fun d hd => h d (List.mem_cons_of_mem c hd))]
    simp

/-- Separators met while no piece is being read produce nothing. -/
theorem piecesFrom_append_of_sep_nil {s : List Char} (h : ∀ c ∈ s, sep c = true)
    (ds : List Char) : piecesFrom sep (s ++ ds) [] = piecesFrom sep ds [] := by
  induction s with
  | nil => rfl
  | cons c s ih =>
    rw [List.cons_append, piecesFrom, if_pos (h c List.mem_cons_self), if_pos List.isEmpty_nil,
      ih (fun d hd => h d (List.mem_cons_of_mem c hd))]

/-- A run of separators closes the piece being read. -/
theorem piecesFrom_append_of_sep {s : List Char} (hne : s ≠ []) (h : ∀ c ∈ s, sep c = true)
    (ds : List Char) {cur : List Char} (hcur : cur ≠ []) :
    piecesFrom sep (s ++ ds) cur = cur.reverse :: piecesFrom sep ds [] := by
  obtain ⟨c, s, rfl⟩ := List.exists_cons_of_ne_nil hne
  rw [List.cons_append, piecesFrom, if_pos (h c List.mem_cons_self),
    if_neg (by simpa using hcur), piecesFrom_append_of_sep_nil fun d hd => h d (List.mem_cons_of_mem c hd)]

/-- Non-empty pieces without separators, joined by a non-empty run of separators, are cut back
into themselves. -/
theorem piecesFrom_intercalate {s : List Char} (hne : s ≠ []) (hs : ∀ c ∈ s, sep c = true)
    {ls : List (List Char)} (h : ∀ l ∈ ls, l ≠ [] ∧ ∀ c ∈ l, sep c = false) :
    piecesFrom sep (s.intercalate ls) [] = ls := by
  induction ls with
  | nil => rfl
  | cons l ls ih =>
    obtain ⟨hl, hlsep⟩ := h l List.mem_cons_self
    have hrest := ih fun m hm => h m (List.mem_cons_of_mem l hm)
    cases ls with
    | nil =>
      rw [List.intercalate_singleton, ← List.append_nil l, piecesFrom_append_of_not_sep hlsep]
      simp [piecesFrom, hl]
    | cons l' ls =>
      rw [List.intercalate_cons_cons, List.append_assoc, piecesFrom_append_of_not_sep hlsep,
        List.append_nil, piecesFrom_append_of_sep hne hs _ (by simpa using hl),
        List.reverse_reverse, hrest]

/-- Non-empty texts without separators, joined by a non-empty run of separators, are cut back
into themselves. -/
theorem pieces_intercalate {s : String} (hne : s ≠ "") (hs : ∀ c ∈ s.toList, isSeparator c = true)
    {ts : List String} (h : ∀ t ∈ ts, t ≠ "" ∧ ∀ c ∈ t.toList, isSeparator c = false) :
    pieces (s.intercalate ts) = ts := by
  have hpieces : ∀ l ∈ ts.map String.toList, l ≠ [] ∧ ∀ c ∈ l, isSeparator c = false := by
    intro l hl
    obtain ⟨t, ht, rfl⟩ := List.mem_map.1 hl
    exact ⟨by simpa using (h t ht).1, (h t ht).2⟩
  rw [pieces, String.toList_intercalate,
    piecesFrom_intercalate (by simpa using hne) hs hpieces, List.map_map]
  conv => rhs; rw [← List.map_id ts]
  exact List.map_congr_left fun t _ => String.ofList_toList

end Pieces

theorem isBlank_eq_false_of_isSeparator {c : Char} (h : isSeparator c = false) :
    isBlank c = false := by
  simp only [isSeparator, Bool.or_eq_false_iff] at h
  exact h.1.1

/-! ### Numbers -/

/-- A number's decimal digits read back as the number, when it is within the bound. -/
theorem unsigned?_decimal {n bound : Nat} (h : n ≤ bound) :
    unsigned? (Address.decimal n) bound = some n := by
  obtain ⟨c, cs, hcs⟩ : ∃ c cs, (Address.decimal n).toList = c :: cs := by
    rw [Address.decimal_toList]
    exact List.exists_cons_of_ne_nil Nat.toDigits_ne_nil
  have hdigits : ∀ d ∈ c :: cs, d.isDigit = true := fun d hd =>
    Address.isDigit_of_mem_decimal (hcs ▸ hd)
  have hplus : c ≠ '+' := by
    obtain ⟨d, hd, rfl⟩ := Address.digitChar_of_mem_decimal (hcs ▸ List.mem_cons_self)
    interval_cases d <;> decide
  have hvalue : decimalValue (c :: cs) = n := by
    have := Address.digitsValue_decimal n
    rwa [Address.digitsValue, List.foldl_map, hcs] at this
  simp only [unsigned?, hcs]
  split
  · next rest heq => exact absurd (List.cons.inj heq).1 hplus
  · simp [List.all_eq_true.2 hdigits, hvalue, h]

end Text

/-! ### Steps -/

namespace Step

theorem text_toList (s : Step) :
    s.text.toList = (Address.decimal s.len).toList ++ ':' :: (Address.decimal s.minCount).toList := by
  simp [text]

theorem text_piece (s : Step) :
    s.text ≠ "" ∧ ∀ c ∈ s.text.toList, Text.isSeparator c = false := by
  refine ⟨fun h => by simpa [text_toList] using congrArg String.toList h, fun c hc => ?_⟩
  rw [text_toList, List.mem_append, List.mem_cons] at hc
  rcases hc with hc | rfl | hc
  · exact (Address.not_separator_of_mem_decimal hc).1
  · decide
  · exact (Address.not_separator_of_mem_decimal hc).1

/-- A step whose length fits a byte and whose count is within `countBound` reads back from its
text. -/
theorem parse_text {s : Step} (hlen : s.len ≤ 255) (hcount : s.minCount ≤ countBound) :
    parse s.text = .ok s := by
  have hdigits : ∀ n, Text.trim (Address.decimal n) = Address.decimal n := fun n =>
    Text.trim_eq_self fun c hc =>
      Text.isBlank_eq_false_of_isSeparator (Address.not_separator_of_mem_decimal hc).1
  have htrim : Text.trim s.text = s.text :=
    Text.trim_eq_self fun c hc => Text.isBlank_eq_false_of_isSeparator (s.text_piece.2 c hc)
  have hcut : Text.cutAt? ':' s.text = some (Address.decimal s.len, Address.decimal s.minCount) :=
    Text.cutAt?_append (fun hc => (Address.not_separator_of_mem_decimal hc).2 rfl) _
  simp only [parse, htrim, hcut, hdigits, Text.unsigned?_decimal hlen,
    Text.unsigned?_decimal hcount]

theorem mapM_parse_text {steps : List Step}
    (h : ∀ s ∈ steps, s.len ≤ 255 ∧ s.minCount ≤ countBound) :
    (steps.map text).mapM parse = .ok steps := by
  induction steps with
  | nil => rfl
  | cons s steps ih =>
    obtain ⟨hlen, hcount⟩ := h s List.mem_cons_self
    simp only [List.map_cons, List.mapM_cons, parse_text hlen hcount,
      ih fun t ht => h t (List.mem_cons_of_mem s ht)]
    rfl

end Step

/-- Steps written as their texts and joined by any non-empty run of blanks, commas and semicolons
read back as the same steps, for every length up to 255 and every count up to `countBound`. -/
theorem parseSteps_intercalate_text (steps : List Step)
    (hsteps : ∀ s ∈ steps, s.len ≤ 255 ∧ s.minCount ≤ Step.countBound) (sep : String)
    (hne : sep ≠ "") (hsep : ∀ c ∈ sep.toList, Text.isSeparator c = true) :
    parseSteps (sep.intercalate (steps.map Step.text)) = .ok steps := by
  have hpieces : Text.pieces (sep.intercalate (steps.map Step.text)) = steps.map Step.text := by
    refine Text.pieces_intercalate hne hsep fun t ht => ?_
    obtain ⟨s, -, rfl⟩ := List.mem_map.1 ht
    exact s.text_piece
  rw [parseSteps, hpieces, Step.mapM_parse_text hsteps]

/-- The widest step and a step of count zero, joined by a comma, a space, an ideographic space and
a semicolon, read back. -/
theorem parseSteps_widest_steps :
    (∀ s ∈ [(⟨255, Step.countBound⟩ : Step), ⟨0, 0⟩], s.len ≤ 255 ∧ s.minCount ≤ Step.countBound) ∧
    ", \u3000;" ≠ "" ∧ (∀ c ∈ ", \u3000;".toList, Text.isSeparator c = true) ∧
    parseSteps (", \u3000;".intercalate ([(⟨255, Step.countBound⟩ : Step), ⟨0, 0⟩].map Step.text)) =
      .ok [⟨255, Step.countBound⟩, ⟨0, 0⟩] := by
  have hsteps : ∀ s ∈ [(⟨255, Step.countBound⟩ : Step), ⟨0, 0⟩],
      s.len ≤ 255 ∧ s.minCount ≤ Step.countBound := by decide
  have hne : ", \u3000;" ≠ "" := by decide
  have hsep : ∀ c ∈ ", \u3000;".toList, Text.isSeparator c = true := by
    simp [Text.isSeparator, Text.isBlank]
  exact ⟨hsteps, hne, hsep, parseSteps_intercalate_text _ hsteps _ hne hsep⟩

end NetRanges
