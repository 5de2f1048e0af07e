import NetRanges.Cli.Run
import NetRanges.Proofs.Export
import NetRanges.Proofs.TextForms

/-!
# Merging what a merge wrote

In text mode a merge writes its result one block or one range per line. Given back as its input,
that text merges to the same text (`merge_output_stable`), with blocks or with ranges.

Three facts make this work. Each written line is one entry: an entry's text is not empty and
holds no blank, comma or semicolon (`Entry.not_separator_of_mem_text`), so cutting the text into
lines and the lines into pieces gives the texts back (`Text.lines_intercalate`,
`Text.pieces_eq_singleton`). Each text is read back as its entry (`Entry.parse_text`). And the
ranges read back merge to the list that was written: as ranges because the list is merged
already, as blocks because the covers of a merged list hold its addresses
(`Range.union_flatMap_cover`), and a merged list is fixed by its addresses.
-/
namespace NetRanges

/-! ### Cutting written text -/

namespace Text

/-- Text without separators, after a piece begun with `cur`, ends that piece. -/
theorem piecesFrom_eq_singleton {sep : Char → Bool} {cs cur : List Char}
    (h : ∀ c ∈ cs, sep c = false) (hne : cur ++ cs ≠ []) :
    piecesFrom sep cs cur = [cur.reverse ++ cs] := by
  induction cs generalizing cur with
  | nil =>
    have hcur : cur ≠ [] := by simpa using hne
    simp [piecesFrom, hcur]
  | cons c cs ih =>
    have hc : sep c = false := h c List.mem_cons_self
    rw [piecesFrom, if_neg (by simp [hc]), ih (fun d hd => h d (List.mem_cons_of_mem c hd)) (by simp)]
    simp

theorem pieces_eq_singleton {t : String} (h : ∀ c ∈ t.toList, isSeparator c = false)
    (hne : t.toList ≠ []) : pieces t = [t] := by
  rw [pieces, piecesFrom_eq_singleton h (by simpa using hne)]
  simp

/-- Texts joined by line feeds are cut back into themselves, when none is empty or holds a
separator, a line feed or a carriage return in particular. -/
theorem lines_intercalate {ts : List String}
    (h : ∀ t ∈ ts, t.toList ≠ [] ∧ ∀ c ∈ t.toList, isSeparator c = false) :
    lines ("\n".intercalate ts) = ts := by
  cases ts with
  | nil => rfl
  | cons t ts =>
    have hsplit : ("\n".intercalate (t :: ts)).toList.splitOn '\n' = (t :: ts).map String.toList := by
      rw [String.toList_intercalate]
      refine List.splitOn_intercalate '\n' (fun l hl hnl => ?_) (by simp)
      obtain ⟨u, hu, rfl⟩ := List.mem_map.1 hl
      exact absurd ((h u hu).2 '\n' hnl) (by decide)
    have hlast : ((t :: ts).map String.toList).getLast? ≠ some [] := by
      intro hl
      obtain ⟨u, hu, hu0⟩ := List.mem_map.1 (List.mem_of_getLast? hl)
      exact (h u hu).1 hu0
    unfold lines
    simp only [hsplit, if_neg hlast, List.map_map]
    conv => rhs; rw [← List.map_id (t :: ts)]
    refine List.map_congr_left fun u hu => ?_
    have hret : u.toList.getLast? ≠ some '\r' := fun hr =>
      absurd ((h u hu).2 '\r' (List.mem_of_getLast? hr)) (by decide)
    simp only [Function.comp_apply, dropReturn, if_neg hret, String.ofList_toList, id]

end Text

/-! ### Reading written entries back -/

namespace Entry

/-- Reading the texts of entries, one piece each, gives the entries. -/
theorem parseAll_texts (vs : List Entry) : (parseAll (vs.map text)).value = vs := by
  have hpieces : (vs.map text).flatMap Text.pieces = vs.map text := by
    rw [List.flatMap_map, ← List.flatMap_pure_eq_map]
    exact List.flatMap_congr fun v _ =>
      Text.pieces_eq_singleton (fun c hc => not_separator_of_mem_text hc) v.text_toList_ne_nil
  show ((((vs.map text).flatMap Text.pieces).map parse).filterMap fun r => r.toOption) = vs
  rw [hpieces, List.map_map, List.filterMap_map]
  conv => rhs; rw [← List.filterMap_some (l := vs)]
  exact List.filterMap_congr fun v _ => by simp [parse_text, Except.toOption]

theorem parseAll_lines_texts (vs : List Entry) :
    (parseAll (Text.lines ("\n".intercalate (vs.map text)))).value = vs := by
  rw [Text.lines_intercalate, parseAll_texts]
  intro t ht
  obtain ⟨v, -, rfl⟩ := List.mem_map.1 ht
  exact ⟨v.text_toList_ne_nil, fun c hc => not_separator_of_mem_text hc⟩

end Entry

/-! ### Merging a merge's output -/

namespace Cli

theorem run_merge_value (json ranges : Bool) (entries : List String) (settings : Settings)
    (input : String) :
    (run ⟨json, .merge ranges entries⟩ settings input).value =
      .ok (renderRanges (Range.union (rangesOf (readEntries entries input).value).value) ranges json) :=
  rfl

theorem readEntries_nil (input : String) : (readEntries [] input).value = Text.lines input := rfl

theorem rangesOf_value (items : List String) :
    (rangesOf items).value = (Entry.parseAll items).value.map Entry.toRange := rfl

/-- A merged list written in text mode, as blocks or as ranges, is read back as ranges whose
union is the list. -/
theorem union_rangesOf_render {M : List Range} (hM : M.IsChain Range.Precedes) (asRanges : Bool) :
    Range.union (rangesOf (Text.lines (renderRanges M asRanges false))).value = M := by
  cases asRanges with
  | false =>
    have htext : renderRanges M false false =
        "\n".intercalate (((M.flatMap Range.cover).map Entry.network).map Entry.text) := by
      simp only [renderRanges, renderTexts, List.map_map]
      rfl
    rw [htext, rangesOf_value, Entry.parseAll_lines_texts, List.map_map]
    exact Range.union_flatMap_cover hM
  | true =>
    have htext : renderRanges M true false = "\n".intercalate ((M.map Entry.range).map Entry.text) := by
      simp only [renderRanges, renderTexts, List.map_map]
      rfl
    have hid : M.map (Entry.toRange ∘ Entry.range) = M := List.map_id'' (fun _ => rfl) M
    rw [htext, rangesOf_value, Entry.parseAll_lines_texts, List.map_map, hid]
    exact Range.union_eq_of_isChain hM fun _ => Iff.rfl

/-- In text mode a merge's output, given back as its input, merges to the same output, with
blocks or with ranges, whatever the entries first merged. -/
theorem merge_output_stable (ranges : Bool) (entries : List String) (settings : Settings)
    (input : String) :
    ∃ out, (run ⟨false, .merge ranges entries⟩ settings input).value = .ok out ∧
      (run ⟨false, .merge ranges []⟩ settings out).value = .ok out := by
  refine ⟨_, run_merge_value false ranges entries settings input, ?_⟩
  rw [run_merge_value, readEntries_nil, union_rangesOf_render (Range.union_isChain _)]

end Cli

end NetRanges
