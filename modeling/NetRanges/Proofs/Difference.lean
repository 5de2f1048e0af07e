import NetRanges.Range.Difference
import NetRanges.Proofs.Union

/-!
# The difference is a merged list

The difference of two lists of ranges is a merged list holding exactly the addresses of the first
list that no range of the second holds (`difference_merged`).

Carving a range by the merged exclusions is exact (`mem_carve`). The exclusions stand one before
the next (`Precedes`), so once an exclusion of the range's family reaches past an address, no
later exclusion holds it: the part below a cut is final, the part above is carved by the
exclusions left, and an exclusion that starts past the range's end ends the carving.
-/
namespace NetRanges

namespace Range

/-! ### The pieces around a cut -/

/-- The part of `r` below `x` holds the addresses of `r` before `x`'s first address. -/
theorem mem_below (r x : Range) (a : Address) :
    (∃ p ∈ (below r x).toList, p.Mem a) ↔ r.Mem a ∧ a.value < x.lo := by
  unfold below
  split
  · simp only [Option.toList_some, List.mem_singleton, exists_eq_left, Mem]
    by_cases hfa : a.family = r.family
    · simp only [hfa, true_and]
      omega
    · simp [hfa]
  · simp only [Option.toList_none, List.not_mem_nil, false_and, exists_false, false_iff]
    rintro ⟨⟨-, hlo, -⟩, hv⟩
    omega

/-- The part of `r` above a cut that reaches into `r` holds the addresses of `r` after the cut's
last address. -/
theorem mem_above {r x p : Range} (h : above r x = some p) (hlo : r.lo ≤ x.hi + 1)
    (a : Address) : p.Mem a ↔ r.Mem a ∧ x.hi < a.value := by
  unfold above at h
  split at h
  · cases h
    simp only [Mem]
    by_cases hfa : a.family = r.family
    · simp only [hfa, true_and]
      omega
    · simp [hfa]
  · cases h

theorem above_eq_none {r x : Range} (h : above r x = none) : r.hi ≤ x.hi := by
  unfold above at h
  split at h
  · cases h
  · omega

/-- No range after `x` holds an address of `x`'s family that is not past `x`, nor the one right
after `x`'s last: the gap between them. -/
theorem not_mem_of_precedes {x : Range} {xs : List Range} (hx : ∀ y ∈ xs, Precedes x y)
    {a : Address} (hf : a.family = x.family) (hv : a.value ≤ x.hi + 1) : ∀ y ∈ xs, ¬ y.Mem a := by
  rintro y hy ⟨hyf, hylo, -⟩
  rcases hx y hy with hlt | ⟨-, hgap⟩
  · rw [← hyf, hf] at hlt
    exact Nat.lt_irrefl _ hlt
  · omega

/-! ### Carving -/

/-- Carving a range by exclusions that stand one before the next removes exactly their
addresses. -/
theorem mem_carve (r : Range) (cuts : List Range) (hcuts : cuts.Pairwise Precedes) (a : Address) :
    (∃ p ∈ carve r cuts, p.Mem a) ↔ r.Mem a ∧ ∀ x ∈ cuts, ¬ x.Mem a := by
  induction cuts generalizing r with
  | nil => simp [carve]
  | cons x xs ih =>
    obtain ⟨hx, hxs⟩ := List.pairwise_cons.1 hcuts
    rw [carve, List.forall_mem_cons]
    split
    · next hskip =>
      have hout : r.Mem a → ¬ x.Mem a := by
        rintro ⟨hrf, hrlo, -⟩ ⟨hxf, -, hxhi⟩
        rcases hskip with hne | hlt
        · exact hne (hxf ▸ hrf)
        · omega
      rw [ih r hxs]
      exact ⟨fun ⟨hr, hrest⟩ => ⟨hr, hout hr, hrest⟩, fun ⟨hr, _, hrest⟩ => ⟨hr, hrest⟩⟩
    · next hover =>
      simp only [not_or, ne_eq, Decidable.not_not, Nat.not_lt] at hover
      obtain ⟨hxf, hxlo⟩ := hover
      split
      · next hpast =>
        simp only [List.mem_singleton, exists_eq_left]
        constructor
        · intro hr
          have hrf := hr.1
          have hrhi := hr.2.2
          have hxx := x.lo_le
          refine ⟨hr, fun ⟨_, hxl, _⟩ => by omega, ?_⟩
          exact not_mem_of_precedes hx (hrf.trans hxf.symm) (by omega)
        · exact fun h => h.1
      · next hcut =>
        rw [Nat.not_lt] at hcut
        -- `x` cuts into `r`: the part below it is final, the part above is carved further
        have hlater : r.Mem a → a.value < x.lo → ∀ y ∈ xs, ¬ y.Mem a := fun hr hv =>
          not_mem_of_precedes hx (hr.1.trans hxf.symm) (by have := x.lo_le; omega)
        cases habove : above r x with
        | none =>
          have hhi := above_eq_none habove
          simp only [List.append_nil]
          rw [mem_below]
          constructor
          · rintro ⟨hr, hv⟩
            exact ⟨hr, fun ⟨_, hxl, _⟩ => by omega, hlater hr hv⟩
          · rintro ⟨hr, hnx, -⟩
            refine ⟨hr, Nat.lt_of_not_le fun hv => hnx ⟨hr.1.trans hxf.symm, hv, ?_⟩⟩
            exact Nat.le_trans hr.2.2 hhi
        | some rest =>
          simp only [List.mem_append, or_and_right, exists_or]
          rw [mem_below, ih rest hxs, mem_above habove (by omega)]
          constructor
          · rintro (⟨hr, hv⟩ | ⟨⟨hr, hv⟩, hrest⟩)
            · exact ⟨hr, fun ⟨_, hxl, _⟩ => by omega, hlater hr hv⟩
            · exact ⟨hr, fun ⟨_, _, hxh⟩ => by omega, hrest⟩
          · rintro ⟨hr, hnx, hrest⟩
            by_cases hv : a.value < x.lo
            · exact .inl ⟨hr, hv⟩
            · refine .inr ⟨⟨hr, Nat.lt_of_not_le fun hle => hnx ⟨hr.1.trans hxf.symm, ?_, hle⟩⟩,
                hrest⟩
              omega

/-! ### The difference -/

/-- The difference holds exactly the addresses of the base that no exclusion holds. -/
theorem mem_difference (base excluded : List Range) (a : Address) :
    (∃ p ∈ difference base excluded, p.Mem a) ↔
      (∃ r ∈ base, r.Mem a) ∧ ¬ ∃ x ∈ excluded, x.Mem a := by
  have hcuts : (union excluded).Pairwise Precedes := (union_isChain excluded).pairwise
  have hflat : (∃ p ∈ (union base).flatMap (fun r => carve r (union excluded)), p.Mem a) ↔
      ∃ r ∈ union base, ∃ p ∈ carve r (union excluded), p.Mem a := by
    simp only [List.mem_flatMap]
    constructor
    · rintro ⟨p, ⟨r, hr, hp⟩, ha⟩
      exact ⟨r, hr, p, hp, ha⟩
    · rintro ⟨r, hr, p, hp, ha⟩
      exact ⟨p, ⟨r, hr, hp⟩, ha⟩
  have hcarve : (∃ r ∈ union base, ∃ p ∈ carve r (union excluded), p.Mem a) ↔
      (∃ r ∈ union base, r.Mem a) ∧ ∀ x ∈ union excluded, ¬ x.Mem a := by
    simp only [mem_carve _ _ hcuts]
    constructor
    · rintro ⟨r, hr, ha, hnot⟩
      exact ⟨⟨r, hr, ha⟩, hnot⟩
    · rintro ⟨⟨r, hr, ha⟩, hnot⟩
      exact ⟨r, hr, ha, hnot⟩
  unfold difference
  rw [mem_union, hflat, hcarve, mem_union]
  have hexcl := mem_union excluded a
  constructor
  · rintro ⟨hbase, hnot⟩
    exact ⟨hbase, fun hx => let ⟨x, hx, hxa⟩ := hexcl.2 hx; hnot x hx hxa⟩
  · rintro ⟨hbase, hnot⟩
    exact ⟨hbase, fun x hx hxa => hnot (hexcl.1 ⟨x, hx, hxa⟩)⟩

/-- The difference of two lists of ranges is a merged list holding exactly the addresses of the
first that no range of the second holds. -/
theorem difference_merged (base excluded : List Range) :
    Merged (difference base excluded) ∧
      ∀ a : Address, (∃ p ∈ difference base excluded, p.Mem a) ↔
        (∃ r ∈ base, r.Mem a) ∧ ¬ ∃ x ∈ excluded, x.Mem a :=
  ⟨Merged.of_isChain (union_isChain _), mem_difference base excluded⟩

end Range

end NetRanges
