import NetRanges.Export
import NetRanges.Proofs.Canonical
import NetRanges.Proofs.Cover
import NetRanges.Proofs.Nesting

/-!
# What an export returns

An export returns the covers of the ranges of one merged list: what is left of the merged coarse
blocks once the excluded ranges, and the private networks when those are excluded, are cut out
(`exportBlocks_value`). The covers of the ranges of any merged list ascend without overlap
(`flatMap_cover_pairwise`), hold exactly the addresses of the list (`mem_flatMap_cover`), and so
merge back into the list and then into themselves (`merge_flatMap_cover`, from the uniqueness of
merged lists).

So whatever the entries, the options and the policy, an export ascends without overlap, is left
unchanged by merging, holds no excluded address, and overlaps no private network when private
networks are excluded (`exportBlocks_sorted_merged_excluding`): the final difference and cover
decide all of it, whatever coarsening did before them.
-/
namespace NetRanges

theorem Block.mem_toRange (b : Block) (a : Address) : b.toRange.Mem a ↔ b.contains a = true :=
  (Range.contains_iff b.toRange a).symm

namespace Range

theorem Precedes.last_lt_first {r s : Range} (h : Precedes r s) : r.last < s.first := by
  rcases h with h | ⟨hf, hgap⟩
  · exact Address.lt_of_rank_lt h
  · exact (Address.lt_iff hf).2 (by show r.hi < s.lo; omega)

theorem last_le_of_mem_cover {r : Range} {b : Block} (hb : b ∈ r.cover) : b.last ≤ r.last :=
  (Address.le_iff (r.cover_tiling.family_eq b hb)).2 (r.cover_tiling.bounds b hb).2

theorem first_le_of_mem_cover {r : Range} {b : Block} (hb : b ∈ r.cover) : r.first ≤ b.first :=
  (Address.le_iff (r.cover_tiling.family_eq b hb).symm).2 (r.cover_tiling.bounds b hb).1

/-! ### Covering a merged list -/

/-- The covers of the ranges of a merged list ascend without overlap. -/
theorem flatMap_cover_pairwise {M : List Range} (hM : M.IsChain Precedes) :
    (M.flatMap cover).Pairwise fun b c => b.last < c.first := by
  rw [List.pairwise_flatMap]
  constructor
  · intro r _
    have ht := r.cover_tiling
    exact ht.pairwise.imp_of_mem fun {b c} hb hc hlt =>
      (Address.lt_iff ((ht.family_eq b hb).trans (ht.family_eq c hc).symm)).2 hlt
  · refine hM.pairwise.imp fun {r s} hrs b hb c hc => ?_
    have hbr := last_le_of_mem_cover hb
    have hsc := first_le_of_mem_cover hc
    exact Nat.lt_of_le_of_lt hbr (Nat.lt_of_lt_of_le hrs.last_lt_first hsc)

/-- The covers of the ranges of a list hold exactly the addresses of the list. -/
theorem mem_flatMap_cover (M : List Range) (a : Address) :
    (∃ b ∈ M.flatMap cover, b.contains a = true) ↔ ∃ r ∈ M, r.Mem a := by
  simp only [List.mem_flatMap]
  constructor
  · rintro ⟨b, ⟨r, hr, hb⟩, hba⟩
    exact ⟨r, hr, (r.cover_tiling.mem_iff a).1 ⟨b, hb, hba⟩⟩
  · rintro ⟨r, hr, hra⟩
    obtain ⟨b, hb, hba⟩ := (r.cover_tiling.mem_iff a).2 hra
    exact ⟨b, ⟨r, hr, hb⟩, hba⟩

/-- The union of the ranges of the covers of the ranges of a merged list is the list. -/
theorem union_flatMap_cover {M : List Range} (hM : M.IsChain Precedes) :
    union ((M.flatMap cover).map Block.toRange) = M := by
  refine union_eq_of_isChain hM fun a => ?_
  rw [← mem_flatMap_cover M a]
  constructor
  · rintro ⟨x, hx, hxa⟩
    obtain ⟨b, hb, rfl⟩ := List.mem_map.1 hx
    exact ⟨b, hb, (Block.mem_toRange b a).1 hxa⟩
  · rintro ⟨b, hb, hba⟩
    exact ⟨b.toRange, List.mem_map_of_mem hb, (Block.mem_toRange b a).2 hba⟩

theorem merge_flatMap_cover {M : List Range} (hM : M.IsChain Precedes) :
    Block.merge (M.flatMap cover) = M.flatMap cover := by
  unfold Block.merge
  rw [union_flatMap_cover hM]

/-- The covers of what is left of `base` once `excluded` is cut out ascend without overlap, are
left unchanged by merging, and hold no excluded address. -/
theorem cover_difference (base excluded : List Range) :
    ((difference base excluded).flatMap cover).Pairwise (fun b c => b.last < c.first) ∧
    Block.merge ((difference base excluded).flatMap cover) =
      (difference base excluded).flatMap cover ∧
    ∀ b ∈ (difference base excluded).flatMap cover, ∀ a : Address, b.contains a = true →
      ∀ x ∈ excluded, ¬ x.Mem a := by
  have hM : (difference base excluded).IsChain Precedes := union_isChain _
  refine ⟨flatMap_cover_pairwise hM, merge_flatMap_cover hM, ?_⟩
  intro b hb a hba x hx hxa
  obtain ⟨r, hr, hra⟩ := (mem_flatMap_cover _ a).1 ⟨b, hb, hba⟩
  exact ((mem_difference base excluded a).1 ⟨r, hr, hra⟩).2 ⟨x, hx, hxa⟩

end Range

/-! ### The export -/

/-- The blocks an export returns: the cover of what is left of the merged coarse blocks once the
excluded entries, and the private networks when those are excluded, are cut out. -/
theorem exportBlocks_value (entries : List String) (o : ExportOptions) :
    (exportBlocks entries o).value =
      (Range.difference
          (Range.union ((coarsen
              (if o.excludePrivate then o.policy.withReserved privateBlocks else o.policy)
              (dropPrivate o.excludePrivate
                ((Entry.parseAll entries).value.flatMap Entry.blocks))).value.map Block.toRange))
          (o.exclude.map Entry.toRange ++
            if o.excludePrivate then privateBlocks.map Block.toRange else [])).flatMap
        Range.cover := by
  unfold exportBlocks
  cases o.excludePrivate
  · rfl
  · rfl

/-- Whatever the entries and the options, an export returns blocks that ascend without overlap,
that merging leaves unchanged, that hold no address of an excluded entry, and that overlap no
private network when private networks are excluded. -/
theorem exportBlocks_sorted_merged_excluding (entries : List String) (o : ExportOptions) :
    (exportBlocks entries o).value.Pairwise (fun b c => b.last < c.first) ∧
    Block.merge (exportBlocks entries o).value = (exportBlocks entries o).value ∧
    (∀ b ∈ (exportBlocks entries o).value, ∀ x ∈ o.exclude, ∀ a : Address,
      x.toRange.Mem a → b.contains a = false) ∧
    (o.excludePrivate = true →
      ∀ b ∈ (exportBlocks entries o).value, ∀ q ∈ privateBlocks, b.overlaps q = false) := by
  rw [exportBlocks_value]
  generalize Range.union _ = base
  obtain ⟨hsorted, hmerge, hout⟩ := Range.cover_difference base
    (o.exclude.map Entry.toRange ++ if o.excludePrivate then privateBlocks.map Block.toRange else [])
  refine ⟨hsorted, hmerge, ?_, ?_⟩
  · intro b hb x hx a hxa
    cases hba : b.contains a
    · rfl
    · exact absurd hxa (hout b hb a hba x.toRange
        (List.mem_append_left _ (List.mem_map_of_mem hx)))
  · intro hpriv b hb q hq
    cases hover : b.overlaps q
    · rfl
    · -- an overlap is a shared address, and every address of a private network is excluded
      obtain ⟨a, hba, hqa⟩ := (Block.overlaps_iff b q).1 hover
      have hexcl : q.toRange ∈ o.exclude.map Entry.toRange ++
          (if o.excludePrivate then privateBlocks.map Block.toRange else []) := by
        rw [hpriv, if_pos rfl]
        exact List.mem_append_right _ (List.mem_map_of_mem hq)
      exact absurd ((Block.mem_toRange q a).2 hqa) (hout b hb a hba q.toRange hexcl)

end NetRanges
