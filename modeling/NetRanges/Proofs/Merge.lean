import NetRanges.Proofs.Export

/-!
# Merging blocks

Merging a list of blocks (`Block.merge`) takes the union of their ranges and covers each merged
range by its cover. The result is the canonical list of blocks for the addresses of its input
(`Block.merge_canonical`): ascending and pairwise disjoint, holding exactly the input's
addresses, of the fewest blocks any list with these addresses has, and left unchanged by a second
merge.

The fewest-blocks part needs more than the shortness of each range's cover: a list of blocks with
the same addresses might save blocks with a block that spans two merged ranges. None does. A
block is an interval of addresses, and the address right after a merged range is held by no
range of the list (`not_mem_succ_of_isChain`), so a block within the union lies within one merged
range (`exists_range_superset`) and inside one block of that range's cover. Then a counting
argument finishes (`length_le_of_maximal`): sending each block of the other list to the merged
block holding its first address reaches every merged block.
-/
namespace NetRanges

namespace Block

theorem first_le_of_contains {b : Block} {a : Address} (h : b.contains a = true) : b.first ≤ a :=
  (Address.le_iff ((contains_iff b a).1 h).1.symm).2 ((contains_iff b a).1 h).2.1

theorem le_last_of_contains {b : Block} {a : Address} (h : b.contains a = true) : a ≤ b.last :=
  (Address.le_iff ((contains_iff b a).1 h).1).2 ((contains_iff b a).1 h).2.2

section Disjoint

variable {G : List Block} (hG : G.Pairwise fun b c => b.last < c.first)

include hG

/-- No address lies in two blocks of a list of blocks that ascend without overlap. -/
theorem eq_of_pairwise_of_contains {g g' : Block} (hg : g ∈ G) (hg' : g' ∈ G) {a : Address}
    (ha : g.contains a = true) (ha' : g'.contains a = true) : g = g' := by
  have hsep : ∀ {b c : Block}, b.last < c.first → b.contains a = true → c.contains a = true →
      False := fun hbc hb hc =>
    Nat.lt_irrefl _ (Nat.lt_of_le_of_lt (le_last_of_contains hb)
      (Nat.lt_of_lt_of_le hbc (first_le_of_contains hc)))
  induction G with
  | nil => cases hg
  | cons c G ih =>
    obtain ⟨hc, hG'⟩ := List.pairwise_cons.1 hG
    rcases List.mem_cons.1 hg with rfl | hgG <;> rcases List.mem_cons.1 hg' with rfl | hgG'
    · rfl
    · exact (hsep (hc g' hgG') ha ha').elim
    · exact (hsep (hc g hgG) ha' ha).elim
    · exact ih hG' hgG hgG'

theorem holding_eq_of_pairwise {g : Block} (hg : g ∈ G) {a : Address} (ha : g.contains a = true) :
    holding G a = some g := by
  cases hfind : holding G a with
  | none =>
    rw [holding, List.find?_eq_none] at hfind
    exact absurd ha (hfind g hg)
  | some g' =>
    rw [holding] at hfind
    have hcontains : g'.contains a = true := by simpa using List.find?_some hfind
    rw [eq_of_pairwise_of_contains hG (List.mem_of_find?_eq_some hfind) hg hcontains ha]

/-- Blocks that ascend without overlap, such that every block within their union lies inside one
of them, are no more than the blocks of any list with the same addresses: each of them holds the
first address of a block of the other list, which lies inside it. -/
theorem length_le_of_maximal {bs : List Block}
    (hmax : ∀ b : Block, (∀ a, b.contains a = true → ∃ g ∈ G, g.contains a = true) →
      ∃ g ∈ G, ∀ a, b.contains a = true → g.contains a = true)
    (h : ∀ a, (∃ b ∈ bs, b.contains a = true) ↔ ∃ g ∈ G, g.contains a = true) :
    G.length ≤ bs.length := by
  have hsub : G ⊆ bs.map fun b => (holding G b.first).getD b := by
    intro g hg
    obtain ⟨b, hb, hbg⟩ := (h g.first).2 ⟨g, hg, g.contains_first⟩
    obtain ⟨g', hg', hsup⟩ := hmax b fun a ha => (h a).1 ⟨b, hb, ha⟩
    have heq : g' = g := eq_of_pairwise_of_contains hG hg' hg (hsup _ hbg) g.contains_first
    refine List.mem_map.2 ⟨b, hb, ?_⟩
    rw [holding_eq_of_pairwise hG hg' (hsup _ b.contains_first), heq]
    rfl
  have hnodup : G.Nodup := hG.imp fun {b c} hlt heq => by
    subst heq
    exact Nat.lt_irrefl _ (Nat.lt_of_lt_of_le hlt (first_le_of_contains b.contains_last))
  calc G.length ≤ (bs.map fun b => (holding G b.first).getD b).length :=
        (List.subperm_of_subset hnodup hsub).length_le
    _ = bs.length := List.length_map _

end Disjoint

end Block

namespace Range

/-- The address right after a range of a merged list is held by no range of the list: the ranges
before it end earlier, and the ranges after it start past a gap. -/
theorem not_mem_succ_of_isChain {M : List Range} (hM : M.IsChain Precedes) {r : Range}
    (hr : r ∈ M) {x : Address} (hf : x.family = r.family) (hv : x.value = r.hi + 1) :
    ∀ y ∈ M, ¬ y.Mem x := by
  obtain ⟨s, t, rfl⟩ := List.append_of_mem hr
  obtain ⟨-, hrt, hst⟩ := List.pairwise_append.1 hM.pairwise
  have hafter : ∀ y ∈ t, Precedes r y := (List.pairwise_cons.1 hrt).1
  intro y hy hyx
  rcases List.mem_append.1 hy with hys | hyrt
  · -- a range before `r` ends before `r` starts
    have := r.lo_le
    rcases hst y hys r List.mem_cons_self with hlt | ⟨-, hgap⟩
    · rw [← hyx.1, hf] at hlt
      exact Nat.lt_irrefl _ hlt
    · have := hyx.2.2
      omega
  · rcases List.mem_cons.1 hyrt with rfl | hyt
    · have := hyx.2.2
      omega
    · exact not_mem_of_precedes hafter hf (Nat.le_of_eq hv) y hyt hyx

/-- A block whose addresses are all held by a merged list lies within one of its ranges. -/
theorem exists_range_superset {M : List Range} (hM : M.IsChain Precedes) {b : Block}
    (hb : ∀ a, b.contains a = true → ∃ r ∈ M, r.Mem a) :
    ∃ r ∈ M, ∀ a, b.contains a = true → r.Mem a := by
  obtain ⟨r, hr, hrb⟩ := hb b.first b.contains_first
  obtain ⟨hrf, hrlo, hrhi⟩ := hrb
  have htop : b.top ≤ r.hi := by
    apply Nat.le_of_not_lt
    intro hlt
    have hsize : r.hi + 1 < r.family.size := by
      have := b.top_lt
      rw [← hrf]
      exact Nat.lt_of_le_of_lt hlt this
    have hx : b.contains ⟨r.family, r.hi + 1, hsize⟩ = true :=
      (Block.contains_iff b _).2 ⟨hrf.symm, by show b.base ≤ r.hi + 1; exact Nat.le_succ_of_le hrhi,
        hlt⟩
    obtain ⟨y, hy, hyx⟩ := hb _ hx
    exact not_mem_succ_of_isChain hM hr rfl rfl y hy hyx
  refine ⟨r, hr, fun a ha => ?_⟩
  obtain ⟨haf, hlo, hhi⟩ := (Block.contains_iff b a).1 ha
  exact ⟨haf.trans hrf, Nat.le_trans hrlo hlo, Nat.le_trans hhi htop⟩

end Range

/-- Merging blocks, of either family, in any order, overlapping or repeated, gives blocks that
ascend without overlap, hold exactly the addresses of the input, are no more than the blocks of
any list holding these addresses, and are left unchanged by a second merge. -/
theorem Block.merge_canonical (B : List Block) :
    (merge B).Pairwise (fun b c => b.last < c.first) ∧
    (∀ a : Address, (∃ b ∈ merge B, b.contains a = true) ↔ ∃ b ∈ B, b.contains a = true) ∧
    (∀ bs : List Block, (∀ a : Address, (∃ b ∈ bs, b.contains a = true) ↔
      ∃ b ∈ B, b.contains a = true) → (merge B).length ≤ bs.length) ∧
    merge (merge B) = merge B := by
  have hM := Range.union_isChain (B.map toRange)
  have hsorted := Range.flatMap_cover_pairwise hM
  have hmem : ∀ a : Address, (∃ b ∈ merge B, b.contains a = true) ↔ ∃ b ∈ B, b.contains a = true := by
    intro a
    rw [merge, Range.mem_flatMap_cover, Range.mem_union]
    simp only [List.mem_map, exists_exists_and_eq_and, mem_toRange]
  refine ⟨hsorted, hmem, fun bs hbs => ?_, Range.merge_flatMap_cover hM⟩
  refine length_le_of_maximal hsorted (fun b hb => ?_) fun a => (hbs a).trans (hmem a).symm
  -- a block within the merged blocks lies within one merged range, so inside a block of its cover
  obtain ⟨r, hr, hbr⟩ := Range.exists_range_superset hM fun a ha =>
    (Range.mem_flatMap_cover _ a).1 (hb a ha)
  obtain ⟨g, hg, hgb⟩ := Range.exists_mem_cover_superset hbr
  exact ⟨g, List.mem_flatMap.2 ⟨r, hr, hg⟩, hgb⟩

end NetRanges
