import Mathlib.Data.List.Chain
import Mathlib.Data.List.Perm.Subperm
import NetRanges.Range.Cover
import NetRanges.Entry
import NetRanges.Proofs.Alignment

/-!
# The cover of a range

The blocks of a range's cover are laid end to end: the first starts at the range's first address,
each next one starts at the successor of the last address of the one before it, and the last one
ends at the range's last address, also when that is the last address of the family. So the cover
holds exactly the range's addresses, in ascending order and without overlap (`cover_tiles`).

The cover is also the shortest such list (`cover_length_le`). Each of its blocks is the largest
block that starts at its first address and stays within the range (`le_coverHostBits_iff`), so any
block within the range lies inside one block of the cover, and a list of blocks holding exactly
the range's addresses needs a block for each block of the cover.

The range of a block is covered by the block alone (`Block.cover_toRange`), so the blocks an
entry stands for, its host's block, its network or its range's cover, are always the cover of its
range (`Entry.blocks_eq_cover_toRange`).

`Tiling` is the invariant of the construction: blocks of one family laid end to end between two
values.
-/
namespace NetRanges

/-- The blocks hold exactly the addresses of the range. -/
def Range.CoveredBy (r : Range) (bs : List Block) : Prop :=
  ∀ a : Address, (∃ b ∈ bs, b.contains a = true) ↔ r.Mem a

/-- The first block of the list that holds the address. -/
def Block.holding (bs : List Block) (a : Address) : Option Block := bs.find? fun g => g.contains a

/-- Blocks of family `f` laid end to end over the values `lo` to `hi`: the first starts at `lo`,
each next one right after the last address of the one before it, and the last ends at `hi`. -/
inductive Block.Tiling (f : Family) : Nat → Nat → List Block → Prop
  | single (b : Block) {lo hi : Nat} : b.family = f → b.base = lo → b.top = hi → Tiling f lo hi [b]
  | cons (b : Block) {lo hi : Nat} {bs : List Block} : b.family = f → b.base = lo →
      Tiling f (b.top + 1) hi bs → Tiling f lo hi (b :: bs)

namespace Block

theorem ext_of_fields {b c : Block} (hf : b.family = c.family) (hlen : b.len = c.len)
    (hbase : b.base = c.base) : b = c := by
  cases b
  cases c
  cases hf
  cases hlen
  cases hbase
  rfl

theorem contains_first (b : Block) : b.contains b.first = true :=
  (contains_iff b b.first).2 ⟨rfl, Nat.le_refl _, b.base_le_top⟩

theorem contains_last (b : Block) : b.contains b.last = true :=
  (contains_iff b b.last).2 ⟨rfl, b.base_le_top, Nat.le_refl _⟩

/-- Two blocks that meet in their successor relation: the last address of the first increments
without fault to the first address of the second. -/
theorem increment_last {b c : Block} (hf : b.family = c.family) (h : b.top + 1 = c.base) :
    b.last.increment = .ok c.first := by
  have hlt : b.top + 1 < b.family.size := by
    rw [h, hf]
    exact c.base_lt
  have hfirst : (⟨b.family, b.top + 1, hlt⟩ : Address) = c.first := Address.ext_iff'.2 ⟨hf, h⟩
  simp only [Address.increment, Address.next?, Address.ofValue?, last, hlt, dif_pos, hfirst]

/-- Blocks are nested or disjoint: a block whose first address lies in `g` either ends within
`g`, or starts where `g` starts and is larger. -/
theorem top_le_or_base_eq {b g : Block} (hlo : g.base ≤ b.base) (hhi : b.base ≤ g.top) :
    b.top ≤ g.top ∨ b.base = g.base ∧ g.span < b.span := by
  have hg : b.base / g.span * g.span = g.base := by
    have := g.span_pos
    exact Address.div_mul_eq_of_le_of_lt (Nat.dvd_of_mod_eq_zero g.aligned) hlo
      (by unfold top at hhi; omega)
  by_cases hs : b.span ≤ g.span
  · -- the smaller block ends before the next multiple of the larger one's span
    left
    have hk : b.family.width - b.len ≤ g.family.width - g.len :=
      (Nat.pow_le_pow_iff_right (by decide)).1 hs
    have hrun := Address.add_pow_le_of_dvd hk (Nat.dvd_of_mod_eq_zero b.aligned)
    have := b.span_pos
    unfold top
    unfold span Address.span at hg
    unfold span Address.span
    omega
  · -- the larger block's first address is aligned to `g`'s span, so it is `g`'s
    right
    have hdvd : g.span ∣ b.span := by
      unfold span Address.span
      exact Nat.pow_dvd_pow 2 ((Nat.pow_le_pow_iff_right (by decide)).1 (Nat.le_of_not_le hs))
    have halign : g.span ∣ b.base := Nat.dvd_trans hdvd (Nat.dvd_of_mod_eq_zero b.aligned)
    rw [Nat.div_mul_cancel halign] at hg
    exact ⟨hg, Nat.lt_of_not_le hs⟩

/-! ### Tilings -/

namespace Tiling

variable {f : Family} {lo hi : Nat} {bs : List Block}

theorem lo_le_hi (h : Tiling f lo hi bs) : lo ≤ hi := by
  induction h with
  | single b hf hlo hhi =>
    rw [← hlo, ← hhi]
    exact b.base_le_top
  | cons b hf hlo _ ih =>
    have := b.base_le_top
    omega

theorem family_eq (h : Tiling f lo hi bs) : ∀ b ∈ bs, b.family = f := by
  induction h with
  | single b hf => simpa using hf
  | cons b hf _ _ ih =>
    intro c hc
    rcases List.mem_cons.1 hc with rfl | hc
    · exact hf
    · exact ih c hc

theorem bounds (h : Tiling f lo hi bs) : ∀ b ∈ bs, lo ≤ b.base ∧ b.top ≤ hi := by
  induction h with
  | single b _ hlo hhi =>
    intro c hc
    rw [List.mem_singleton.1 hc]
    omega
  | cons b _ hlo ht ih =>
    intro c hc
    have hrest := ht.lo_le_hi
    have := b.base_le_top
    rcases List.mem_cons.1 hc with rfl | hc
    · omega
    · have := ih c hc
      omega

theorem exists_head (h : Tiling f lo hi bs) : ∃ b rest, bs = b :: rest ∧ b.base = lo := by
  cases h with
  | single b _ hlo => exact ⟨b, [], rfl, hlo⟩
  | cons b _ hlo => exact ⟨b, _, rfl, hlo⟩

theorem getLast?_top (h : Tiling f lo hi bs) : bs.getLast?.map Block.top = some hi := by
  induction h with
  | single b _ _ hhi => simp [hhi]
  | cons b _ _ ht ih =>
    obtain ⟨c, rest, rfl, _⟩ := ht.exists_head
    rw [List.getLast?_cons_cons]
    exact ih

/-- Neighbours abut: each block starts right after the last address of the one before it. -/
theorem isChain (h : Tiling f lo hi bs) : bs.IsChain fun b c => b.top + 1 = c.base := by
  induction h with
  | single b => exact List.IsChain.singleton b
  | cons b _ _ ht ih =>
    obtain ⟨c, rest, rfl, hc⟩ := ht.exists_head
    exact List.IsChain.cons_cons hc.symm ih

theorem pairwise (h : Tiling f lo hi bs) : bs.Pairwise fun b c => b.top < c.base := by
  induction h with
  | single b => exact List.pairwise_singleton _ b
  | cons b _ _ ht ih =>
    refine List.Pairwise.cons (fun c hc => ?_) ih
    have := (ht.bounds c hc).1
    omega

/-- A tiling holds exactly the addresses of its family from `lo` to `hi`. -/
theorem mem_iff (h : Tiling f lo hi bs) (a : Address) :
    (∃ b ∈ bs, b.contains a = true) ↔ a.family = f ∧ lo ≤ a.value ∧ a.value ≤ hi := by
  induction h with
  | single b hf hlo hhi =>
    simp only [List.mem_singleton, exists_eq_left, contains_iff, hf, hlo, hhi]
  | @cons b _ _ rest hf hlo ht ih =>
    have hrest := ht.lo_le_hi
    have := b.base_le_top
    rw [List.exists_mem_cons_iff, ih, contains_iff, hf, hlo]
    by_cases hfa : a.family = f
    · simp only [hfa, true_and]
      omega
    · simp [hfa]

theorem eq_of_contains (h : Tiling f lo hi bs) {b c : Block} (hb : b ∈ bs) (hc : c ∈ bs)
    {a : Address} (hab : b.contains a = true) (hac : c.contains a = true) : b = c := by
  rw [contains_iff] at hab hac
  induction h with
  | single d => exact (List.mem_singleton.1 hb).trans (List.mem_singleton.1 hc).symm
  | @cons d _ _ rest _ _ ht ih =>
    have hafter : ∀ e ∈ rest, d.top < e.base := fun e he => by
      have := (ht.bounds e he).1
      omega
    rcases List.mem_cons.1 hb with rfl | hb' <;> rcases List.mem_cons.1 hc with rfl | hc'
    · rfl
    · have := hafter c hc'
      omega
    · have := hafter b hb'
      omega
    · exact ih hb' hc'

theorem holding_eq (h : Tiling f lo hi bs) {g : Block} (hg : g ∈ bs) {a : Address}
    (ha : g.contains a = true) : holding bs a = some g := by
  cases hfind : holding bs a with
  | none =>
    rw [holding, List.find?_eq_none] at hfind
    exact absurd ha (hfind g hg)
  | some g' =>
    rw [holding] at hfind
    have hmem := List.mem_of_find?_eq_some hfind
    have hcontains : g'.contains a = true := by simpa using List.find?_some hfind
    rw [h.eq_of_contains hmem hg hcontains ha]

end Tiling

end Block

namespace Range

/-! ### The block taken at the cursor -/

/-- A block of `2 ^ k` addresses starting at the cursor fits in the range exactly when `k` is at
most the number of host bits of the block the cover takes there: that block is the largest that
starts at the cursor and ends within the range. -/
theorem le_coverHostBits_iff {f : Family} {cursor hi k : Nat} (hc : cursor ≤ hi)
    (hhi : hi < f.size) (hk : k ≤ f.width) :
    k ≤ f.width - coverLen f cursor hi ↔ 2 ^ k ∣ cursor ∧ cursor + 2 ^ k ≤ hi + 1 := by
  have hz := Address.lowZeros_le f.width cursor
  have hcur : cursor < 2 ^ f.width := Nat.lt_of_le_of_lt hc hhi
  have hzero : (k ≤ f.width - (f.width - Address.lowZeros f.width cursor)) ↔ 2 ^ k ∣ cursor := by
    rw [Address.pow_dvd_iff_le_lowZeros hk]
    omega
  unfold coverLen
  by_cases hlast : hi + 1 < f.size
  · -- the end bound: the highest bit in which the cursor and `hi + 1` differ
    have hne : (hi + 1) ^^^ cursor ≠ 0 := fun h0 => by
      have := Nat.eq_of_xor_eq_zero h0
      omega
    have hm : (cursor ^^^ (hi + 1)).log2 < f.width :=
      Address.log2_xor_lt hcur hlast (by omega)
    have hpos : Address.highBitPos f.width ((hi + 1) ^^^ cursor) =
        f.width - ((hi + 1) ^^^ cursor).log2 := by
      simp [Address.highBitPos, hne]
    rw [if_pos hlast, hpos, Nat.xor_comm]
    constructor
    · intro hle
      have hd : 2 ^ k ∣ cursor := hzero.1 (by omega)
      refine ⟨hd, (Address.add_pow_le_iff_le_log2_xor (by omega) hd).2 ?_⟩
      omega
    · rintro ⟨hd, hfit⟩
      have h1 := hzero.2 hd
      have h2 := (Address.add_pow_le_iff_le_log2_xor (by omega) hd).1 hfit
      omega
  · -- a range ending at the family's last address has no end bound
    rw [if_neg hlast]
    constructor
    · intro hle
      have hd : 2 ^ k ∣ cursor := hzero.1 (by omega)
      have hrun := Address.add_pow_le_two_pow hk hd hcur
      unfold Family.size at hlast
      exact ⟨hd, by omega⟩
    · rintro ⟨hd, -⟩
      have := hzero.2 hd
      omega

theorem coverBlock_span (f : Family) (hi cursor : Nat) (h : cursor < f.size) :
    (coverBlock f hi cursor h).span = 2 ^ (f.width - coverLen f cursor hi) := rfl

/-- The block taken at the cursor starts at the cursor and ends within the range. -/
theorem coverBlock_fits {f : Family} {hi cursor : Nat} (h : cursor < f.size) (hhi : hi < f.size)
    (hc : cursor ≤ hi) :
    (coverBlock f hi cursor h).base = cursor ∧ (coverBlock f hi cursor h).top ≤ hi := by
  obtain ⟨hd, hfit⟩ := (le_coverHostBits_iff hc hhi (Nat.sub_le _ _)).1 (Nat.le_refl _)
  have hbase : (coverBlock f hi cursor h).base = cursor := by
    simp only [coverBlock, Block.containing_base]
    exact Nat.div_mul_cancel hd
  refine ⟨hbase, ?_⟩
  have := (coverBlock f hi cursor h).span_pos
  unfold Block.top
  rw [hbase, coverBlock_span]
  omega

/-- No block that starts at the cursor and ends within the range is larger than the block the
cover takes there. -/
theorem span_le_coverBlock {f : Family} {hi cursor : Nat} (h : cursor < f.size)
    (hhi : hi < f.size) (hc : cursor ≤ hi) {b : Block} (hf : b.family = f) (hb : b.base = cursor)
    (htop : b.top ≤ hi) : b.span ≤ (coverBlock f hi cursor h).span := by
  have hspan : b.span = 2 ^ (f.width - b.len) := by
    unfold Block.span Address.span
    rw [hf]
  have hfit : cursor + 2 ^ (f.width - b.len) ≤ hi + 1 := by
    have := b.span_pos
    unfold Block.top at htop
    omega
  have hd : 2 ^ (f.width - b.len) ∣ cursor := by
    rw [← hb, ← hspan]
    exact Nat.dvd_of_mod_eq_zero b.aligned
  have hk := (le_coverHostBits_iff hc hhi (Nat.sub_le _ _)).2 ⟨hd, hfit⟩
  rw [hspan, coverBlock_span]
  exact Nat.pow_le_pow_right (by decide) hk

/-! ### The cover -/

theorem coverFrom_tiling (f : Family) (hi : Nat) (hhi : hi < f.size) (cursor : Nat)
    (h : cursor < f.size) (hc : cursor ≤ hi) :
    Block.Tiling f cursor hi (coverFrom f hi hhi cursor h) := by
  fun_induction coverFrom f hi hhi cursor h with
  | case1 cursor h hlt ih =>
    exact .cons _ rfl (coverBlock_fits h hhi hc).1 (ih (by omega))
  | case2 cursor h hge =>
    have := (coverBlock_fits h hhi hc).2
    exact .single _ rfl (coverBlock_fits h hhi hc).1 (by omega)

/-- Every block of the cover is the block taken at some cursor within the range. -/
theorem mem_coverFrom (f : Family) (hi : Nat) (hhi : hi < f.size) (cursor : Nat)
    (h : cursor < f.size) (hc : cursor ≤ hi) {g : Block} (hg : g ∈ coverFrom f hi hhi cursor h) :
    ∃ c, ∃ hc' : c < f.size, c ≤ hi ∧ g = coverBlock f hi c hc' := by
  fun_induction coverFrom f hi hhi cursor h with
  | case1 cursor h hlt ih =>
    rcases List.mem_cons.1 hg with rfl | hg
    · exact ⟨cursor, h, hc, rfl⟩
    · exact ih (by omega) hg
  | case2 cursor h hge =>
    rw [List.mem_singleton.1 hg]
    exact ⟨cursor, h, hc, rfl⟩

theorem cover_tiling (r : Range) : Block.Tiling r.family r.lo r.hi r.cover :=
  coverFrom_tiling _ _ _ _ _ r.lo_le

/-- The cover lays blocks of the range's family end to end over the range: it is not empty, it
starts at the range's first address and ends at its last, the last address of each block
increments without fault to the first address of the next, the blocks ascend without overlap, and
together they hold exactly the range's addresses. Prefix lengths and clear host bits are part of
what a `Block` is. -/
theorem cover_tiles (r : Range) :
    r.cover ≠ [] ∧
    r.cover.head?.map Block.first = some r.first ∧
    r.cover.getLast?.map Block.last = some r.last ∧
    (∀ b ∈ r.cover, b.family = r.family) ∧
    r.cover.IsChain (fun b c => b.last.increment = .ok c.first) ∧
    r.cover.Pairwise (fun b c => b.last < c.first) ∧
    r.CoveredBy r.cover := by
  have ht := r.cover_tiling
  have hf := ht.family_eq
  obtain ⟨b, rest, hcover, hb⟩ := ht.exists_head
  refine ⟨?_, ?_, ?_, hf, ?_, ?_, ht.mem_iff⟩
  · rw [hcover]
    exact List.cons_ne_nil b rest
  · have hbf := hf b (by rw [hcover]; exact List.mem_cons_self)
    rw [hcover]
    exact congrArg some (Address.ext_iff'.2 ⟨hbf, hb⟩)
  · have htop := ht.getLast?_top
    cases hlast : r.cover.getLast? with
    | none => simp [hlast] at htop
    | some c =>
      rw [hlast, Option.map_some, Option.some_inj] at htop
      have hcf := hf c (List.mem_of_getLast? hlast)
      exact congrArg some (Address.ext_iff'.2 ⟨hcf, htop⟩)
  · refine ht.isChain.imp_of_mem_imp fun b c hb hc habut => ?_
    exact Block.increment_last ((hf b hb).trans (hf c hc).symm) habut
  · refine ht.pairwise.imp_of_mem fun {b c} hb hc hlt => ?_
    exact (Address.lt_iff ((hf b hb).trans (hf c hc).symm)).2 hlt

/-! ### The cover is shortest -/

/-- Every block of the cover is the largest block that starts at its first address and ends
within the range. -/
theorem span_le_of_mem_cover {r : Range} {g : Block} (hg : g ∈ r.cover) {b : Block}
    (hf : b.family = r.family) (hb : b.base = g.base) (htop : b.top ≤ r.hi) :
    b.span ≤ g.span := by
  obtain ⟨c, hc, hchi, rfl⟩ := mem_coverFrom _ _ _ _ _ r.lo_le hg
  have hbase := (coverBlock_fits hc r.hi_lt hchi).1
  exact span_le_coverBlock hc r.hi_lt hchi hf (hb.trans hbase) htop

/-- A block within the range lies inside a block of the cover: the cover block holding its first
address either holds it whole, or starts where it starts and is smaller, which the previous
lemma rules out. -/
theorem exists_mem_cover_superset {r : Range} {b : Block}
    (hb : ∀ a, b.contains a = true → r.Mem a) :
    ∃ g ∈ r.cover, ∀ a, b.contains a = true → g.contains a = true := by
  obtain ⟨g, hg, hgb⟩ := (r.cover_tiling.mem_iff b.first).2 (hb _ b.contains_first)
  obtain ⟨hfam, hlo, hhi⟩ := (Block.contains_iff g b.first).1 hgb
  have htop : b.top ≤ g.top := by
    rcases Block.top_le_or_base_eq hlo hhi with hle | ⟨hbase, hlt⟩
    · exact hle
    · obtain ⟨hlf, -, hlhi⟩ := hb _ b.contains_last
      have := span_le_of_mem_cover hg hlf hbase hlhi
      omega
  refine ⟨g, hg, fun a ha => ?_⟩
  obtain ⟨haf, halo, hahi⟩ := (Block.contains_iff b a).1 ha
  exact (Block.contains_iff g a).2 ⟨haf.trans hfam, Nat.le_trans hlo halo, Nat.le_trans hahi htop⟩

/-- No list of blocks holding exactly the range's addresses is shorter than the cover. Each block
of the cover has its first address in some block of the list, and that block lies inside it, so
sending each block of the list to the cover block holding its first address reaches every block
of the cover. -/
theorem cover_length_le (r : Range) (bs : List Block) (h : r.CoveredBy bs) :
    r.cover.length ≤ bs.length := by
  have ht := r.cover_tiling
  have hsub : r.cover ⊆ bs.map fun b => (Block.holding r.cover b.first).getD b := by
    intro g hg
    obtain ⟨b, hb, hbg⟩ := (h g.first).2 ((ht.mem_iff g.first).1 ⟨g, hg, g.contains_first⟩)
    obtain ⟨g', hg', hsup⟩ := exists_mem_cover_superset fun a ha => (h a).1 ⟨b, hb, ha⟩
    have heq : g' = g := ht.eq_of_contains hg' hg (hsup _ hbg) g.contains_first
    refine List.mem_map.2 ⟨b, hb, ?_⟩
    rw [ht.holding_eq hg' (hsup _ b.contains_first), heq]
    rfl
  have hnodup : r.cover.Nodup := ht.pairwise.imp fun {b c} hlt heq => by
    subst heq
    have := b.base_le_top
    omega
  calc r.cover.length ≤ (bs.map fun b => (Block.holding r.cover b.first).getD b).length :=
        (List.Nodup.subperm hnodup hsub).length_le
    _ = bs.length := List.length_map _

/-- The six addresses `10.0.0.1` to `10.0.0.6`, held by five blocks given out of order and
overlapping at `10.0.0.5`; the cover needs four. -/
theorem cover_length_le_overlapping :
    Range.CoveredBy ⟨.v4, 167772161, 167772166, by decide, by decide⟩
      [⟨.v4, 32, 167772166, by decide, by decide, by decide⟩,
        ⟨.v4, 31, 167772164, by decide, by decide, by decide⟩,
        ⟨.v4, 32, 167772161, by decide, by decide, by decide⟩,
        ⟨.v4, 31, 167772162, by decide, by decide, by decide⟩,
        ⟨.v4, 32, 167772165, by decide, by decide, by decide⟩] ∧
    (Range.cover ⟨.v4, 167772161, 167772166, by decide, by decide⟩).length ≤
      [(⟨.v4, 32, 167772166, by decide, by decide, by decide⟩ : Block),
        ⟨.v4, 31, 167772164, by decide, by decide, by decide⟩,
        ⟨.v4, 32, 167772161, by decide, by decide, by decide⟩,
        ⟨.v4, 31, 167772162, by decide, by decide, by decide⟩,
        ⟨.v4, 32, 167772165, by decide, by decide, by decide⟩].length := by
  have hcov : Range.CoveredBy ⟨.v4, 167772161, 167772166, by decide, by decide⟩
      [⟨.v4, 32, 167772166, by decide, by decide, by decide⟩,
        ⟨.v4, 31, 167772164, by decide, by decide, by decide⟩,
        ⟨.v4, 32, 167772161, by decide, by decide, by decide⟩,
        ⟨.v4, 31, 167772162, by decide, by decide, by decide⟩,
        ⟨.v4, 32, 167772165, by decide, by decide, by decide⟩] := by
    intro a
    by_cases hf : a.family = .v4
    · simp [Block.contains_iff, Range.Mem, Block.top, Block.span, Address.span, hf]
      omega
    · simp [Block.contains_iff, Range.Mem, hf]
  exact ⟨hcov, cover_length_le _ _ hcov⟩

end Range

/-! ### A block is its own cover -/

namespace Block

/-- Taken at a block's network address, for a range ending at the block's last address, the
block the cover takes is the block: it is the largest block that starts there and ends within
the range, and the block itself is one such block, so the two have one size. -/
theorem coverBlock_base_top (b : Block) : Range.coverBlock b.family b.top b.base b.base_lt = b := by
  have hfits := Range.coverBlock_fits b.base_lt b.top_lt b.base_le_top
  have hge := Range.span_le_coverBlock b.base_lt b.top_lt b.base_le_top rfl rfl (Nat.le_refl _)
  have hfam : (Range.coverBlock b.family b.top b.base b.base_lt).family = b.family := rfl
  generalize Range.coverBlock b.family b.top b.base b.base_lt = c at hfits hge hfam ⊢
  obtain ⟨hbase, htop⟩ := hfits
  have hspan : c.span = b.span := by
    have := c.span_pos
    have := b.span_pos
    unfold top at htop
    omega
  have hlen : c.len = b.len := by
    unfold span Address.span at hspan
    rw [hfam] at hspan
    have hexp := Nat.pow_right_injective (Nat.le_refl 2) hspan
    have hc := c.len_le
    have hb := b.len_le
    rw [hfam] at hc
    omega
  exact ext_of_fields hfam hlen hbase

theorem cover_toRange (b : Block) : b.toRange.cover = [b] := by
  show Range.coverFrom b.family b.top b.top_lt b.base b.base_lt = [b]
  rw [Range.coverFrom, dif_neg (by rw [coverBlock_base_top]; exact Nat.lt_irrefl _),
    coverBlock_base_top]

theorem host_toRange (a : Address) : (host a).toRange = Range.single a := by
  have hspan : Address.span a.family a.family.width = 1 := by
    simp [Address.span]
  simp [toRange, Range.single, host, top, span, hspan]

end Block

/-- The blocks of an entry are the cover of its range: the block of a host and a network are
what covering their ranges gives. -/
theorem Entry.blocks_eq_cover_toRange (v : Entry) : v.blocks = v.toRange.cover := by
  cases v with
  | host a => rw [blocks, toRange, ← Block.host_toRange, Block.cover_toRange]
  | network b => exact (Block.cover_toRange b).symm
  | range r => rfl

end NetRanges
