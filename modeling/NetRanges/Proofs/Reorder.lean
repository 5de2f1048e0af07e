import NetRanges.Proofs.Export
import NetRanges.Proofs.Coarsen

/-!
# The order of the entries does not matter

An export returns the same blocks however its entries are ordered (`exportBlocks_perm`): it
depends only on the parsed blocks counted with their repetitions (`exportBlocks_eq_of_perm`).

The intermediate lists do depend on the order. A coarsening step lists the members of a group
that is not folded in input order, and the cascade carries its set-aside blocks in the order
the steps produced them. What does not depend on the order is every list up to permutation:

* blocks are sorted by one number (`Block.sortKey`: network address, then length), and two
  blocks with one key are the same block (`Block.sortKey_inj`);
* so after the stable sort the runs of equal candidates have strictly increasing keys
  (`runs_sortKey_lt`), a run holds exactly the entries with its key (`runs_snd_eq_filter`), and
  what a step makes of its runs is determined, up to order, by the entries counted with their
  repetitions (`runs_flatMap_perm`);
* a step, the cascade and coarsening then map permutations to permutations (`step_perm`,
  `cascade_perm`, `coarsen_perm`), and the union, which holds the addresses of its input as a
  merged list, erases what order is left.
-/
namespace NetRanges

namespace Block

theorem len_lt_256 (b : Block) : b.len < 256 := by
  have := b.len_le
  have := b.family.width_le
  omega

/-- The place of a block in the order of blocks as one number: the key of its network address,
then its length, which is below 256. -/
def sortKey (b : Block) : Nat := b.first.key * 256 + b.len

theorem sortKey_inj {b c : Block} (h : b.sortKey = c.sortKey) : b = c := by
  have hb := b.len_lt_256
  have hc := c.len_lt_256
  unfold sortKey at h
  have hkey : b.first.key = c.first.key := by omega
  obtain ⟨hf, hbase⟩ := Address.ext_iff'.1 (Address.key_inj hkey)
  exact ext_of_fields hf (by omega) hbase

theorem compare_ne_gt_iff (b c : Block) :
    (Ord.compare b c != .gt) = true ↔ b.sortKey ≤ c.sortKey := by
  have hb := b.len_lt_256
  have hc := c.len_lt_256
  show ((Ord.compare b.first.key c.first.key).then (Ord.compare b.len c.len) != .gt) = true ↔ _
  unfold sortKey
  rcases Nat.lt_trichotomy b.first.key c.first.key with hlt | heq | hgt
  · rw [Nat.compare_eq_lt.2 hlt]
    simp only [Ordering.then, bne_iff_ne, ne_eq, reduceCtorEq, not_false_eq_true, true_iff]
    omega
  · rw [Nat.compare_eq_eq.2 heq, heq]
    simp only [Ordering.then, bne_iff_ne, ne_eq, Nat.compare_eq_gt, Nat.not_lt]
    omega
  · rw [Nat.compare_eq_gt.2 hgt]
    simp only [Ordering.then, bne_self_eq_false, Bool.false_eq_true, false_iff, Nat.not_le]
    omega

end Block

namespace Range

theorem union_perm {R S : List Range} (h : R.Perm S) : union R = union S :=
  union_congr fun _ => exists_congr fun _ => and_congr_left fun _ => h.mem_iff

end Range

namespace Coarsen

/-! ### Runs of sorted pairs -/

/-- Pairs in the order of their keys. -/
def KeySorted (L : List (Block × Block)) : Prop :=
  L.Pairwise fun a b => a.1.sortKey ≤ b.1.sortKey

theorem keyLE_trans (a b c : Block × Block) (hab : (Ord.compare a.1 b.1 != .gt) = true)
    (hbc : (Ord.compare b.1 c.1 != .gt) = true) : (Ord.compare a.1 c.1 != .gt) = true := by
  rw [Block.compare_ne_gt_iff] at hab hbc ⊢
  omega

theorem keyLE_total (a b : Block × Block) :
    ((Ord.compare a.1 b.1 != .gt) || (Ord.compare b.1 a.1 != .gt)) = true := by
  rw [Bool.or_eq_true, Block.compare_ne_gt_iff, Block.compare_ne_gt_iff]
  omega

theorem sortByKey_keySorted (ps : List (Block × Block)) : KeySorted (sortByKey ps) :=
  (List.pairwise_mergeSort keyLE_trans keyLE_total ps).imp fun h => (Block.compare_ne_gt_iff _ _).1 h

theorem sortByKey_perm (ps : List (Block × Block)) : (sortByKey ps).Perm ps :=
  List.mergeSort_perm ps _

section Runs

variable {L : List (Block × Block)}

theorem mem_runs_key {g : Block × List Block} (hg : g ∈ runs L) : ∃ v, (g.1, v) ∈ L := by
  obtain ⟨v, hv⟩ := List.exists_mem_of_ne_nil g.2 (runs_snd_ne_nil L g hg)
  refine ⟨v, ?_⟩
  rw [← runs_flatMap L]
  exact List.mem_flatMap.2 ⟨g, hg, List.mem_map_of_mem hv⟩

theorem exists_runs_key {k v : Block} (h : (k, v) ∈ L) : ∃ g ∈ runs L, g.1 = k := by
  rw [← runs_flatMap L] at h
  obtain ⟨g, hg, hkv⟩ := List.mem_flatMap.1 h
  obtain ⟨w, -, hw⟩ := List.mem_map.1 hkv
  exact ⟨g, hg, (Prod.mk.inj hw).1⟩

/-- The runs of sorted pairs have strictly increasing keys: equal keys stand together, so each
key has one run. -/
theorem runs_sortKey_lt (hL : KeySorted L) :
    (runs L).Pairwise fun g h => g.1.sortKey < h.1.sortKey := by
  induction L with
  | nil => exact List.Pairwise.nil
  | cons kv rest ih =>
    obtain ⟨k, v⟩ := kv
    obtain ⟨hk, hrest⟩ := List.pairwise_cons.1 hL
    have ih := ih hrest
    rw [runs]
    split
    · next k' vs more hruns =>
      rw [hruns] at ih
      obtain ⟨hk', hmore⟩ := List.pairwise_cons.1 ih
      split
      · next hkk =>
        subst hkk
        exact List.pairwise_cons.2 ⟨hk', hmore⟩
      · next hne =>
        obtain ⟨w, hw⟩ := @mem_runs_key rest (k', vs) (by rw [hruns]; exact List.mem_cons_self)
        have hle := hk (k', w) hw
        dsimp only at hle
        have hne' : k.sortKey ≠ k'.sortKey := fun h => hne (Block.sortKey_inj h)
        have hlt : k.sortKey < k'.sortKey := by omega
        refine List.pairwise_cons.2 ⟨fun g hg => ?_, ih⟩
        rcases List.mem_cons.1 hg with rfl | hg
        · exact hlt
        · exact Nat.lt_trans hlt (hk' g hg)
    · exact List.pairwise_singleton _ _

/-- Collecting, over runs with distinct keys, what the runs of one key give yields what its one
run gives. -/
theorem flatMap_key_eq {R : List (Block × List Block)}
    (hR : R.Pairwise fun g h => g.1.sortKey < h.1.sortKey) {g : Block × List Block} (hg : g ∈ R)
    (f : Block × List Block → List (Block × Block)) :
    R.flatMap (fun h => if h.1 = g.1 then f h else []) = f g := by
  induction R with
  | nil => cases hg
  | cons h R ih =>
    obtain ⟨hh, hR'⟩ := List.pairwise_cons.1 hR
    rw [List.flatMap_cons]
    rcases List.mem_cons.1 hg with rfl | hg'
    · -- every later run has a larger key
      have hrest : R.flatMap (fun h => if h.1 = g.1 then f h else []) = [] := by
        refine List.flatMap_eq_nil_iff.2 fun x hx => ?_
        have := hh x hx
        rw [if_neg (fun heq => by rw [heq] at this; omega)]
      rw [if_pos rfl, hrest, List.append_nil]
    · have hne : h.1 ≠ g.1 := fun heq => by
        have := hh g hg'
        rw [heq] at this
        omega
      rw [if_neg hne, List.nil_append, ih hR' hg']

/-- A run of sorted pairs holds, in order, the values of exactly the pairs with its key. -/
theorem runs_snd_eq_filter (hL : KeySorted L) {g : Block × List Block} (hg : g ∈ runs L) :
    (L.filter fun q => q.1 == g.1).map Prod.snd = g.2 := by
  have hpairs : L.filter (fun q => q.1 == g.1) =
      (runs L).flatMap fun h => if h.1 = g.1 then h.2.map (Prod.mk h.1) else [] := by
    conv => lhs; rw [← runs_flatMap L]
    rw [List.filter_flatMap]
    refine List.flatMap_congr fun h _ => ?_
    rw [List.filter_map]
    by_cases hk : h.1 = g.1
    · simp [hk, Function.comp_def]
    · simp [hk, Function.comp_def]
  rw [hpairs, flatMap_key_eq (runs_sortKey_lt hL) hg, List.map_map]
  exact List.map_id'' (fun _ => rfl) g.2

/-- A key is the key of a run exactly when it is the key of a pair. -/
theorem mem_runs_keys_iff {k : Block} : k ∈ (runs L).map Prod.fst ↔ ∃ v, (k, v) ∈ L := by
  constructor
  · intro hk
    obtain ⟨g, hg, rfl⟩ := List.mem_map.1 hk
    exact mem_runs_key hg
  · rintro ⟨v, hv⟩
    obtain ⟨g, hg, rfl⟩ := exists_runs_key hv
    exact List.mem_map_of_mem hg

/-- The keys of the runs of two sorted permutations of one list are permutations of each
other. -/
theorem runs_keys_perm {L' : List (Block × Block)} (hL : KeySorted L) (hL' : KeySorted L')
    (h : L.Perm L') : ((runs L).map Prod.fst).Perm ((runs L').map Prod.fst) := by
  have hnodup : ∀ {M : List (Block × Block)}, KeySorted M → ((runs M).map Prod.fst).Nodup :=
    fun hM => List.pairwise_map.2 ((runs_sortKey_lt hM).imp fun hlt heq => by
      rw [heq] at hlt
      omega)
  refine (List.perm_ext_iff_of_nodup (hnodup hL) (hnodup hL')).2 fun k => ?_
  rw [mem_runs_keys_iff, mem_runs_keys_iff]
  exact exists_congr fun v => h.mem_iff

/-- What is made of each run of sorted pairs, from its key and its members, is what is made of
each run's key and the values of the pairs with that key. -/
theorem runs_flatMap_keys (hL : KeySorted L) (F : List Block → Block → List Block) :
    (runs L).flatMap (fun g => F g.2 g.1) =
      ((runs L).map Prod.fst).flatMap fun k => F ((L.filter fun q => q.1 == k).map Prod.snd) k := by
  rw [List.flatMap_map]
  exact List.flatMap_congr fun g hg => by rw [runs_snd_eq_filter hL hg]

/-- What is made of each run, from its key and its members, is determined up to order by the
pairs up to order, if permuting the members permutes what is made. -/
theorem runs_flatMap_perm {L' : List (Block × Block)} (hL : KeySorted L) (hL' : KeySorted L')
    (h : L.Perm L') {F : List Block → Block → List Block}
    (hF : ∀ ms ms' k, ms.Perm ms' → (F ms k).Perm (F ms' k)) :
    ((runs L).flatMap fun g => F g.2 g.1).Perm ((runs L').flatMap fun g => F g.2 g.1) := by
  -- each run is made from the pairs of its key, so only the keys and the pairs matter
  rw [runs_flatMap_keys hL, runs_flatMap_keys hL']
  exact (runs_keys_perm hL hL' h).flatMap fun k _ => hF _ _ k ((h.filter _).map _)

end Runs

/-! ### Steps and the cascade -/

theorem step_perm (p : Policy) (s : Step) {entries entries' : List Block}
    (h : entries.Perm entries') : (step p s entries).value.Perm (step p s entries').value := by
  have hsorted : (sortByKey ((entries.filter fun e => e.family == p.family).map
      fun e => (candidate e s.len p.reserved, e))).Perm
      (sortByKey ((entries'.filter fun e => e.family == p.family).map
        fun e => (candidate e s.len p.reserved, e))) :=
    (sortByKey_perm _).trans (((h.filter _).map _).trans (sortByKey_perm _).symm)
  refine List.Perm.append ?_ (h.filter _)
  refine runs_flatMap_perm (F := fun ms k => if decide (s.minCount ≤ ms.length) = true then [k]
    else ms) (sortByKey_keySorted _) (sortByKey_keySorted _) hsorted fun ms ms' k hms => ?_
  simp only [hms.length_eq]
  split
  · exact List.Perm.refl _
  · exact hms

/-- The cascade maps permutations of the blocks in play and of the blocks set aside to
permutations of its output. -/
theorem cascade_perm (p : Policy) (steps : List Step) {current current' carried carried' : List Block}
    (hcur : current.Perm current') (hcar : carried.Perm carried') :
    (cascade p steps current carried).value.Perm (cascade p steps current' carried').value := by
  induction steps generalizing current current' carried carried' with
  | nil => exact hcur.append hcar
  | cons s rest ih =>
    rw [cascade_cons, cascade_cons]
    have hs := step_perm p s hcur
    exact ih (hs.filter _) (hcar.append (hs.filter _))

end Coarsen

/-- Coarsening maps permutations of its input to permutations of its output, in either mode. -/
theorem coarsen_perm (p : Policy) {entries entries' : List Block} (h : entries.Perm entries') :
    (coarsen p entries).value.Perm (coarsen p entries').value := by
  cases hmode : p.mode with
  | independent =>
    rw [coarsen_independent hmode, coarsen_independent hmode, ← List.flatMap_def,
      ← List.flatMap_def]
    exact List.Perm.flatMap_left _ fun s _ => Coarsen.step_perm p s h
  | cascading =>
    rw [coarsen_cascading hmode, coarsen_cascading hmode]
    exact Coarsen.cascade_perm p p.steps h (List.Perm.refl [])

theorem dropPrivate_perm (excludePrivate : Bool) {bs bs' : List Block} (h : bs.Perm bs') :
    (dropPrivate excludePrivate bs).Perm (dropPrivate excludePrivate bs') := by
  cases excludePrivate
  · exact h
  · exact h.filter _

theorem Entry.parseAll_perm {items items' : List String} (h : items.Perm items') :
    (Entry.parseAll items).value.Perm (Entry.parseAll items').value :=
  ((h.flatMap_right Text.pieces).map Entry.parse).filterMap _

/-- An export depends only on the blocks of its entries, counted with their repetitions. -/
theorem exportBlocks_eq_of_perm {E E' : List String} (o : ExportOptions)
    (h : ((Entry.parseAll E').value.flatMap Entry.blocks).Perm
      ((Entry.parseAll E).value.flatMap Entry.blocks)) :
    (exportBlocks E' o).value = (exportBlocks E o).value := by
  rw [exportBlocks_value, exportBlocks_value]
  have hcoarse := coarsen_perm (if o.excludePrivate then o.policy.withReserved privateBlocks
    else o.policy) (dropPrivate_perm o.excludePrivate h)
  rw [Range.union_perm (hcoarse.map Block.toRange)]

/-- Reordering the entries of an export does not change its blocks. -/
theorem exportBlocks_perm {E E' : List String} (h : E'.Perm E) (o : ExportOptions) :
    (exportBlocks E' o).value = (exportBlocks E o).value :=
  exportBlocks_eq_of_perm o ((Entry.parseAll_perm h).flatMap_right Entry.blocks)

/-- Two histories in either order, one of them a list of three entries with a private one among
them, export to the same blocks under the standard options. -/
theorem exportBlocks_perm_swap :
    ["10.0.0.1, 1.2.3.9;1.2.4.1", "1.2.3.4"].Perm ["1.2.3.4", "10.0.0.1, 1.2.3.9;1.2.4.1"] ∧
    (exportBlocks ["10.0.0.1, 1.2.3.9;1.2.4.1", "1.2.3.4"] ExportOptions.standard).value =
      (exportBlocks ["1.2.3.4", "10.0.0.1, 1.2.3.9;1.2.4.1"] ExportOptions.standard).value :=
  ⟨List.Perm.swap _ _ [], exportBlocks_perm (List.Perm.swap _ _ []) ExportOptions.standard⟩

end NetRanges
