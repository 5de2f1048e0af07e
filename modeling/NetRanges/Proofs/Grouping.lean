import Mathlib.Algebra.Order.BigOperators.Group.List
import Mathlib.Algebra.Order.Group.Nat
import NetRanges.Proofs.Reorder

/-!
# A step, candidate by candidate

A coarsening step can be read without its sort and its runs (`step_value_groups`): for each
candidate of an entry of the policy's family, in ascending block order, it writes the candidate
if at least the step's minimum count of entries have that candidate, and otherwise those entries
in input order (`members`); the blocks of the other family follow in input order. So an entry is
folded exactly when its candidate's group is large enough, and since every group has a member, a
step never writes more blocks than it reads, whatever its minimum count (`length_step_le`).

Two facts about the sort carry this. Merge sort is stable, so the pairs of one candidate keep
their input order (`filter_sortByKey`); and after sorting, the runs of equal candidates have
strictly increasing candidates (`runs_sortKey_lt`), so each candidate has one run, which holds
exactly its entries.
-/
namespace NetRanges

namespace Block

theorem compare_eq_lt_iff (b c : Block) : Ord.compare b c = .lt ↔ b.sortKey < c.sortKey := by
  have hb := b.len_lt_256
  have hc := c.len_lt_256
  show (Ord.compare b.first.key c.first.key).then (Ord.compare b.len c.len) = .lt ↔ _
  unfold sortKey
  rcases Nat.lt_trichotomy b.first.key c.first.key with hlt | heq | hgt
  · rw [Nat.compare_eq_lt.2 hlt]
    simp only [Ordering.then, true_iff]
    omega
  · rw [Nat.compare_eq_eq.2 heq, heq]
    simp only [Ordering.then, Nat.compare_eq_lt]
    omega
  · rw [Nat.compare_eq_gt.2 hgt]
    simp only [Ordering.then, reduceCtorEq, false_iff]
    omega

end Block

namespace Coarsen

/-- The entries of the policy's family whose candidate for the step is `c`, in input order. -/
def members (p : Policy) (s : Step) (entries : List Block) (c : Block) : List Block :=
  (entries.filter fun e => e.family == p.family).filter fun e => candidate e s.len p.reserved == c

/-- The entries of the policy's family paired with their candidates, as a step sorts them. -/
def keyed (p : Policy) (s : Step) (entries : List Block) : List (Block × Block) :=
  (entries.filter fun e => e.family == p.family).map fun e => (candidate e s.len p.reserved, e)

section Step

variable (p : Policy) (s : Step) (entries : List Block)

theorem step_value :
    (step p s entries).value =
      (runs (sortByKey (keyed p s entries))).flatMap (fun g =>
        if decide (s.minCount ≤ g.2.length) then [g.1] else g.2) ++
      entries.filter fun e => e.family != p.family := rfl

/-- The values of the pairs of key `c` are the members of `c`. -/
theorem filter_keyed (c : Block) :
    ((keyed p s entries).filter fun q => q.1 == c).map Prod.snd = members p s entries c := by
  simp only [keyed, members, List.filter_map, List.map_map]
  exact List.map_id'' (fun _ => rfl) _

/-- The keys of the pairs are the candidates of the entries of the policy's family. -/
theorem exists_mem_keyed_iff (c : Block) :
    (∃ v, (c, v) ∈ keyed p s entries) ↔
      ∃ e ∈ entries, e.family = p.family ∧ candidate e s.len p.reserved = c := by
  simp only [keyed, List.mem_map, List.mem_filter, beq_iff_eq, Prod.mk.injEq]
  constructor
  · intro h
    obtain ⟨v, e, ⟨he, hf⟩, hc, -⟩ := h
    exact ⟨e, he, hf, hc⟩
  · intro h
    obtain ⟨e, he, hf, hc⟩ := h
    exact ⟨e, e, ⟨he, hf⟩, hc, rfl⟩

end Step

/-- Merge sort is stable: the pairs of one key keep their input order. -/
theorem filter_sortByKey (ps : List (Block × Block)) (k : Block) :
    (sortByKey ps).filter (fun q => q.1 == k) = ps.filter fun q => q.1 == k := by
  -- the pairs of key `k` are already sorted, so they stay a sublist of the sorted pairs
  have hsorted : (ps.filter fun q => q.1 == k).Pairwise
      fun a b => (Ord.compare a.1 b.1 != .gt) = true := by
    apply List.pairwise_of_forall_mem_list
    intro a ha b hb
    rw [beq_iff_eq.1 (List.mem_filter.1 ha).2, beq_iff_eq.1 (List.mem_filter.1 hb).2,
      Block.compare_ne_gt_iff]
  have hsub := (List.sublist_mergeSort keyLE_trans keyLE_total hsorted
    List.filter_sublist).filter fun q => q.1 == k
  rw [List.filter_eq_self.2 fun q hq => (List.mem_filter.1 hq).2] at hsub
  have hlen := ((sortByKey_perm ps).filter fun q => q.1 == k).length_eq
  exact (hsub.eq_of_length hlen.symm).symm

/-- What is made of each run is no longer than the run, all runs together hold every pair, so
the runs make no more blocks than there are pairs. -/
theorem length_flatMap_runs_le (L : List (Block × Block)) (F : Block × List Block → List Block)
    (hF : ∀ g, g.2 ≠ [] → (F g).length ≤ g.2.length) : ((runs L).flatMap F).length ≤ L.length := by
  have hpairs : ((runs L).map fun g => g.2.length).sum = L.length := by
    conv => rhs; rw [← runs_flatMap L]
    simp only [List.length_flatMap, List.length_map]
  rw [List.length_flatMap, ← hpairs]
  exact List.sum_le_sum fun g hg => hF g (runs_snd_ne_nil L g hg)

/-- A step never writes more blocks than it reads: a folded group becomes one block. -/
theorem length_step_le (p : Policy) (s : Step) (entries : List Block) :
    (step p s entries).value.length ≤ entries.length := by
  have hgroups := length_flatMap_runs_le (sortByKey (keyed p s entries))
    (fun g => if decide (s.minCount ≤ g.2.length) then [g.1] else g.2) fun g hg => by
      by_cases hfold : s.minCount ≤ g.2.length
      · simp only [hfold, decide_true, if_true, List.length_singleton]
        exact List.length_pos_of_ne_nil hg
      · simp only [hfold, decide_false, Bool.false_eq_true, if_false, Nat.le_refl]
  have hkeyed : (sortByKey (keyed p s entries)).length =
      (entries.filter fun e => e.family == p.family).length := by
    rw [(sortByKey_perm _).length_eq, keyed, List.length_map]
  have hsplit := List.length_eq_length_filter_add (fun e => e.family == p.family) (l := entries)
  rw [step_value, List.length_append]
  show _ + (entries.filter fun e => !(e.family == p.family)).length ≤ _
  omega

/-- A step writes, for each candidate of an entry of the policy's family in ascending block
order, the candidate if at least the step's minimum count of entries have it, and otherwise
those entries in input order; then the blocks of the other family in input order. It never
writes more blocks than it reads. -/
theorem step_value_groups (p : Policy) (s : Step) (entries : List Block) :
    ∃ cs : List Block, cs.Pairwise (fun c d => Ord.compare c d = .lt) ∧
      (∀ c, c ∈ cs ↔ ∃ e ∈ entries, e.family = p.family ∧ candidate e s.len p.reserved = c) ∧
      (step p s entries).value =
        cs.flatMap (fun c => if s.minCount ≤ (members p s entries c).length then [c]
          else members p s entries c) ++ entries.filter (fun e => e.family != p.family) ∧
      (step p s entries).value.length ≤ entries.length := by
  have hL := sortByKey_keySorted (keyed p s entries)
  refine ⟨(runs (sortByKey (keyed p s entries))).map Prod.fst, ?_, fun c => ?_, ?_,
    length_step_le p s entries⟩
  · -- one run per candidate, in ascending order
    exact List.pairwise_map.2 ((runs_sortKey_lt hL).imp fun h => (Block.compare_eq_lt_iff _ _).2 h)
  · rw [mem_runs_keys_iff, ← exists_mem_keyed_iff]
    exact exists_congr fun v => (sortByKey_perm _).mem_iff
  · -- each run holds the members of its candidate, in input order
    rw [step_value, runs_flatMap_keys hL fun ms k => if decide (s.minCount ≤ ms.length) then [k] else ms]
    congr 1
    refine List.flatMap_congr fun c _ => ?_
    rw [filter_sortByKey, filter_keyed]
    simp only [decide_eq_true_eq]

end Coarsen

end NetRanges
