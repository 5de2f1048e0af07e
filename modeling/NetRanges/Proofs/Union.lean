import Mathlib.Data.List.Chain
import NetRanges.Range.Union

/-!
# The union is a merged list

The union of a list of ranges is a merged list (`Merged`): IPv4 ranges before IPv6 ranges, first
addresses ascending, and between two neighbours of one family at least one address that neither
holds. It holds exactly the addresses of the ranges it was given (`union_merged`), whatever their
order, overlaps and repetitions.

The argument follows the sweep. Sorted by first address, every range the sweep meets starts no
earlier than the range it is growing; joining keeps that range's first address, and a range that
is not joined starts past a gap or in the next family. So each range the sweep hands out stands
before the next one (`Precedes`), and a chain of that relation is a merged list.
-/
namespace NetRanges

namespace Address

theorem lt_of_rank_lt {a b : Address} (h : a.family.rank < b.family.rank) : a < b := by
  show a.key < b.key
  have ha := a.value_lt_pow
  have hstep : (a.family.rank + 1) * 2 ^ 128 ≤ b.family.rank * 2 ^ 128 := Nat.mul_le_mul_right _ h
  rw [Nat.succ_mul] at hstep
  unfold key
  omega

/-- Of two addresses of different families in order, the first is of the earlier family. -/
theorem rank_lt_of_le {a b : Address} (h : a ≤ b) (hf : a.family ≠ b.family) :
    a.family.rank < b.family.rank := by
  rcases Nat.lt_or_ge a.family.rank b.family.rank with hlt | hge
  · exact hlt
  · have hne : a.family.rank ≠ b.family.rank := fun heq => hf (Family.rank_inj heq)
    have hgt : b < a := lt_of_rank_lt (by omega)
    exact absurd h (Nat.not_le.2 hgt)

end Address

namespace Range

/-! ### Merged lists -/

/-- The shape of a merged list. -/
structure Merged (rs : List Range) : Prop where
  /-- Every IPv4 range comes before every IPv6 range. -/
  family_le : rs.Pairwise fun r s => r.family.rank ≤ s.family.rank
  /-- First addresses ascend. -/
  first_lt : rs.Pairwise fun r s => r.first < s.first
  /-- Neighbours of one family neither overlap nor touch. -/
  gap : rs.IsChain fun r s => r.family = s.family → r.hi + 2 ≤ s.lo

/-- `r` stands before `s` in a merged list: it is of the earlier family, or both are of one family
and an address between them is in neither. -/
def Precedes (r s : Range) : Prop :=
  r.family.rank < s.family.rank ∨ r.family = s.family ∧ r.hi + 2 ≤ s.lo

theorem Precedes.trans {r s t : Range} (hrs : Precedes r s) (hst : Precedes s t) :
    Precedes r t := by
  have := s.lo_le
  rcases hrs with hrs | ⟨hrs, hrs'⟩ <;> rcases hst with hst | ⟨hst, hst'⟩
  · exact .inl (Nat.lt_trans hrs hst)
  · exact .inl (hst ▸ hrs)
  · exact .inl (hrs ▸ hst)
  · exact .inr ⟨hrs.trans hst, by omega⟩

instance : Trans Precedes Precedes Precedes := ⟨Precedes.trans⟩

theorem Precedes.first_lt {r s : Range} (h : Precedes r s) : r.first < s.first := by
  rcases h with h | ⟨hf, hgap⟩
  · exact Address.lt_of_rank_lt h
  · have := r.lo_le
    exact (Address.lt_iff hf).2 (by show r.lo < s.lo; omega)

theorem Merged.of_isChain {rs : List Range} (h : rs.IsChain Precedes) : Merged rs where
  family_le := h.pairwise.imp fun hp => by
    rcases hp with hlt | ⟨hf, -⟩
    · exact Nat.le_of_lt hlt
    · rw [hf]
  first_lt := h.pairwise.imp Precedes.first_lt
  gap := h.imp fun r s hp hf => by
    rcases hp with hlt | ⟨-, hgap⟩
    · rw [hf] at hlt
      exact absurd hlt (Nat.lt_irrefl _)
    · exact hgap

/-! ### Joining two ranges -/

section Hull

variable {r s : Range} (h : r.family = s.family)

theorem hull_lo (hlo : r.lo ≤ s.lo) : (hull r s h).lo = r.lo := Nat.min_eq_left hlo

theorem hull_first (hlo : r.lo ≤ s.lo) : (hull r s h).first = r.first :=
  Address.ext_iff'.2 ⟨rfl, hull_lo h hlo⟩

/-- Joining a range that starts within or right after `r` adds exactly its addresses. -/
theorem mem_hull (hlo : r.lo ≤ s.lo) (hs : s.lo ≤ r.hi + 1) (a : Address) :
    (hull r s h).Mem a ↔ r.Mem a ∨ s.Mem a := by
  have := r.lo_le
  have := s.lo_le
  simp only [Mem, hull, ← h]
  by_cases hfa : a.family = r.family
  · simp only [hfa, true_and]
    omega
  · simp [hfa]

end Hull

/-! ### The sweep -/

/-- Ranges sorted by first address. -/
def SortedByFirst (rs : List Range) : Prop := rs.Pairwise fun r s => r.first.key ≤ s.first.key

/-- Joining the next range keeps what the sweep relies on: the grown range starts no later than
any range left. -/
theorem hull_first_le {cur r : Range} {rs : List Range} (h : cur.family = r.family)
    (hcur : ∀ s ∈ r :: rs, cur.first ≤ s.first) : ∀ s ∈ rs, (hull cur r h).first ≤ s.first := by
  intro s hs
  rw [hull_first h ((Address.le_iff h).1 (hcur r List.mem_cons_self))]
  exact hcur s (List.mem_cons_of_mem r hs)

/-- The sweep hands out first a range that starts where the range it was growing starts. -/
theorem sweep_head (cur : Range) (rs : List Range) (hcur : ∀ r ∈ rs, cur.first ≤ r.first) :
    ∃ x rest, sweep cur rs = x :: rest ∧ x.family = cur.family ∧ x.lo = cur.lo := by
  induction rs generalizing cur with
  | nil => exact ⟨cur, [], rfl, rfl, rfl⟩
  | cons r rs ih =>
    rw [sweep]
    split
    · next h =>
      have hlo : cur.lo ≤ r.lo := (Address.le_iff h.1).1 (hcur r List.mem_cons_self)
      obtain ⟨x, rest, heq, hf, hxlo⟩ := ih (hull cur r h.1) (hull_first_le h.1 hcur)
      exact ⟨x, rest, heq, hf, hxlo.trans (hull_lo h.1 hlo)⟩
    · exact ⟨cur, _, rfl, rfl, rfl⟩

/-- Each range the sweep hands out stands before the next. -/
theorem sweep_isChain (cur : Range) (rs : List Range) (hs : SortedByFirst rs)
    (hcur : ∀ r ∈ rs, cur.first ≤ r.first) : (sweep cur rs).IsChain Precedes := by
  induction rs generalizing cur with
  | nil => exact List.IsChain.singleton cur
  | cons r rs ih =>
    obtain ⟨hr, hrs⟩ := List.pairwise_cons.1 hs
    rw [sweep]
    split
    · next h => exact ih (hull cur r h.1) hrs (hull_first_le h.1 hcur)
    · next h =>
      -- `r` was not joined: it starts past a gap, or in the next family
      obtain ⟨x, rest, heq, hxf, hxlo⟩ := sweep_head r rs hr
      rw [heq]
      refine List.IsChain.cons_cons ?_ (heq ▸ ih r hrs hr)
      have hle := hcur r List.mem_cons_self
      unfold Precedes
      rw [hxf, hxlo]
      by_cases hf : cur.family = r.family
      · exact .inr ⟨hf, by
          have := (Address.le_iff hf).1 hle
          simp only [hf, true_and, Nat.not_le] at h
          omega⟩
      · exact .inl (Address.rank_lt_of_le hle hf)

/-- The sweep holds exactly the addresses of the range it grows and of the ranges left. -/
theorem mem_sweep (cur : Range) (rs : List Range) (hs : SortedByFirst rs)
    (hcur : ∀ r ∈ rs, cur.first ≤ r.first) (a : Address) :
    (∃ x ∈ sweep cur rs, x.Mem a) ↔ cur.Mem a ∨ ∃ r ∈ rs, r.Mem a := by
  induction rs generalizing cur with
  | nil => simp [sweep]
  | cons r rs ih =>
    obtain ⟨hr, hrs⟩ := List.pairwise_cons.1 hs
    rw [List.exists_mem_cons_iff, sweep]
    split
    · next h =>
      have hlo : cur.lo ≤ r.lo := (Address.le_iff h.1).1 (hcur r List.mem_cons_self)
      rw [ih (hull cur r h.1) hrs (hull_first_le h.1 hcur), mem_hull h.1 hlo h.2, or_assoc]
    · rw [List.exists_mem_cons_iff, ih r hrs hr]

/-! ### The union -/

theorem sortByFirst_sorted (rs : List Range) : SortedByFirst (sortByFirst rs) := by
  have hsorted := @List.pairwise_mergeSort _ (fun r s => decide (r.first.key ≤ s.first.key))
    (fun _ _ _ hab hbc => by
      simp only [decide_eq_true_eq] at hab hbc ⊢
      exact Nat.le_trans hab hbc)
    (fun a b => by
      simp only [Bool.or_eq_true, decide_eq_true_eq]
      exact Nat.le_total _ _)
    rs
  simpa only [SortedByFirst, sortByFirst, decide_eq_true_eq] using hsorted

theorem mem_sortByFirst {r : Range} {rs : List Range} : r ∈ sortByFirst rs ↔ r ∈ rs :=
  List.mem_mergeSort

/-- The sweep of a whole list, growing its first range; `union` is the sweep of the ranges sorted
by first address, and any other sorted arrangement of them may be swept as well. -/
def sweepAll : List Range → List Range
  | [] => []
  | r :: rs => sweep r rs

theorem union_eq_sweepAll (rs : List Range) : union rs = sweepAll (sortByFirst rs) := rfl

theorem sweepAll_isChain {rs : List Range} (hs : SortedByFirst rs) :
    (sweepAll rs).IsChain Precedes := by
  cases rs with
  | nil => exact List.IsChain.nil
  | cons r rest =>
    obtain ⟨hr, hrest⟩ := List.pairwise_cons.1 hs
    exact sweep_isChain r rest hrest hr

/-- The sweep of a sorted list holds exactly the addresses of its ranges. -/
theorem mem_sweepAll {rs : List Range} (hs : SortedByFirst rs) (a : Address) :
    (∃ x ∈ sweepAll rs, x.Mem a) ↔ ∃ r ∈ rs, r.Mem a := by
  cases rs with
  | nil => simp [sweepAll]
  | cons r rest =>
    obtain ⟨hr, hrest⟩ := List.pairwise_cons.1 hs
    rw [List.exists_mem_cons_iff]
    exact mem_sweep r rest hrest hr a

theorem union_isChain (rs : List Range) : (union rs).IsChain Precedes := by
  rw [union_eq_sweepAll]
  exact sweepAll_isChain (sortByFirst_sorted rs)

theorem mem_union (rs : List Range) (a : Address) :
    (∃ x ∈ union rs, x.Mem a) ↔ ∃ r ∈ rs, r.Mem a := by
  rw [union_eq_sweepAll, mem_sweepAll (sortByFirst_sorted rs)]
  simp only [mem_sortByFirst]

/-- The union of any list of ranges is a merged list holding exactly their addresses. -/
theorem union_merged (rs : List Range) :
    Merged (union rs) ∧ ∀ a : Address, (∃ x ∈ union rs, x.Mem a) ↔ ∃ r ∈ rs, r.Mem a :=
  ⟨Merged.of_isChain (union_isChain rs), mem_union rs⟩

end Range

end NetRanges
