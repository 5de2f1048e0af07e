import NetRanges.Proofs.Difference

/-!
# Each set of addresses has one merged list

Two merged lists that hold the same addresses are equal (`eq_of_isChain_of_mem_iff`). Their first
ranges start at the least address either list holds, and end at the same address: were one to
end earlier, the address right after it would be held by the other list's first range, but by no
range of its own list, since every later range of its family starts past a gap. With the first
ranges equal, the rest of either list holds what the first range does not, and the induction goes
on.

So the union of a list of ranges is determined by the addresses the ranges hold
(`union_eq_iff_same_addresses`): it is unchanged by reordering the ranges, by merging them first,
and by which of several sorted arrangements the sweep is given, as when ranges with equal first
addresses are sorted in any order. In the same way, what is left of a base once exclusions are cut
out merges with the exclusions into the union of base and exclusions
(`union_difference_append`).
-/
namespace NetRanges

namespace Address

theorem le_antisymm {a b : Address} (hab : a ≤ b) (hba : b ≤ a) : a = b :=
  key_inj (Nat.le_antisymm hab hba)

end Address

namespace Range

theorem ext_of_bounds {r s : Range} (hf : r.family = s.family) (hlo : r.lo = s.lo)
    (hhi : r.hi = s.hi) : r = s := by
  cases r
  cases s
  cases hf
  cases hlo
  cases hhi
  rfl

theorem mem_first (r : Range) : r.Mem r.first := ⟨rfl, Nat.le_refl _, r.lo_le⟩

theorem first_le_of_mem {r : Range} {a : Address} (h : r.Mem a) : r.first ≤ a :=
  (Address.le_iff h.1.symm).2 h.2.1

/-- A range standing before another shares no address with it. -/
theorem Precedes.not_mem {r s : Range} (h : Precedes r s) {a : Address} (hr : r.Mem a) :
    ¬ s.Mem a :=
  @not_mem_of_precedes r [s] (by simpa using h) a hr.1 (Nat.le_succ_of_le hr.2.2) s
    List.mem_cons_self

/-! ### The first range of a merged list -/

section Head

variable {x y : Range} {L M : List Range}

/-- The first range of a merged list starts at the least address the list holds. -/
theorem first_le_of_isChain (hL : (x :: L).IsChain Precedes) {a : Address}
    (ha : ∃ z ∈ x :: L, z.Mem a) : x.first ≤ a := by
  obtain ⟨z, hz, hza⟩ := ha
  rcases List.mem_cons.1 hz with rfl | hz
  · exact first_le_of_mem hza
  · have hxz : x.first < z.first := ((List.pairwise_cons.1 hL.pairwise).1 z hz).first_lt
    exact Nat.le_of_lt (Nat.lt_of_lt_of_le hxz (first_le_of_mem hza))

/-- Of two merged lists holding the same addresses whose first ranges start together, the first
range of the other ends no later: the address right after the first range of `x :: L` is held by
no range of that list. -/
theorem hi_le_of_mem_iff (hL : (x :: L).IsChain Precedes)
    (h : ∀ a, (∃ z ∈ x :: L, z.Mem a) ↔ ∃ z ∈ y :: M, z.Mem a) (hf : x.family = y.family)
    (hlo : x.lo = y.lo) : y.hi ≤ x.hi := by
  apply Nat.le_of_not_lt
  intro hlt
  have hsize : x.hi + 1 < x.family.size := by
    have := y.hi_lt
    rw [← hf] at this
    omega
  let g : Address := ⟨x.family, x.hi + 1, hsize⟩
  have hgy : y.Mem g := ⟨hf, by have := x.lo_le; show y.lo ≤ x.hi + 1; omega, hlt⟩
  obtain ⟨z, hz, hgz⟩ := (h g).2 ⟨y, List.mem_cons_self, hgy⟩
  rcases List.mem_cons.1 hz with rfl | hz
  · exact absurd hgz.2.2 (by show ¬ z.hi + 1 ≤ z.hi; omega)
  · exact not_mem_of_precedes (List.pairwise_cons.1 hL.pairwise).1 rfl (Nat.le_refl _) z hz hgz

/-- Two merged lists holding the same addresses have the same first range. -/
theorem head_eq_of_mem_iff (hL : (x :: L).IsChain Precedes) (hM : (y :: M).IsChain Precedes)
    (h : ∀ a, (∃ z ∈ x :: L, z.Mem a) ↔ ∃ z ∈ y :: M, z.Mem a) : x = y := by
  have hfirst : x.first = y.first := by
    apply Address.le_antisymm
    · exact first_le_of_isChain hL ((h y.first).2 ⟨y, List.mem_cons_self, y.mem_first⟩)
    · exact first_le_of_isChain hM ((h x.first).1 ⟨x, List.mem_cons_self, x.mem_first⟩)
  obtain ⟨hf, hlo⟩ := Address.ext_iff'.1 hfirst
  have hyx := hi_le_of_mem_iff hL h hf hlo
  have hxy := hi_le_of_mem_iff hM (fun a => (h a).symm) hf.symm hlo.symm
  exact ext_of_bounds hf hlo (Nat.le_antisymm hxy hyx)

/-- Past a shared first range, an address of the rest of one list is in the rest of the other:
the shared range holds no address of either rest. -/
theorem mem_tail_of_mem_iff (hL : (x :: L).IsChain Precedes)
    (h : ∀ a, (∃ z ∈ x :: L, z.Mem a) ↔ ∃ z ∈ x :: M, z.Mem a) {a : Address}
    (ha : ∃ z ∈ L, z.Mem a) : ∃ z ∈ M, z.Mem a := by
  obtain ⟨z, hz, hza⟩ := ha
  obtain ⟨w, hw, hwa⟩ := (h a).1 ⟨z, List.mem_cons_of_mem x hz, hza⟩
  rcases List.mem_cons.1 hw with rfl | hw
  · exact absurd hza (((List.pairwise_cons.1 hL.pairwise).1 z hz).not_mem hwa)
  · exact ⟨w, hw, hwa⟩

end Head

/-- Two merged lists holding the same addresses are equal. -/
theorem eq_of_isChain_of_mem_iff {L M : List Range} (hL : L.IsChain Precedes)
    (hM : M.IsChain Precedes) (h : ∀ a, (∃ x ∈ L, x.Mem a) ↔ ∃ y ∈ M, y.Mem a) : L = M := by
  induction L generalizing M with
  | nil =>
    cases M with
    | nil => rfl
    | cons y M =>
      obtain ⟨x, hx, -⟩ := (h y.first).2 ⟨y, List.mem_cons_self, y.mem_first⟩
      exact absurd hx List.not_mem_nil
  | cons x L ih =>
    cases M with
    | nil =>
      obtain ⟨y, hy, -⟩ := (h x.first).1 ⟨x, List.mem_cons_self, x.mem_first⟩
      exact absurd hy List.not_mem_nil
    | cons y M =>
      obtain rfl := head_eq_of_mem_iff hL hM h
      have htail : ∀ a, (∃ z ∈ L, z.Mem a) ↔ ∃ z ∈ M, z.Mem a := fun a =>
        ⟨mem_tail_of_mem_iff hL h, mem_tail_of_mem_iff hM fun b => (h b).symm⟩
      have hM' : M.IsChain Precedes := hM.tail
      rw [ih hL.tail hM' htail]

/-! ### The union -/

/-- The union of ranges holding the addresses of a merged list is that list. -/
theorem union_eq_of_isChain {rs M : List Range} (hM : M.IsChain Precedes)
    (h : ∀ a, (∃ r ∈ rs, r.Mem a) ↔ ∃ y ∈ M, y.Mem a) : union rs = M :=
  eq_of_isChain_of_mem_iff (union_isChain rs) hM fun a => (mem_union rs a).trans (h a)

theorem union_congr {R S : List Range} (h : ∀ a, (∃ r ∈ R, r.Mem a) ↔ ∃ s ∈ S, s.Mem a) :
    union R = union S :=
  union_eq_of_isChain (union_isChain S) fun a => (h a).trans (mem_union S a).symm

theorem exists_mem_append {L M : List Range} (a : Address) :
    (∃ r ∈ L ++ M, r.Mem a) ↔ (∃ r ∈ L, r.Mem a) ∨ ∃ r ∈ M, r.Mem a := by
  simp only [List.mem_append, or_and_right, exists_or]

/-- The union of two lists of ranges is the same exactly when they hold the same addresses. So
merging is idempotent, ignores the order of its input, and gives one result for every order in
which sorting may leave ranges with equal first addresses. -/
theorem union_eq_iff_same_addresses (R S : List Range) :
    (union R = union S ↔ ∀ a : Address, (∃ r ∈ R, r.Mem a) ↔ ∃ s ∈ S, s.Mem a) ∧
    union (union R) = union R ∧
    (R.Perm S → union R = union S) ∧
    (∀ L : List Range, L.Perm R → SortedByFirst L → sweepAll L = union R) := by
  have hiff : union R = union S ↔ ∀ a : Address, (∃ r ∈ R, r.Mem a) ↔ ∃ s ∈ S, s.Mem a := by
    constructor
    · intro heq a
      rw [← mem_union R a, heq, mem_union S a]
    · intro h
      exact union_eq_of_isChain (union_isChain S) fun a => (h a).trans (mem_union S a).symm
  refine ⟨hiff, ?_, ?_, ?_⟩
  · exact union_eq_of_isChain (union_isChain R) fun _ => Iff.rfl
  · intro hperm
    exact hiff.2 fun a => by simp only [hperm.mem_iff]
  · intro L hperm hsorted
    refine (union_eq_of_isChain (sweepAll_isChain hsorted) fun a => ?_).symm
    rw [mem_sweepAll hsorted a]
    simp only [hperm.mem_iff]

/-- Two ranges with one first address, `10.0.0.0-10.0.0.3` and `10.0.0.0-10.0.0.9`: sweeping them
in the order the stable sort does not give is the same union. -/
theorem union_eq_sweepAll_equal_starts :
    [(⟨.v4, 167772160, 167772163, by decide, by decide⟩ : Range),
        ⟨.v4, 167772160, 167772169, by decide, by decide⟩].Perm
      [⟨.v4, 167772160, 167772169, by decide, by decide⟩,
        ⟨.v4, 167772160, 167772163, by decide, by decide⟩] ∧
    SortedByFirst [⟨.v4, 167772160, 167772163, by decide, by decide⟩,
      ⟨.v4, 167772160, 167772169, by decide, by decide⟩] ∧
    sweepAll [⟨.v4, 167772160, 167772163, by decide, by decide⟩,
        ⟨.v4, 167772160, 167772169, by decide, by decide⟩] =
      union [⟨.v4, 167772160, 167772169, by decide, by decide⟩,
        ⟨.v4, 167772160, 167772163, by decide, by decide⟩] := by
  have hperm : [(⟨.v4, 167772160, 167772163, by decide, by decide⟩ : Range),
      ⟨.v4, 167772160, 167772169, by decide, by decide⟩].Perm
      [⟨.v4, 167772160, 167772169, by decide, by decide⟩,
        ⟨.v4, 167772160, 167772163, by decide, by decide⟩] := List.Perm.swap _ _ []
  have hsorted : SortedByFirst [⟨.v4, 167772160, 167772163, by decide, by decide⟩,
      ⟨.v4, 167772160, 167772169, by decide, by decide⟩] := by
    simp [SortedByFirst, Range.first, Address.key]
  exact ⟨hperm, hsorted, (union_eq_iff_same_addresses _ []).2.2.2 _ hperm hsorted⟩

/-! ### Cutting out and adding back -/

/-- Adding the exclusions back to what is left of the base gives the union of the base and the
exclusions: every cut closes again, with no address lost or gained. When the base already holds
every excluded address, that is the union of the base. -/
theorem union_difference_append (B X : List Range) :
    union (difference B X ++ X) = union (B ++ X) ∧
    ((∀ x ∈ X, ∀ a, x.Mem a → ∃ r ∈ B, r.Mem a) → union (difference B X ++ X) = union B) := by
  have hback : ∀ a, (∃ r ∈ difference B X ++ X, r.Mem a) ↔
      (∃ r ∈ B, r.Mem a) ∨ ∃ x ∈ X, x.Mem a := by
    intro a
    rw [exists_mem_append, mem_difference]
    constructor
    · rintro (⟨hb, -⟩ | hx)
      · exact .inl hb
      · exact .inr hx
    · rintro (hb | hx)
      · by_cases hx : ∃ x ∈ X, x.Mem a
        · exact .inr hx
        · exact .inl ⟨hb, hx⟩
      · exact .inr hx
  refine ⟨union_congr fun a => (hback a).trans (exists_mem_append a).symm, fun hX => ?_⟩
  refine union_congr fun a => (hback a).trans ⟨?_, .inl⟩
  rintro (hb | ⟨x, hx, hxa⟩)
  · exact hb
  · exact hX x hx a hxa

/-- The first sixteen addresses `0.0.0.0-0.0.0.15` cut out of `0.0.0.0-0.0.0.255` and added back,
a cut at the zero address. -/
theorem union_difference_append_at_zero :
    (∀ x ∈ [(⟨.v4, 0, 15, by decide, by decide⟩ : Range)], ∀ a, x.Mem a →
      ∃ r ∈ [(⟨.v4, 0, 255, by decide, by decide⟩ : Range)], r.Mem a) ∧
    union (difference [⟨.v4, 0, 255, by decide, by decide⟩] [⟨.v4, 0, 15, by decide, by decide⟩] ++
        [⟨.v4, 0, 15, by decide, by decide⟩]) =
      union [⟨.v4, 0, 255, by decide, by decide⟩] := by
  have hinside : ∀ x ∈ [(⟨.v4, 0, 15, by decide, by decide⟩ : Range)], ∀ a, x.Mem a →
      ∃ r ∈ [(⟨.v4, 0, 255, by decide, by decide⟩ : Range)], r.Mem a := by
    intro x hx a ha
    rw [List.mem_singleton] at hx
    subst hx
    obtain ⟨hf, -, hhi⟩ := ha
    exact ⟨_, List.mem_singleton_self _, hf, Nat.zero_le _, by dsimp only at hhi ⊢; omega⟩
  exact ⟨hinside, (union_difference_append _ _).2 hinside⟩

end Range

end NetRanges
