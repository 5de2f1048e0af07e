import Mathlib.Data.List.TakeWhile
import NetRanges.Proofs.CoverStep
import NetRanges.Proofs.Export

/-!
# The sweep meets only exclusions that cut into what is left

The sweep of a base range through merged exclusions (`sweepCuts` over `visited`) never breaks off
and never passes an exclusion over: at every exclusion it visits, something of the range is left,
and what is left overlaps the exclusion, so the cut around it is made without fault
(`sweep_visits_overlapping`). The sweep's difference is then the carved difference, computed
without fault.

Everything follows from one invariant (`SweepInv`): the exclusions still to visit stand one before
the next and each overlaps what is left. It holds of the visited exclusions at the start
(`sweepInv_visited`): the exclusions that end before the range all come first, since the ends of a
merged list ascend across families too, so every exclusion from the partition point on reaches the
range, and those that start within it overlap it. A cut keeps it (`SweepInv.tail`): the part above
an exclusion starts right after it, before the next exclusion's gap, and keeps the range's end.
And the part above exists whenever another exclusion follows (`SweepInv.above_isSome`). Carving
agrees with the sweep because the exclusions it does not visit lie wholly before or after the range
(`carve_append_of_before`, `carve_of_after`).
-/
namespace NetRanges

/-! ### Lists split by a predicate that holds of a prefix -/

/-- In a list ordered by `R`, a predicate that passes from a later element to an earlier one
fails on everything after its longest prefix. -/
theorem List.dropWhile_forall_false {α : Type} {R : α → α → Prop} {p : α → Bool} {l : List α}
    (hl : l.Pairwise R) (hp : ∀ x y, R x y → p y = true → p x = true) :
    ∀ y ∈ l.dropWhile p, p y = false := by
  induction l with
  | nil => simp
  | cons a l ih =>
    rw [List.dropWhile_cons]
    split
    · exact ih hl.of_cons
    · next ha =>
      intro y hy
      rcases List.mem_cons.1 hy with rfl | hy
      · simpa using ha
      · cases hpy : p y
        · rfl
        · exact absurd (hp a y (List.rel_of_pairwise_cons hl hy) hpy) ha

theorem List.drop_length_takeWhile {α : Type} (p : α → Bool) (l : List α) :
    l.drop (l.takeWhile p).length = l.dropWhile p := by
  induction l with
  | nil => rfl
  | cons a l ih => by_cases h : p a <;> simp [h, ih]

/-- A list of checked results that all succeed succeeds with the list of their values. -/
theorem List.mapM_eq_ok {α β ε : Type} {f : α → Except ε β} {g : α → β} {l : List α}
    (h : ∀ a ∈ l, f a = .ok (g a)) : l.mapM f = .ok (l.map g) := by
  induction l with
  | nil => rfl
  | cons a l ih =>
    rw [List.mapM_cons, h a List.mem_cons_self, ih fun b hb => h b (List.mem_cons_of_mem a hb)]
    rfl

namespace Address

theorem decrement_eq_ok {a : Address} (h : a.value ≠ 0) :
    a.decrement = .ok ⟨a.family, a.value - 1, Nat.lt_of_le_of_lt (Nat.sub_le _ _) a.lt_size⟩ := by
  simp [decrement, prev?, h]

end Address

namespace Range

/-! ### Cutting around an overlapping exclusion -/

theorem overlaps_iff {r s : Range} :
    r.overlaps s = true ↔ r.family = s.family ∧ r.lo ≤ s.hi ∧ s.lo ≤ r.hi := by
  simp [overlaps, and_assoc]

theorem new_eq_ok {a b : Address} (hf : a.family = b.family) (hle : a.value ≤ b.value) :
    Range.new a b = .ok ⟨a.family, a.value, b.value, hle, hf ▸ b.lt_size⟩ := by
  simp [Range.new, ofBounds?, hf, hle]

theorem above_eq_some {r x p : Range} (h : above r x = some p) :
    x.hi < r.hi ∧ p.family = r.family ∧ p.lo = x.hi + 1 ∧ p.hi = r.hi := by
  unfold above at h
  split at h
  · next hlt =>
    cases h
    exact ⟨hlt, rfl, rfl, rfl⟩
  · cases h

/-- The checked part below a cut of `r`'s family that starts no later than one past `r`'s end
is the part below it. -/
theorem cutBelow_eq_ok {r x : Range} (hf : r.family = x.family) (hx : x.lo ≤ r.hi + 1) :
    cutBelow r x = .ok (below r x) := by
  unfold cutBelow below
  by_cases hlt : r.lo < x.lo
  · have hfirst : r.first < x.first := (Address.lt_iff hf).2 hlt
    have hmin : min (x.lo - 1) r.hi = x.lo - 1 := by omega
    rw [if_pos hfirst, dif_pos hlt,
      Address.decrement_eq_ok (show x.first.value ≠ 0 by show x.lo ≠ 0; omega)]
    simp only [bind, Except.bind]
    rw [new_eq_ok hf (by show r.lo ≤ x.lo - 1; omega)]
    simp only [hmin]
    rfl
  · have hfirst : ¬ r.first < x.first := fun h => hlt ((Address.lt_iff hf).1 h)
    rw [if_neg hfirst, dif_neg hlt]
    rfl

/-- The checked part above a cut of `r`'s family is the part above it. -/
theorem cutAbove_eq_ok {r x : Range} (hf : r.family = x.family) :
    cutAbove r x = .ok (above r x) := by
  unfold cutAbove above
  by_cases hlt : x.hi < r.hi
  · have hlast : x.last < r.last := (Address.lt_iff hf.symm).2 hlt
    have hnext : x.last.value + 1 < x.last.family.size := by
      have := r.hi_lt
      show x.hi + 1 < x.family.size
      rw [← hf]
      omega
    rw [if_pos hlast, dif_pos hlt, Address.increment_eq_ok hnext]
    simp only [bind, Except.bind]
    rw [new_eq_ok hf.symm (by show x.hi + 1 ≤ r.hi; omega)]
    exact congrArg (fun p => Except.ok (some p)) (ext_of_bounds hf.symm rfl rfl)
  · have hlast : ¬ x.last < r.last := fun h => hlt ((Address.lt_iff hf.symm).1 h)
    rw [if_neg hlast, dif_neg hlt]
    rfl

/-- A cut that overlaps `r` splits it without fault into the parts below and above it. -/
theorem splitAround_eq_ok {r x : Range} (h : r.overlaps x = true) :
    splitAround r x = .ok (below r x, above r x) := by
  obtain ⟨hf, -, hx⟩ := overlaps_iff.1 h
  rw [splitAround, cutBelow_eq_ok hf (by omega), cutAbove_eq_ok hf]
  rfl

/-! ### Running the sweep -/

theorem sweepCuts_none (xs : List Range) : sweepCuts none xs = .ok ([], none) := by
  cases xs <;> rfl

/-- At an exclusion that overlaps what is left, the sweep keeps the part below it and goes on with
the part above. -/
theorem sweepCuts_cons_of_overlaps {cur x : Range} {xs : List Range} (h : cur.overlaps x = true) :
    sweepCuts (some cur) (x :: xs) = (do
      let (kept, rest) ← sweepCuts (above cur x) xs
      pure ((below cur x).toList ++ kept, rest)) := by
  rw [sweepCuts, if_pos h, splitAround_eq_ok h]
  rfl

/-- What the sweep keeps true of what is left, `cur`, and the exclusions still to visit: they
stand one before the next, and each overlaps what is left. -/
structure SweepInv (cur : Range) (xs : List Range) : Prop where
  chain : xs.Pairwise Precedes
  overlaps : ∀ y ∈ xs, cur.overlaps y = true

namespace SweepInv

variable {cur x : Range} {xs : List Range}

/-- An exclusion after the one at hand starts past it and its gap, and within what is left. -/
theorem gap (h : SweepInv cur (x :: xs)) {y : Range} (hy : y ∈ xs) :
    x.hi + 2 ≤ y.lo ∧ y.lo ≤ cur.hi := by
  obtain ⟨hfx, -, -⟩ := overlaps_iff.1 (h.overlaps x List.mem_cons_self)
  obtain ⟨hfy, -, hyhi⟩ := overlaps_iff.1 (h.overlaps y (List.mem_cons_of_mem x hy))
  rcases List.rel_of_pairwise_cons h.chain hy with hrank | ⟨-, hgap⟩
  · -- both are of what is left's family, so neither family comes first
    rw [← hfx, ← hfy] at hrank
    exact absurd hrank (Nat.lt_irrefl _)
  · exact ⟨hgap, hyhi⟩

/-- Something is left above the exclusion at hand whenever another exclusion follows. -/
theorem above_isSome (h : SweepInv cur (x :: xs)) (hxs : xs ≠ []) : ∃ p, above cur x = some p := by
  obtain ⟨y, ys, rfl⟩ := List.exists_cons_of_ne_nil hxs
  obtain ⟨hgap, hyhi⟩ := h.gap List.mem_cons_self
  exact ⟨_, dif_pos (by omega)⟩

/-- The part above the exclusion at hand keeps the invariant for the exclusions after it. -/
theorem tail (h : SweepInv cur (x :: xs)) {p : Range} (hp : above cur x = some p) :
    SweepInv p xs := by
  obtain ⟨-, hpf, hplo, hphi⟩ := above_eq_some hp
  refine ⟨h.chain.of_cons, fun y hy => ?_⟩
  obtain ⟨hgap, hyhi⟩ := h.gap hy
  obtain ⟨hfy, -, -⟩ := overlaps_iff.1 (h.overlaps y (List.mem_cons_of_mem x hy))
  have := y.lo_le
  exact overlaps_iff.2 ⟨hpf.trans hfy, by omega, by omega⟩

end SweepInv

/-- Through exclusions that keep the invariant, the sweep reaches each one with something left
that overlaps it. -/
theorem sweepCuts_reaches {cur x : Range} {pre post : List Range}
    (h : SweepInv cur (pre ++ x :: post)) :
    ∃ kept p, sweepCuts (some cur) pre = .ok (kept, some p) ∧ SweepInv p (x :: post) := by
  induction pre generalizing cur with
  | nil => exact ⟨[], cur, rfl, h⟩
  | cons y pre ih =>
    rw [List.cons_append] at h
    obtain ⟨p, hp⟩ := h.above_isSome (by simp)
    obtain ⟨kept, q, hrun, hinv⟩ := ih (h.tail hp)
    refine ⟨(below cur y).toList ++ kept, q, ?_, hinv⟩
    rw [sweepCuts_cons_of_overlaps (h.overlaps y List.mem_cons_self), hp, hrun]
    rfl

/-! ### The sweep carves as `carve` does -/

theorem carve_append_of_before {r : Range} {A : List Range} (h : ∀ a ∈ A, a.last < r.first)
    (L : List Range) : carve r (A ++ L) = carve r L := by
  induction A with
  | nil => rfl
  | cons a A ih =>
    have hskip : a.family ≠ r.family ∨ a.hi < r.lo := by
      by_cases hf : a.family = r.family
      · exact .inr ((Address.lt_iff hf).1 (h a List.mem_cons_self))
      · exact .inl hf
    rw [List.cons_append, carve, if_pos hskip, ih fun b hb => h b (List.mem_cons_of_mem a hb)]

theorem carve_of_after {r : Range} {B : List Range} (h : ∀ b ∈ B, r.last < b.first) :
    carve r B = [r] := by
  induction B with
  | nil => rfl
  | cons b B ih =>
    rw [carve]
    by_cases hf : b.family = r.family
    · have hlt : r.hi < b.lo := (Address.lt_iff hf.symm).1 (h b List.mem_cons_self)
      have := b.lo_le
      have := r.lo_le
      rw [if_neg (not_or.2 ⟨fun hne => hne hf, by omega⟩), if_pos hlt]
    · rw [if_pos (.inl hf), ih fun c hc => h c (List.mem_cons_of_mem b hc)]

/-- The sweep through exclusions that keep the invariant, followed by exclusions after what is
left, leaves what `carve` leaves. -/
theorem sweepCuts_carve {cur : Range} {V B : List Range} (h : SweepInv cur V)
    (hB : ∀ b ∈ B, cur.last < b.first) :
    ∃ kept rest, sweepCuts (some cur) V = .ok (kept, rest) ∧
      kept ++ rest.toList = carve cur (V ++ B) := by
  induction V generalizing cur with
  | nil => exact ⟨[], some cur, rfl, (carve_of_after hB).symm⟩
  | cons x xs ih =>
    have hx := h.overlaps x List.mem_cons_self
    obtain ⟨hf, hlo, hhi⟩ := overlaps_iff.1 hx
    have hcut : ¬ (x.family ≠ cur.family ∨ x.hi < cur.lo) := not_or.2 ⟨fun hne => hne hf.symm, by omega⟩
    have hstart : ¬ cur.hi < x.lo := by omega
    rw [sweepCuts_cons_of_overlaps hx]
    cases hp : above cur x with
    | none =>
      refine ⟨(below cur x).toList ++ [], none, by rw [sweepCuts_none]; rfl, ?_⟩
      rw [List.cons_append, carve, if_neg hcut, if_neg hstart, hp]
      simp
    | some p =>
      obtain ⟨-, hpf, -, hphi⟩ := above_eq_some hp
      have hlast : p.last = cur.last := Address.ext_iff'.2 ⟨hpf, hphi⟩
      obtain ⟨kept, rest, hrun, heq⟩ := ih (h.tail hp) (hlast ▸ hB)
      refine ⟨(below cur x).toList ++ kept, rest, by rw [hrun]; rfl, ?_⟩
      rw [List.cons_append, carve, if_neg hcut, if_neg hstart, hp, List.append_assoc, heq]

/-! ### The exclusions the sweep visits -/

/-- Two ranges each starting no later than the other ends are of one family and overlap. -/
theorem overlaps_of_le {r y : Range} (h1 : r.first ≤ y.last) (h2 : y.first ≤ r.last) :
    r.overlaps y = true := by
  by_cases hf : r.family = y.family
  · exact overlaps_iff.2 ⟨hf, (Address.le_iff hf).1 h1, (Address.le_iff hf.symm).1 h2⟩
  · -- of two families, each range would come first
    have h12 : r.family.rank < y.family.rank := Address.rank_lt_of_le h1 hf
    have h21 : y.family.rank < r.family.rank := Address.rank_lt_of_le h2 (Ne.symm hf)
    omega

theorem visited_eq (r : Range) (cuts : List Range) :
    visited r cuts =
      (cuts.dropWhile fun x => x.last < r.first).takeWhile fun x => x.first ≤ r.last := by
  rw [visited, List.drop_length_takeWhile]

/-- The ends of a merged list ascend, across families too, so the exclusions that end before `r`
come first: every exclusion from the partition point on ends no earlier than `r` starts. -/
theorem first_le_of_mem_dropWhile {r : Range} {cuts : List Range} (hcuts : cuts.Pairwise Precedes)
    {y : Range} (hy : y ∈ cuts.dropWhile fun x => x.last < r.first) : r.first ≤ y.last := by
  have hmono : ∀ x z : Range, Precedes x z → decide (z.last < r.first) = true →
      decide (x.last < r.first) = true := by
    intro x z hxz hz
    have hz' : z.last < r.first := of_decide_eq_true hz
    have hzz : z.first ≤ z.last := (Address.le_iff (show z.first.family = z.last.family from rfl)).2 z.lo_le
    exact decide_eq_true (Nat.lt_trans (Nat.lt_of_lt_of_le hxz.last_lt_first hzz) hz')
  exact Nat.le_of_not_lt (of_decide_eq_false (List.dropWhile_forall_false hcuts hmono y hy))

/-- The exclusions past the visited ones all start after `r`'s end. -/
theorem last_lt_of_mem_past {r : Range} {cuts : List Range} (hcuts : cuts.Pairwise Precedes)
    {y : Range} (hy : y ∈ (cuts.dropWhile fun x => x.last < r.first).dropWhile
      fun x => x.first ≤ r.last) : r.last < y.first := by
  have hmono : ∀ x z : Range, Precedes x z → decide (z.first ≤ r.last) = true →
      decide (x.first ≤ r.last) = true := fun x z hxz hz =>
    decide_eq_true (Nat.le_of_lt (Nat.lt_of_lt_of_le hxz.first_lt (of_decide_eq_true hz)))
  exact Nat.lt_of_not_le (of_decide_eq_false
    (List.dropWhile_forall_false (hcuts.sublist (List.dropWhile_sublist _)) hmono y hy))

/-- The invariant holds of a range and the merged exclusions it visits. -/
theorem sweepInv_visited (r : Range) {cuts : List Range} (hcuts : cuts.Pairwise Precedes) :
    SweepInv r (visited r cuts) := by
  rw [visited_eq]
  refine ⟨hcuts.sublist ((List.takeWhile_sublist _).trans (List.dropWhile_sublist _)),
    fun y hy => overlaps_of_le ?_ ?_⟩
  · exact first_le_of_mem_dropWhile hcuts ((List.takeWhile_sublist _).subset hy)
  · have hstart := List.mem_takeWhile_imp hy
    exact of_decide_eq_true hstart

/-! ### The difference the sweep computes -/

/-- Sweeping a range through merged exclusions succeeds and leaves what `carve` leaves. -/
theorem sweepRange_eq_ok (r : Range) {cuts : List Range} (hcuts : cuts.Pairwise Precedes) :
    sweepRange r cuts = .ok (carve r cuts) := by
  obtain ⟨kept, rest, hrun, heq⟩ := sweepCuts_carve (sweepInv_visited r hcuts)
    fun y hy => last_lt_of_mem_past hcuts hy
  -- the exclusions before the partition point end before `r`, the rest are visited or past it
  have hbefore : ∀ a ∈ cuts.takeWhile (fun x => x.last < r.first), a.last < r.first :=
    fun a ha => by
      have hend := List.mem_takeWhile_imp ha
      exact of_decide_eq_true hend
  have hsplit : carve r cuts = carve r (visited r cuts ++
      ((cuts.dropWhile fun x => x.last < r.first).dropWhile fun x => x.first ≤ r.last)) := by
    conv => lhs; rw [← List.takeWhile_append_dropWhile (p := fun x => x.last < r.first) (l := cuts)]
    rw [carve_append_of_before hbefore, visited_eq, List.takeWhile_append_dropWhile]
  rw [sweepRange, hrun, hsplit, ← heq]
  rfl

/-- The sweep's difference succeeds and is the carved difference. -/
theorem sweepDifference_eq_ok (base excluded : List Range) :
    sweepDifference base excluded = .ok (difference base excluded) := by
  have hcuts := (union_isChain excluded).pairwise
  have hpieces : (union base).mapM (fun r => sweepRange r (union excluded)) =
      .ok ((union base).map fun r => carve r (union excluded)) :=
    List.mapM_eq_ok fun r _ => sweepRange_eq_ok r hcuts
  rw [sweepDifference, hpieces, difference, List.flatMap_def]
  rfl

/-- The sweep through merged exclusions never breaks off and never passes an exclusion over: for
every range and every exclusion it visits, something of the range is left when it gets there and
that overlaps the exclusion, so the cut is made without fault into the parts below and above it.
So the sweep's difference of any two lists is computed without fault, and it is the carved
difference. -/
theorem sweep_visits_overlapping (base excluded : List Range) :
    sweepDifference base excluded = .ok (difference base excluded) ∧
      ∀ r pre x post, visited r (union excluded) = pre ++ x :: post →
        ∃ kept cur, sweepCuts (some r) pre = .ok (kept, some cur) ∧ cur.overlaps x = true ∧
          splitAround cur x = .ok (below cur x, above cur x) := by
  refine ⟨sweepDifference_eq_ok base excluded, fun r pre x post hvis => ?_⟩
  have hinv := sweepInv_visited r (union_isChain excluded).pairwise
  rw [hvis] at hinv
  obtain ⟨kept, cur, hrun, hcur⟩ := sweepCuts_reaches hinv
  have hx := hcur.overlaps x List.mem_cons_self
  exact ⟨kept, cur, hrun, hx, splitAround_eq_ok hx⟩

/-- Sweeping `1.2.3.0-1.2.3.255` through `1.2.3.4` and `1.2.3.10-1.2.3.20`: after the cut at
`1.2.3.4`, what is left overlaps the second exclusion. -/
theorem sweep_visits_two_cuts :
    visited ⟨.v4, 16909056, 16909311, by decide, by decide⟩
        (union [⟨.v4, 16909060, 16909060, by decide, by decide⟩,
          ⟨.v4, 16909066, 16909076, by decide, by decide⟩]) =
      [⟨.v4, 16909060, 16909060, by decide, by decide⟩] ++
        [⟨.v4, 16909066, 16909076, by decide, by decide⟩] ∧
    ∃ kept cur, sweepCuts (some ⟨.v4, 16909056, 16909311, by decide, by decide⟩)
        [⟨.v4, 16909060, 16909060, by decide, by decide⟩] = .ok (kept, some cur) ∧
      cur.overlaps ⟨.v4, 16909066, 16909076, by decide, by decide⟩ = true ∧
      splitAround cur ⟨.v4, 16909066, 16909076, by decide, by decide⟩ =
        .ok (below cur ⟨.v4, 16909066, 16909076, by decide, by decide⟩,
          above cur ⟨.v4, 16909066, 16909076, by decide, by decide⟩) := by
  have hunion : union [(⟨.v4, 16909060, 16909060, by decide, by decide⟩ : Range),
      ⟨.v4, 16909066, 16909076, by decide, by decide⟩] =
      [⟨.v4, 16909060, 16909060, by decide, by decide⟩,
        ⟨.v4, 16909066, 16909076, by decide, by decide⟩] :=
    union_eq_of_isChain (.cons_cons (.inr ⟨rfl, by decide⟩) (.singleton _)) fun _ => Iff.rfl
  have hvis : visited ⟨.v4, 16909056, 16909311, by decide, by decide⟩
      (union [⟨.v4, 16909060, 16909060, by decide, by decide⟩,
        ⟨.v4, 16909066, 16909076, by decide, by decide⟩]) =
      [⟨.v4, 16909060, 16909060, by decide, by decide⟩] ++
        [⟨.v4, 16909066, 16909076, by decide, by decide⟩] := by
    rw [hunion]
    decide +kernel
  exact ⟨hvis, (sweep_visits_overlapping [⟨.v4, 16909056, 16909311, by decide, by decide⟩] _).2
    _ _ _ _ hvis⟩

end Range

end NetRanges
