import NetRanges.Proofs.Cover

/-!
# How long a cover can be

A cover of a range of a `w`-bit family has at most `2 * w - 2` blocks
(`Range.cover_length_le_two_mul`).

The block taken at a cursor holds `2 ^ k` addresses, `k` being the largest exponent for which
`2 ^ k` divides the cursor and the run of `2 ^ k` addresses from the cursor stays within the range
(`le_coverHostBits_iff`). Which of the two limits stops `k` from growing splits a cover in two
phases:

* while the cursor's alignment stops it (`2 ^ (k + 1)` does not divide the cursor), the next cursor
  is a multiple of `2 ^ (k + 1)`, so the next block is larger (`length_coverFrom_le_of_align`);
* once the range's end stops it, the next cursor is a multiple of `2 ^ k` that leaves less than
  `2 ^ k` addresses, so the next block is smaller and the end still stops it
  (`length_coverFrom_le_of_end`).

Block sizes thus grow strictly, then shrink strictly, and a nonzero cursor below `2 ^ w` allows
sizes up to `2 ^ (w - 2)` only once the end has taken over, which leaves `w - 1` sizes for each
phase.
-/
namespace NetRanges

theorem Family.thirty_two_le_width (f : Family) : 32 ≤ f.width := by
  cases f <;> decide

namespace Address

/-- A nonzero multiple of `2 ^ j` below `2 ^ w` has `j < w`. -/
theorem lt_of_pow_dvd {c j w : Nat} (hpos : 0 < c) (hlt : c < 2 ^ w) (hd : 2 ^ j ∣ c) : j < w :=
  (Nat.pow_lt_pow_iff_right (by decide)).1 (Nat.lt_of_le_of_lt (Nat.le_of_dvd hpos hd) hlt)

/-- A multiple of `2 ^ k` that is not one of `2 ^ (k + 1)` becomes one when `2 ^ k` is added. -/
theorem pow_succ_dvd_add {c k : Nat} (hd : 2 ^ k ∣ c) (hnd : ¬2 ^ (k + 1) ∣ c) :
    2 ^ (k + 1) ∣ c + 2 ^ k := by
  obtain ⟨m, rfl⟩ := hd
  have hodd : ¬2 ∣ m := fun h2 => hnd (by
    rw [Nat.pow_succ]
    exact Nat.mul_dvd_mul_left _ h2)
  have heven : 2 ∣ m + 1 := by omega
  rw [Nat.pow_succ, show 2 ^ k * m + 2 ^ k = 2 ^ k * (m + 1) by rw [Nat.mul_add, Nat.mul_one]]
  exact Nat.mul_dvd_mul_left _ heven

end Address

namespace Range

section Length

variable {f : Family} {hi : Nat}

/-- The block taken at a cursor within the range holds `2 ^ (width - coverLen)` addresses from
the cursor on; within the range, and aligned to its size. -/
theorem coverBlock_fit (hhi : hi < f.size) {cursor : Nat} (hc : cursor ≤ hi) :
    2 ^ (f.width - coverLen f cursor hi) ∣ cursor ∧
      cursor + 2 ^ (f.width - coverLen f cursor hi) ≤ hi + 1 :=
  (le_coverHostBits_iff hc hhi (Nat.sub_le _ _)).1 (Nat.le_refl _)

theorem coverBlock_top_succ (hhi : hi < f.size) {cursor : Nat} (h : cursor < f.size)
    (hc : cursor ≤ hi) :
    (coverBlock f hi cursor h).top + 1 = cursor + 2 ^ (f.width - coverLen f cursor hi) := by
  have hbase := (coverBlock_fits h hhi hc).1
  have hspan := (coverBlock f hi cursor h).span_pos
  unfold Block.top
  rw [hbase, coverBlock_span] at *
  omega

/-- Once the range's end stops the block at the cursor from doubling, each later block is smaller
than the one before: at most `k + 1` blocks remain, `2 ^ k` being the size of the first. -/
theorem length_coverFrom_le_of_end (hhi : hi < f.size) (cursor : Nat) (h : cursor < f.size)
    (hc : cursor ≤ hi) (hend : 2 ^ (f.width - coverLen f cursor hi + 1) ∣ cursor) :
    (coverFrom f hi hhi cursor h).length ≤ f.width - coverLen f cursor hi + 1 := by
  fun_induction coverFrom f hi hhi cursor h with
  | case2 cursor h hge => simp
  | case1 cursor h hlt ih =>
    have hsize : f.size = 2 ^ f.width := rfl
    obtain ⟨hdvd, hfit⟩ := coverBlock_fit hhi hc
    have hnext := coverBlock_top_succ hhi h hc
    generalize hk : f.width - coverLen f cursor hi = k at hdvd hfit hnext hend
    set c' := (coverBlock f hi cursor h).top + 1
    have hc' : c' ≤ hi := by omega
    obtain ⟨hdvd', hfit'⟩ := coverBlock_fit hhi hc'
    generalize hk' : f.width - coverLen f c' hi = k' at hdvd' hfit' ih
    -- a block of `2 ^ k` at `c'` would have allowed one of `2 ^ (k + 1)` at the cursor
    have hsmaller : k' < k := by
      refine Nat.lt_of_not_le fun hle => ?_
      have hpow : 2 ^ k ≤ 2 ^ k' := Nat.pow_le_pow_right (by decide) hle
      have hkw : k + 1 ≤ f.width := by
        refine Nat.succ_le_of_lt (Nat.lt_of_le_of_ne (hk ▸ Nat.sub_le _ _) fun hw => ?_)
        subst hw
        omega
      have hwide : cursor + 2 ^ (k + 1) ≤ hi + 1 := by
        rw [Nat.pow_succ]
        omega
      have := (le_coverHostBits_iff hc hhi hkw).2 ⟨hend, hwide⟩
      omega
    have hend' : 2 ^ (k' + 1) ∣ c' := by
      refine Nat.dvd_trans (Nat.pow_dvd_pow 2 hsmaller) ?_
      rw [hnext]
      exact Nat.dvd_add hdvd (Nat.dvd_refl _)
    have := ih hc' hend'
    simp only [List.length_cons]
    omega

/-- While the cursor's alignment stops the block at the cursor from doubling, the next cursor is
aligned to twice that block, so the blocks grow until the end takes over; both phases together
leave at most `2 * width - 2 - k` blocks, `2 ^ k` being the size of the first. -/
theorem length_coverFrom_le_of_align (hw : 2 ≤ f.width) (hhi : hi < f.size) (cursor : Nat)
    (h : cursor < f.size) (hc : cursor ≤ hi)
    (halign : ¬2 ^ (f.width - coverLen f cursor hi + 1) ∣ cursor) :
    (coverFrom f hi hhi cursor h).length ≤ 2 * f.width - 2 - (f.width - coverLen f cursor hi) := by
  have hsize : f.size = 2 ^ f.width := rfl
  fun_induction coverFrom f hi hhi cursor h with
  | case2 cursor h hge =>
    obtain ⟨hdvd, -⟩ := coverBlock_fit hhi hc
    have hpos : 0 < cursor := Nat.pos_of_ne_zero fun h0 => halign (h0 ▸ Nat.dvd_zero _)
    have := Address.lt_of_pow_dvd hpos (hsize ▸ h) hdvd
    simp only [List.length_singleton]
    omega
  | case1 cursor h hlt ih =>
    obtain ⟨hdvd, hfit⟩ := coverBlock_fit hhi hc
    have hnext := coverBlock_top_succ hhi h hc
    generalize hk : f.width - coverLen f cursor hi = k at hdvd hfit hnext halign
    set c' := (coverBlock f hi cursor h).top + 1
    have hc' : c' ≤ hi := by omega
    have hpos' : 0 < c' := by
      have := Nat.two_pow_pos k
      omega
    have hlt' : c' < 2 ^ f.width := by omega
    have hdouble : 2 ^ (k + 1) ∣ c' := hnext ▸ Address.pow_succ_dvd_add hdvd halign
    have hkw := Address.lt_of_pow_dvd hpos' hlt' hdouble
    obtain ⟨hdvd', hfit'⟩ := coverBlock_fit hhi hc'
    generalize hk' : f.width - coverLen f c' hi = k' at hdvd' hfit' ih
    have hk'w : k' ≤ f.width := hk' ▸ Nat.sub_le _ _
    by_cases hend' : 2 ^ (k' + 1) ∣ c'
    · -- the end takes over at `c'`, and its block is at most a quarter of the family
      have hrest := length_coverFrom_le_of_end hhi c' (by omega) hc' (hk' ▸ hend')
      rw [hk'] at hrest
      have hquarter : 2 ^ (k' + 1) + 2 ^ k' ≤ 2 ^ f.width := by
        have := Nat.le_of_dvd hpos' hend'
        omega
      have hpow : 2 ^ (k' + 1) < 2 ^ f.width := by
        have := Nat.two_pow_pos k'
        omega
      have hk'lt : k' + 1 < f.width := (Nat.pow_lt_pow_iff_right (by decide)).1 hpow
      simp only [List.length_cons]
      calc _ ≤ k' + 1 + 1 := Nat.succ_le_succ hrest
        _ ≤ 2 * f.width - 2 - k := by omega
    · -- the alignment still stops the block at `c'`, which is then larger than the last one
      have hlarger : k < k' := Nat.lt_of_not_le fun hle =>
        hend' (Nat.dvd_trans (Nat.pow_dvd_pow 2 (Nat.succ_le_succ hle)) hdouble)
      have := ih hc' hend'
      simp only [List.length_cons]
      omega

end Length

/-- A range of a `w`-bit family is covered by at most `2 * w - 2` blocks: 62 for IPv4 and 254
for IPv6. -/
theorem cover_length_le_two_mul (r : Range) : r.cover.length ≤ 2 * r.family.width - 2 := by
  have hw := r.family.thirty_two_le_width
  have hlo : r.lo < r.family.size := Nat.lt_of_le_of_lt r.lo_le r.hi_lt
  have hk : r.family.width - coverLen r.family r.lo r.hi ≤ r.family.width := Nat.sub_le _ _
  by_cases hend : 2 ^ (r.family.width - coverLen r.family r.lo r.hi + 1) ∣ r.lo
  · have := length_coverFrom_le_of_end r.hi_lt r.lo hlo r.lo_le hend
    unfold cover
    omega
  · have := length_coverFrom_le_of_align (by omega) r.hi_lt r.lo hlo r.lo_le hend
    unfold cover
    omega

-- the bound is reached: `0.0.0.1` to `255.255.255.254` takes 31 growing blocks, `0.0.0.1/32` to
-- `64.0.0.0/2`, then 31 shrinking ones, `128.0.0.0/2` to `255.255.255.254/32`
example : (Range.cover ⟨.v4, 1, 2 ^ 32 - 2, by decide, by decide⟩).length = 62 := by
  decide +kernel

end Range

end NetRanges
