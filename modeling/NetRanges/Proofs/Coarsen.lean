import NetRanges.Proofs.Nesting
import NetRanges.Proofs.CheckedPolicy

/-!
# What coarsening keeps and what it may add

Coarsening loses no address and adds only blocks of one kind.

* Every address of an entry is in some block of the output, in both modes, for every policy the
  library hands out (`coarsen_covers`): a step keeps each entry or puts in its place a block that
  holds it (`Covers`), and the cascade keeps both halves of every step's output.
* Every block of the output is an entry, or a block of the policy's family, at least as long as
  some step, that holds an entry and overlaps no reserved block (`coarsen_blocks`). So the output
  reaches into a reserved block only where an entry does.

Both rest on what a step can output (`mem_step`): an entry, or the candidate of an entry of the
policy's family. A candidate is the entry itself or a block that widens it (`Widens`), since
narrowing stops only when no reserved block overlaps, or gives up for the entry. A step's groups
are the runs of equal candidates (`runs_flatMap`), never empty (`runs_snd_ne_nil`), so a folded
group's block is the candidate of one of its members. The cascade is handled once
(`cascade_induction`): what a step keeps of the blocks in play, the whole cascade keeps.
-/
namespace NetRanges

namespace Coarsen

/-! ### Candidates -/

/-- A block that a step of length `len` may put in place of the entry `e`: of `e`'s family, at
least `len` long, holding `e`, and overlapping no reserved block. -/
structure Widens (reserved : List Block) (len : Nat) (c e : Block) : Prop where
  family_eq : c.family = e.family
  len_le : len ≤ c.len
  holds : c.containsBlock e = true
  clear : ∀ r ∈ reserved, r.overlaps c = false

theorem containsBlock_containing_first (e : Block) {k : Nat} (hk : k ≤ e.len)
    (h : k ≤ e.first.family.width) : (Block.containing e.first k h).containsBlock e = true :=
  (Block.containsBlock_iff _ _).2 ⟨rfl, hk, rfl⟩

/-- Narrowing from length `k` gives up for the entry or widens it. -/
theorem narrowFrom_cases (e : Block) (reserved : List Block) (k : Nat) (hk : k < e.len) :
    narrowFrom e reserved k hk = e ∨ Widens reserved k (narrowFrom e reserved k hk) e := by
  fun_induction narrowFrom e reserved k hk with
  | case1 k hk c hnone =>
    refine .inr ⟨rfl, Nat.le_refl k, containsBlock_containing_first e (Nat.le_of_lt hk) _, ?_⟩
    intro r hr
    simpa using List.find?_eq_none.1 hnone r hr
  | case2 k hk c r hfind hle => exact .inl rfl
  | case3 k hk c r hfind hlt ih =>
    rcases ih with heq | hw
    · exact .inl heq
    · exact .inr ⟨hw.family_eq, Nat.le_trans (by omega) hw.len_le, hw.holds, hw.clear⟩

/-- The candidate of an entry is the entry itself or a block that widens it. -/
theorem candidate_cases (e : Block) (len : Nat) (reserved : List Block) :
    candidate e len reserved = e ∨ Widens reserved len (candidate e len reserved) e := by
  unfold candidate
  split
  · exact .inl rfl
  · exact narrowFrom_cases e reserved len _

theorem containsBlock_candidate (e : Block) (len : Nat) (reserved : List Block) :
    (candidate e len reserved).containsBlock e = true := by
  rcases candidate_cases e len reserved with heq | hw
  · rw [heq]
    exact Block.containsBlock_refl e
  · exact hw.holds

/-- Narrowing from length `k` gives up for the entry or stops at a block shorter than it: every
round keeps its length below the entry's. -/
theorem narrowFrom_eq_or_len_lt (e : Block) (reserved : List Block) (k : Nat) (hk : k < e.len) :
    narrowFrom e reserved k hk = e ∨ (narrowFrom e reserved k hk).len < e.len := by
  fun_induction narrowFrom e reserved k hk with
  | case1 k hk c hnone => exact .inr hk
  | case2 k hk c r hfind hle => exact .inl rfl
  | case3 k hk c r hfind hlt ih => exact ih

/-- The candidate of an entry `e` for a step of length `p` holds `e`; it is `e` when `e` is no
longer than `p`, and otherwise it is `e` or a block at least `p` and less than `e` long that
overlaps no reserved block, whatever the reserved blocks' families and nesting. -/
theorem candidate_narrows (e : Block) (p : Nat) (reserved : List Block) :
    (candidate e p reserved).containsBlock e = true ∧
      (e.len ≤ p → candidate e p reserved = e) ∧
      (p < e.len → candidate e p reserved = e ∨
        (p ≤ (candidate e p reserved).len ∧ (candidate e p reserved).len < e.len ∧
          ∀ r ∈ reserved, r.overlaps (candidate e p reserved) = false)) := by
  refine ⟨containsBlock_candidate e p reserved, fun hle => by simp [candidate, hle], fun hlt => ?_⟩
  have hnarrow : candidate e p reserved = narrowFrom e reserved p hlt := by
    simp [candidate, Nat.not_le.2 hlt]
  rcases narrowFrom_cases e reserved p hlt with heq | hw
  · exact .inl (hnarrow.trans heq)
  · rcases narrowFrom_eq_or_len_lt e reserved p hlt with heq | hshort
    · exact .inl (hnarrow.trans heq)
    · rw [hnarrow]
      exact .inr ⟨hw.len_le, hshort, hw.clear⟩

/-! ### Groups -/

/-- The runs cut the pairs into consecutive pieces of equal keys. -/
theorem runs_flatMap (ps : List (Block × Block)) :
    (runs ps).flatMap (fun g => g.2.map (Prod.mk g.1)) = ps := by
  induction ps with
  | nil => rfl
  | cons kv ps ih =>
    obtain ⟨k, v⟩ := kv
    rw [runs]
    split
    · next k' vs more hruns =>
      rw [hruns, List.flatMap_cons] at ih
      split
      · next hk =>
        subst hk
        rw [List.flatMap_cons, List.map_cons, List.cons_append, ih]
      · rw [List.flatMap_cons, List.flatMap_cons, List.map_singleton, List.singleton_append, ih]
    · next hruns =>
      rw [hruns] at ih
      rw [← ih]
      rfl

theorem runs_snd_ne_nil (ps : List (Block × Block)) : ∀ g ∈ runs ps, g.2 ≠ [] := by
  induction ps with
  | nil => simp [runs]
  | cons kv ps ih =>
    obtain ⟨k, v⟩ := kv
    rw [runs]
    split
    · next k' vs more hruns =>
      rw [hruns] at ih
      split
      · intro g hg
        rcases List.mem_cons.1 hg with rfl | hg
        · exact List.cons_ne_nil v vs
        · exact ih g (List.mem_cons_of_mem _ hg)
      · intro g hg
        rcases List.mem_cons.1 hg with rfl | hg
        · exact List.cons_ne_nil v []
        · exact ih g hg
    · intro g hg
      rw [List.mem_singleton.1 hg]
      exact List.cons_ne_nil v []

section Groups

variable {key : Block → Block} {xs : List Block}

/-- A member of a group of blocks keyed by `key` is one of the blocks, and the group's key is its
key. -/
theorem mem_group {g : Block × List Block} (hg : g ∈ runs (sortByKey (xs.map fun e => (key e, e))))
    {v : Block} (hv : v ∈ g.2) : v ∈ xs ∧ g.1 = key v := by
  have hpair : (g.1, v) ∈ sortByKey (xs.map fun e => (key e, e)) := by
    rw [← runs_flatMap (sortByKey _)]
    exact List.mem_flatMap.2 ⟨g, hg, List.mem_map.2 ⟨v, hv, rfl⟩⟩
  obtain ⟨e, he, heq⟩ := List.mem_map.1 (List.mem_mergeSort.1 hpair)
  obtain ⟨hkey, rfl⟩ := Prod.mk.inj heq
  exact ⟨he, hkey.symm⟩

/-- Every block keyed by `key` is a member of a group with its key. -/
theorem exists_group {v : Block} (hv : v ∈ xs) :
    ∃ g ∈ runs (sortByKey (xs.map fun e => (key e, e))), g.1 = key v ∧ v ∈ g.2 := by
  have hpair : (key v, v) ∈ sortByKey (xs.map fun e => (key e, e)) :=
    List.mem_mergeSort.2 (List.mem_map.2 ⟨v, hv, rfl⟩)
  rw [← runs_flatMap (sortByKey _)] at hpair
  obtain ⟨g, hg, hgv⟩ := List.mem_flatMap.1 hpair
  obtain ⟨w, hw, heq⟩ := List.mem_map.1 hgv
  obtain ⟨hkey, rfl⟩ := Prod.mk.inj heq
  exact ⟨g, hg, hkey, hw⟩

end Groups

/-! ### One step -/

section Step

variable {p : Policy} {s : Step} {entries : List Block}

/-- The blocks a step outputs: those of its groups, a group that gathers enough entries as its
candidate and any other as its entries, then the blocks of the other family. -/
theorem mem_step_iff {b : Block} :
    b ∈ (step p s entries).value ↔
      (∃ g ∈ runs (sortByKey ((entries.filter fun e => e.family == p.family).map
          fun e => (candidate e s.len p.reserved, e))),
        b ∈ if s.minCount ≤ g.2.length then [g.1] else g.2) ∨
      b ∈ entries ∧ b.family ≠ p.family := by
  simp only [step, List.mem_append, List.mem_flatMap, List.mem_filter, decide_eq_true_eq,
    bne_iff_ne, ne_eq]

/-- A step outputs entries and candidates of entries of the policy's family, nothing else. -/
theorem mem_step {b : Block} (hb : b ∈ (step p s entries).value) :
    b ∈ entries ∨ ∃ e ∈ entries, e.family = p.family ∧ b = candidate e s.len p.reserved := by
  rcases mem_step_iff.1 hb with ⟨g, hg, hbg⟩ | ⟨he, -⟩
  · have hmem : ∀ v ∈ g.2, v ∈ entries ∧ v.family = p.family ∧
        g.1 = candidate v s.len p.reserved := by
      intro v hv
      obtain ⟨hve, hkey⟩ := mem_group hg hv
      obtain ⟨hentry, hfam⟩ := List.mem_filter.1 hve
      exact ⟨hentry, beq_iff_eq.1 hfam, hkey⟩
    split at hbg
    · -- a folded group gives its candidate, the candidate of any of its members
      obtain ⟨v, hv⟩ := List.exists_mem_of_ne_nil g.2 (runs_snd_ne_nil _ g hg)
      obtain ⟨hve, hvf, hkey⟩ := hmem v hv
      exact .inr ⟨v, hve, hvf, (List.mem_singleton.1 hbg).trans hkey⟩
    · exact .inl (hmem b hbg).1
  · exact .inl he

/-- Every entry lies inside some block of the step's output: it is kept, or folded into its
candidate, or passed through. -/
theorem exists_step_containsBlock {e : Block} (he : e ∈ entries) :
    ∃ b ∈ (step p s entries).value, b.containsBlock e = true := by
  by_cases hf : e.family = p.family
  · have helig : e ∈ entries.filter fun x => x.family == p.family :=
      List.mem_filter.2 ⟨he, beq_iff_eq.2 hf⟩
    obtain ⟨g, hg, hkey, hmem⟩ := @exists_group (fun x => candidate x s.len p.reserved) _ e helig
    by_cases hfold : s.minCount ≤ g.2.length
    · refine ⟨g.1, mem_step_iff.2 (.inl ⟨g, hg, by simp [hfold]⟩), ?_⟩
      rw [hkey]
      exact containsBlock_candidate e s.len p.reserved
    · exact ⟨e, mem_step_iff.2 (.inl ⟨g, hg, by simp [hfold, hmem]⟩), Block.containsBlock_refl e⟩
  · exact ⟨e, mem_step_iff.2 (.inr ⟨he, hf⟩), Block.containsBlock_refl e⟩

end Step

/-! ### The cascade -/

theorem cascade_cons (p : Policy) (s : Step) (rest : List Step) (current carried : List Block) :
    (cascade p (s :: rest) current carried).value =
      (cascade p rest ((step p s current).value.filter fun b => b.len ≤ s.len)
        (carried ++ (step p s current).value.filter fun b => s.len < b.len)).value := rfl

/-- What every step keeps of the blocks in play, the whole cascade keeps, for a property that
only depends on which blocks are in play: a step's output is split into the blocks looked at next
and the blocks set aside, and together these are the step's output. -/
theorem cascade_induction {p : Policy} (Q : List Block → Prop)
    (hQ : ∀ l l' : List Block, (∀ b, b ∈ l ↔ b ∈ l') → Q l → Q l') {steps : List Step}
    (hstep : ∀ s ∈ steps, ∀ current carried : List Block, Q (current ++ carried) →
      Q ((step p s current).value ++ carried))
    {current carried : List Block} (h : Q (current ++ carried)) :
    Q (cascade p steps current carried).value := by
  induction steps generalizing current carried with
  | nil => exact h
  | cons s rest ih =>
    rw [cascade_cons]
    refine ih (fun t ht => hstep t (List.mem_cons_of_mem s ht)) ?_
    refine hQ _ _ (fun b => ?_) (hstep s List.mem_cons_self current carried h)
    simp only [List.mem_append, List.mem_filter, decide_eq_true_eq]
    by_cases hlen : b.len ≤ s.len
    · simp [hlen, Nat.not_lt.2 hlen]
    · simp [hlen, Nat.lt_of_not_le hlen, or_comm]

end Coarsen

/-! ### Coarsening -/

theorem coarsen_independent {p : Policy} (h : p.mode = .independent) (entries : List Block) :
    (coarsen p entries).value = (p.steps.map fun s => (Coarsen.step p s entries).value).flatten := by
  unfold coarsen
  rw [h]
  simp

theorem coarsen_cascading {p : Policy} (h : p.mode = .cascading) (entries : List Block) :
    (coarsen p entries).value = (Coarsen.cascade p p.steps entries []).value := by
  unfold coarsen
  rw [h]

namespace Coarsen

/-- Every block of `entries` lies inside some block of `out`. -/
def Covers (out entries : List Block) : Prop := ∀ e ∈ entries, ∃ b ∈ out, b.containsBlock e = true

theorem covers_refl (entries : List Block) : Covers entries entries := fun e he =>
  ⟨e, he, Block.containsBlock_refl e⟩

theorem covers_step {p : Policy} {s : Step} {entries current carried : List Block}
    (h : Covers (current ++ carried) entries) :
    Covers ((step p s current).value ++ carried) entries := by
  intro e he
  obtain ⟨b, hb, hbe⟩ := h e he
  rcases List.mem_append.1 hb with hb | hb
  · obtain ⟨c, hc, hcb⟩ := exists_step_containsBlock (p := p) (s := s) hb
    exact ⟨c, List.mem_append_left _ hc, Block.containsBlock_trans hcb hbe⟩
  · exact ⟨b, List.mem_append_right _ hb, hbe⟩

end Coarsen

/-- Coarsening by a policy the library hands out loses no address: every address of an entry is in
some block of the output, in independent and in cascading mode. -/
theorem coarsen_covers (p : Policy) (hp : p.Obtainable) (entries : List Block) (a : Address)
    (ha : ∃ e ∈ entries, e.contains a = true) :
    ∃ b ∈ (coarsen p entries).value, b.contains a = true := by
  have hcovers : Coarsen.Covers (coarsen p entries).value entries := by
    cases hmode : p.mode with
    | independent =>
      -- the policy has a step, and that step alone covers the entries
      obtain ⟨s, hs⟩ := List.exists_mem_of_ne_nil p.steps hp.checked.steps_ne_nil
      intro e he
      obtain ⟨b, hb, hbe⟩ := Coarsen.exists_step_containsBlock (p := p) (s := s) he
      rw [coarsen_independent hmode]
      exact ⟨b, List.mem_flatten.2 ⟨_, List.mem_map.2 ⟨s, hs, rfl⟩, hb⟩, hbe⟩
    | cascading =>
      rw [coarsen_cascading hmode]
      refine Coarsen.cascade_induction (Coarsen.Covers · entries) ?_ ?_ ?_
      · intro l l' hl hcov e he
        obtain ⟨b, hb, hbe⟩ := hcov e he
        exact ⟨b, (hl b).1 hb, hbe⟩
      · intro s _ current carried hcov
        exact Coarsen.covers_step hcov
      · rw [List.append_nil]
        exact Coarsen.covers_refl entries
  obtain ⟨e, he, hea⟩ := ha
  obtain ⟨b, hb, hbe⟩ := hcovers e he
  exact ⟨b, hb, Block.contains_of_containsBlock hbe hea⟩

/-- The built-in independent policy keeps `1.2.3.4`, given as a host block, covered. -/
theorem coarsen_covers_host :
    Policy.Obtainable (Policy.builtIn .independent) ∧
    (∃ e ∈ [(⟨.v4, 32, 16909060, by decide, by decide, by decide⟩ : Block)],
      e.contains ⟨.v4, 16909060, by decide⟩ = true) ∧
    ∃ b ∈ (coarsen (Policy.builtIn .independent)
        [⟨.v4, 32, 16909060, by decide, by decide, by decide⟩]).value,
      b.contains ⟨.v4, 16909060, by decide⟩ = true := by
  have hin : ∃ e ∈ [(⟨.v4, 32, 16909060, by decide, by decide, by decide⟩ : Block)],
      e.contains ⟨.v4, 16909060, by decide⟩ = true :=
    ⟨_, List.mem_singleton_self _, by decide⟩
  exact ⟨.builtIn _, hin, coarsen_covers _ (.builtIn _) _ _ hin⟩

namespace Coarsen

/-- A block that coarsening may output for the entries `E`: one of them, or a block of the
policy's family, at least as long as some step, holding one of them and overlapping no reserved
block. -/
def Allowed (p : Policy) (E : List Block) (b : Block) : Prop :=
  b ∈ E ∨ b.family = p.family ∧ (∃ s ∈ p.steps, s.len ≤ b.len) ∧
    (∃ e ∈ E, b.containsBlock e = true) ∧ ∀ r ∈ p.reserved, b.overlaps r = false

/-- Given allowed blocks, a step of the policy outputs allowed blocks: a block that widens an
allowed block holds what that block holds. -/
theorem allowed_step {p : Policy} {E xs : List Block} {s : Step} (hs : s ∈ p.steps)
    (hxs : ∀ x ∈ xs, Allowed p E x) : ∀ b ∈ (step p s xs).value, Allowed p E b := by
  intro b hb
  rcases mem_step hb with hb | ⟨x, hx, hxf, rfl⟩
  · exact hxs b hb
  · rcases candidate_cases x s.len p.reserved with heq | hw
    · rw [heq]
      exact hxs x hx
    · refine .inr ⟨hw.family_eq.trans hxf, ⟨s, hs, hw.len_le⟩, ?_, fun r hr => ?_⟩
      · rcases hxs x hx with hxE | ⟨-, -, ⟨e, he, hxe⟩, -⟩
        · exact ⟨x, hxE, hw.holds⟩
        · exact ⟨e, he, Block.containsBlock_trans hw.holds hxe⟩
      · rw [Block.overlaps_comm]
        exact hw.clear r hr

end Coarsen

theorem coarsen_allowed (p : Policy) (entries : List Block) :
    ∀ b ∈ (coarsen p entries).value, Coarsen.Allowed p entries b := by
  have hentries : ∀ x ∈ entries, Coarsen.Allowed p entries x := fun x hx => .inl hx
  cases hmode : p.mode with
  | independent =>
    rw [coarsen_independent hmode]
    intro b hb
    obtain ⟨l, hl, hbl⟩ := List.mem_flatten.1 hb
    obtain ⟨s, hs, rfl⟩ := List.mem_map.1 hl
    exact Coarsen.allowed_step hs hentries b hbl
  | cascading =>
    rw [coarsen_cascading hmode]
    refine Coarsen.cascade_induction (fun l => ∀ b ∈ l, Coarsen.Allowed p entries b) ?_ ?_ ?_
    · intro l l' hl h b hb
      exact h b ((hl b).2 hb)
    · intro s hs current carried h b hb
      rcases List.mem_append.1 hb with hb | hb
      · exact Coarsen.allowed_step hs (fun x hx => h x (List.mem_append_left _ hx)) b hb
      · exact h b (List.mem_append_right _ hb)
    · rw [List.append_nil]
      exact hentries

/-- Every block that coarsening outputs is an entry, or a block of the policy's family, at least
as long as some step, holding an entry and overlapping no reserved block. So an address of a
reserved block is in the output only where an entry holds it. -/
theorem coarsen_blocks (p : Policy) (entries : List Block) :
    (∀ b ∈ (coarsen p entries).value, b ∈ entries ∨
      b.family = p.family ∧ (∃ s ∈ p.steps, s.len ≤ b.len) ∧
        (∃ e ∈ entries, b.containsBlock e = true) ∧ ∀ r ∈ p.reserved, b.overlaps r = false) ∧
    ∀ r ∈ p.reserved, ∀ a : Address, r.contains a = true →
      (∃ b ∈ (coarsen p entries).value, b.contains a = true) →
        ∃ e ∈ entries, e.contains a = true := by
  refine ⟨coarsen_allowed p entries, ?_⟩
  rintro r hr a hra ⟨b, hb, hba⟩
  rcases coarsen_allowed p entries b hb with hbe | ⟨-, -, -, hclear⟩
  · exact ⟨b, hbe, hba⟩
  · -- `b` and `r` share `a`, so they overlap
    have hover := (Block.overlaps_iff b r).2 ⟨a, hba, hra⟩
    rw [hclear r hr] at hover
    cases hover

end NetRanges
