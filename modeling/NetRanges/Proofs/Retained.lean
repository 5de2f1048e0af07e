import NetRanges.Proofs.Export
import NetRanges.Proofs.Coarsen

/-!
# What an export keeps

An export is told to leave out the excluded entries and, when asked, the private networks. It
loses nothing else it was shown, with one exception that comes from how the private filter looks
at blocks.

The filter drops a block when its network address is private (`Block.isPrivate`), whatever the
block's length. A block that starts in a private network and reaches past it, such as
`10.0.0.0/7`, is dropped whole with the public addresses it holds
(`exportBlocks_drops_wide_private_block`). Such a block holds a whole private network
(`containsBlock_private_of_isPrivate`), so the loss is confined to blocks wider than the private
networks.

Every other address is kept (`exportBlocks_retains`): it lies in a block of its entry
(`Entry.mem_toRange_iff`) that the filter keeps, coarsening puts that block inside one of its
blocks (`Coarsen.covers_coarsen`), merging and cutting out the exclusions keep the address, and
the final cover holds it.
-/
namespace NetRanges

/-- The blocks of an entry hold exactly the entry's addresses: they are the cover of its range,
the block of a host and a network covering their ranges alone. -/
theorem Entry.mem_toRange_iff (e : Entry) (a : Address) :
    e.toRange.Mem a ↔ ∃ b ∈ e.blocks, b.contains a = true := by
  cases e with
  | host h =>
    rw [toRange, blocks, ← Block.host_toRange, ← Block.cover_toRange]
    exact ((Block.host h).toRange.cover_tiling.mem_iff a).symm
  | network b =>
    rw [toRange, blocks, ← Block.cover_toRange]
    exact (b.toRange.cover_tiling.mem_iff a).symm
  | range r => exact (r.cover_tiling.mem_iff a).symm

theorem mem_dropPrivate {x : Bool} {bs : List Block} {b : Block} :
    b ∈ dropPrivate x bs ↔ b ∈ bs ∧ (x = true → b.isPrivate = false) := by
  cases x <;> simp [dropPrivate]

/-- A private block that holds an address outside every private network holds a whole private
network: it starts in one, and a block inside it would hold only private addresses. -/
theorem containsBlock_private_of_isPrivate {b : Block} (hb : b.isPrivate = true) {a : Address}
    (ha : b.contains a = true) (hpub : ∀ q ∈ privateBlocks, q.contains a = false) :
    ∃ q ∈ privateBlocks, b.containsBlock q = true := by
  obtain ⟨q, hq, hqb⟩ := List.any_eq_true.1 hb
  refine ⟨q, hq, ?_⟩
  rcases Nat.le_total b.len q.len with hlen | hlen
  · exact Block.containsBlock_of_contains hlen (Block.contains_first b) hqb
  · -- `q` would hold `b`, and with it the public address `a`
    have hqcb := Block.containsBlock_of_contains hlen hqb (Block.contains_first b)
    have := Block.contains_of_containsBlock hqcb ha
    rw [hpub q hq] at this
    cases this

namespace Coarsen

/-- Coarsening by a policy with at least one step puts every block of the input inside a block of
the output, in either mode. -/
theorem covers_coarsen {p : Policy} (hp : p.steps ≠ []) (entries : List Block) :
    Covers (coarsen p entries).value entries := by
  cases hmode : p.mode with
  | independent =>
    -- one step alone covers the input, and independent mode keeps every step's output
    obtain ⟨s, hs⟩ := List.exists_mem_of_ne_nil p.steps hp
    intro e he
    obtain ⟨b, hb, hbe⟩ := exists_step_containsBlock (p := p) (s := s) he
    rw [coarsen_independent hmode]
    exact ⟨b, List.mem_flatten.2 ⟨_, List.mem_map.2 ⟨s, hs, rfl⟩, hb⟩, hbe⟩
  | cascading =>
    rw [coarsen_cascading hmode]
    refine cascade_induction (Covers · entries) ?_ (fun _ _ _ _ hcov => covers_step hcov) ?_
    · intro l l' hl hcov e he
      obtain ⟨b, hb, hbe⟩ := hcov e he
      exact ⟨b, (hl b).1 hb, hbe⟩
    · rw [List.append_nil]
      exact covers_refl entries

end Coarsen

/-- The policy an export coarsens by is obtainable when the given one is. -/
theorem Policy.Obtainable.export {p : Policy} (hp : p.Obtainable) (excludePrivate : Bool) :
    (if excludePrivate then p.withReserved privateBlocks else p).Obtainable := by
  cases excludePrivate
  · exact hp
  · exact .withReserved _ hp

/-- An export keeps every address of its entries that is neither excluded nor private, unless the
private filter dropped the block of the entry that holds it: that is, when private networks are
excluded, the block of the entry's cover holding the address must not start in a private
network. -/
theorem exportBlocks_retains (entries : List String) (o : ExportOptions) (hp : o.policy.Obtainable)
    (a : Address)
    (hseen : ∃ e ∈ (Entry.parseAll entries).value, e.toRange.Mem a ∧
      (o.excludePrivate = true → ∀ b ∈ e.blocks, b.contains a = true → b.isPrivate = false))
    (hexcl : ∀ x ∈ o.exclude, ¬ x.toRange.Mem a)
    (hpriv : o.excludePrivate = true → ∀ q ∈ privateBlocks, q.contains a = false) :
    ∃ b ∈ (exportBlocks entries o).value, b.contains a = true := by
  obtain ⟨e, he, hea, hkeep⟩ := hseen
  obtain ⟨b, hb, hba⟩ := (e.mem_toRange_iff a).1 hea
  have hkept : b ∈ dropPrivate o.excludePrivate ((Entry.parseAll entries).value.flatMap
      Entry.blocks) :=
    mem_dropPrivate.2 ⟨List.mem_flatMap.2 ⟨e, he, hb⟩, fun hx => hkeep hx b hb hba⟩
  obtain ⟨c, hc, hcb⟩ := Coarsen.covers_coarsen (hp.export o.excludePrivate).checked.steps_ne_nil
    _ b hkept
  have hbase : ∃ r ∈ (coarsen (if o.excludePrivate then o.policy.withReserved privateBlocks
      else o.policy) (dropPrivate o.excludePrivate
        ((Entry.parseAll entries).value.flatMap Entry.blocks))).value.map Block.toRange,
      r.Mem a :=
    ⟨c.toRange, List.mem_map_of_mem hc,
      (Block.mem_toRange c a).2 (Block.contains_of_containsBlock hcb hba)⟩
  have hfree : ¬ ∃ x ∈ o.exclude.map Entry.toRange ++
      (if o.excludePrivate then privateBlocks.map Block.toRange else []), x.Mem a := by
    rintro ⟨x, hx, hxa⟩
    rcases List.mem_append.1 hx with hx | hx
    · obtain ⟨y, hy, rfl⟩ := List.mem_map.1 hx
      exact hexcl y hy hxa
    · cases hx' : o.excludePrivate
      · rw [hx'] at hx
        cases hx
      · rw [hx', if_pos rfl] at hx
        obtain ⟨q, hq, rfl⟩ := List.mem_map.1 hx
        rw [Block.mem_toRange, hpriv hx' q hq] at hxa
        cases hxa
  have hleft := (Range.mem_difference _ _ a).2 ⟨(Range.mem_union _ a).2 hbase, hfree⟩
  rw [exportBlocks_value]
  exact (Range.mem_flatMap_cover _ a).2 hleft

/-- The network `1.2.3.0/24` with `1.2.3.5` excluded, under the built-in cascading policy
with private networks excluded, keep `1.2.3.7`. -/
theorem exportBlocks_retains_range_host :
    Policy.Obtainable (Policy.builtIn .cascading) ∧
    (∃ e ∈ (Entry.parseAll ["1.2.3.0/24"]).value,
      e.toRange.Mem ⟨.v4, 16909063, by decide⟩ ∧
      (true = true → ∀ b ∈ e.blocks, b.contains ⟨.v4, 16909063, by decide⟩ = true →
        b.isPrivate = false)) ∧
    (∀ x ∈ [Entry.host ⟨.v4, 16909061, by decide⟩],
      ¬ x.toRange.Mem ⟨.v4, 16909063, by decide⟩) ∧
    (true = true → ∀ q ∈ privateBlocks, q.contains ⟨.v4, 16909063, by decide⟩ = false) ∧
    ∃ b ∈ (exportBlocks ["1.2.3.0/24"]
        ⟨Policy.builtIn .cascading, true, [Entry.host ⟨.v4, 16909061, by decide⟩]⟩).value,
      b.contains ⟨.v4, 16909063, by decide⟩ = true := by
  have hseen : ∃ e ∈ (Entry.parseAll ["1.2.3.0/24"]).value,
      e.toRange.Mem ⟨.v4, 16909063, by decide⟩ ∧
      (true = true → ∀ b ∈ e.blocks, b.contains ⟨.v4, 16909063, by decide⟩ = true →
        b.isPrivate = false) := by
    decide
  have hexcl : ∀ x ∈ [Entry.host ⟨.v4, 16909061, by decide⟩],
      ¬ x.toRange.Mem ⟨.v4, 16909063, by decide⟩ := by
    decide
  have hpriv : true = true → ∀ q ∈ privateBlocks,
      q.contains ⟨.v4, 16909063, by decide⟩ = false := by
    decide
  exact ⟨.builtIn _, hseen, hexcl, hpriv,
    exportBlocks_retains _ ⟨Policy.builtIn .cascading, true, _⟩
      (Policy.Obtainable.builtIn .cascading) _ hseen hexcl hpriv⟩

/-- The network `10.0.0.0/7` starts in `10.0.0.0/8` and holds the public `11.0.0.0/8`. The
standard export drops it whole: `11.0.0.0`, an address of the entry that is neither excluded nor
private, is in no block of the export, which is empty. -/
theorem exportBlocks_drops_wide_private_block :
    Policy.Obtainable ExportOptions.standard.policy ∧
    (∃ e ∈ (Entry.parseAll ["10.0.0.0/7"]).value, e.toRange.Mem ⟨.v4, 184549376, by decide⟩) ∧
    (∀ x ∈ ExportOptions.standard.exclude, ¬ x.toRange.Mem ⟨.v4, 184549376, by decide⟩) ∧
    (∀ q ∈ privateBlocks, q.contains ⟨.v4, 184549376, by decide⟩ = false) ∧
    (exportBlocks ["10.0.0.0/7"] ExportOptions.standard).value = [] := by
  refine ⟨Policy.Obtainable.builtIn .cascading, ?_, ?_, ?_, ?_⟩
  · decide
  · decide
  · decide
  · decide +kernel

end NetRanges
