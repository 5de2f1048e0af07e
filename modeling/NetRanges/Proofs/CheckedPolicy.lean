import Mathlib.Data.List.Chain
import NetRanges.Json.Codec
import NetRanges.Settings

/-!
# The policies the library hands out

A policy is made by `Policy.make`, which checks its steps, or is one of the built-in policies, or
is one of these given more reserved blocks (`Policy.Obtainable`). Decoding a policy record and
building the policy of the settings go through these and nothing else (`Obtainable.of_decode`,
`Obtainable.of_toPolicy`).

`make` refuses exactly the step lists that break one of its checks (`stepsFault_eq_none_iff`):
there are steps, every step's length fits the family, every minimum count is at least one, and in
cascading mode the lengths strictly decrease. So every policy the library hands out passes the
checks (`Obtainable.checked`).
-/
namespace NetRanges

theorem Except.bind_eq_ok {ε α β : Type} {x : Except ε α} {f : α → Except ε β} {b : β}
    (h : x >>= f = .ok b) : ∃ a, x = .ok a ∧ f a = .ok b := by
  cases x with
  | error e => cases h
  | ok a => exact ⟨a, rfl, h⟩

namespace Policy

/-- What the checks of `make` ask of a policy. -/
structure Checked (p : Policy) : Prop where
  steps_ne_nil : p.steps ≠ []
  len_le : ∀ s ∈ p.steps, s.len ≤ p.family.width
  count_pos : ∀ s ∈ p.steps, 0 < s.minCount
  decreasing : p.mode = .cascading → p.steps.IsChain fun a b => b.len < a.len

/-! ### The checks of `make` -/

theorem firstRise_eq_none_iff (steps : List Step) :
    firstRise steps = none ↔ steps.IsChain fun a b => b.len < a.len := by
  fun_induction firstRise steps with
  | case1 a b rest hle => simp [hle]
  | case2 a b rest hlt ih =>
    rw [ih, List.isChain_cons_cons]
    simp only [Nat.not_le] at hlt
    simp [hlt]
  | case3 steps hshort =>
    rcases steps with _ | ⟨a, _ | ⟨b, rest⟩⟩
    · simp
    · simp
    · exact absurd rfl (hshort a b rest)

/-- `make` accepts exactly the step lists that pass every check. -/
theorem stepsFault_eq_none_iff (mode : Mode) (family : Family) (steps : List Step) :
    stepsFault mode family steps = none ↔
      steps ≠ [] ∧ (∀ s ∈ steps, s.len ≤ family.width ∧ 0 < s.minCount) ∧
        (mode = .cascading → steps.IsChain fun a b => b.len < a.len) := by
  unfold stepsFault
  by_cases hempty : steps = []
  · simp [hempty]
  have hfits : (steps.find? fun s => family.width < s.len || s.minCount == 0) = none ↔
      ∀ s ∈ steps, s.len ≤ family.width ∧ 0 < s.minCount := by
    simp only [List.find?_eq_none, Bool.or_eq_true, decide_eq_true_eq, beq_iff_eq, not_or,
      Nat.not_lt]
    exact forall₂_congr fun _ _ => and_congr_right fun _ => Nat.pos_iff_ne_zero.symm
  simp only [List.isEmpty_iff, hempty, if_false, ne_eq, not_false_eq_true, true_and]
  -- a step that is too long or counts zero is reported before the order of lengths
  split
  · next s hs =>
    have hbad : ¬ ∀ s ∈ steps, s.len ≤ family.width ∧ 0 < s.minCount := by
      rw [← hfits, hs]
      exact Option.some_ne_none s
    split <;> simp [hbad]
  · next hnone =>
    have hok := hfits.1 hnone
    rw [and_iff_right hok]
    split
    · next p n hrise =>
      simp [← firstRise_eq_none_iff, hrise]
    · next hmatch =>
      simp only [true_iff]
      intro hmode
      rw [← firstRise_eq_none_iff]
      cases hrise : firstRise steps with
      | none => rfl
      | some pn => exact absurd hrise (hmatch pn.1 pn.2 hmode)

theorem checked_of_stepsFault {p : Policy} (h : stepsFault p.mode p.family p.steps = none) :
    p.Checked := by
  obtain ⟨hne, hfit, hdec⟩ := (stepsFault_eq_none_iff _ _ _).1 h
  exact ⟨hne, fun s hs => (hfit s hs).1, fun s hs => (hfit s hs).2, hdec⟩

theorem make_checked {mode : Mode} {family : Family} {steps : List Step} {p : Policy}
    (h : make mode family steps = .ok p) : p.Checked := by
  unfold make at h
  split at h
  · cases h
  · next hnone =>
    cases h
    exact checked_of_stepsFault hnone

theorem builtIn_checked (mode : Mode) : (builtIn mode).Checked := by
  apply checked_of_stepsFault
  cases mode <;> rfl

theorem Checked.withReserved {p : Policy} (h : p.Checked) (blocks : List Block) :
    (p.withReserved blocks).Checked :=
  ⟨h.steps_ne_nil, h.len_le, h.count_pos, h.decreasing⟩

/-! ### Where policies come from -/

/-- The policies the library hands out: checked by `make`, built in, and any of these given more
reserved blocks. -/
inductive Obtainable : Policy → Prop
  | make {mode : Mode} {family : Family} {steps : List Step} {p : Policy} :
      Policy.make mode family steps = .ok p → Obtainable p
  | builtIn (mode : Mode) : Obtainable (Policy.builtIn mode)
  | withReserved {p : Policy} (blocks : List Block) : Obtainable p →
      Obtainable (p.withReserved blocks)

/-- Every policy the library hands out passes the checks of `make`. -/
theorem Obtainable.checked {p : Policy} (h : p.Obtainable) : p.Checked := by
  induction h with
  | make hmake => exact make_checked hmake
  | builtIn mode => exact builtIn_checked mode
  | withReserved blocks _ ih => exact ih.withReserved blocks

/-- A decoded policy is checked by `make` and then given its reserved blocks. -/
theorem Obtainable.of_decode {v : Json.Value} {p : Policy} (h : Json.Decoder.policy v = .ok p) :
    p.Obtainable := by
  unfold Json.Decoder.policy at h
  split at h
  all_goals
    obtain ⟨parts, -, hrest⟩ := Except.bind_eq_ok h
    dsimp only at hrest
    split at hrest
    · cases hrest
    · cases hrest
    · split at hrest
      · next q hmake =>
        cases hrest
        exact .withReserved _ (.make hmake)
      · cases hrest

/-- The policy of the settings is checked by `make` or built in. -/
theorem Obtainable.of_toPolicy {s : Settings} {p : Policy} (h : s.toPolicy = .ok p) :
    p.Obtainable := by
  unfold Settings.toPolicy at h
  split at h
  · next t _ =>
    cases hmade : parseSteps t >>= Policy.make s.mode .v4 with
    | error e =>
      rw [hmade] at h
      cases h
    | ok q =>
      rw [hmade] at h
      cases h
      obtain ⟨steps, -, hmake⟩ := Except.bind_eq_ok hmade
      exact .make hmake
  · cases h
    exact .builtIn s.mode

end Policy

end NetRanges
