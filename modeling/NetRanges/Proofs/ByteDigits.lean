import Mathlib.Tactic.Ring
import NetRanges.Address.Text

/-!
# Numbers written by big-endian digits

The bytes of an address are the big-endian base-256 digits of its value (`digitsValue_bytes`).
On digit lists of one length, lexicographic order is the order of the numbers they write
(`lt_iff_digitsValue_lt`), which is what makes a comparison of bytes a comparison of values.
-/
namespace NetRanges

namespace Address

/-! ### Numbers written by digits -/

section Digits

variable {B : Nat}

theorem foldl_digits (B acc : Nat) (l : List Nat) :
    l.foldl (fun acc d => acc * B + d) acc = acc * B ^ l.length + digitsValue B l := by
  induction l generalizing acc with
  | nil => simp [digitsValue]
  | cons d l ih =>
    simp only [digitsValue, List.foldl_cons, List.length_cons] at ih ⊢
    rw [ih, ih (0 * B + d)]
    ring

theorem digitsValue_cons (d : Nat) (l : List Nat) :
    digitsValue B (d :: l) = d * B ^ l.length + digitsValue B l := by
  simp only [digitsValue, List.foldl_cons, foldl_digits B (0 * B + d) l]
  simp

theorem digitsValue_append (l m : List Nat) :
    digitsValue B (l ++ m) = digitsValue B l * B ^ m.length + digitsValue B m := by
  rw [digitsValue, List.foldl_append, foldl_digits]
  rfl

theorem digitsValue_replicate_zero (k : Nat) : digitsValue B (List.replicate k 0) = 0 := by
  induction k with
  | zero => rfl
  | succ k ih => rw [List.replicate_succ, digitsValue_cons, ih, Nat.zero_mul]

/-- On digit lists of one length, lexicographic order is the order of the numbers they write. -/
theorem lt_iff_digitsValue_lt {l m : List Nat} (hlen : l.length = m.length)
    (hl : ∀ d ∈ l, d < B) (hm : ∀ d ∈ m, d < B) :
    l < m ↔ digitsValue B l < digitsValue B m := by
  induction l generalizing m with
  | nil =>
    rw [List.length_nil, eq_comm, List.length_eq_zero_iff] at hlen
    subst hlen
    simp [digitsValue]
  | cons d l ih =>
    obtain ⟨e, m, rfl⟩ := List.exists_cons_of_length_eq_add_one hlen.symm
    have hlen' : l.length = m.length := by simpa using hlen
    have hvl := digitsValue_lt fun x hx => hl x (List.mem_cons_of_mem d hx)
    have hvm := digitsValue_lt fun x hx => hm x (List.mem_cons_of_mem e hx)
    have htail := ih hlen' (fun x hx => hl x (List.mem_cons_of_mem d hx))
      (fun x hx => hm x (List.mem_cons_of_mem e hx))
    rw [List.cons_lt_cons_iff, htail, digitsValue_cons, digitsValue_cons, ← hlen']
    rw [← hlen'] at hvm
    generalize B ^ l.length = P at hvl hvm
    -- a smaller leading digit loses to any tail, since every tail is below `P`
    have hstep : ∀ x y : Nat, x < y → x * P + P ≤ y * P := fun x y hxy => by
      have := Nat.mul_le_mul_right P hxy
      rwa [Nat.succ_mul] at this
    constructor
    · rintro (hde | ⟨rfl, hv⟩)
      · have := hstep d e hde
        omega
      · omega
    · intro hlt
      rcases Nat.lt_trichotomy d e with hde | rfl | hed
      · exact Or.inl hde
      · exact Or.inr ⟨rfl, by omega⟩
      · have := hstep e d hed
        omega

end Digits

/-! ### Bytes -/

/-- The `n` base-256 digits of `v`, most significant first, write `v` modulo `256 ^ n`. -/
theorem digitsValue_byteDigits (n v : Nat) :
    digitsValue 256 ((List.range n).map fun i => v / 256 ^ (n - 1 - i) % 256) = v % 256 ^ n := by
  induction n generalizing v with
  | zero => simp [digitsValue, Nat.mod_one]
  | succ n ih =>
    have hhigh : ((List.range n).map fun i => v / 256 ^ (n + 1 - 1 - i) % 256) =
        (List.range n).map fun i => v / 256 / 256 ^ (n - 1 - i) % 256 := by
      refine List.map_congr_left fun i hi => ?_
      have hi : i < n := List.mem_range.1 hi
      rw [Nat.div_div_eq_div_mul, ← Nat.pow_succ', show n + 1 - 1 - i = n - 1 - i + 1 by omega]
    rw [List.range_succ, List.map_append, hhigh, digitsValue_append, ih, List.map_singleton,
      show n + 1 - 1 - n = 0 by omega, Nat.pow_zero, Nat.div_one, Nat.pow_succ', Nat.mod_mul]
    simp [digitsValue]
    omega

@[simp] theorem length_bytes (a : Address) : a.bytes.length = a.family.byteLen := by
  simp [bytes]

theorem lt_of_mem_bytes {a : Address} {d : Nat} (h : d ∈ a.bytes) : d < 256 := by
  simp only [bytes, List.mem_map] at h
  obtain ⟨i, -, rfl⟩ := h
  exact Nat.mod_lt _ (by decide)

theorem digitsValue_bytes (a : Address) : digitsValue 256 a.bytes = a.value := by
  have hlt : a.value < 256 ^ a.family.byteLen := a.family.size_eq_pow_byteLen ▸ a.lt_size
  rw [bytes, digitsValue_byteDigits, Nat.mod_eq_of_lt hlt]

end Address

end NetRanges
