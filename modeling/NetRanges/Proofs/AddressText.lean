import Mathlib.Data.Nat.Digits.Lemmas
import Mathlib.Tactic.IntervalCases
import NetRanges.Address.Text

/-!
# Reading back the text of an address

The reader takes back every text the writer produces: `ofText? a.text = some a` for every
address (`ofText?_text`).

* Numbers. The writer prints a number's digits (`Nat.toDigits`): the base digits of the number,
  most significant first, the first of them not zero unless the number is zero. The reader takes
  the longest run of digits, so it stops right where the number ends, and gets the number back
  (`readNumber_toDigits`).
* IPv4. The dotted text is four such numbers below 256 separated by dots
  (`readDotted_dottedText`). A text without a dot is never read as dotted (`readDotted_eq_none`),
  which is why no IPv6 text outside the IPv4-mapped range is taken for IPv4.
* IPv6. The writer shortens a run of zero groups (`longestZeroRun`), and the run it picks is a run
  of zero groups within the eight (`zeroRun_longestZeroRun`), so putting the zeros back gives the
  groups. The reader takes the groups before `::` and those after it one by one
  (`readGroups_groupsText`, `readGroups_sep`) and fills the gap with zeros. An IPv4-mapped address is
  written `::ffff:` and its dotted low 32 bits, which the reader takes as the last two groups.
-/
namespace NetRanges.Address

/-! ### Numbers -/

theorem digitValue_digitChar {radix d : Nat} (hd : d < radix) (hr : radix ≤ 16) :
    digitValue radix (Nat.digitChar d) = some d := by
  have h16 : d < 16 := by omega
  unfold digitValue
  interval_cases d <;> simp [Nat.digitChar, hd]

/-- The digits a number is written with are its base digits, most significant first. -/
theorem toDigits_eq_map_digits {b n : Nat} (hb : 1 < b) (hn : 0 < n) :
    Nat.toDigits b n = (Nat.digits b n).reverse.map Nat.digitChar := by
  induction n using Nat.strong_induction_on with
  | _ n ih =>
    rcases Nat.lt_or_ge n b with hlt | hge
    · rw [Nat.toDigits_of_lt_base hlt, Nat.digits_of_lt b n (by omega) hlt]
      rfl
    · -- the last digit is printed after the digits of the quotient
      have hq : 0 < n / b := Nat.div_pos hge (by omega)
      have hsplit := Nat.toDigits_append_toDigits (b := b) hb hq (Nat.mod_lt n (by omega))
      rw [Nat.div_add_mod, Nat.toDigits_of_lt_base (Nat.mod_lt n (by omega))] at hsplit
      rw [← hsplit, ih (n / b) (Nat.div_lt_self (by omega) hb) hq, @Nat.digits_def' b hb n hn,
        List.reverse_cons, List.map_append]
      rfl

/-- Reading digits from the most significant on is `ofDigits` of the digits from the least
significant on. -/
theorem digitsValue_reverse (b : Nat) (l : List Nat) : digitsValue b l.reverse = Nat.ofDigits b l := by
  induction l with
  | nil => rfl
  | cons d l ih =>
    rw [List.reverse_cons, digitsValue, List.foldl_append, ← digitsValue, ih, Nat.ofDigits_cons]
    simp only [List.foldl_cons, List.foldl_nil]
    rw [Nat.mul_comm, Nat.add_comm]

/-- The run of digits ends where the digits written from `ds` end. -/
theorem spanDigits_digitChars {radix : Nat} (hr : radix ≤ 16) {ds : List Nat}
    (hds : ∀ d ∈ ds, d < radix) {rest : List Char}
    (hrest : ∀ c ∈ rest.head?, digitValue radix c = none) :
    spanDigits radix (ds.map Nat.digitChar ++ rest) = (ds, rest) := by
  induction ds with
  | nil =>
    cases rest with
    | nil => rfl
    | cons c cs => simp [spanDigits, hrest c rfl]
  | cons d ds ih =>
    have hd := digitValue_digitChar (hds d List.mem_cons_self) hr
    rw [List.map_cons, List.cons_append, spanDigits, hd]
    simp [ih fun e he => hds e (List.mem_cons_of_mem d he)]

/-- `readNumber` accepts a run of digits when it is not empty, not too long, not too large, and
starts with a zero only if it is that one digit. -/
theorem readNumber_eq_some {radix maxDigits bound : Nat} (zeroPrefix : Bool) {cs rest : List Char}
    {ds : List Nat} (hspan : spanDigits radix cs = (ds, rest)) (hne : ds ≠ [])
    (hlen : ds.length ≤ maxDigits) (hbound : digitsValue radix ds ≤ bound)
    (hlead : ds.length = 1 ∨ ds.head? ≠ some 0) :
    readNumber radix maxDigits bound zeroPrefix cs = some (digitsValue radix ds, rest) := by
  have hempty : ds.isEmpty = false := List.isEmpty_eq_false_iff.2 hne
  have hzero : (!zeroPrefix && decide (1 < ds.length) && ds.head? == some 0) = false := by
    rcases hlead with h1 | h0
    · simp [h1]
    · simp [h0]
  simp only [readNumber, hspan, hempty, Bool.false_or, hzero]
  simp [Nat.not_lt.2 hlen, Nat.not_lt.2 hbound]

/-- Reading the digits of a number gives the number back and stops after them, provided what
follows is not a digit. -/
theorem readNumber_toDigits {radix maxDigits bound n : Nat} (zeroPrefix : Bool) (hr : 1 < radix)
    (hr16 : radix ≤ 16) (hbound : n ≤ bound) (hmax : 0 < maxDigits) (hfit : n < radix ^ maxDigits)
    {rest : List Char} (hrest : ∀ c ∈ rest.head?, digitValue radix c = none) :
    readNumber radix maxDigits bound zeroPrefix (Nat.toDigits radix n ++ rest) = some (n, rest) := by
  rcases Nat.eq_zero_or_pos n with rfl | hn
  · have hspan : spanDigits radix (Nat.toDigits radix 0 ++ rest) = ([0], rest) := by
      rw [Nat.toDigits_zero]
      exact @spanDigits_digitChars radix hr16 [0] (by simp; omega) rest hrest
    have hzero : digitsValue radix [0] = 0 := by simp [digitsValue]
    rw [readNumber_eq_some zeroPrefix hspan (List.cons_ne_nil 0 []) hmax (by omega) (.inl rfl),
      hzero]
  · have hlt : ∀ d ∈ (Nat.digits radix n).reverse, d < radix := fun d hd =>
      Nat.digits_lt_base hr (List.mem_reverse.1 hd)
    have hspan := spanDigits_digitChars hr16 hlt hrest
    rw [← toDigits_eq_map_digits hr hn] at hspan
    have hvalue : digitsValue radix (Nat.digits radix n).reverse = n := by
      rw [digitsValue_reverse, Nat.ofDigits_digits]
    have hlen : (Nat.digits radix n).reverse.length ≤ maxDigits := by
      have := Nat.toDigits_length radix n maxDigits hmax hfit
      rw [toDigits_eq_map_digits hr hn, List.length_map] at this
      exact this
    have hlead : (Nat.digits radix n).reverse.head? ≠ some 0 := by
      have hne : Nat.digits radix n ≠ [] := Nat.digits_ne_nil_iff_ne_zero.2 (by omega)
      rw [List.head?_reverse, List.getLast?_eq_some_getLast hne]
      exact fun h => Nat.getLast_digit_ne_zero radix (by omega) (Option.some_inj.1 h)
    have hne : (Nat.digits radix n).reverse ≠ [] :=
      List.reverse_ne_nil_iff.2 (Nat.digits_ne_nil_iff_ne_zero.2 (by omega))
    rw [readNumber_eq_some zeroPrefix hspan hne hlen (by omega) (.inr hlead), hvalue]

/-! ### Dotted text -/

theorem decimal_toList (n : Nat) : (decimal n).toList = Nat.toDigits 10 n :=
  String.toList_ofList

theorem hex_toList (n : Nat) : (hex n).toList = Nat.toDigits 16 n :=
  String.toList_ofList

/-- A part of a dotted text, a number below 256, is read back up to what follows it. -/
theorem readNumber_part {x : Nat} (hx : x < 256) {rest : List Char}
    (hrest : ∀ c ∈ rest.head?, digitValue 10 c = none) :
    readNumber 10 3 255 false (Nat.toDigits 10 x ++ rest) = some (x, rest) :=
  readNumber_toDigits false (by decide) (by decide) (by omega) (by decide) (by omega) hrest

theorem readNumber_part_dot {x : Nat} (hx : x < 256) (rest : List Char) :
    readNumber 10 3 255 false (Nat.toDigits 10 x ++ '.' :: rest) = some (x, '.' :: rest) :=
  readNumber_part hx fun c hc => by
    cases Option.mem_some_iff.1 hc
    rfl

/-- Four numbers below 256 separated by dots are read as one 32-bit value. -/
theorem readDotted_parts {a b c d : Nat} (ha : a < 256) (hb : b < 256) (hc : c < 256)
    (hd : d < 256) {rest : List Char} (hrest : ∀ c ∈ rest.head?, digitValue 10 c = none) :
    readDotted (Nat.toDigits 10 a ++ '.' :: (Nat.toDigits 10 b ++ '.' :: (Nat.toDigits 10 c ++
      '.' :: (Nat.toDigits 10 d ++ rest)))) = some (((a * 256 + b) * 256 + c) * 256 + d, rest) := by
  simp [readDotted, readSeparated, readNumber_part_dot ha, readNumber_part_dot hb,
    readNumber_part_dot hc, readNumber_part hd hrest]

theorem dottedText_toList (v : Nat) :
    (dottedText v).toList =
      Nat.toDigits 10 (v / 256 ^ 3 % 256) ++ '.' :: (Nat.toDigits 10 (v / 256 ^ 2 % 256) ++
        '.' :: (Nat.toDigits 10 (v / 256 % 256) ++ '.' :: Nat.toDigits 10 (v % 256))) := by
  simp [dottedText, String.intercalate_cons_cons, decimal_toList]

/-- The dotted text of a 32-bit value is read back as the value, up to what follows it. -/
theorem readDotted_dottedText {v : Nat} (hv : v < 2 ^ 32) {rest : List Char}
    (hrest : ∀ c ∈ rest.head?, digitValue 10 c = none) :
    readDotted ((dottedText v).toList ++ rest) = some (v, rest) := by
  have hvalue : ((v / 256 ^ 3 % 256 * 256 + v / 256 ^ 2 % 256) * 256 + v / 256 % 256) * 256 +
      v % 256 = v := by omega
  rw [dottedText_toList]
  simp only [List.append_assoc, List.cons_append]
  rw [readDotted_parts (by omega) (by omega) (by omega) (by omega) hrest, hvalue]

theorem mem_toDigits {b n : Nat} (hb : 1 < b) {c : Char} (h : c ∈ Nat.toDigits b n) :
    ∃ d < b, c = Nat.digitChar d := by
  rcases Nat.eq_zero_or_pos n with rfl | hn
  · rw [Nat.toDigits_zero, List.mem_singleton] at h
    exact ⟨0, by omega, h⟩
  · rw [toDigits_eq_map_digits hb hn] at h
    obtain ⟨d, hd, rfl⟩ := List.mem_map.1 h
    exact ⟨d, Nat.digits_lt_base hb (List.mem_reverse.1 hd), rfl⟩

theorem dot_not_mem_toDigits {b n : Nat} (hb : 1 < b) : '.' ∉ Nat.toDigits b n := fun h => by
  obtain ⟨d, -, hd⟩ := mem_toDigits hb h
  exact Nat.digitChar_ne (n := d) '.' (by decide) hd.symm

/-! ### Where a reading stops -/

theorem spanDigits_suffix (radix : Nat) (cs : List Char) : (spanDigits radix cs).2 <:+ cs := by
  induction cs with
  | nil => exact List.suffix_refl []
  | cons c cs ih =>
    rw [spanDigits]
    split
    · exact ih.trans (List.suffix_cons c cs)
    · exact List.suffix_refl _

theorem readNumber_suffix {radix maxDigits bound : Nat} {zeroPrefix : Bool} {cs rest : List Char}
    {n : Nat} (h : readNumber radix maxDigits bound zeroPrefix cs = some (n, rest)) : rest <:+ cs := by
  have hsuf := spanDigits_suffix radix cs
  cases hs : spanDigits radix cs with
  | mk ds r =>
    rw [hs] at hsuf
    simp only [readNumber, hs] at h
    split_ifs at h
    cases h
    exact hsuf

theorem readNumber_not_digit {radix maxDigits bound : Nat} (zeroPrefix : Bool) {c : Char}
    (hc : digitValue radix c = none) (cs : List Char) :
    readNumber radix maxDigits bound zeroPrefix (c :: cs) = none := by
  have hs : spanDigits radix (c :: cs) = ([], c :: cs) := by simp [spanDigits, hc]
  simp [readNumber, hs]

theorem readDotted_eq_none {cs : List Char} (h : '.' ∉ cs) : readDotted cs = none := by
  cases hp : readNumber 10 3 255 false cs with
  | none => simp [readDotted, hp]
  | some p =>
    obtain ⟨a, rest⟩ := p
    have hsuf := readNumber_suffix hp
    cases rest with
    | nil => simp [readDotted, hp, readSeparated]
    | cons c r =>
      have hc : c ≠ '.' := fun hc => h (hsuf.subset (by simp [hc]))
      simp [readDotted, hp, readSeparated, hc]

theorem readDotted_not_digit {c : Char} (hc : digitValue 10 c = none) (cs : List Char) :
    readDotted (c :: cs) = none := by
  simp [readDotted, readNumber_not_digit false hc]

/-! ### Runs of zero groups -/

/-- The run of `r.2` groups from position `r.1` lies within the groups and holds zeros only. -/
def ZeroRun (gs : List Nat) (r : Nat × Nat) : Prop :=
  r.1 + r.2 ≤ gs.length ∧ (gs.drop r.1).take r.2 = List.replicate r.2 0

theorem ZeroRun.empty (gs : List Nat) : ZeroRun gs (0, 0) := ⟨Nat.zero_le _, rfl⟩

theorem ZeroRun.append {gs : List Nat} {r : Nat × Nat} (h : ZeroRun gs r) (more : List Nat) :
    ZeroRun (gs ++ more) r := by
  obtain ⟨hlen, hrun⟩ := h
  refine ⟨by simp only [List.length_append]; omega, ?_⟩
  rw [List.drop_append_of_le_length (by omega),
    List.take_append_of_le_length (by simp only [List.length_drop]; omega)]
  exact hrun

/-- A run that ends at the last group grows by a zero group. -/
theorem ZeroRun.extend {gs : List Nat} {r : Nat × Nat} (h : ZeroRun gs r)
    (hend : r.1 + r.2 = gs.length) : ZeroRun (gs ++ [0]) (r.1, r.2 + 1) := by
  have hdrop : gs.drop r.1 = List.replicate r.2 0 := by
    rw [← h.2, List.take_of_length_le (by simp only [List.length_drop]; omega)]
  refine ⟨by simp only [List.length_append, List.length_singleton]; omega, ?_⟩
  rw [List.drop_append_of_le_length (by omega), hdrop, ← List.replicate_succ',
    List.take_of_length_le (by simp)]

/-- The scan of the groups keeps both its current run and the longest one zero runs of the groups
seen so far; the current run, when not empty, ends at the group being looked at. -/
theorem zeroRun_zeroRunFrom (gs seen : List Nat) (index : Nat) (hindex : index = seen.length)
    (cur best : Nat × Nat) (hcur : ZeroRun seen cur) (hend : cur.2 ≠ 0 → cur.1 + cur.2 = index)
    (hbest : ZeroRun seen best) : ZeroRun (seen ++ gs) (zeroRunFrom gs index cur best) := by
  induction gs generalizing seen index cur best with
  | nil => simpa [zeroRunFrom] using hbest
  | cons g gs ih =>
    rw [zeroRunFrom, ← List.singleton_append, ← List.append_assoc]
    have hlen : index + 1 = (seen ++ [g]).length := by simp [hindex]
    split
    · next hg =>
      subst hg
      -- the zero group starts a run or extends the current one, which then ends after it
      have hnext : ZeroRun (seen ++ [0]) (if cur.2 = 0 then (index, 1) else (cur.1, cur.2 + 1)) ∧
          (if cur.2 = 0 then (index, 1) else (cur.1, cur.2 + 1)).1 +
            (if cur.2 = 0 then (index, 1) else (cur.1, cur.2 + 1)).2 = index + 1 := by
        by_cases h0 : cur.2 = 0
        · rw [if_pos h0]
          exact ⟨⟨by simp [hindex], by simp [hindex]⟩, rfl⟩
        · rw [if_neg h0]
          exact ⟨hcur.extend (by omega), by have := hend h0; simp only; omega⟩
      dsimp only
      generalize (if cur.2 = 0 then (index, 1) else (cur.1, cur.2 + 1)) = next at hnext ⊢
      refine ih (seen ++ [0]) (index + 1) hlen next _ hnext.1 (fun _ => hnext.2) ?_
      by_cases hlt : best.2 < next.2
      · rw [if_pos hlt]
        exact hnext.1
      · rw [if_neg hlt]
        exact hbest.append [0]
    · exact ih (seen ++ [g]) (index + 1) hlen (0, 0) best (ZeroRun.empty _) (fun h => absurd rfl h)
        (hbest.append [g])

/-- The run the writer shortens to `::` is a run of zero groups. -/
theorem zeroRun_longestZeroRun (gs : List Nat) : ZeroRun gs (longestZeroRun gs) :=
  zeroRun_zeroRunFrom gs [] 0 rfl (0, 0) (0, 0) (ZeroRun.empty []) (fun h => absurd rfl h)
    (ZeroRun.empty [])

/-- Putting back the zeros of a zero run gives the groups. -/
theorem ZeroRun.eq {gs : List Nat} {r : Nat × Nat} (h : ZeroRun gs r) :
    gs.take r.1 ++ List.replicate r.2 0 ++ gs.drop (r.1 + r.2) = gs := by
  rw [← h.2, List.append_assoc, ← List.drop_drop, List.take_append_drop, List.take_append_drop]

/-! ### Groups -/

theorem length_groupsOf (v : Nat) : (groupsOf v).length = 8 := by
  simp [groupsOf]

theorem lt_of_mem_groupsOf {v g : Nat} (h : g ∈ groupsOf v) : g < 65536 := by
  simp only [groupsOf, List.mem_map] at h
  obtain ⟨i, -, rfl⟩ := h
  exact Nat.mod_lt _ (by decide)

theorem groupsValue_groupsOf {v : Nat} (hv : v < 2 ^ 128) : groupsValue (groupsOf v) = v := by
  simp [groupsValue, groupsOf, digitsValue, List.range_succ]
  omega

/-- The text of groups: the first group, then each further group after a colon. -/
theorem groupsText_toList (g : Nat) (gs : List Nat) :
    (groupsText (g :: gs)).toList =
      Nat.toDigits 16 g ++ gs.flatMap fun h => ':' :: Nat.toDigits 16 h := by
  induction gs generalizing g with
  | nil => simp [groupsText, hex_toList]
  | cons h gs ih =>
    have hcons : groupsText (g :: h :: gs) = hex g ++ ":" ++ groupsText (h :: gs) := by
      simp [groupsText, String.intercalate_cons_cons]
    rw [hcons, String.toList_append, String.toList_append, ih, hex_toList]
    simp

theorem dot_not_mem_groups (hs : List Nat) : '.' ∉ hs.flatMap fun h => ':' :: Nat.toDigits 16 h := by
  simp only [List.mem_flatMap, List.mem_cons, not_exists, not_and, not_or]
  exact fun _ _ => ⟨by decide, dot_not_mem_toDigits (by decide)⟩

theorem dot_not_mem_groupsText (gs : List Nat) : '.' ∉ (groupsText gs).toList := by
  cases gs with
  | nil => simp [groupsText]
  | cons g gs =>
    rw [groupsText_toList, List.mem_append, not_or]
    exact ⟨dot_not_mem_toDigits (by decide), dot_not_mem_groups gs⟩

/-! ### Reading groups -/

section ReadGroups

variable {limit index : Nat} {cs : List Char}

/-- The reading of groups stops where neither a dotted address nor a group follows. -/
theorem readGroups_stop (hd : readSeparated ':' index readDotted cs = none)
    (hn : readSeparated ':' index (readNumber 16 4 65535 true) cs = none) :
    readGroups limit index cs = ([], false, cs) := by
  rw [readGroups]
  split
  · have hdot : (if index + 1 < limit then readSeparated ':' index readDotted cs else none) = none := by
      split <;> simp [hd]
    simp [hdot, hn]
  · rfl

/-- A group followed by no dotted address is read, and the reading goes on after it. -/
theorem readGroups_step {g : Nat} {rest : List Char} (hlt : index < limit)
    (hd : readSeparated ':' index readDotted cs = none)
    (hn : readSeparated ':' index (readNumber 16 4 65535 true) cs = some (g, rest)) :
    readGroups limit index cs =
      (g :: (readGroups limit (index + 1) rest).1, (readGroups limit (index + 1) rest).2) := by
  rw [readGroups]
  have hdot : (if index + 1 < limit then readSeparated ':' index readDotted cs else none) = none := by
    split <;> simp [hd]
  simp [hlt, hdot, hn]

/-- A dotted address where two groups are left ends the reading as two groups. -/
theorem readGroups_dotted {w : Nat} {rest : List Char} (hlt : index + 1 < limit)
    (hd : readSeparated ':' index readDotted cs = some (w, rest)) :
    readGroups limit index cs = ([w / 65536, w % 65536], true, rest) := by
  rw [readGroups]
  simp [Nat.lt_of_succ_lt hlt, hlt, hd]

theorem readGroups_nil : readGroups limit index [] = ([], false, []) := by
  apply readGroups_stop <;> cases index <;> simp [readSeparated, readDotted, readNumber, spanDigits]

theorem readGroups_colons (more : List Char) :
    readGroups limit index (':' :: ':' :: more) = ([], false, ':' :: ':' :: more) := by
  have h10 : digitValue 10 ':' = none := rfl
  have h16 : digitValue 16 ':' = none := rfl
  apply readGroups_stop <;> cases index <;>
    simp [readSeparated, readDotted_not_digit h10, readNumber_not_digit true h16]

end ReadGroups

/-- A group's digits are read back as the group, up to a colon or the end. -/
theorem readNumber_group {g : Nat} (hg : g < 65536) {rest : List Char}
    (hrest : ∀ c ∈ rest.head?, c = ':') :
    readNumber 16 4 65535 true (Nat.toDigits 16 g ++ rest) = some (g, rest) :=
  readNumber_toDigits true (by decide) (by decide) (by omega) (by decide) (by omega)
    fun c hc => by rw [hrest c hc]; rfl

theorem head_groups_colon (hs : List Nat) {rest : List Char} (hrest : ∀ c ∈ rest.head?, c = ':') :
    ∀ c ∈ ((hs.flatMap fun h => ':' :: Nat.toDigits 16 h) ++ rest).head?, c = ':' := by
  cases hs with
  | nil => simpa using hrest
  | cons g gs => simp

theorem dot_not_mem_group {hs : List Nat} (h : Nat) {rest : List Char} (hdot : '.' ∉ rest) :
    '.' ∉ Nat.toDigits 16 h ++ ((hs.flatMap fun h => ':' :: Nat.toDigits 16 h) ++ rest) := by
  simp only [List.mem_append, not_or]
  exact ⟨dot_not_mem_toDigits (by decide), dot_not_mem_groups hs, hdot⟩

/-- Groups written each after a colon are read one by one, up to what follows them. -/
theorem readGroups_sep {limit : Nat} {hs : List Nat} {rest : List Char}
    (hhs : ∀ h ∈ hs, h < 65536) (hdot : '.' ∉ rest) (hrest : ∀ c ∈ rest.head?, c = ':') :
    ∀ index, 0 < index → index + hs.length ≤ limit →
      readGroups limit index ((hs.flatMap fun h => ':' :: Nat.toDigits 16 h) ++ rest) =
        (hs ++ (readGroups limit (index + hs.length) rest).1,
          (readGroups limit (index + hs.length) rest).2) := by
  induction hs with
  | nil => simp
  | cons h hs ih =>
    intro index hpos hlim
    have hh : h < 65536 := hhs h List.mem_cons_self
    have hhs' : ∀ g ∈ hs, g < 65536 := fun g hg => hhs g (List.mem_cons_of_mem h hg)
    have hsep : index ≠ 0 := by omega
    have hlen : index + 1 + hs.length ≤ limit := by simp at hlim; omega
    have hd : readSeparated ':' index readDotted
        (':' :: (Nat.toDigits 16 h ++ ((hs.flatMap fun h => ':' :: Nat.toDigits 16 h) ++ rest))) =
          none := by
      simp [readSeparated, hsep, readDotted_eq_none (dot_not_mem_group h hdot)]
    have hn : readSeparated ':' index (readNumber 16 4 65535 true)
        (':' :: (Nat.toDigits 16 h ++ ((hs.flatMap fun h => ':' :: Nat.toDigits 16 h) ++ rest))) =
          some (h, (hs.flatMap fun h => ':' :: Nat.toDigits 16 h) ++ rest) := by
      simp [readSeparated, hsep, readNumber_group hh (head_groups_colon hs hrest)]
    simp only [List.flatMap_cons, List.cons_append, List.append_assoc]
    rw [readGroups_step (by omega) hd hn, ih hhs' (index + 1) (by omega) hlen]
    simp [Nat.add_assoc, Nat.add_comm 1]

/-- Groups written with colons between them are read one by one, up to what follows them. -/
theorem readGroups_groupsText {limit : Nat} {gs : List Nat} {rest : List Char}
    (hgs : ∀ g ∈ gs, g < 65536) (hdot : '.' ∉ rest) (hrest : ∀ c ∈ rest.head?, c = ':')
    (hlim : gs.length ≤ limit) :
    readGroups limit 0 ((groupsText gs).toList ++ rest) =
      (gs ++ (readGroups limit gs.length rest).1, (readGroups limit gs.length rest).2) := by
  cases gs with
  | nil => simp [groupsText]
  | cons h hs =>
    have hlen : hs.length + 1 ≤ limit := by simpa using hlim
    have hd : readSeparated ':' 0 readDotted
        (Nat.toDigits 16 h ++ ((hs.flatMap fun h => ':' :: Nat.toDigits 16 h) ++ rest)) = none := by
      simp [readSeparated, readDotted_eq_none (dot_not_mem_group h hdot)]
    have hn : readSeparated ':' 0 (readNumber 16 4 65535 true)
        (Nat.toDigits 16 h ++ ((hs.flatMap fun h => ':' :: Nat.toDigits 16 h) ++ rest)) =
          some (h, (hs.flatMap fun h => ':' :: Nat.toDigits 16 h) ++ rest) := by
      simp [readSeparated, readNumber_group (hgs h List.mem_cons_self) (head_groups_colon hs hrest)]
    rw [groupsText_toList, List.append_assoc, readGroups_step (by omega) hd hn,
      readGroups_sep (fun g hg => hgs g (List.mem_cons_of_mem h hg)) hdot hrest 1 (by omega)
        (by omega)]
    simp [Nat.add_comm 1]

/-! ### Colon text -/

section Colon

variable {gs : List Nat} (hgs : ∀ g ∈ gs, g < 65536)

include hgs

theorem readColon_groupsText (h8 : gs.length = 8) :
    readColon (groupsText gs).toList = some (groupsValue gs, []) := by
  have hread := readGroups_groupsText hgs (List.not_mem_nil) (by simp) (Nat.le_of_eq h8)
  rw [List.append_nil, h8, readGroups_nil] at hread
  simp [readColon, hread, h8]

/-- Eight groups written with a run of two or more zero groups shortened to `::` are read back:
the reader takes the groups before and after it and fills the gap with as many zeros. -/
theorem readColon_shortened (h8 : gs.length = 8) {start len : Nat} (hrun : ZeroRun gs (start, len))
    (hlen : 1 < len) :
    readColon (groupsText (gs.take start) ++ "::" ++ groupsText (gs.drop (start + len))).toList =
      some (groupsValue gs, []) := by
  have hfit : start + len ≤ 8 := h8 ▸ hrun.1
  have htake : (gs.take start).length = start := by simp; omega
  have hfirst := @readGroups_groupsText 8 (gs.take start)
    (':' :: ':' :: (groupsText (gs.drop (start + len))).toList)
    (fun g hg => hgs g (List.mem_of_mem_take hg))
    (by simpa using dot_not_mem_groupsText (gs.drop (start + len))) (by simp) (by omega)
  rw [htake, readGroups_colons] at hfirst
  have hsecond := @readGroups_groupsText (7 - start) (gs.drop (start + len)) []
    (fun g hg => hgs g (List.mem_of_mem_drop hg)) List.not_mem_nil (by simp) (by simp; omega)
  rw [List.append_nil, readGroups_nil] at hsecond
  simp only [String.toList_append, List.append_assoc]
  simp [readColon, hfirst, hsecond, htake, show start ≠ 8 by omega]
  rw [show 8 - start - (gs.length - (start + len)) = len by omega, ← List.append_assoc]
  exact congrArg groupsValue hrun.eq

end Colon

/-- An IPv4-mapped address, written `::ffff:` and its dotted low 32 bits, is read back: after
`::` come the group `ffff` and the dotted address as the last two groups. -/
theorem readColon_mapped {w : Nat} (hw : w < 2 ^ 32) :
    readColon ("::ffff:" ++ dottedText w).toList = some (65535 * 2 ^ 32 + w, []) := by
  have hffff : Nat.toDigits 16 65535 = ['f', 'f', 'f', 'f'] := by decide
  have htext : ("::ffff:" ++ dottedText w).toList =
      ':' :: ':' :: (Nat.toDigits 16 65535 ++ ':' :: (dottedText w).toList) := by
    simp [hffff]
  have hd : readSeparated ':' 0 readDotted (Nat.toDigits 16 65535 ++ ':' :: (dottedText w).toList) =
      none := by
    have hf : digitValue 10 'f' = none := by decide
    simp [readSeparated, hffff, readDotted_not_digit hf]
  have hn : readSeparated ':' 0 (readNumber 16 4 65535 true)
      (Nat.toDigits 16 65535 ++ ':' :: (dottedText w).toList) =
        some (65535, ':' :: (dottedText w).toList) := by
    simp only [readSeparated, if_pos]
    exact readNumber_group (by decide) (by simp)
  have hlow : readGroups 7 1 (':' :: (dottedText w).toList) = ([w / 65536, w % 65536], true, []) := by
    refine readGroups_dotted (by decide) ?_
    simpa [readSeparated] using @readDotted_dottedText w hw [] (by simp)
  have hgroups : readGroups 7 0 (Nat.toDigits 16 65535 ++ ':' :: (dottedText w).toList) =
      ([65535, w / 65536, w % 65536], true, []) := by
    rw [@readGroups_step 7 0 _ _ _ (by decide) hd hn, hlow]
  simp [htext, readColon, readGroups_colons, hgroups, groupsValue, digitsValue]
  omega

theorem readColon_colonText {v : Nat} (hv : v < 2 ^ 128) :
    readColon (colonText v).toList = some (v, []) := by
  have hgs : ∀ g ∈ groupsOf v, g < 65536 := fun g hg => lt_of_mem_groupsOf hg
  unfold colonText
  by_cases hmap : v / 2 ^ 32 = 65535
  · rw [if_pos hmap, readColon_mapped (Nat.mod_lt v (by decide))]
    congr 2
    omega
  · rw [if_neg hmap]
    have hrun := zeroRun_longestZeroRun (groupsOf v)
    generalize longestZeroRun (groupsOf v) = r at hrun ⊢
    obtain ⟨start, len⟩ := r
    dsimp only
    split
    · next hlen => rw [readColon_shortened hgs (length_groupsOf v) hrun hlen, groupsValue_groupsOf hv]
    · rw [readColon_groupsText hgs (length_groupsOf v), groupsValue_groupsOf hv]

/-- Colon text is never read as dotted: it starts with a colon when it holds a dot. -/
theorem readDotted_colonText (v : Nat) : readDotted (colonText v).toList = none := by
  unfold colonText
  split
  · have htext : ("::ffff:" ++ dottedText (v % 2 ^ 32)).toList =
        ':' :: (":ffff:".toList ++ (dottedText (v % 2 ^ 32)).toList) := by
      simp
    rw [htext]
    exact readDotted_not_digit rfl _
  · dsimp only
    split
    · refine readDotted_eq_none ?_
      simp only [String.toList_append, List.mem_append, not_or]
      exact ⟨⟨dot_not_mem_groupsText _, by simp⟩, dot_not_mem_groupsText _⟩
    · exact readDotted_eq_none (dot_not_mem_groupsText _)

theorem ofText?_text (a : Address) : ofText? a.text = some a := by
  obtain ⟨f, v, hv⟩ := a
  cases f with
  | v4 =>
    have hread := @readDotted_dottedText v hv [] (by simp)
    rw [List.append_nil] at hread
    simp [ofText?, text, readPrefix, hread, ofValue?, hv]
  | v6 =>
    simp [ofText?, text, readPrefix, readDotted_colonText, readColon_colonText hv, ofValue?, hv]

end NetRanges.Address
