/-!
# Shortest decimal text of binary64 numbers

`Binary.nearest` rounds a positive fraction to the nearest binary64 value (ties to an even
mantissa): `m * 2 ^ q` with a 53-bit mantissa, or a smaller one at the least exponent. A value
is written with the fewest significant digits that read back to it: the interval of reals
rounding to it reaches half a step to either neighbour (a quarter step below a power of two),
its ends included when the mantissa is even. For one, two, ... digits the two neighbours of the
value on that decimal grid are tried in exact arithmetic; the first grid with a hit gives the
digits, and of two hits the nearer one.

A value from `1e-5` up to `1e16` is written positionally, with `.0` when it has no fraction;
any other is written in scientific form with a signed power of ten, as `1e+16` or `1e-6`.
All arithmetic is on natural numbers; a fraction `a / b` is the pair `(a, b)` with `b > 0`.
-/

-- Powers of numbers are taken through the core instance, whatever else is in scope.
attribute [local instance (1100)] instPowNat

namespace NetRanges.Decimal

/-- Bits of precision of a binary64 mantissa. -/
def precision : Nat := 53

/-- The least binary exponent of a binary64 value (that of the subnormals). -/
def minExponent : Int := -1074

/-- The greatest binary exponent of a finite binary64 value. -/
def maxExponent : Int := 971

/-- A finite nonnegative binary64 value `mantissa * 2 ^ exponent`. -/
structure Binary where
  mantissa : Nat
  exponent : Int

/-- `2 ^ k` as a fraction, for any integer `k`. -/
def pow2 (k : Int) : Nat × Nat := if 0 ≤ k then (2 ^ k.toNat, 1) else (1, 2 ^ (-k).toNat)

/-- `10 ^ k` as a fraction, for any integer `k`. -/
def pow10 (k : Int) : Nat × Nat := if 0 ≤ k then (10 ^ k.toNat, 1) else (1, 10 ^ (-k).toNat)

/-- `a / b ≤ c / d`. -/
def fracLe (x y : Nat × Nat) : Bool := x.1 * y.2 ≤ y.1 * x.2

/-- `a / b < c / d`. -/
def fracLt (x y : Nat × Nat) : Bool := x.1 * y.2 < y.1 * x.2

def fracMul (x y : Nat × Nat) : Nat × Nat := (x.1 * y.1, x.2 * y.2)

/-- The greatest `k` with `radix ^ k ≤ a / b`, for `a, b > 0`: the difference of the two digit
counts is that `k` or one more. -/
def floorLog (radix : Nat) (x : Nat × Nat) (digits : Nat → Nat) : Int :=
  let k : Int := (digits x.1 : Int) - (digits x.2 : Int)
  let p := if 0 ≤ k then (radix ^ k.toNat, 1) else (1, radix ^ (-k).toNat)
  if fracLe p x then k else k - 1

/-- The number of decimal digits of `n` less one. -/
def log10 (n : Nat) : Nat := (Nat.toDigits 10 n).length - 1

/-- A fraction rounded to the nearest natural number, a half going to the even one. -/
def roundEven (x : Nat × Nat) : Nat :=
  let q := x.1 / x.2
  let r := x.1 % x.2
  if 2 * r < x.2 then q else if x.2 < 2 * r then q + 1 else if q % 2 = 0 then q else q + 1

/-- The binary64 value nearest to the positive fraction, or `none` past the largest one. -/
def Binary.nearest (x : Nat × Nat) : Option Binary :=
  let k := floorLog 2 x Nat.log2
  let q := max (k - (precision - 1 : Nat)) minExponent
  let m := roundEven (fracMul x (pow2 (-q)))
  let (m, q) := if m = 2 ^ precision then (2 ^ (precision - 1), q + 1) else (m, q)
  if maxExponent < q then none else some ⟨m, q⟩

def Binary.value (b : Binary) : Nat × Nat := fracMul (b.mantissa, 1) (pow2 b.exponent)

/-- Whether a fraction reads back as the value: it lies in the value's rounding interval. -/
def Binary.readsBack (b : Binary) (x : Nat × Nat) : Bool :=
  let unit := pow2 b.exponent
  let hi := fracMul (2 * b.mantissa + 1, 2) unit
  let lo := if b.mantissa = 2 ^ (precision - 1) ∧ minExponent < b.exponent then
      fracMul (4 * b.mantissa - 1, 4) unit
    else fracMul (2 * b.mantissa - 1, 2) unit
  if b.mantissa % 2 = 0 then fracLe lo x && fracLe x hi else fracLt lo x && fracLt x hi

/-- The distance between two fractions, as a fraction. -/
def fracDist (x y : Nat × Nat) : Nat × Nat :=
  let a := x.1 * y.2
  let c := y.1 * x.2
  (if a ≤ c then c - a else a - c, x.2 * y.2)

/-- The digits `t` of the grid point `t * 10 ^ p` that reads back as the value, with `n`
significant digits, if either neighbour of the value on that grid does. -/
def Binary.onGrid (b : Binary) (p : Int) : Option Nat :=
  let v := b.value
  let step := pow10 p
  let down := (v.1 * step.2) / (v.2 * step.1)
  let downOk := b.readsBack (fracMul (down, 1) step)
  let upOk := b.readsBack (fracMul (down + 1, 1) step)
  if downOk && upOk then
    if fracLe (fracDist (fracMul (down, 1) step) v) (fracDist (fracMul (down + 1, 1) step) v) then
      some down
    else some (down + 1)
  else if downOk then some down
  else if upOk then some (down + 1)
  else none

/-- The shortest digits `t` and exponent `p` with `t * 10 ^ p` reading back as the value. -/
def Binary.shortest (b : Binary) : Nat × Int :=
  let e := floorLog 10 b.value log10
  let grids := (List.range 17).map fun (n : Nat) => e - (n : Int)
  match grids.findSome? fun p => (b.onGrid p).map fun t => (t, p) with
  | some r => r
  | none => (b.mantissa, 0)

/-- Moves trailing zeros of the digits into the exponent. -/
def trimZeros (t : Nat) (p : Int) (fuel : Nat) : Nat × Int :=
  match fuel with
  | 0 => (t, p)
  | fuel + 1 => if t ≠ 0 ∧ t % 10 = 0 then trimZeros (t / 10) (p + 1) fuel else (t, p)

/-- The positional text of `t * 10 ^ p`, with `.0` when it has no fraction. -/
def positional (t : Nat) (p : Int) : String :=
  let ds := Nat.toDigits 10 t
  if 0 ≤ p then String.ofList (ds ++ List.replicate p.toNat '0') ++ ".0"
  else
    let f := (-p).toNat
    if f < ds.length then String.ofList (ds.take (ds.length - f) ++ '.' :: ds.drop (ds.length - f))
    else "0." ++ String.ofList (List.replicate (f - ds.length) '0' ++ ds)

/-- The text of `t * 10 ^ p`, for `t > 0`, with the point after the first digit and the power
of ten after `e` with its sign: `1e+16`, `1.2345e+30`, `5e-324`. -/
def scientific (t : Nat) (p : Int) : String :=
  let ds := Nat.toDigits 10 t
  let e : Int := p + ((ds.length - 1 : Nat) : Int)
  let lead := match ds with
    | d :: rest@(_ :: _) => String.ofList (d :: '.' :: rest)
    | _ => String.ofList ds
  lead ++ "e" ++ (if 0 ≤ e then "+" else "-") ++ toString e.natAbs

/-- The text of a nonnegative binary64 value from its shortest digits: positional from `1e-5`
up to `1e16`, scientific otherwise, and `0.0` for zero. -/
def Binary.text (b : Binary) : String :=
  if b.mantissa = 0 then "0.0"
  else
    let (t, p) := b.shortest
    let (t, p) := trimZeros t p 20
    let whole : Int := p + ((Nat.toDigits 10 t).length : Int)
    if -5 < whole ∧ whole ≤ 16 then positional t p else scientific t p

example : (Binary.mk 1 0).text = "1.0" := by decide +kernel

end NetRanges.Decimal
