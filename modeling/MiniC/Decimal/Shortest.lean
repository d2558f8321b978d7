/-!
# Writing doubles

A double is written with the fewest decimal digits that still read back as it, found by exact
arithmetic.

A double stands for all the numbers that round to it. Of the decimals with as few digits as
possible among those numbers, the one nearest to the double itself is written; a decimal is found
on the first grid of powers of ten that has a point among them, and only the two neighbours of the
double on that grid need to be tried.
-/

namespace MiniC.Decimal

/-- A positive double together with the numbers that round to it: `value / den`, and all between
`low / den` and `high / den`. -/
structure Neighbourhood where
  value : Nat
  low : Nat
  high : Nat
  den : Nat
  /-- Whether the two ends round to the double as well. -/
  closed : Bool
deriving Repr

namespace Neighbourhood

/-- The neighbourhood of `m · 2^e`. Below a power of two the doubles lie twice as dense, which
`narrow` says; ends are in it when ties go to `m`, that is, when `m` is even. -/
def ofBinary (m : Nat) (e : Int) (narrow : Bool) : Neighbourhood :=
  let unit := Nat.pow 2 (e - 2).toNat
  { value := 4 * m * unit
    low := (if narrow then 4 * m - 1 else 4 * m - 2) * unit
    high := (4 * m + 2) * unit
    den := Nat.pow 2 (2 - e).toNat
    closed := m % 2 == 0 }

/-- The same numbers counted in units of `10^place`. -/
def inUnits (n : Neighbourhood) (place : Int) : Neighbourhood :=
  let up := Nat.pow 10 (-place).toNat
  { value := n.value * up
    low := n.low * up
    high := n.high * up
    den := n.den * Nat.pow 10 place.toNat
    closed := n.closed }

/-- Whether the natural number `c` is one of the numbers. -/
def holds (n : Neighbourhood) (c : Nat) : Bool :=
  let scaled := c * n.den
  (n.low < scaled && scaled < n.high) || (n.closed && (n.low == scaled || n.high == scaled))

/-- The natural number among the numbers that is nearest to the double, if there is one. Of two
equally near ones, `tieUp` takes the greater. -/
def natural? (n : Neighbourhood) (tieUp : Bool) : Option Nat :=
  let below := n.value / n.den
  let twice := 2 * (n.value % n.den)
  match n.holds below, n.holds (below + 1) with
  | false, false => none
  | true, false => some below
  | false, true => some (below + 1)
  | true, true =>
      if twice < n.den || (twice == n.den && !tieUp) then some below else some (below + 1)

/-- The place of the leading digit: `10^(magnitude - 1) ≤ value / den < 10^magnitude`. -/
def magnitude (n : Neighbourhood) : Int :=
  if n.den ≤ n.value then (Nat.toDigits 10 (n.value / n.den)).length
  else
    let length := (Nat.toDigits 10 (n.den / n.value)).length
    if n.den ≤ n.value * Nat.pow 10 (length - 1) then 2 - (length : Int) else 1 - (length : Int)

/-- The first decimal `c · 10^place` among the numbers, when grids with `count`, `count + 1`, …
digits are tried, `more` of them. Seventeen digits tell any two doubles apart. -/
def decimalFrom (n : Neighbourhood) (tieUp : Bool) (count : Nat) : (more : Nat) → Nat × Int
  | 0 => (n.value / n.den, 0)
  | more + 1 =>
      let place := n.magnitude - count
      match (n.inUnits place).natural? tieUp with
      | some c => (c, place)
      | none => n.decimalFrom tieUp (count + 1) more

/-- The shortest decimal among the numbers, as `c · 10^place`. -/
def shortest (n : Neighbourhood) (tieUp : Bool) : Nat × Int :=
  n.decimalFrom tieUp 1 17

end Neighbourhood

/-- Digits without the zeros at their end. -/
def dropTrailingZeros (digits : List Char) : List Char :=
  (digits.reverse.dropWhile (· == '0')).reverse

end MiniC.Decimal
