/-!
# Reading decimals

The double nearest to a quotient of natural numbers, by exact arithmetic.

A positive double is `m · 2^e` with `m < 2^53` and `e ≥ -1074`. Laid out as a 64-bit word, the
doubles of growing value have growing words, so a significand that rounds up past `2^53` carries
into the exponent by itself, and a word at or past that of infinity is infinity.
-/

namespace MiniC.Decimal

/-- The natural number nearest to `num / den`; of two equally near ones, the even one. -/
def roundEven (num den : Nat) : Nat :=
  let quotient := num / den
  let twice := 2 * (num % den)
  if twice < den || (twice == den && quotient % 2 == 0) then quotient else quotient + 1

/-- `num / den` divided by `2^e`, as a numerator and a denominator. -/
def scaleDown (num den : Nat) (e : Int) : Nat × Nat :=
  (num * Nat.pow 2 (-e).toNat, den * Nat.pow 2 e.toNat)

/-- The exponent `e` for which `num / den` is `m · 2^e` with `2^52 ≤ m < 2^53`, but no less than
that of the smallest doubles. -/
def binaryExponent (num den : Nat) : Int :=
  let guess : Int := (num.log2 : Int) - (den.log2 : Int) - 53
  let (n, d) := scaleDown num den guess
  let exact := if n / d < Nat.pow 2 53 then guess else guess + 1
  max exact (-1074)

/-- The word of positive infinity. -/
def infinityWord : Nat := 0x7FF0000000000000

/-- The word of the double nearest to `num / den`, ties to even. -/
def nearestWord (num den : Nat) : Nat :=
  if num = 0 then 0
  else
    let e := binaryExponent num den
    let (n, d) := scaleDown num den e
    min infinityWord ((e + 1074).toNat * Nat.pow 2 52 + roundEven n d)

/-- The double nearest to `digits / 10^places`. -/
def nearest (digits places : Nat) : Float :=
  Float.ofBits (UInt64.ofNat (nearestWord digits (Nat.pow 10 places)))

/-- The value of a run of decimal digits. -/
def ofDigits (digits : List Char) : Nat :=
  digits.foldl (fun value c => 10 * value + (c.toNat - '0'.toNat)) 0

/-- The double that digits with one point in them denote, such as `2.50` or `7.`. -/
def read (text : List Char) : Float :=
  let whole := text.takeWhile (· != '.')
  let fraction := (text.dropWhile (· != '.')).drop 1
  nearest (ofDigits (whole ++ fraction)) fraction.length

end MiniC.Decimal
