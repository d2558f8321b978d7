import MiniC.Decimal.Nearest
import MiniC.Decimal.Shortest

/-!
# The text of a real constant

The shortest digits that read back, with a point or an exponent so that they are no integer.
-/

namespace MiniC.Decimal

/-- The choices a format for doubles makes beside the digits themselves. -/
structure Format where
  /-- Numbers whose leading digit stands right behind a point moved by at least `leastPoint` and at
  most `mostPoint` places are written positionally, all others with an exponent. -/
  leastPoint : Int
  mostPoint : Int
  /-- Of two equally near shortest decimals, whether the greater is written. -/
  tieUp : Bool
  infinity : String
  notANumber : String

/-- Reals between `10^-4` and `10^16` are positional and always have a fraction. -/
def Format.real : Format where
  leastPoint := -3
  mostPoint := 16
  tieUp := true
  infinity := "inf"
  notANumber := "NaN"

/-- The number `0.digits · 10^point`, written positionally. -/
def positional (digits : List Char) (point : Int) : List Char :=
  if point ≤ 0 then ['0', '.'] ++ List.replicate (-point).toNat '0' ++ digits
  else
    let whole := point.toNat
    if digits.length ≤ whole then
      digits ++ List.replicate (whole - digits.length) '0' ++ ['.', '0']
    else digits.take whole ++ ['.'] ++ digits.drop whole

/-- The number `0.digits · 10^point`, written with one digit before the point and an exponent. -/
def scientific (digits : List Char) (point : Int) : List Char :=
  let significand :=
    match digits with
    | first :: rest@(_ :: _) => first :: '.' :: rest
    | _ => digits
  significand ++ ['e'] ++ (toString (point - 1)).toList

/-- A positive finite double, given as `m · 2^e`. -/
def Format.positive (style : Format) (m : Nat) (e : Int) (narrow : Bool) : List Char :=
  let (c, place) := (Neighbourhood.ofBinary m e narrow).shortest style.tieUp
  let written := Nat.toDigits 10 c
  let digits := dropTrailingZeros written
  let point := (written.length : Int) + place
  if style.leastPoint ≤ point && point ≤ style.mostPoint then positional digits point
  else scientific digits point

/-- The text of the double with the given word. -/
def Format.ofWord (style : Format) (word : Nat) : String :=
  let negative := word / Nat.pow 2 63 == 1
  let exponent : Nat := word / Nat.pow 2 52 % Nat.pow 2 11
  let fraction : Nat := word % Nat.pow 2 52
  let sign := if negative then "-" else ""
  if exponent = Nat.pow 2 11 - 1 then
    if fraction = 0 then sign ++ style.infinity else style.notANumber
  else if exponent = 0 then
    if fraction = 0 then sign ++ "0.0"
    else sign ++ String.ofList (style.positive fraction (-1074) false)
  else
    sign ++ String.ofList (style.positive (fraction + Nat.pow 2 52) ((exponent : Int) - 1075)
      (fraction == 0 && 1 < exponent))

/-- The text of a real constant: the fewest digits that read back as `value`. -/
def realText (value : Float) : String :=
  Format.real.ofWord value.toBits.toNat

example : Format.real.ofWord 0x3FB999999999999A = "0.1" := by decide
example : Format.real.ofWord 0x4341C37937E08000 = "1e16" := by decide
example : Format.real.ofWord 0x4341C37937E07FFF = "9999999999999998.0" := by decide
example : Format.real.ofWord 1 = "5e-324" := by decide +kernel
example : Format.real.ofWord 0x7FEFFFFFFFFFFFFF = "1.7976931348623157e308" := by decide +kernel
example : Format.real.ofWord 0x8000000000000000 = "-0.0" := by decide

end MiniC.Decimal
