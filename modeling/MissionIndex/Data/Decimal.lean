/-!
# Decimal texts of floating-point numbers

The shortest decimal that reads back as a given number, and the nearest of those. A finite number is
`m · 2^e` for a whole `m`, and the reals that round to it lie between the midpoints to its two
neighbours, midpoints included exactly when `m` is even. On a grid of decimals with a given number
of digits the two grid points around the number are the only ones to try, so the coarsest grid with
a point among those reals gives the digits. All of this is exact arithmetic on whole numbers.

Reading is the inverse: a decimal is a whole number and a power of ten, and the nearest
floating-point number is looked up from them.
-/

namespace MissionIndex.Data

/-! ## Taking a number apart -/

/-- A number as its sign and `mantissa · 2^exponent`, with the largest mantissa that its format
has. -/
structure Binary where
  negative : Bool
  mantissa : Nat
  exponent : Int
deriving DecidableEq, Repr

def mantissaBits : Nat := 53

def minExponent : Int := -1074

/-- Takes a finite number apart. -/
def Binary.ofFloat (x : Float) : Binary :=
  let bits := x.toBits.toNat
  let fraction := bits % Nat.pow 2 52
  let biased := bits / Nat.pow 2 52 % Nat.pow 2 11
  let negative := bits / Nat.pow 2 63 = 1
  if biased = 0 then ⟨negative, fraction, minExponent⟩
  else ⟨negative, Nat.pow 2 52 + fraction, minExponent + (biased - 1 : Nat)⟩

/-! ## The shortest digits -/

/-- A fraction of whole numbers. -/
structure Fraction where
  num : Nat
  den : Nat
deriving Repr

namespace Fraction

def le (a b : Fraction) : Bool := a.num * b.den ≤ b.num * a.den
def lt (a b : Fraction) : Bool := a.num * b.den < b.num * a.den

def scaled (n base : Nat) (e : Int) : Fraction :=
  if 0 ≤ e then ⟨n * base.pow e.toNat, 1⟩ else ⟨n, base.pow (-e).toNat⟩

end Fraction

/-- The whole part of a number that is not negative, times `unit`. -/
def wholeUnits (x : Float) (unit : Nat) : Nat :=
  let b := Binary.ofFloat x
  let f := Fraction.scaled (b.mantissa * unit) 2 b.exponent
  f.num / f.den

/-- The reals that round to a number, as an interval that holds its ends or does not. -/
structure Rounding where
  low : Fraction
  high : Fraction
  closed : Bool
deriving Repr

/-- The reals that round to `m · 2^e`. Below a power of two the next number is half as far away. -/
def Rounding.of (m : Nat) (e : Int) : Rounding where
  low := if m = Nat.pow 2 (mantissaBits - 1) && minExponent < e then .scaled (4 * m - 1) 2 (e - 2)
    else .scaled (2 * m - 1) 2 (e - 1)
  high := .scaled (2 * m + 1) 2 (e - 1)
  closed := m % 2 = 0

/-- Whether a fraction is among the reals of an interval. -/
def Rounding.holds (r : Rounding) (x : Fraction) : Bool :=
  if r.closed then r.low.le x && x.le r.high else r.low.lt x && x.lt r.high

/-- The grid point `d · 10^k` nearest to `x` that reads back as the number. Of two equally near ones
the even one is taken. -/
def gridPoint? (r : Rounding) (x : Fraction) (k : Int) : Option Nat :=
  let unit := Fraction.scaled 1 10 k
  let d := x.num * unit.den / (x.den * unit.num)
  let below := Fraction.scaled d 10 k
  let above := Fraction.scaled (d + 1) 10 k
  match r.holds below && d != 0, r.holds above with
  | true, true =>
    let toBelow := x.num * below.den * above.den - below.num * x.den * above.den
    let toAbove := above.num * x.den * below.den - x.num * above.den * below.den
    some (if toBelow < toAbove || (toBelow = toAbove && d % 2 = 0) then d else d + 1)
  | true, false => some d
  | false, true => some (d + 1)
  | false, false => none

/-- A decimal `digits · 10^exponent`. -/
structure Decimal where
  digits : Nat
  exponent : Int
deriving DecidableEq, Repr

/-- The position of the first digit of a fraction: the largest `p` with `10^p` at most the fraction,
found from a position that is not too low by going down. -/
def leadingPosition (x : Fraction) : Nat → Int → Int
  | 0, p => p
  | steps + 1, p => if (Fraction.scaled 1 10 p).le x then p else leadingPosition x steps (p - 1)

/-- Tries the grids of `n`, `n + 1`, … digits for a number whose first digit is at position `p`. -/
def coarsestGrid (r : Rounding) (x : Fraction) (p : Int) : Nat → Nat → Option Decimal
  | 0, _ => none
  | tries + 1, n =>
    let k := p + 1 - n
    match gridPoint? r x k with
    | some d => some ⟨d, k⟩
    | none => coarsestGrid r x p tries (n + 1)

/-- The decimal with the fewest digits that reads back as `m · 2^e`. -/
def shortestDecimal (m : Nat) (e : Int) : Decimal :=
  let x := Fraction.scaled m 2 e
  let p := leadingPosition x 700 309
  (coarsestGrid (.of m e) x p 17 1).getD ⟨m, 0⟩

/-- Whole digits without the zeros at their end, and how many zeros there were. -/
def stripZeros : Nat → Nat → Nat × Nat
  | 0, d => (d, 0)
  | steps + 1, d =>
    if d % 10 = 0 && d != 0 then
      let (rest, n) := stripZeros steps (d / 10)
      (rest, n + 1)
    else (d, 0)

/-! ## Writing -/

/-- Digits with the decimal point after the first `p + 1` of them, and zeros where digits are
missing on either side. At least one digit stands after the point. -/
def positional (digits : List Char) (p : Int) : List Char :=
  if 0 ≤ p then
    let whole := p.toNat + 1
    let padded := digits ++ List.replicate (whole - digits.length) '0'
    padded.take whole ++ '.' :: (if digits.length ≤ whole then ['0'] else digits.drop whole)
  else '0' :: '.' :: List.replicate ((-p).toNat - 1) '0' ++ digits

/-- Digits with the point after the first one, unless it is alone, and the power of ten behind, with
a sign and at least two digits. -/
def scientific (digits : List Char) (p : Int) : List Char :=
  let mantissa := match digits with
    | d :: rest => if rest = [] then [d] else d :: '.' :: rest
    | [] => []
  let power := (toString p.natAbs).toList
  mantissa ++ 'e' :: (if p < 0 then '-' else '+') ::
    (List.replicate (2 - power.length) '0' ++ power)

/-- The text of a number: positional for powers of ten from -4 up to 15, and scientific outside. -/
def floatText (x : Float) : String :=
  if x.isNaN then "nan"
  else if x.isInf then if x < 0 then "-inf" else "inf"
  else
    let b := Binary.ofFloat x
    let body :=
      if b.mantissa = 0 then ['0', '.', '0']
      else
        let shortest := shortestDecimal b.mantissa b.exponent
        let (d, zeros) := stripZeros 20 shortest.digits
        let digits := (toString d).toList
        let p := shortest.exponent + zeros + digits.length - 1
        if -4 ≤ p && p < 16 then positional digits p else scientific digits p
    String.ofList (if b.negative then '-' :: body else body)

/-! ## Reading -/

/-- The number nearest to `digits · 10^exponent`. Past the ends of the format the exponent no longer
matters, and is cut off. -/
def nearestFloat (digits : Nat) (exponent : Int) : Float :=
  let length : Int := (toString digits).length
  if digits = 0 || exponent + length < -400 then 0
  else if 400 < exponent + length then Float.ofScientific 1 false 400
  else Float.ofScientific digits (exponent < 0) exponent.natAbs

def digitsValue (cs : List Char) : Nat := cs.foldl (fun n c ↦ 10 * n + (c.toNat - 48)) 0

def spanSign : List Char → Bool × List Char
  | '-' :: cs => (true, cs)
  | '+' :: cs => (false, cs)
  | cs => (false, cs)

/-- The value of the part of a decimal after its mantissa: nothing, or a power of ten. -/
def exponentOf? : List Char → Option Int
  | [] => some 0
  | c :: cs =>
    let (negative, digits) := spanSign cs
    if c.toLower = 'e' && digits != [] && digits.all Char.isDigit then
      some (if negative then -(digitsValue digits : Int) else digitsValue digits)
    else none

/-- Reads a number as people write it: digits with at most one point, of which at least one digit,
and possibly a power of ten; or the word for infinity or for no number. -/
def readFloat? (text : List Char) : Option Float :=
  let (negative, cs) := spanSign text
  let signed := fun (x : Float) ↦ if negative then -x else x
  let word := String.ofList (cs.map Char.toLower)
  if word = "inf" || word = "infinity" then some (signed (nearestFloat 1 1000))
  else if word = "nan" then some (0.0 / 0.0)
  else
    let whole := cs.takeWhile Char.isDigit
    let (places, rest) := match cs.dropWhile Char.isDigit with
      | '.' :: more => (more.takeWhile Char.isDigit, more.dropWhile Char.isDigit)
      | rest => ([], rest)
    if whole = [] && places = [] then none
    else (exponentOf? rest).map fun e ↦
      signed (nearestFloat (digitsValue (whole ++ places)) (e - places.length))

end MissionIndex.Data
