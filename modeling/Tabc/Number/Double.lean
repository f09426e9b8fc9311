/-!
# Binary64 numbers

A `Double` is given by its bit pattern, so that equality is decidable and every conversion to and from decimal
text is exact arithmetic on `Nat`. `Double.ofRatio` rounds a quotient to the nearest number, ties to even, and
`Double.shortest` finds the fewest decimal digits that read back as the number.
-/

namespace Tabc

structure Double where
  bits : UInt64
deriving DecidableEq, Inhabited

namespace Double

def toFloat (x : Double) : Float := Float.ofBits x.bits

def ofFloat (x : Float) : Double := ⟨x.toBits⟩

def isNegative (x : Double) : Bool := x.bits.toNat / 1 <<< 63 == 1

def exponentField (x : Double) : Nat := x.bits.toNat / 1 <<< 52 % 1 <<< 11

def fractionField (x : Double) : Nat := x.bits.toNat % 1 <<< 52

def isFinite (x : Double) : Bool := x.exponentField != 2047

def isInfinite (x : Double) : Bool := x.exponentField == 2047 && x.fractionField == 0

def isZero (x : Double) : Bool := x.exponentField == 0 && x.fractionField == 0

/-- The significand `m` of a finite number of magnitude `m * 2 ^ q`. -/
def significand (x : Double) : Nat := if x.exponentField == 0 then x.fractionField else x.fractionField + 1 <<< 52

/-- The exponent `q` of a finite number of magnitude `m * 2 ^ q`. -/
def scale (x : Double) : Int := if x.exponentField == 0 then -1074 else (x.exponentField : Int) - 1075

def ofParts (negative : Bool) (magnitude : Nat) : Double := ⟨(magnitude + if negative then 1 <<< 63 else 0).toUInt64⟩

def infinity (negative : Bool) : Double := ofParts negative (2047 * 1 <<< 52)

/-- The quotient rounded to the nearest integer, a half to the even neighbour. -/
def roundDiv (num den : Nat) : Nat :=
  let q := num / den
  let r := num % den
  if 2 * r < den then q else if 2 * r > den then q + 1 else if q % 2 == 0 then q else q + 1

/-- `num * 2 ^ e / den` for an exponent of either sign, as a quotient of naturals. -/
def shiftRatio (num den : Nat) : Int → Nat × Nat
  | .ofNat e => (num * 1 <<< e, den)
  | .negSucc e => (num, den * 1 <<< (e + 1))

/-- The number nearest to `num / den`, ties to even; too large a quotient becomes infinite. -/
def ofRatio (negative : Bool) (num den : Nat) : Double :=
  if num == 0 then ofParts negative 0 else
    let guess : Int := (num.log2 : Int) - (den.log2 : Int)
    let scaled := shiftRatio num den (-guess)
    let exponent := if scaled.1 < scaled.2 then guess - 1 else guess
    let q := max (exponent - 52) (-1074)
    let (n, d) := shiftRatio num den (-q)
    let m := roundDiv n d
    if m < 1 <<< 52 then ofParts negative m
    else
      let magnitude := (q + 1075).toNat * 1 <<< 52 + (m - 1 <<< 52)
      if magnitude ≥ 2047 * 1 <<< 52 then infinity negative else ofParts negative magnitude

def ofInt (n : Int) : Double := ofRatio (n < 0) n.natAbs 1

def ofDecimal (negative : Bool) (digits places : Nat) : Double := ofRatio negative digits (Nat.pow 10 places)

def magnitude (x : Double) : Nat × Nat := shiftRatio x.significand 1 x.scale

def truncate (x : Double) : Int :=
  let (n, d) := x.magnitude
  if x.isNegative then -(n / d : Nat) else (n / d : Nat)

/-- The reals that round to a positive number: both ends and the number itself over one
denominator, and whether the ends belong. -/
structure Interval where
  low : Nat
  mid : Nat
  high : Nat
  den : Nat
  closed : Bool

/-- The interval of reals that round to a finite positive number. Below a power of two the next
number is half as far away. -/
def interval (x : Double) : Interval :=
  let m := x.significand
  let close := x.fractionField == 0 && x.exponentField > 1
  let down := if close then 1 else 2
  let (unit, den) := shiftRatio 1 4 x.scale
  { low := (4 * m - down) * unit, mid := 4 * m * unit, high := (4 * m + 2) * unit, den := den, closed := m % 2 == 0 }

/-- `n * 10 ^ e`, with the power moved to the other side of a comparison when negative. -/
def Interval.holds (i : Interval) (n : Nat) (e : Int) : Bool :=
  let (a, b) := match e with
    | .ofNat k => (n * Nat.pow 10 k * i.den, 1)
    | .negSucc k => (n * i.den, Nat.pow 10 (k + 1))
  if i.closed then i.low * b ≤ a && a ≤ i.high * b else i.low * b < a && a < i.high * b

/-- Twice the distance of `n * 10 ^ e` from the number, compared with the unit `10 ^ e`. -/
def Interval.floorAt (i : Interval) (e : Int) : Nat × Ordering :=
  let (a, b) := match e with
    | .ofNat k => (i.mid, i.den * Nat.pow 10 k)
    | .negSucc k => (i.mid * Nat.pow 10 (k + 1), i.den)
  (a / b, compare (2 * (a % b)) b)

def digitCount (n : Nat) : Nat := (Nat.toDigits 10 n).length

/-- The least `j ≤ fuel` with `num * 10 ^ j ≥ den`. -/
def leadingZeros (num den : Nat) : Nat → Nat
  | 0 => 0
  | fuel + 1 => if num ≥ den then 0 else leadingZeros (num * 10) den fuel + 1

/-- The `p` with `10 ^ (p - 1) ≤ mid / den < 10 ^ p`. -/
def Interval.point (i : Interval) : Int :=
  if i.mid ≥ i.den then digitCount (i.mid / i.den) else 1 - (leadingZeros i.mid i.den 400 : Int)

/-- The nearer of the two neighbours on the grid `10 ^ e` that lies in the interval. -/
def Interval.pick (i : Interval) (e : Int) : Option Nat :=
  let (c, side) := i.floorAt e
  match i.holds c e, i.holds (c + 1) e with
  | true, false => some c
  | false, true => some (c + 1)
  | false, false => none
  | true, true => match side with
    | .lt => some c
    | .gt => some (c + 1)
    | .eq => some (if c % 2 == 0 then c else c + 1)

def Interval.search (i : Interval) (p : Int) (n : Nat) : Nat → Nat × Int
  | 0 => ((i.floorAt (p - n)).1, p - n)
  | fuel + 1 => match i.pick (p - n) with
    | some c => (c, p - n)
    | none => i.search p (n + 1) fuel

/-- Digits and exponent of the shortest decimal `digits * 10 ^ e` that reads back as the number. -/
def shortest (x : Double) : Nat × Int :=
  let i := x.interval
  i.search i.point 1 17

/-- Where positional writing ends and how exponents are written. -/
structure Layout where
  low : Int
  high : Int
  width : Nat

/-- Numbers from `10 ^ -4` up to `10 ^ 16` are positional; exponents have two digits at least. -/
def layout : Layout := ⟨-4, 16, 2⟩

def padZeros (width : Nat) (cs : List Char) : List Char := List.replicate (width - cs.length) '0' ++ cs

def dropZeros (cs : List Char) : List Char := (cs.reverse.dropWhile (· == '0')).reverse

def layOut (l : Layout) (digits : List Char) (point : Int) : List Char :=
  let e := point - 1
  if e < l.low || e ≥ l.high then
    let fraction := match digits.tail with
      | [] => []
      | ds => '.' :: ds
    let size := padZeros l.width (Nat.toDigits 10 e.natAbs)
    digits.take 1 ++ fraction ++ 'e' :: (if e < 0 then '-' else '+') :: size
  else if point ≤ 0 then
    '0' :: '.' :: List.replicate (-point).toNat '0' ++ digits
  else
    let k := point.toNat
    let whole := digits.take k ++ List.replicate (k - digits.length) '0'
    let rest := digits.drop k
    whole ++ '.' :: (if rest.isEmpty then ['0'] else rest)

/-- The text of a number: shortest digits that read back, always with a point or an exponent. -/
def toText (x : Double) : String :=
  let sign := if x.isNegative then "-" else ""
  if x.isFinite then
    if x.isZero then sign ++ "0.0" else
      let (c, e) := x.shortest
      let ds := Nat.toDigits 10 c
      sign ++ String.ofList (layOut layout (dropZeros ds) (e + ds.length))
  else if x.isInfinite then sign ++ "inf"
  else "nan"

def natOf (cs : List Char) : Nat := cs.foldl (fun n c => 10 * n + (c.toNat - 48)) 0

/-- The digits at the start of a text, and what follows. -/
def spanDigits (cs : List Char) : List Char × List Char := (cs.takeWhile Char.isDigit, cs.dropWhile Char.isDigit)

/-- The exponent at the start of a text; a text without one has exponent zero. -/
def readExponent : List Char → Option Int
  | [] => some 0
  | c :: rest =>
    if c == 'e' || c == 'E' then
      let (negative, digits) := match rest with
        | '-' :: ds => (true, ds)
        | '+' :: ds => (false, ds)
        | ds => (false, ds)
      if digits.isEmpty || !digits.all Char.isDigit then none
      else some (if negative then -(natOf digits : Int) else natOf digits)
    else none

/-- A number written with an optional point and an optional exponent, without a sign. -/
def readMagnitude (negative : Bool) (cs : List Char) : Option Double :=
  let (whole, rest) := spanDigits cs
  let (fraction, rest) := match rest with
    | '.' :: more => spanDigits more
    | more => ([], more)
  if whole.isEmpty && fraction.isEmpty then none
  else (readExponent rest).map fun (power : Int) =>
    let e : Int := power - fraction.length
    let m := natOf (whole ++ fraction)
    if e ≥ 0 then ofRatio negative (m * Nat.pow 10 e.toNat) 1 else ofRatio negative m (Nat.pow 10 (-e).toNat)

def ofText? (s : String) : Option Double :=
  let (negative, cs) := match s.toList with
    | '-' :: rest => (true, rest)
    | rest => (false, rest)
  if cs == "inf".toList then some (infinity negative)
  else if cs == "nan".toList then some (ofParts negative (2047 * 1 <<< 52 + 1 <<< 51))
  else readMagnitude negative cs

end Double

end Tabc
