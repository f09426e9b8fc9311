import Tabc.Fault

/-!
# Arithmetic on constants

Whole numbers of any size, binary64 fractions, truth values that count as zero and one, and texts. The remainder
has the sign of the divisor.
-/

namespace Tabc

inductive Num where
  | int (n : Int)
  | float (x : Double)
deriving DecidableEq, Inhabited

def Atom.num? : Atom → Option Num
  | .bool b => some (.int (if b then 1 else 0))
  | .int n => some (.int n)
  | .float x => some (.float x)
  | _ => Option.none

def Atom.int? : Atom → Option Int
  | .bool b => some (if b then 1 else 0)
  | .int n => some n
  | _ => Option.none

def Atom.truth : Atom → Bool
  | .none => false
  | .bool b => b
  | .int n => n != 0
  | .float x => !x.isZero
  | .text s => s != ""

namespace Double

def isNan (x : Double) : Bool := !x.isFinite && !x.isInfinite

/-- The exact value of a finite number as a quotient of an integer and a natural number. -/
def ratio (x : Double) : Int × Nat :=
  let (n, d) := x.magnitude
  (if x.isNegative then -(n : Int) else n, d)

def add (x y : Double) : Double := ofFloat (x.toFloat + y.toFloat)

def sub (x y : Double) : Double := ofFloat (x.toFloat - y.toFloat)

def mul (x y : Double) : Double := ofFloat (x.toFloat * y.toFloat)

def div (x y : Double) : Double := ofFloat (x.toFloat / y.toFloat)

def neg (x : Double) : Double := ofParts (!x.isNegative) (x.bits.toNat % 1 <<< 63)

def zeroLike (y : Double) : Double := ofParts y.isNegative 0

/-- The remainder of the quotient that is cut off toward zero; it is exact and has the sign of the
first number. -/
def remainder (x y : Double) : Double :=
  if x.isNan || y.isNan || x.isInfinite then ofParts false (2047 * 1 <<< 52 + 1 <<< 51)
  else if y.isInfinite then x
  else
    let q := min x.scale y.scale
    let a := x.significand * 1 <<< (x.scale - q).toNat
    let b := y.significand * 1 <<< (y.scale - q).toNat
    let (n, d) := shiftRatio (a % b) 1 q
    ofRatio x.isNegative n d

def mod (x y : Double) : Double :=
  let r := x.remainder y
  if r.isNan then r
  else if r.isZero then zeroLike y
  else if r.isNegative != y.isNegative then r.add y
  else r

def floorDiv (x y : Double) : Double := ofFloat (((x.sub (x.mod y)).div y).toFloat).floor

end Double

namespace Num

/-- A number as a fraction; a whole number that is too large has none. -/
def toDouble : Num → Except Fault Double
  | .float x => pure x
  | .int n =>
    let x := Double.ofInt n
    if x.isInfinite then throw .overflow else pure x

def ratio : Num → Int × Nat
  | .int n => (n, 1)
  | .float x => x.ratio

/-- Compares two numbers exactly; what is not a number compares with nothing. -/
def compare? (a b : Num) : Option Ordering :=
  let special (x : Num) : Option Bool := match x with
    | .float x => if x.isInfinite then some x.isNegative else none
    | .int _ => none
  let isNan (x : Num) : Bool := match x with
    | .float x => x.isNan
    | .int _ => false
  if isNan a || isNan b then none
  else match special a, special b with
    | some p, some q => some (if p == q then .eq else if p then .lt else .gt)
    | some p, none => some (if p then .lt else .gt)
    | none, some q => some (if q then .gt else .lt)
    | none, none =>
      let (m, c) := a.ratio
      let (n, d) := b.ratio
      some (compare (m * d) (n * c))

end Num

inductive BinOp where
  | add | sub | mul | div | floorDiv | mod | pow | matmul
  | bitAnd | bitOr | bitXor | shiftLeft | shiftRight
deriving DecidableEq, Inhabited

inductive CmpOp where
  | lt | le | gt | ge | eq | ne | isSame | isOther | isIn | notIn
deriving DecidableEq, Inhabited

namespace Arith

/-- Bitwise operations on whole numbers of either sign, given that on naturals: a negative number is
the complement of a natural one. -/
def bitwise (f : Bool → Bool → Bool) (a b : Int) : Int :=
  let split (n : Int) : Bool × Nat := if n < 0 then (true, (-n - 1).toNat) else (false, n.toNat)
  let (s, m) := split a
  let (t, n) := split b
  let width := max (Nat.log2 m) (Nat.log2 n) + 1
  let bit (i : Nat) : Bool := f (s != m.testBit i) (t != n.testBit i)
  let negative := f s t
  let magnitude := (List.range width).foldl
    (fun acc i => if bit i != negative then acc + 1 <<< i else acc) 0
  if negative then -(magnitude : Int) - 1 else magnitude

def intPow (a b : Int) : Except Fault Atom :=
  if b ≥ 0 then pure (.int (Int.pow a b.toNat))
  else if a = 0 then throw .divisionByZero
  else do
    let x ← Num.toDouble (.int a)
    let y ← Num.toDouble (.int b)
    return .float (.ofFloat (x.toFloat.pow y.toFloat))

def ints (op : BinOp) (a b : Int) : Except Fault Atom :=
  match op with
  | .add => pure (.int (a + b))
  | .sub => pure (.int (a - b))
  | .mul => pure (.int (a * b))
  | .div =>
    if b = 0 then throw .divisionByZero
    else
      let x := Double.ofRatio ((a < 0) != (b < 0)) a.natAbs b.natAbs
      if x.isInfinite then throw .overflow else pure (.float x)
  | .floorDiv => if b = 0 then throw .divisionByZero else pure (.int (Int.fdiv a b))
  | .mod => if b = 0 then throw .divisionByZero else pure (.int (Int.fmod a b))
  | .pow => intPow a b
  | .matmul => throw .wrongKind
  | .bitAnd => pure (.int (bitwise (· && ·) a b))
  | .bitOr => pure (.int (bitwise (· || ·) a b))
  | .bitXor => pure (.int (bitwise (· != ·) a b))
  | .shiftLeft => if b < 0 then throw .badValue else pure (.int (a * Int.ofNat (1 <<< b.toNat)))
  | .shiftRight => if b < 0 then throw .badValue else pure (.int (Int.fdiv a (Int.ofNat (1 <<< b.toNat))))

def doubles (op : BinOp) (x y : Double) : Except Fault Atom :=
  match op with
  | .add => pure (.float (x.add y))
  | .sub => pure (.float (x.sub y))
  | .mul => pure (.float (x.mul y))
  | .div => if y.isZero then throw .divisionByZero else pure (.float (x.div y))
  | .floorDiv => if y.isZero then throw .divisionByZero else pure (.float (x.floorDiv y))
  | .mod => if y.isZero then throw .divisionByZero else pure (.float (x.mod y))
  | .pow => pure (.float (.ofFloat (x.toFloat.pow y.toFloat)))
  | _ => throw .wrongKind

def fill (value : Atom) (used : Bool) : List Char → Except Fault (List Char)
  | [] => if used then pure [] else throw .wrongKind
  | '%' :: '%' :: rest => do return '%' :: (← fill value used rest)
  | '%' :: 's' :: rest =>
    if used then throw .wrongKind
    else do return value.plain.toList ++ (← fill value true rest)
  | '%' :: 'r' :: rest =>
    if used then throw .wrongKind
    else do return value.render.toList ++ (← fill value true rest)
  | '%' :: _ => throw .wrongKind
  | c :: rest => do return c :: (← fill value used rest)

def truths (op : BinOp) (a b : Bool) : Option Bool :=
  match op with
  | .bitAnd => some (a && b)
  | .bitOr => some (a || b)
  | .bitXor => some (a != b)
  | _ => none

def repeatText (s : String) (n : Int) : String := String.join (List.replicate n.toNat s)

def binary (op : BinOp) (a b : Atom) : Except Fault Atom :=
  match op, a, b with
  | .add, .text s, .text t => pure (.text (s ++ t))
  | .mod, .text s, v => do return .text (String.ofList (← fill v false s.toList))
  | op, a, b => match a, b with
    | .bool p, .bool q => match truths op p q with
      | some r => pure (.bool r)
      | none => ints op (if p then 1 else 0) (if q then 1 else 0)
    | .text s, b => match op, b.int? with
      | .mul, some n => pure (.text (repeatText s n))
      | _, _ => throw .wrongKind
    | a, .text s => match op, a.int? with
      | .mul, some n => pure (.text (repeatText s n))
      | _, _ => throw .wrongKind
    | a, b => match a.int?, b.int? with
      | some m, some n => ints op m n
      | _, _ => match a.num?, b.num? with
        | some x, some y => do doubles op (← x.toDouble) (← y.toDouble)
        | _, _ => throw .wrongKind

def equal (a b : Atom) : Bool :=
  match a.num?, b.num? with
  | some x, some y => x.compare? y == some .eq
  | some _, none => false
  | none, some _ => false
  | none, none => a == b

def order (a b : Atom) : Except Fault (Option Ordering) :=
  match a, b with
  | .text s, .text t => pure (some (compare s t))
  | a, b => match a.num?, b.num? with
    | some x, some y => pure (x.compare? y)
    | _, _ => throw .wrongKind

def comparison (op : CmpOp) (a b : Atom) : Except Fault Bool :=
  match op with
  | .eq => pure (equal a b)
  | .ne => pure (!equal a b)
  | .isSame => pure (a == b)
  | .isOther => pure (a != b)
  | .lt => do return (← order a b) == some .lt
  | .gt => do return (← order a b) == some .gt
  | .le => do return (← order a b).any (· != .gt)
  | .ge => do return (← order a b).any (· != .lt)
  | .isIn => throw .wrongKind
  | .notIn => throw .wrongKind

def negate : Atom → Except Fault Atom
  | .float x => pure (.float x.neg)
  | a => match a.int? with
    | some n => pure (.int (-n))
    | none => throw .wrongKind

def plus : Atom → Except Fault Atom
  | .float x => pure (.float x)
  | a => match a.int? with
    | some n => pure (.int n)
    | none => throw .wrongKind

def invert (a : Atom) : Except Fault Atom :=
  match a.int? with
  | some n => pure (.int (-n - 1))
  | none => throw .wrongKind

def truncate : Atom → Except Fault Atom
  | .float x =>
    if x.isInfinite then throw .overflow
    else if x.isNan then throw .badValue
    else pure (.int x.truncate)
  | a => match a.int? with
    | some n => pure (.int n)
    | none => throw .wrongKind

def widen (a : Atom) : Except Fault Atom :=
  match a.num? with
  | some x => do return .float (← x.toDouble)
  | none => throw .wrongKind

end Arith

end Tabc
