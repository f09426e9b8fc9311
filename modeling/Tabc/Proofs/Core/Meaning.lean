import Mathlib.Logic.Function.Basic
import Tabc.Proofs.Core.Code

/-!
# The meaning of core programs

`Block.run` gives the store after a core program and the values that variables got or that were printed. What
constants and operators mean is said by an `Interp`. A run is cut off after a number of nested steps.
-/

namespace Tabc.Core

/-- What constants and operators mean, over values of some type. -/
structure Interp (V : Type) where
  const : Atom → V
  unary : String → V → Option V
  binary : String → V → V → Option V
  /-- Whether a condition with this value holds. -/
  truth : V → Bool
  /-- The values that a loop from a start up to a stop by a step goes through. -/
  range : V → V → V → List V

abbrev Store (V : Type) := String → Option V

namespace Store

variable {V : Type}

/-- Gives a variable a value. -/
def set (s : Store V) (x : String) (v : V) : Store V := Function.update s x (some v)

@[simp] theorem set_self (s : Store V) (x : String) (v : V) : s.set x v x = some v := by simp [set]

theorem set_of_ne (s : Store V) {x y : String} (v : V) (h : y ≠ x) : s.set x v y = s y := by
  simp [set, Function.update_of_ne h]

end Store

/-- Whole numbers without bounds; a comparison gives one or zero. -/
def ints : Interp Int where
  const
    | .int n => n
    | .bool b => b.toInt
    | _ => 0
  unary
    | "-", a => some (-a)
    | _, _ => none
  binary
    | "+", a, b => some (a + b)
    | "-", a, b => some (a - b)
    | "*", a, b => some (a * b)
    | "<", a, b => some (decide (a < b)).toInt
    | "<=", a, b => some (decide (a ≤ b)).toInt
    | ">", a, b => some (decide (b < a)).toInt
    | ">=", a, b => some (decide (b ≤ a)).toInt
    | "==", a, b => some (decide (a = b)).toInt
    | "!=", a, b => some (decide (a ≠ b)).toInt
    | _, _, _ => none
  truth a := a != 0
  range a b c := if 0 < c then (List.range ((b - a + c - 1) / c).toNat).map fun i : Nat => a + i * c else []

variable {V : Type}

def Term.eval (I : Interp V) (s : Store V) : Term → Option V
  | .const a => some (I.const a.atom)
  | .var x => s x
  | .unary op a => do I.unary op (← a.eval I s)
  | .binary a op b => do
    let v ← a.eval I s
    let w ← b.eval I s
    I.binary op v w

/-- What a run does that can be seen: a variable gets a value, or a value is printed. -/
inductive Event (V : Type) where
  | assign (x : String) (v : V)
  | print (v : V)
deriving DecidableEq

def printed (out : List (Event V)) : List V :=
  out.filterMap fun
    | .print v => some v
    | .assign .. => none

mutual

def Stmt.run (I : Interp V) : Nat → Stmt → Store V → Option (Store V × List (Event V))
  | 0, _, _ => none
  | fuel + 1, st, s => match st with
    | .assign x _ value => do
      let v ← value.eval I s
      return (s.set x v, [.assign x v])
    | .print x => do
      let v ← s x
      return (s, [.print v])
    | .whileDo cond body => do
      let v ← cond.eval I s
      if I.truth v then
        let (s1, out1) ← body.run I fuel s
        let (s2, out2) ← (Stmt.whileDo cond body).run I fuel s1
        return (s2, out1 ++ out2)
      else return (s, [])
    | .forRange x start stop step body => do
      let a ← (Term.bound 0 start).eval I s
      let b ← stop.eval I s
      let c ← (Term.bound 1 step).eval I s
      body.runEach I x fuel (I.range a b c) s
    | .chain cond body rest => do
      let v ← cond.eval I s
      if I.truth v then body.run I fuel s else rest.run I fuel s

def Block.run (I : Interp V) : Nat → Block → Store V → Option (Store V × List (Event V))
  | 0, _, _ => none
  | fuel + 1, p, s => match p with
    | .nil => some (s, [])
    | .cons st rest => do
      let (s1, out1) ← st.run I fuel s
      let (s2, out2) ← rest.run I fuel s1
      return (s2, out1 ++ out2)

def Block.runEach (I : Interp V) (x : String) : Nat → Block → List V → Store V → Option (Store V × List (Event V))
  | 0, _, _, _ => none
  | fuel + 1, p, values, s => match values with
    | [] => some (s, [])
    | v :: more => do
      let (s1, out1) ← p.run I fuel (s.set x v)
      let (s2, out2) ← p.runEach I x fuel more s1
      return (s2, .assign x v :: out1 ++ out2)

def Tail.run (I : Interp V) : Nat → Tail → Store V → Option (Store V × List (Event V))
  | 0, _, _ => none
  | fuel + 1, t, s => match t with
    | .done => some (s, [])
    | .elif cond body rest => do
      let v ← cond.eval I s
      if I.truth v then body.run I fuel s else rest.run I fuel s
    | .otherwise body => body.run I fuel s

end

end Tabc.Core
