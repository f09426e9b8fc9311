import Mathlib.Logic.Function.Basic
import Tabc.Proofs.Core.Code
import Tabc.Target.Build

/-!
# Target trees of core programs

A variable gets the type of the first value that is assigned to it, from the top of the program down. Its type
is asked for where it decides the type of a result or of a new variable (`Block.bound`).
-/

namespace Tabc.Core

open Target.Build (isComparison)

/-- The types of the variables that were assigned so far. -/
abbrev Types := String → Option Prim

def declarationOf (x : String) (p : Prim) : Target.Node := .declaration (.ident x) (.type (.prim p))

def arithmetic (a b : Prim) : Prim :=
  if a = .float ∨ b = .float then .float else if a = .str ∨ b = .str then .str else .int

def unaryType (op : String) (a : Prim) : Prim := if op == "!" then .bool else a

def binaryType (op : String) (a b : Prim) : Prim := if isComparison op then .bool else arithmetic a b

namespace Term

/-- The type of the operand that holds the value of an expression. -/
def type (Γ : Types) : Term → Prim
  | .const a => a.prim
  | .var x => (Γ x).getD .int
  | .unary op a => unaryType op (a.type Γ)
  | .binary a op b => binaryType op (a.type Γ) (b.type Γ)

/-- The operations that compute an expression, if `r` registers are taken. -/
def trees (Γ : Types) : Term → Nat → List Target.Node
  | .const a, r => [declarationOf (reg (r + 1)) a.prim, .assign (.ident (reg (r + 1))) (.atom a.atom)]
  | .var _, _ => []
  | .unary op a, r =>
    let t := (Term.unary op a).type Γ
    let x := reg (r + a.size + 1)
    a.trees Γ r ++ [declarationOf x t, .unary (.ident x) (.type (.prim t)) op (.ident (a.operand r))]
  | .binary a op b, r =>
    let t := (Term.binary a op b).type Γ
    let x := reg (r + a.size + b.size + 1)
    a.trees Γ r ++ b.trees Γ (r + a.size) ++ [declarationOf x t,
      .binary (.ident x) (.type (.prim t)) op (.ident (a.operand r)) (.ident (b.operand (r + a.size)))]

end Term

namespace Term

def direct : Term → List String
  | .var x => [x]
  | _ => []

/-- The variables whose types are asked for while an expression is computed: the operands of
arithmetic. -/
def asked : Term → List String
  | .const _ => []
  | .var _ => []
  | .unary op a => a.asked ++ if op == "!" then [] else a.direct
  | .binary a op b => a.asked ++ b.asked ++ if isComparison op then [] else a.direct ++ b.direct

end Term

namespace Types

def knows (Γ : Types) (names : List String) : Bool := names.all fun x => (Γ x).isSome

theorem knows_append (Γ : Types) (a b : List String) : Γ.knows (a ++ b) = (Γ.knows a && Γ.knows b) := List.all_append

/-- A name is taken by a variable that was assigned or by a built-in function. -/
def taken (Γ : Types) (x : String) : Bool := (Γ x).isSome || ScopeTable.builtins4.has x

/-- A name that is not taken yet gets a type. -/
def assigned (Γ : Types) (x : String) (t : Prim) : Types := if Γ.taken x then Γ else Function.update Γ x (some t)

/-- The assignment of an operand to a variable, with a declaration if its name is not taken yet. -/
def assignment (Γ : Types) (x : String) (t : Prim) (operand : String) : List Target.Node :=
  (if Γ.taken x then [] else [declarationOf x t]) ++ [.assign (.ident x) (.text operand)]

end Types

mutual

def Stmt.types : Stmt → Types → Types
  | .assign x _ value, Γ => Γ.assigned x (value.type Γ)
  | .print _, Γ => Γ
  | .whileDo _ body, Γ => body.types Γ
  | .forRange x _ _ _ body, Γ => body.types (Γ.assigned x .int)
  | .chain _ body rest, Γ => rest.types (body.types Γ)

def Block.types : Block → Types → Types
  | .nil, Γ => Γ
  | .cons s rest, Γ => rest.types (s.types Γ)

def Tail.types : Tail → Types → Types
  | .done, Γ => Γ
  | .elif _ body rest, Γ => rest.types (body.types Γ)
  | .otherwise body, Γ => body.types Γ

end

mutual

/-- In a statement, the types that are asked for are known. -/
def Stmt.bound : Stmt → Types → Bool
  | .assign x _ value, Γ => Γ.knows value.asked && (Γ.taken x || Γ.knows value.direct)
  | .print x, Γ => (Γ x).isSome && Γ x != some .none
  | .whileDo cond body, Γ => Γ.knows cond.asked && body.bound Γ
  | .forRange x start stop step body, Γ =>
    Γ.knows (Term.bound 0 start).asked && Γ.knows stop.asked && Γ.knows (Term.bound 1 step).asked &&
      body.bound (Γ.assigned x .int)
  | .chain cond body rest, Γ => Γ.knows cond.asked && body.bound Γ && rest.bound (body.types Γ)

def Block.bound : Block → Types → Bool
  | .nil, _ => true
  | .cons s rest, Γ => s.bound Γ && rest.bound (s.types Γ)

def Tail.bound : Tail → Types → Bool
  | .done, _ => true
  | .elif cond body rest, Γ => Γ.knows cond.asked && body.bound Γ && rest.bound (body.types Γ)
  | .otherwise body, Γ => body.bound Γ

end

/-- The operations that compute the further conditions of a chain. -/
def Tail.heads : Tail → Types → Nat → List Target.Node
  | .done, _, _ => []
  | .elif cond body rest, Γ, r => cond.trees Γ r ++ rest.heads (body.types Γ) (r + cond.size + body.regs)
  | .otherwise _, _, _ => []

/-- A bound of a range gets a register of its own. -/
def boundTrees (Γ : Types) (bound : Term) (r k : Nat) : List Target.Node :=
  bound.trees Γ r ++ [declarationOf (reg k) .int, .assign (.ident (reg k)) (.text (bound.operand r))]

mutual

/-- The target trees of a statement, if `r` registers are taken. -/
def Stmt.trees : Stmt → Types → Nat → List Target.Node
  | .assign x _ value, Γ, r => value.trees Γ r ++ Γ.assignment x (value.type Γ) (value.operand r)
  | .print x, Γ, r =>
    [declarationOf (reg (r + 3)) .none, .assign (.ident (reg (r + 3)))
      (.call (.text ("print_" ++ ((Term.var x).type Γ).name)) (.list [.text x]))]
  | .whileDo cond body, Γ, r =>
    -- the last operation of the condition is done again at the end of the body
    cond.trees Γ r ++ [.whileDo (.ident (cond.operand r))
      (.block (body.trees Γ (r + cond.size) ++ (cond.trees Γ r).getLast?.toList))]
  | .forRange x start stop step body, Γ, r =>
    let a := Term.bound 0 start
    let b := Term.bound 1 step
    let r1 := r + 3 + a.size
    let r2 := r1 + stop.size
    let r3 := r2 + b.size
    boundTrees Γ a (r + 3) (r + 1) ++ boundTrees Γ stop r1 (r + 2) ++ boundTrees Γ b r2 (r + 3) ++
      Γ.assignment x .int (reg (r + 1)) ++
      [.forRange (.ident x) (.range (.text (reg (r + 2))) (.text (reg (r + 1))) (.text (reg (r + 3))))
        (.block (body.trees (Γ.assigned x .int) (r3 + 1)))]
  | .chain cond body rest, Γ, r =>
    cond.trees Γ r ++ rest.heads (body.types Γ) (r + cond.size + body.regs) ++
      .ifThen (.ident (cond.operand r)) (.block (body.trees Γ (r + cond.size))) ::
      rest.trees (body.types Γ) (r + cond.size + body.regs)

def Block.trees : Block → Types → Nat → List Target.Node
  | .nil, _, _ => []
  | .cons s rest, Γ, r => s.trees Γ r ++ rest.trees (s.types Γ) (r + s.regs)

def Tail.trees : Tail → Types → Nat → List Target.Node
  | .done, _, _ => []
  | .elif cond body rest, Γ, r =>
    .elifThen (.ident (cond.operand r)) (.block (body.trees Γ (r + cond.size))) ::
      rest.trees (body.types Γ) (r + cond.size + body.regs)
  | .otherwise .nil, _, _ => []
  | .otherwise (.cons s rest), Γ, r => [.elseThen (.block (s.trees Γ r ++ rest.trees (s.types Γ) (r + s.regs)))]

end

end Tabc.Core
