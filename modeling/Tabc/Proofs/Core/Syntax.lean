import Tabc.Syntax.Node

/-!
# Core programs

The part of the language that the later stages are judged on. A chain is one statement, so that a further
condition or a last alternative always stands behind the condition that it belongs to.
-/

namespace Tabc.Core

/-- A constant: a whole number, a fraction or a truth value. -/
inductive Const where
  | int (n : Int)
  | float (x : Double)
  | bool (b : Bool)
deriving DecidableEq

namespace Const

/-- The constant as it stands in trees and instructions. -/
def atom : Const → Atom
  | .int n => .int n
  | .float x => .float x
  | .bool b => .bool b

def prim : Const → Prim
  | .int _ => .int
  | .float _ => .float
  | .bool _ => .bool

end Const

/-- A pure expression. -/
inductive Term where
  | const (a : Const)
  | var (x : String)
  | unary (op : String) (a : Term)
  | binary (a : Term) (op : String) (b : Term)
deriving DecidableEq

namespace Term

def node : Term → Node
  | .const a => .literal a.prim.name a.atom
  | .var x => .ident x
  | .unary op a => .unary op a.node
  | .binary a op b => .binary a.node op b.node

/-- The tree of a part that may be missing. -/
def node? : Option Term → Node
  | some t => t.node
  | none => .none

/-- The variables that an expression reads. -/
def vars : Term → List String
  | .const _ => []
  | .var x => [x]
  | .unary _ a => a.vars
  | .binary a _ b => a.vars ++ b.vars

end Term

mutual

/-- A statement. -/
inductive Stmt where
  | assign (x : String) (type : Option Ty) (value : Term)
  | print (x : String)
  | whileDo (cond : Term) (body : Block)
  | forRange (x : String) (start : Option Term) (stop : Term) (step : Option Term) (body : Block)
  /-- A chain of conditions: its first alternative and what follows. -/
  | chain (cond : Term) (body : Block) (rest : Tail)

inductive Block where
  | nil
  | cons (s : Stmt) (rest : Block)

/-- What follows an alternative of a chain: nothing, a further condition, or the last alternative. -/
inductive Tail where
  | done
  | elif (cond : Term) (body : Block) (rest : Tail)
  | otherwise (body : Block)

end

def typeNode : Option Ty → Node
  | some t => .type t
  | none => .none

mutual

def Stmt.nodes : Stmt → List Node
  | .assign x type value => [.assign (.ident x) (typeNode type) value.node]
  | .print x => [.call (.ident "print") (.args (some [.ident x]))]
  | .whileDo cond body => [.whileDo cond.node (.block body.nodes)]
  | .forRange x start stop step body =>
    [.forRange (.ident x) (.range stop.node (Term.node? start) (Term.node? step)) (.block body.nodes)]
  | .chain cond body rest => .ifThen cond.node (.block body.nodes) :: rest.nodes

def Block.nodes : Block → List Node
  | .nil => []
  | .cons s rest => s.nodes ++ rest.nodes

def Tail.nodes : Tail → List Node
  | .done => []
  | .elif cond body rest => .elifThen cond.node (.block body.nodes) :: rest.nodes
  | .otherwise body => [.elseThen (.block body.nodes)]

end

mutual

/-- The variables that a statement mentions. -/
def Stmt.vars : Stmt → List String
  | .assign x _ value => x :: value.vars
  | .print x => [x]
  | .whileDo cond body => cond.vars ++ body.vars
  | .forRange x start stop step body =>
    x :: (start.elim [] Term.vars ++ stop.vars ++ step.elim [] Term.vars ++ body.vars)
  | .chain cond body rest => cond.vars ++ body.vars ++ rest.vars

def Block.vars : Block → List String
  | .nil => []
  | .cons s rest => s.vars ++ rest.vars

def Tail.vars : Tail → List String
  | .done => []
  | .elif cond body rest => cond.vars ++ body.vars ++ rest.vars
  | .otherwise body => body.vars

end

mutual

/-- A statement without printing and without loops over a range. -/
def Stmt.plain : Stmt → Bool
  | .assign .. => true
  | .print _ => false
  | .whileDo _ body => body.plain
  | .forRange .. => false
  | .chain _ body rest => body.plain && rest.plain

def Block.plain : Block → Bool
  | .nil => true
  | .cons s rest => s.plain && rest.plain

def Tail.plain : Tail → Bool
  | .done => true
  | .elif _ body rest => body.plain && rest.plain
  | .otherwise body => body.plain

end

mutual

/-- Every chain in a statement ends with a last alternative. -/
def Stmt.closed : Stmt → Bool
  | .assign .. => true
  | .print _ => true
  | .whileDo _ body => body.closed
  | .forRange _ _ _ _ body => body.closed
  | .chain _ body rest => body.closed && rest.closed

def Block.closed : Block → Bool
  | .nil => true
  | .cons s rest => s.closed && rest.closed

def Tail.closed : Tail → Bool
  | .done => false
  | .elif _ body rest => body.closed && rest.closed
  | .otherwise body => body.closed

end

mutual

/-- In a statement, every chain inside a further or last alternative ends with a last alternative. -/
def Stmt.tidy : Stmt → Bool
  | .assign .. => true
  | .print _ => true
  | .whileDo _ body => body.tidy
  | .forRange _ _ _ _ body => body.tidy
  | .chain _ body rest => body.tidy && rest.tidy

def Block.tidy : Block → Bool
  | .nil => true
  | .cons s rest => s.tidy && rest.tidy

def Tail.tidy : Tail → Bool
  | .done => true
  | .elif _ body rest => body.closed && rest.tidy
  | .otherwise body => body.closed

end

theorem plain_ofNat (n : Nat) : (Atom.int (.ofNat n)).plain.toList = Nat.toDigits 10 n := by
  change (Int.repr (Int.ofNat n)).toList = _
  simp [Int.repr]

theorem plain_negSucc (n : Nat) : (Atom.int (.negSucc n)).plain.toList = '-' :: Nat.toDigits 10 (n + 1) := by
  change (Int.repr (Int.negSucc n)).toList = _
  simp [Int.repr]

end Tabc.Core
