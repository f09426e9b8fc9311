import Tabc.Folding.Expr
import Tabc.Target.Node

/-!
# Values of expressions

`Expr.eval` computes an expression in an environment. A value is a constant, or a piece of a target tree, with
which nothing can be computed.
-/

namespace Tabc

abbrev Env := String → Option Target.Node

namespace Expr

/-- Names that always stand for something, though not for a number. -/
def ambient : List String :=
  ["abs", "aiter", "all", "anext", "any", "ascii", "bin", "bool", "breakpoint", "bytearray", "bytes",
   "callable", "chr", "classmethod", "compile", "complex",
   "delattr", "dict", "dir", "divmod", "enumerate", "eval", "exec", "exit",
   "filter", "float", "format", "frozenset", "getattr", "globals", "hasattr", "hash", "help", "hex",
   "id", "input", "int", "isinstance", "issubclass", "iter", "len", "list", "locals",
   "map", "max", "memoryview", "min", "next", "object", "oct", "open", "ord", "pow", "print",
   "property", "quit", "range", "repr", "reversed", "round", "set", "setattr", "slice", "sorted",
   "staticmethod", "str", "sum", "super", "tuple", "type", "vars", "zip"]

def nameValue (env : Env) (s : String) : Except Fault Target.Node :=
  match env s with
  | some v => pure v
  | none => if ambient.contains s then pure (.list []) else throw .unknownName

def constant : Target.Node → Except Fault Atom
  | .atom a => pure a
  | _ => throw .wrongKind

def truth : Target.Node → Bool
  | .atom a => a.truth
  | _ => true

def applyUnary (op : UnOp) (v : Target.Node) : Except Fault Target.Node :=
  match op with
  | .not => pure (.atom (.bool (!truth v)))
  | .neg => do return .atom (← Arith.negate (← constant v))
  | .pos => do return .atom (← Arith.plus (← constant v))
  | .invert => do return .atom (← Arith.invert (← constant v))

def applyBinary (op : BinOp) (v w : Target.Node) : Except Fault Target.Node := do
  return .atom (← Arith.binary op (← constant v) (← constant w))

/-- A comparison of values; with what is no constant only equality can be asked for. -/
def applyComparison (op : CmpOp) (v w : Target.Node) : Except Fault Bool :=
  match v, w with
  | .atom a, .atom b => Arith.comparison op a b
  | _, _ => match op with
    | .eq | .isSame => pure false
    | .ne | .isOther => pure true
    | _ => throw .wrongKind

mutual

def eval (env : Env) : Expr → Except Fault Target.Node
  | .const a => pure (.atom a)
  | .name s => nameValue env s
  | .unary op x => do applyUnary op (← eval env x)
  | .binary op x y => do
    let v ← eval env x
    let w ← eval env y
    applyBinary op v w
  | .compare first rest => do evalChain env (← eval env first) rest
  | .both x y => do
    let v ← eval env x
    if truth v then eval env y else pure v
  | .either x y => do
    let v ← eval env x
    if truth v then pure v else eval env y
  | .call f args => do
    let _ ← eval env f
    evalAll env args
    throw .wrongKind
  | .part x _ => do
    let _ ← eval env x
    throw .noPart
  | .item x i => do
    let _ ← eval env x
    let _ ← eval env i
    throw .wrongKind

def evalChain (env : Env) (v : Target.Node) : List (CmpOp × Expr) → Except Fault Target.Node
  | [] => pure (.atom (.bool true))
  | (op, x) :: rest => do
    let w ← eval env x
    if ← applyComparison op v w then evalChain env w rest else pure (.atom (.bool false))

def evalAll (env : Env) : List Expr → Except Fault Unit
  | [] => pure ()
  | x :: rest => do
    let _ ← eval env x
    evalAll env rest

end

end Expr

def evaluate (env : Env) (s : String) : Except Fault Target.Node :=
  match Expr.read s with
  | some x => x.eval env
  | none => throw .malformed

end Tabc
