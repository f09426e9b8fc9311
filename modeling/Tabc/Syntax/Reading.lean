import Tabc.Fault
import Tabc.Syntax.Node

/-!
# Trees from their outside form

A record that the edition does not have, or a primitive type that it does not know, is refused.
-/

namespace Tabc.Node

abbrev Fields := List (String × Node)

def Fields.get (fs : Fields) (name : String) : Node := (fs.lookup name).getD .none

def Fields.text (fs : Fields) (name : String) : String :=
  match fs.get name with
  | .atom (.text s) => s
  | _ => ""

def Fields.atom (fs : Fields) (name : String) : Atom :=
  match fs.get name with
  | .atom a => a
  | _ => .none

def Fields.list (fs : Fields) (name : String) : List Node :=
  match fs.get name with
  | .list items => items
  | _ => []

def Fields.list? (fs : Fields) (name : String) : Option (List Node) :=
  match fs.get name with
  | .list items => some items
  | _ => Option.none

def ofRecord (e : Edition) (name : String) (fs : Fields) : Except Fault Node :=
  match name with
  | "PrimitiveType" => match Prim.ofName? e (fs.text "value") with
    | some p => pure (.shape (.prim p))
    | Option.none => throw (.unmet Option.none)
  | "NonPrimitiveType" => match fs.get "value" with
    | .type t => pure (.shape (.coll (fs.text "name") t))
    | _ => pure (.shape (.bare (fs.text "name")))
  | "Type" => match fs.get "value" with
    | .shape t => pure (.type t)
    | _ => throw .noPart
  | "Expression" => pure (.expression (fs.get "value"))
  | "PrimitiveLiteral" => pure (.literal (fs.text "name") (fs.atom "value"))
  | "NonPrimitiveLiteral" => pure (.collection (fs.text "name") (fs.list "children"))
  | "Id" => pure (.ident (fs.text "name"))
  | "BinaryOperation" => pure (.binary (fs.get "left") (fs.text "operator") (fs.get "right"))
  | "UnaryOperation" => pure (.unary (fs.text "operator") (fs.get "right"))
  | "Assignment" => pure (.assign (fs.get "left") (fs.get "type") (fs.get "right"))
  | "IfStmt" => pure (.ifThen (fs.get "ifCond") (fs.get "body"))
  | "ElifStmt" => pure (.elifThen (fs.get "elifCond") (fs.get "body"))
  | "ElseStmt" => pure (.elseThen (fs.get "body"))
  | "WhileStmt" => pure (.whileDo (fs.get "cond") (fs.get "body"))
  | "RangeValues" => pure (.range (fs.get "stop") (fs.get "start") (fs.get "step"))
  | "ForLoopRange" => pure (.forRange (fs.get "var") (fs.get "rangeVal") (fs.get "body"))
  | "ForLoopList" => pure (.forEach (fs.get "var") (fs.get "Lst") (fs.get "body"))
  | "Parameter" => pure (.param (fs.get "paramType") (fs.get "var"))
  | "ParameterLst" => pure (.params (fs.list? "lst"))
  | "ArgumentLst" => pure (.args (fs.list? "lst"))
  | "FunctionDef" => pure (.funDef (fs.get "name") (fs.get "lst") (fs.get "body") (fs.get "returnType"))
  | "ReturnStmt" => pure (.ret (fs.get "stmt"))
  | "FunctionCall" => pure (.call (fs.get "name") (fs.get "lst"))
  | "Block" => pure (.block (fs.list "lst"))
  | "LstAppend" => match e with
    | .first | .second => throw .noPart
    | _ => pure (.append (fs.get "obj") (fs.get "val"))
  | "NonPrimitiveIndex" => match e with
    | .first | .second => throw .noPart
    | _ => pure (.index (fs.get "obj") (fs.get "idx"))
  | "NonPrimitiveSlicing" => match e with
    | .fourth => pure (.slice (fs.get "obj") (fs.get "start") (fs.get "end"))
    | _ => throw .noPart
  | _ => throw .noPart

mutual

def ofDatum (e : Edition) : Datum → Except Fault Node
  | .atom a => pure (.atom a)
  | .list items => do return .list (← ofData e items)
  | .record _ name fields => do ofRecord e name (← ofFields e fields)

def ofData (e : Edition) : List Datum → Except Fault (List Node)
  | [] => pure []
  | d :: rest => do
    let n ← ofDatum e d
    let ns ← ofData e rest
    return n :: ns

def ofFields (e : Edition) : List (String × Datum) → Except Fault Fields
  | [] => pure []
  | (name, d) :: rest => do
    let n ← ofDatum e d
    let ns ← ofFields e rest
    return (name, n) :: ns

end

end Tabc.Node
