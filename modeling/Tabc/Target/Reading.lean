import Tabc.Syntax.Reading
import Tabc.Target.Node

/-!
# Target trees from their outside form

A type or an identifier that cannot be is refused.
-/

namespace Tabc.Target.Node

abbrev Fields := List (String × Node)

def Fields.get (fs : Fields) (name : String) : Node := (fs.lookup name).getD .none

def Fields.text (fs : Fields) (name : String) : String :=
  match fs.get name with
  | .atom (.text s) => s
  | _ => ""

def Fields.list (fs : Fields) (name : String) : List Node :=
  match fs.get name with
  | .list items => items
  | _ => []

def ofRecord (e : Edition) (name : String) (fs : Fields) : Except Fault Node :=
  match name with
  | "Type" => match fs.get "value" with
    | .shape t => pure (.type t)
    | .atom (.text s) => match Ty.ofTargetName? s with
      | some p => pure (.type (.prim p))
      | Option.none => throw (.unmet Option.none)
    | _ => throw (.unmet Option.none)
  | "NonPrimitiveType" => match fs.get "value" with
    | .type t => pure (.shape (.coll (fs.text "type") t))
    | _ => pure (.shape (.bare (fs.text "type")))
  | "Id" => match fs.get "name" with
    | .atom (.text s) => pure (.ident s)
    | n => throw (.unmet (some s!"Got name={n.render e}"))
  | "Declaration" => pure (.declaration (fs.get "id") (fs.get "type"))
  | "UnaryOperation" => pure (.unary (fs.get "left") (fs.get "type") (fs.text "operator") (fs.get "operand"))
  | "BinaryOperation" =>
    pure (.binary (fs.get "left") (fs.get "type") (fs.text "operator") (fs.get "operand_a") (fs.get "operand_b"))
  | "Parameter" => pure (.param (fs.get "paramType") (fs.get "var"))
  | "ParameterLst" => pure (.params (fs.list "lst"))
  | "FunctionDeclaration" => pure (.function (fs.get "name") (fs.get "lst") (fs.get "body") (fs.get "returnType"))
  | "IfStmt" => pure (.ifThen (fs.get "ifCond") (fs.get "body"))
  | "ElifStmt" => pure (.elifThen (fs.get "elifCond") (fs.get "body"))
  | "ElseStmt" => pure (.elseThen (fs.get "body"))
  | "WhileStmt" => pure (.whileDo (fs.get "cond") (fs.get "body"))
  | "RangeValues" => pure (.range (fs.get "stop") (fs.get "start") (fs.get "step"))
  | "ForLoopRange" => pure (.forRange (fs.get "var") (fs.get "rangeVal") (fs.get "body"))
  | "ForLoopList" =>
    pure (.forEach (fs.get "var") (fs.get "indexVar") (fs.get "length") (fs.get "Lst") (fs.get "body"))
  | "Expression" => pure (.expression (fs.get "value"))
  | "ArgumentLst" => pure (.args (fs.get "lst"))
  | "ReturnStmt" => pure (.returnStmt (fs.get "stmt"))
  | "FunctionCall" => pure (.call (fs.get "name") (fs.get "lst"))
  | "Block" => pure (.block (fs.list "lst"))
  | "Assignment" => pure (.assign (fs.get "id") (fs.get "val"))
  | "String" => match fs.get "len" with
    | .atom (.int n) => pure (.string (fs.text "val") n)
    | _ => pure (.string (fs.text "val") 0)
  | "ReturnStatement" => pure (.ret (fs.get "value"))
  | "PrimitiveLiteral" => pure (.literal (fs.get "id") (fs.get "type") (fs.get "value"))
  | "LstAdd" => pure (.listAdd (fs.get "obj") (fs.get "value") (fs.get "type") (fs.get "idx"))
  | "NonPrimitiveIndex" => pure (.index (fs.get "result") (fs.get "obj") (fs.get "type") (fs.get "idx"))
  | "NonPrimitiveLiteral" => pure (.collection (fs.get "head") (fs.get "type") (fs.list "value"))
  | "NonPrimitiveSlicing" => match e with
    | .fourth =>
      pure (.slice (fs.get "result_reg") (fs.get "obj") (fs.get "start") (fs.get "end") (fs.get "type"))
    | _ => throw .noPart
  | _ => throw .noPart

mutual

def ofDatum (e : Edition) : Datum → Except Fault Node
  | .atom a => pure (.atom a)
  | .list items => do return .list (← ofData e items)
  | .record .target name fields => do ofRecord e name (← ofFields e fields)
  | .record family name fields => do
    return .source (← Tabc.Node.ofDatum e (.record family name fields))

def ofData (e : Edition) : List Datum → Except Fault (List Node)
  | [] => pure []
  | d :: rest => do
    let n ← ofDatum e d
    let ns ← ofData e rest
    return n :: ns

def ofFields (e : Edition) : List (String × Datum) → Except Fault Fields
  | [] => pure []
  | (name, d) :: rest => do
    let n ← ofDatum e d
    let ns ← ofFields e rest
    return (name, n) :: ns

end

end Tabc.Target.Node
