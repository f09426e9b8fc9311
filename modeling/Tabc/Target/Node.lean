import Tabc.Target.Type

/-!
# Trees of the target language

As with source trees, a child may be anything and `Node.atom .none` stands where a part is missing.
-/

namespace Tabc.Target

inductive Node where
  | atom (a : Atom)
  | list (items : List Node)
  | source (n : Tabc.Node)
  | type (t : Ty)
  /-- The shape of a collection type, without the mark that it is a type. -/
  | shape (t : Ty)
  | later (n : Nat)
  | ident (name : String)
  | declaration (id type : Node)
  | unary (left type : Node) (op : String) (operand : Node)
  | binary (left type : Node) (op : String) (a b : Node)
  | param (type var : Node)
  | params (items : List Node)
  | function (name params body result : Node)
  | ifThen (cond body : Node)
  | elifThen (cond body : Node)
  | elseThen (body : Node)
  | whileDo (cond body : Node)
  | range (stop start step : Node)
  | forRange (var range body : Node)
  | forEach (var index length coll body : Node)
  | expression (value : Node)
  | args (items : Node)
  | returnStmt (value : Node)
  | call (name args : Node)
  | block (items : List Node)
  | assign (id value : Node)
  | string (value : String) (length : Int)
  | ret (value : Node)
  | literal (id type value : Node)
  | listAdd (obj value type idx : Node)
  | index (result obj type idx : Node)
  | collection (head type : Node) (items : List Node)
  | slice (result obj start stop type : Node)
deriving Inhabited

namespace Node

def none : Node := .atom .none

def text (s : String) : Node := .atom (.text s)

def record (name : String) (fields : List (String × Datum)) : Datum := .record .target name fields

def typeField (e : Edition) (d : Datum) : List (String × Datum) :=
  match e with
  | .fourth => [("type", d)]
  | _ => []

mutual

def datum (e : Edition) : Node → Datum
  | .atom a => .atom a
  | .list items => .list (data e items)
  | .source n => n.datum e
  | .type t => t.targetDatum
  | .shape t => t.targetShape
  | .later _ => .none
  | .ident name => record "Id" [("name", .text name)]
  | .declaration id ty => record "Declaration" [("id", id.datum e), ("type", ty.datum e)]
  | .unary left ty op operand =>
    record "UnaryOperation" (("left", left.datum e) :: typeField e (ty.datum e) ++
      [("operator", .text op), ("operand", operand.datum e)])
  | .binary left ty op a b =>
    record "BinaryOperation" (("left", left.datum e) :: typeField e (ty.datum e) ++
      [("operator", .text op), ("operand_a", a.datum e), ("operand_b", b.datum e)])
  | .param ty var => record "Parameter" [("paramType", ty.datum e), ("var", var.datum e)]
  | .params items => record "ParameterLst" [("lst", .list (data e items))]
  | .function name ps body result =>
    record "FunctionDeclaration" [("name", name.datum e), ("lst", ps.datum e),
      ("body", body.datum e), ("returnType", result.datum e)]
  | .ifThen cond body => record "IfStmt" [("ifCond", cond.datum e), ("body", body.datum e)]
  | .elifThen cond body => record "ElifStmt" [("elifCond", cond.datum e), ("body", body.datum e)]
  | .elseThen body => record "ElseStmt" [("body", body.datum e)]
  | .whileDo cond body => record "WhileStmt" [("cond", cond.datum e), ("body", body.datum e)]
  | .range stop start step =>
    record "RangeValues" [("stop", stop.datum e), ("start", start.datum e), ("step", step.datum e)]
  | .forRange var bounds body =>
    record "ForLoopRange" [("var", var.datum e), ("rangeVal", bounds.datum e), ("body", body.datum e)]
  | .forEach var at' length coll body =>
    record "ForLoopList" [("var", var.datum e), ("indexVar", at'.datum e),
      ("length", length.datum e), ("Lst", coll.datum e), ("body", body.datum e)]
  | .expression value => record "Expression" [("value", value.datum e)]
  | .args items => record "ArgumentLst" [("lst", items.datum e)]
  | .returnStmt value => record "ReturnStmt" [("stmt", value.datum e)]
  | .call name values => record "FunctionCall" [("name", name.datum e), ("lst", values.datum e)]
  | .block items => record "Block" [("lst", .list (data e items))]
  | .assign id value => record "Assignment" [("id", id.datum e), ("val", value.datum e)]
  | .string value length => record "String" [("val", .text value), ("len", .atom (.int length))]
  | .ret value => record "ReturnStatement" [("value", value.datum e)]
  | .literal id ty value =>
    record "PrimitiveLiteral" [("id", id.datum e), ("type", ty.datum e), ("value", value.datum e)]
  | .listAdd obj value ty idx =>
    record "LstAdd" [("obj", obj.datum e), ("value", value.datum e), ("type", ty.datum e), ("idx", idx.datum e)]
  | .index result obj ty idx =>
    record "NonPrimitiveIndex" [("result", result.datum e), ("obj", obj.datum e),
      ("type", ty.datum e), ("idx", idx.datum e)]
  | .collection head ty items =>
    record "NonPrimitiveLiteral" [("head", head.datum e), ("type", ty.datum e), ("value", .list (data e items))]
  | .slice result obj start stop ty =>
    record "NonPrimitiveSlicing" [("result_reg", result.datum e), ("obj", obj.datum e),
      ("start", start.datum e), ("end", stop.datum e), ("type", ty.datum e)]

def data (e : Edition) : List Node → List Datum
  | [] => []
  | n :: rest => n.datum e :: data e rest

end

def render (e : Edition) (n : Node) : String := (n.datum e).render

mutual

def settle (part : Nat → Node) : Node → Node
  | .later n => part n
  | .list items => .list (settleAll part items)
  | .function name ps body result => .function name ps (body.settle part) result
  | .ifThen cond body => .ifThen cond (body.settle part)
  | .elifThen cond body => .elifThen cond (body.settle part)
  | .elseThen body => .elseThen (body.settle part)
  | .whileDo cond body => .whileDo cond (body.settle part)
  | .forRange var bounds body => .forRange var bounds (body.settle part)
  | .forEach var at' length coll body => .forEach var at' length coll (body.settle part)
  | .call name values => .call name (values.settle part)
  | .block items => .block (settleAll part items)
  | .assign id value => .assign id (value.settle part)
  | .collection head ty items => .collection head (ty.settle part) items
  | n => n

def settleAll (part : Nat → Node) : List Node → List Node
  | [] => []
  | n :: rest => n.settle part :: settleAll part rest

end

end Node

end Tabc.Target
