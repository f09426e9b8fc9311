import Tabc.Edition
import Tabc.Datum

/-!
# Syntax trees

Trees come from the parser, but may also be given from outside, so a child may be anything; `Node.atom .none`
stands where a part is missing.
-/

namespace Tabc

inductive Prim where
  | str
  | int
  | float
  | bool
  | none
deriving DecidableEq, Inhabited

def Prim.name : Prim → String
  | .str => "str"
  | .int => "int"
  | .float => "float"
  | .bool => "bool"
  | .none => "none"

def Prim.ofName? (e : Edition) : String → Option Prim
  | "str" => some .str
  | "int" => some .int
  | "float" => some .float
  | "bool" => some .bool
  | "none" => match e with
    | .first | .second => Option.none
    | .third | .fourth => some .none
  | _ => Option.none

/-- A type. The element type of an empty collection is not known. -/
inductive Ty where
  | prim (p : Prim)
  | coll (kind : String) (elem : Ty)
  | bare (kind : String)
deriving DecidableEq, Inhabited

inductive Node where
  | atom (a : Atom)
  | list (items : List Node)
  | type (t : Ty)
  | shape (t : Ty)
  | expression (value : Node)
  | literal (kind : String) (value : Atom)
  | collection (kind : String) (items : List Node)
  | ident (name : String)
  | binary (left : Node) (op : String) (right : Node)
  | unary (op : String) (right : Node)
  | assign (left type right : Node)
  | ifThen (cond body : Node)
  | elifThen (cond body : Node)
  | elseThen (body : Node)
  | whileDo (cond body : Node)
  | range (stop start step : Node)
  | forRange (var range body : Node)
  | forEach (var coll body : Node)
  | param (type var : Node)
  | params (items : Option (List Node))
  | args (items : Option (List Node))
  | funDef (name params body result : Node)
  | ret (value : Node)
  | call (callee args : Node)
  | block (items : List Node)
  | append (obj value : Node)
  | index (obj idx : Node)
  | slice (obj start stop : Node)
deriving Inhabited

namespace Ty

def shapeDatum : Ty → Datum
  | .prim p => .record .source "PrimitiveType" [("value", .text p.name)]
  | .coll kind elem =>
    .record .source "NonPrimitiveType"
      [("name", .text kind), ("value", .record .source "Type" [("value", elem.shapeDatum)])]
  | .bare kind => .record .source "NonPrimitiveType" [("name", .text kind), ("value", .none)]

def datum (t : Ty) : Datum := .record .source "Type" [("value", t.shapeDatum)]

def shapeText : Ty → String
  | .prim p => p.name
  | .coll kind elem => kind ++ " of Type<" ++ elem.shapeText ++ ">"
  | .bare kind => kind ++ " of None"

/-- The text of a type. Before the fourth edition it is its outside form. -/
def text (e : Edition) (t : Ty) : String :=
  match e with
  | .fourth => "Type<" ++ t.shapeText ++ ">"
  | _ => t.datum.render

end Ty

namespace Node

def none : Node := .atom .none

def text (s : String) : Node := .atom (.text s)

def isNone : Node → Bool
  | .atom .none => true
  | _ => false

def recordName (e : Edition) (lower upper : String) : String :=
  match e with
  | .first => lower
  | _ => upper

mutual

def datum (e : Edition) : Node → Datum
  | .atom a => .atom a
  | .list items => .list (data e items)
  | .type t => t.datum
  | .shape t => t.shapeDatum
  | .expression v => .record .source "Expression" [("value", v.datum e)]
  | .literal kind v => .record .source "PrimitiveLiteral" [("name", .text kind), ("value", .atom v)]
  | .collection kind items =>
    .record .source "NonPrimitiveLiteral" [("name", .text kind), ("children", .list (data e items))]
  | .ident name => .record .source "Id" [("name", .text name)]
  | .binary l op r =>
    .record .source "BinaryOperation" [("left", l.datum e), ("operator", .text op), ("right", r.datum e)]
  | .unary op r => .record .source "UnaryOperation" [("operator", .text op), ("right", r.datum e)]
  | .assign l t r => .record .source "Assignment" [("left", l.datum e), ("type", t.datum e), ("right", r.datum e)]
  | .ifThen c b => .record .source "IfStmt" [("ifCond", c.datum e), ("body", b.datum e)]
  | .elifThen c b => .record .source (recordName e "elifStmt" "ElifStmt") [("elifCond", c.datum e), ("body", b.datum e)]
  | .elseThen b => .record .source (recordName e "elseStmt" "ElseStmt") [("body", b.datum e)]
  | .whileDo c b => .record .source (recordName e "whileStmt" "WhileStmt") [("cond", c.datum e), ("body", b.datum e)]
  | .range stop start step =>
    .record .source (recordName e "rangeValues" "RangeValues")
      [("stop", stop.datum e), ("start", start.datum e), ("step", step.datum e)]
  | .forRange v r b =>
    .record .source (recordName e "forLoopRange" "ForLoopRange")
      [("var", v.datum e), ("rangeVal", r.datum e), ("body", b.datum e)]
  | .forEach v c b =>
    .record .source (recordName e "forLoopList" "ForLoopList")
      [("var", v.datum e), ("Lst", c.datum e), ("body", b.datum e)]
  | .param t v => .record .source (recordName e "parameter" "Parameter") [("paramType", t.datum e), ("var", v.datum e)]
  | .params items => .record .source (recordName e "parameterLst" "ParameterLst") [("lst", dataOption e items)]
  | .args items => .record .source (recordName e "argumentLst" "ArgumentLst") [("lst", dataOption e items)]
  | .funDef n p b r =>
    .record .source (recordName e "functionDef" "FunctionDef")
      [("name", n.datum e), ("lst", p.datum e), ("body", b.datum e), ("returnType", r.datum e)]
  | .ret v => .record .source (recordName e "returnStmt" "ReturnStmt") [("stmt", v.datum e)]
  | .call c a => .record .source (recordName e "functionCall" "FunctionCall") [("name", c.datum e), ("lst", a.datum e)]
  | .block items => .record .source (recordName e "block" "Block") [("lst", .list (data e items))]
  | .append o v => .record .source "LstAppend" [("obj", o.datum e), ("val", v.datum e)]
  | .index o i => .record .source "NonPrimitiveIndex" [("obj", o.datum e), ("idx", i.datum e)]
  | .slice o s t => .record .source "NonPrimitiveSlicing" [("obj", o.datum e), ("start", s.datum e), ("end", t.datum e)]

def data (e : Edition) : List Node → List Datum
  | [] => []
  | n :: rest => n.datum e :: data e rest

def dataOption (e : Edition) : Option (List Node) → Datum
  | some items => .list (data e items)
  | Option.none => .none

end

def render (e : Edition) (n : Node) : String := (n.datum e).render

/-- The text of a tree: types and texts have a form of their own. -/
def plain (e : Edition) : Node → String
  | .type t => t.text e
  | .shape t => match e with
    | .fourth => t.shapeText
    | _ => t.shapeDatum.render
  | .atom a => a.plain
  | n => n.render e

def kindName (e : Edition) (n : Node) : String :=
  match n.datum e with
  | .atom a => a.kindName
  | .list _ => "list"
  | .record _ name _ => name

end Node

end Tabc
