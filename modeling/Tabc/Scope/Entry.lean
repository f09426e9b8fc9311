import Tabc.Fault
import Tabc.Target.Type

/-!
# Entries of a scope

`Held` is what an entry has in the place of a type: a type of the source language, one of the target language,
or a stand-in that some loops leave there. An `Entry` is a variable, or all functions of a name.
-/

namespace Tabc

inductive Held where
  | type (t : Ty)
  | shape (t : Ty)
  | target (t : Ty)
  | text (s : String)
  | nothing
deriving DecidableEq, Inhabited

namespace Held

def datum : Held → Datum
  | .type t => t.datum
  | .shape t => t.shapeDatum
  | .target t => t.targetDatum
  | .text s => .text s
  | .nothing => .none

def plain (e : Edition) : Held → String
  | .type t => t.text e
  | .shape t => (Node.shape t).plain e
  | .target t => t.targetDatum.render
  | .text s => s
  | .nothing => "None"

def renderAll (types : List Held) : String := (Datum.list (types.map datum)).render

def ofNode (e : Edition) : Node → Held
  | .type t => .type t
  | .shape t => .shape t
  | .atom .none => .nothing
  | n => .text (n.plain e)

def ofTy? : Option Ty → Held
  | some t => .type t
  | Option.none => .nothing

def present : Held → Bool
  | .nothing => false
  | .text s => s != ""
  | _ => true

end Held

inductive ParamName where
  | ident (s : String)
  | text (s : String)
deriving DecidableEq, Inhabited

namespace ParamName

def datum : ParamName → Datum
  | .ident s => .record .source "Id" [("name", .text s)]
  | .text s => .text s

def ofNode (e : Edition) : Node → ParamName
  | .ident s => .ident s
  | n => .text (n.plain e)

end ParamName

inductive Overload where
  | declared (names : List ParamName) (types : List Held) (result : Held)
  | emitted (name : String) (types : List Held) (result : Held)
  /-- A function of the program in the second edition, which keeps its parameters whole. -/
  | whole (params : List Datum) (result : Held)
deriving Inhabited

namespace Overload

def types : Overload → List Held
  | .declared _ ts _ => ts
  | .emitted _ ts _ => ts
  | .whole _ _ => []

def result : Overload → Held
  | .declared _ _ r => r
  | .emitted _ _ r => r
  | .whole _ r => r

def datum : Overload → Datum
  | .declared names types result =>
    .record .table "Function" [("param_names", .list (names.map ParamName.datum)),
      ("param_types", .list (types.map Held.datum)), ("return_type", result.datum)]
  | .emitted name types result =>
    .record .table "C_Function" [("hashed_name", .text name),
      ("param_types", .list (types.map Held.datum)), ("return_type", result.datum)]
  | .whole params result => .record .table "Function" [("param_types", .list params), ("return_type", result.datum)]

end Overload

inductive Entry where
  | variable (type : Held)
  | functions (overloads : List Overload)
deriving Inhabited

def Entry.datum : Entry → Datum
  | .variable t => .record .table "Variable" [("type", t.datum)]
  | .functions os => .record .table "Functions" [("functions", .list (os.map Overload.datum))]

end Tabc
