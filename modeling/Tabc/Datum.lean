import Tabc.Number.Double
import Tabc.Text.Quoted

/-!
# Data

`Atom` is a constant of the language. `Datum` is the common outside form of everything the stages exchange.
-/

namespace Tabc

inductive Atom where
  | none
  | bool (b : Bool)
  | int (n : Int)
  | float (x : Double)
  | text (s : String)
deriving DecidableEq, Inhabited

namespace Atom

def render : Atom → String
  | .none => "None"
  | .bool true => "True"
  | .bool false => "False"
  | .int n => toString n
  | .float x => x.toText
  | .text s => Text.quote s

def plain : Atom → String
  | .text s => s
  | a => a.render

def kindName : Atom → String
  | .none => "NoneType"
  | .bool _ => "bool"
  | .int _ => "int"
  | .float _ => "float"
  | .text _ => "str"

end Atom

inductive Family where
  | source
  | code
  | target
  | table
deriving DecidableEq, Inhabited

inductive Datum where
  | atom (a : Atom)
  | list (items : List Datum)
  | record (family : Family) (name : String) (fields : List (String × Datum))
deriving Inhabited

namespace Datum

def none : Datum := .atom .none

def text (s : String) : Datum := .atom (.text s)

mutual

def render : Datum → String
  | .atom a => a.render
  | .list items => "[" ++ ", ".intercalate (renderAll items) ++ "]"
  | .record _ name fields => name ++ "(" ++ ", ".intercalate (renderFields fields) ++ ")"

def renderAll : List Datum → List String
  | [] => []
  | d :: rest => d.render :: renderAll rest

def renderFields : List (String × Datum) → List String
  | [] => []
  | (name, d) :: rest => (name ++ "=" ++ d.render) :: renderFields rest

end

def field? (name : String) : Datum → Option Datum
  | .record _ _ fields => fields.lookup name
  | _ => Option.none

end Datum

end Tabc
