import Tabc.Scope.Table
import Tabc.Target.Reading

/-!
# Scripts for a scope table

A `ScopeTable.Step` names one operation with its arguments in their outside form; `perform` carries it out.
-/

namespace Tabc

def Held.ofDatum (e : Edition) : Datum → Except Fault Held
  | .record .target name fields => do
    match ← Target.Node.ofDatum e (.record .target name fields) with
    | .type t => pure (.target t)
    | n => pure (.text (n.render e))
  | d => do return Held.ofNode e (← Node.ofDatum e d)

namespace ScopeTable

inductive Step where
  | openScope
  | closeScope
  | freshName (name : String)
  | declareVariable (name : String) (type : Datum)
  | lookupVariable (name : String)
  | declareFunction (name : String) (params : List (String × Datum)) (result : Datum)
  | lookupFunction (name : String) (types : List Datum)
  | functionByNames (name : String) (names : List String)
  | emitFunction (name : String) (types : List Datum) (result : Datum)
  | emittedFunction (name : String) (types : List Datum)
  | updateVariable (name : String) (type : Datum)
  | again (count : Nat) (step : Step)
deriving Inhabited

def held (e : Edition) (d : Datum) : ScopeM Held := MonadExcept.ofExcept (Held.ofDatum e d)

def wholeParam (name : String) (type : Held) : Datum :=
  .record .source "Parameter" [("paramType", type.datum), ("var", .text name)]

def declareNamed (e : Edition) (name : String) (params : List (String × Held)) (result : Held) : ScopeM Unit :=
  match e with
  | .first | .second => declareWhole name (params.map fun (n, t) => wholeParam n t) result
  | _ => declareFunction name (params.map fun (n, t) => (.ident n, t)) result

def repeatStep (act : ScopeM Datum) : Nat → Datum → ScopeM Datum
  | 0, d => pure d
  | n + 1, _ => do
    let d ← act
    repeatStep act n d

def perform (e : Edition) : Step → ScopeM Datum
  | .openScope => do openScope; return .none
  | .closeScope => do closeScope; return .none
  | .freshName name => do return .text (← freshName name)
  | .declareVariable name type => do
    declareVariable name (← held e type)
    return .none
  | .lookupVariable name => do return (← lookupVariable name).datum
  | .declareFunction name params result => do
    let params ← params.mapM fun (n, t) => do return (n, ← held e t)
    declareNamed e name params (← held e result)
    return .none
  | .lookupFunction name types => do
    return (← lookupFunction e name (← types.mapM (held e))).datum
  | .functionByNames name names => do
    let (types, result) ← functionByNames name (names.map .ident)
    return .list [.list (types.map Held.datum), result.datum]
  | .emitFunction name types result => do
    let types ← types.mapM (held e)
    return .text (← emitFunction name types (← held e result))
  | .emittedFunction name types => do
    let (emitted, result) ← emittedFunction name (← types.mapM (held e))
    return .list [.text emitted, result.datum]
  | .updateVariable name type => do
    updateVariable name (← held e type)
    return .none
  | .again count step => repeatStep (perform e step) count .none

end ScopeTable

end Tabc
