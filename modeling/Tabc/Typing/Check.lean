import Tabc.Typing.Rules
import Tabc.Syntax.Parts

/-!
# Type checking

`check` gives the type of an expression, and none for a statement; it declares what a statement declares. A tree
may also be checked without a table (`known = false`), as the bounds of a slice are: what needs one then fails.
-/

namespace Tabc

open MonadExcept (ofExcept)

abbrev CheckM := ScopeM

namespace Typing

def needTable (known : Bool) : CheckM Unit := if known then pure () else throw .noPart

def noRule {α : Type} (e : Edition) (n : Node) : CheckM α := throw (.failed (.unchecked (n.kindName e) (n.plain e)))

def parameter (e : Edition) : Node → Except Fault (ParamName × Held)
  | .param type var => pure (ParamName.ofNode e var, Held.ofNode e type)
  | _ => throw .noPart

def declareParams (e : Edition) : List Node → CheckM Unit
  | [] => pure ()
  | .param type var :: rest => do
    let name ← ofExcept (match e, var with
      | .second, .atom (.text s) => .ok s
      | .second, _ => .error .wrongKind
      | _, var => var.nameText)
    ScopeTable.declareVariable name (Held.ofNode e type)
    declareParams e rest
  | _ :: _ => throw .noPart

def openFunction (e : Edition) (known : Bool) (name params result : Node) : CheckM Unit := do
  let items ← ofExcept params.parts
  let result := Held.ofNode e result
  match e with
  | .first | .second =>
    needTable known
    match name with
    | .atom (.text n) => ScopeTable.declareWhole n (items.map (Node.datum e)) result
    | _ => throw .wrongKind
  | .third | .fourth =>
    let n ← ofExcept name.nameText
    needTable known
    ScopeTable.declareFunction n (← ofExcept (items.mapM (parameter e))) result
  ScopeTable.expect result
  ScopeTable.openScope
  declareParams e items

/-- Gives the variable of a loop over the elements of a collection its type. From the third edition
on it is the element type; the fourth edition declares it in the scope around the loop, and accepts
a variable that is already there. -/
def openEach (e : Edition) (known : Bool) (var : Node) (coll : Option Ty) (tree : String) :
    CheckM Unit := do
  needTable known
  match e with
  | .first | .second =>
    ScopeTable.openScope
    let name ← ofExcept var.nameText
    match coll with
    | none => throw .noPart
    | some t => ScopeTable.declareVariable name (.shape t)
  | .third =>
    ScopeTable.openScope
    let name ← ofExcept var.nameText
    ScopeTable.declareVariable name (← ofExcept (inside coll))
  | .fourth =>
    let name ← ofExcept var.nameText
    match ScopeTable.findIn name (← get).scopes with
    | some (.variable found) =>
      if found.present then
        let want ← ofExcept (inside coll)
        if found = want then pure ()
        else throw (.rejected (.loopMismatch (want.plain e) (found.plain e) tree))
    | _ => ScopeTable.declareVariable name (← ofExcept (inside coll))

/-- Gives the variable of a loop over numbers its type. The fourth edition accepts a variable that
is already there. -/
def openRange (e : Edition) (known : Bool) (var : Node) (tree : String) : CheckM Unit := do
  needTable known
  ScopeTable.openScope
  let name ← ofExcept var.nameText
  match e with
  | .fourth =>
    let want : Held := .type (.prim .int)
    match ScopeTable.findIn name (← get).scopes with
    | some (.variable found) =>
      if found.present && found != want then
        throw (.rejected (.loopMismatch (want.plain e) (found.plain e) tree))
    | _ => ScopeTable.declareVariable name want
  | _ => ScopeTable.declareVariable name (.shape (.prim .int))

def closeFunction : CheckM Unit := do
  ScopeTable.closeScope
  ScopeTable.unexpect

mutual

def check (e : Edition) (known : Bool) : Node → CheckM (Option Ty)
  | .literal kind _ => match Prim.ofName? e kind with
    | some p => pure (some (.prim p))
    | none => throw (.unmet none)
  | .ident name => do
    needTable known
    ofExcept (settle e (← ScopeTable.lookupVariable name))
  | .collection kind items => do
    return some (collection kind (← checkElements e known 0 none items))
  | .binary left op right => do
    let l ← check e known left
    let r ← check e known right
    ofExcept (binary e op l r)
  | .unary op right => do
    let r ← check e known right
    ofExcept (unary e op r)
  | .call callee args => do
    let types ← checkArgs e known args
    let name ← ofExcept callee.nameText
    needTable known
    ofExcept (settle e (← ScopeTable.lookupFunction e name types))
  | .index obj at' => do
    let o ← check e known obj
    let i ← check e known at'
    ofExcept (index o i)
  | .slice obj start stop => do
    let o ← check e known obj
    if start.given then
      ofExcept (place (← check e false start))
    if stop.given then
      ofExcept (place (← check e false stop))
    return o
  | .assign left type right => do
    let tree := (Node.assign left type right).render e
    let name ← ofExcept left.nameText
    needTable known
    match ScopeTable.findIn name (← get).scopes with
    | some _ => do
      let want ← ScopeTable.lookupVariable name
      let got ← check e known right
      ofExcept (later e want got tree)
      ofExcept (settle e want)
    | none => do
      let want := Held.ofNode e type
      if want = .nothing then
        throw (.unmet (some s!"When declaring {name}, type is missing"))
      ScopeTable.declareVariable name want
      let got ← check e known right
      ofExcept (initial e want got tree)
      ofExcept (settle e want)
  | .append obj value => do
    let o ← check e known obj
    let v ← check e known value
    ofExcept (append e o v)
    return none
  | .ret value => do
    let t ← check e known value
    needTable known
    ofExcept (returned e (← get).expected t ((Node.ret value).render e))
    return none
  | .ifThen cond body => do
    let _ ← check e known cond
    checkScope e known body
  | .elifThen cond body => do
    let _ ← check e known cond
    checkScope e known body
  | .elseThen body => checkScope e known body
  | .whileDo cond body => do
    let _ ← check e known cond
    checkScope e known body
  | .range stop start step => do
    ofExcept (bound e "range start" (← checkValue e known start))
    if !stop.isNone then
      ofExcept (bound e "range stop" (← checkValue e known stop))
    if !step.isNone then
      ofExcept (bound e "range step" (← checkValue e known step))
    return none
  | .forEach var coll body => do
    let t ← check e known coll
    openEach e known var t ((Node.forEach var coll body).render e)
    checkBody e known body
    if e != .fourth then
      ScopeTable.closeScope
    return none
  | .forRange var range body => do
    openRange e known var ((Node.forRange var range body).render e)
    checkBody e known body
    ScopeTable.closeScope
    return none
  | .funDef name params body result => do
    openFunction e known name params result
    checkBody e known body
    closeFunction
    return none
  | n => noRule e n

def checkScope (e : Edition) (known : Bool) : Node → CheckM (Option Ty)
  | .block items => do
    needTable known
    ScopeTable.openScope
    checkAll e known items
    ScopeTable.closeScope
    return none
  | _ => do
    needTable known
    ScopeTable.openScope
    throw .noPart

def checkBody (e : Edition) (known : Bool) : Node → CheckM Unit
  | .block items => checkAll e known items
  | _ => throw .noPart

def checkAll (e : Edition) (known : Bool) : List Node → CheckM Unit
  | [] => pure ()
  | n :: rest => do
    let _ ← check e known n
    checkAll e known rest

def checkElements (e : Edition) (known : Bool) (place : Nat) (first : Option Ty) :
    List Node → CheckM (Option Ty)
  | [] => pure first
  | n :: rest => do
    let t ← check e known n
    let first ← ofExcept (element e place first t)
    checkElements e known (place + 1) first rest

def checkArgs (e : Edition) (known : Bool) : Node → CheckM (List Held)
  | .args items => checkArgsIn e known items
  | .params items => checkArgsIn e known items
  | .block items => checkTypes e known items
  | _ => throw .noPart

def checkArgsIn (e : Edition) (known : Bool) : Option (List Node) → CheckM (List Held)
  | some items => checkTypes e known items
  | none => pure []

def checkTypes (e : Edition) (known : Bool) : List Node → CheckM (List Held)
  | [] => pure []
  | n :: rest => do
    let t ← check e known n
    let ts ← checkTypes e known rest
    return Held.ofTy? t :: ts

def checkValue (e : Edition) (known : Bool) : Node → CheckM (Option Ty)
  | .expression value => check e known value
  | .literal _ value => noRule e (.atom value)
  | .type t => noRule e (.shape t)
  | .shape (.prim p) => noRule e (.text p.name)
  | .shape (.coll _ t) => noRule e (.type t)
  | .shape (.bare _) => noRule e .none
  | .ret _ => throw .noPart
  | _ => throw .noPart

end

end Typing

def typecheck (e : Edition) : List Node → CheckM (List (Option Ty))
  | [] => pure []
  | n :: rest => do
    let t ← Typing.check e true n
    let ts ← typecheck e rest
    return t :: ts

end Tabc
