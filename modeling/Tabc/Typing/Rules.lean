import Tabc.Scope.Table

/-!
# Agreement of types

The typing rules that need no scope. A missing type is that of a statement, which has none.
-/

namespace Tabc

namespace Ty

def kind? : Ty → Option String
  | .prim _ => none
  | .coll kind _ => some kind
  | .bare kind => some kind

def elem? : Ty → Option Ty
  | .coll _ elem => some elem
  | _ => none

end Ty

namespace Typing

def textOf (e : Edition) (t : Option Ty) : String := (Held.ofTy? t).plain e

/-- Two types are there, both are primitive or both are collections, and they are equal. -/
def same (e : Edition) : Option Ty → Option Ty → Except Fault Unit
  | some a, some b =>
    if a.kind?.isSome != b.kind?.isSome then throw (.rejected .otherClass)
    else if a = b then pure ()
    else throw (.rejected (.otherType (a.text e) (b.text e)))
  | _, _ => throw (.unmet none)

def bound (e : Edition) (place : String) (t : Option Ty) : Except Fault Unit :=
  match e, t with
  | .fourth, some t =>
    if t.kind?.isSome then throw (.rejected .otherClass)
    else if t = .prim .int then pure ()
    else throw (.rejected (.expected place (Ty.text e (.prim .int)) (t.text e)))
  | _, t => same e (some (.prim .int)) t

/-- The operand of an arithmetic operator is a number; tells whether it is a fraction. -/
def number (e : Edition) (side : String) : Option Ty → Except Fault Bool
  | some (.prim .int) => pure false
  | some (.prim .float) => pure true
  | some t => throw (.rejected (.badOperand side (t.text e)))
  | none => throw (.unmet none)

/-- Both operands are numbers; the result is a fraction if one of them is. -/
def numbers (e : Edition) (left right : Option Ty) : Except Fault Ty := do
  let a ← number e "left" left
  let b ← number e "right" right
  return .prim (if a || b then .float else .int)

def numbersOnly (e : Edition) (op : String) : Bool :=
  ["-", "*", "/", "<", "<=", "=>", ">"].contains op || (op == "+" && e != .fourth)

/-- The type of a binary operation. Operands of one type that is not a number keep their type in the
fourth edition, and give none before. -/
def binary (e : Edition) (op : String) (left right : Option Ty) : Except Fault (Option Ty) :=
  if numbersOnly e op then some <$> numbers e left right
  else match numbers e left right with
    | .ok t => pure (some t)
    | .error (.rejected _) => match same e left right with
      | .ok _ => pure (if e == .fourth then left else none)
      | .error (.rejected _) => throw (.rejected (.operandMismatch (textOf e left) (textOf e right)))
      | .error fault => throw fault
    | .error fault => throw fault

/-- The type of a unary operation: a number after a sign, a truth value otherwise. -/
def unary (e : Edition) (op : String) (right : Option Ty) : Except Fault (Option Ty) :=
  match right with
  | none => throw (.unmet none)
  | some t =>
    let fits := if op == "-" then t = .prim .int ∨ t = .prim .float else t = .prim .bool
    if fits then pure (some t) else throw (.rejected (.badUnary (t.text e)))

/-- The element at a place agrees with the first one. From the third edition on, two collections of
one kind always agree. -/
def element (e : Edition) (place : Nat) (first t : Option Ty) : Except Fault (Option Ty) :=
  match first with
  | none => pure t
  | some a => do
    let agree : Except Fault Unit :=
      match e, a.kind? with
      | .third, some kind | .fourth, some kind => match t with
        | none => throw .noPart
        | some b => if b.kind? = some kind then pure () else same e first t
      | _, _ => same e first t
    match agree with
    | .ok _ => pure first
    | .error (.rejected _) => throw (.rejected (.mixedElements (a.text e) place (textOf e t)))
    | .error fault => throw fault

def collection (kind : String) : Option Ty → Ty
  | some t => .coll kind t
  | none => .bare kind

def inside : Option Ty → Except Fault Held
  | none => throw .noPart
  | some (.prim p) => pure (.text p.name)
  | some t => pure (Held.ofTy? t.elem?)

def append (e : Edition) (obj value : Option Ty) : Except Fault Unit :=
  match obj with
  | none => throw .noPart
  | some t => match t.kind? with
    | none => throw (.unmet none)
    | some kind =>
      if kind != "list" then
        match e with
        | .fourth => throw (.failed (.notAppendable kind))
        | _ => throw (.unmet none)
      else if t.elem? = value then pure ()
      else throw (.unmet none)

def place : Option Ty → Except Fault Unit
  | none => throw .noPart
  | some t => if t = .prim .int then pure () else throw (.unmet none)

def index (obj at' : Option Ty) : Except Fault (Option Ty) :=
  match obj with
  | none => throw .noPart
  | some t => match t.kind? with
    | none => throw (.unmet none)
    | some _ => do
      place at'
      return t.elem?

/-- The value of a first assignment agrees with the declared type. From the third edition on, a
collection may have any elements. -/
def initial (e : Edition) (want : Held) (got : Option Ty) (tree : String) : Except Fault Unit :=
  if want = Held.ofTy? got then pure ()
  else match e with
    | .first | .second => throw (.unmet none)
    | .third | .fourth => match want with
      | .type t =>
        let mismatch : Except Fault Unit := throw (.rejected (.assignMismatch (want.plain e) (textOf e got) tree))
        match t.kind? with
        | none => mismatch
        | some kind => match got with
          | none => throw .noPart
          | some g => if g.kind? = some kind then pure () else mismatch
      | _ => throw .noPart

/-- The value of a later assignment has the type of the variable. -/
def later (e : Edition) (want : Held) (got : Option Ty) (tree : String) : Except Fault Unit :=
  if want = Held.ofTy? got then pure ()
  else match e with
    | .first | .second => throw (.unmet none)
    | .third | .fourth => throw (.rejected (.assignMismatch (want.plain e) (textOf e got) tree))

def returned (e : Edition) (expected : List Held) (got : Option Ty) (tree : String) : Except Fault Unit :=
  match expected with
  | [] => throw (.rejected .returnOutside)
  | want :: _ =>
    if !want.present && got.isNone then pure ()
    else if want.present && got.isSome then
      match want with
      | .type w => same e (some w) got
      | _ => throw (.unmet none)
    else throw (.rejected (.returnMismatch tree))

def settle (e : Edition) : Held → Except Fault (Option Ty)
  | .type t => pure (some t)
  | .nothing => pure none
  | h => throw (.unmet (if e == .second then none else some s!"Got: {h.plain e}"))

end Typing

end Tabc
