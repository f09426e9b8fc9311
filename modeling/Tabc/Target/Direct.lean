import Tabc.Target.Piece

/-!
# Writing trees as they stand

The third edition writes each statement as it stands, with every register in a variable of its own.
-/

namespace Tabc.Target

structure Direct where
  functions : Functions
  inFunction : Bool
  lists : List String
  printed : String
deriving Inhabited

abbrev DirectM := EStateM Fault Direct

namespace Direct

def empty : Direct := ⟨⟨[], []⟩, false, [], ""⟩

def reporting (n : Node) (act : DirectM Piece) : DirectM Piece :=
  tryCatch act fun
    | .noPart => do
      modify fun s => { s with
        printed := s.printed ++ s!"Trying to process node {n.plain .third}\n" }
      throw .noPart
    | x => throw x

def typeText : Ty → DirectM String
  | .prim p => return Ty.targetName p
  | .coll kind _ | .bare kind => if kind == "list" || kind == "tuple" then return "list_t *" else throw (.unmet none)

def elementMark : Node → DirectM String
  | .type (.prim _) => throw .noPart
  | .type _ => return "list_v"
  | .shape (.coll _ (.prim _)) => throw .noPart
  | .shape (.coll _ _) => throw (.unmet none)
  | _ => throw .noPart

def callText (name args : Node) : DirectM String := do
  let one : Node → DirectM String
    | .atom (.text s) => return s
    | _ => throw .wrongKind
  let values ← match args with
    | .list items => items.mapM one
    | .atom (.text s) => pure (s.toList.map String.singleton)
    | _ => throw .wrongKind
  match name with
  | .atom (.text f) => return f ++ "(" ++ ", ".intercalate values ++ ")"
  | _ => throw .wrongKind

def nameText : Node → DirectM String
  | .ident s => return s
  | .source n => match n with
    | .ident s => return s
    | _ => throw .noPart
  | _ => throw .noPart

def assignText (value : Node) (writeId writeValue : DirectM Piece) : DirectM String := do
  let id ← writeId
  match value with
  | .ident _ | .call _ _ | .string _ _ => do
    let v ← writeValue
    return s!"{id.shown} = {v.shown};"
  | .atom (.bool true) => return s!"{id.shown} = true;"
  | .atom (.bool false) => return s!"{id.shown} = false;"
  | .atom (.text "none-placeholder") => return s!"{id.shown} = NONE_LITERAL;"
  | v => return s!"{id.shown} = {v.plain .third};"

def lineText (p : Piece) : DirectM String :=
  match p with
  | .line s => return s
  | _ => throw .wrongKind

mutual

def write (n : Node) : DirectM Piece := reporting n do
  match n with
  | .block items => return .nested (← writeAll items)
  | .expression value => write value
  | .ident name => return .line name
  | .source t => match t with
    | .ident name => return .line name
    | _ => throw .noPart
  | .declaration id ty => do
    let t ← write ty
    let x ← write id
    return .line s!"{t.shown} {x.shown};"
  | .type t => return .line (← typeText t)
  | .unary left _ op operand => do
    let x ← write left
    let a ← write operand
    return .line s!"{x.shown} = {op} {a.shown};"
  | .binary left _ op a b => do
    let x ← write left
    let a ← write a
    let b ← write b
    return .line s!"{x.shown} = {a.shown} {op} {b.shown};"
  | .param ty var => do
    let t ← write ty
    let x ← write var
    return .line s!"{t.shown} {x.shown}"
  | .params items => do
    let ps ← (← writeAll items).mapM lineText
    return .line (", ".intercalate ps)
  | .function name ps body result => do
    if (← get).inFunction then throw (.unmet (some "Cannot declare function inside of a function"))
    let t ← write result
    let f ← write name
    let ps ← write ps
    let head := s!"{t.shown} {f.shown}({ps.shown})"
    modify fun s => { s with
      functions := { s.functions with heads := s.functions.heads ++ [head] }, inFunction := true }
    let body ← write body
    let f ← write name
    modify fun s => { s with
      functions := { s.functions with bodies := s.functions.bodies ++
        [.group [.line (head ++ " \x7b"), body, .line ("\x7d /* End of " ++ f.shown ++ " */")]] }
      inFunction := false }
    return .nothing
  | .call name values => return .line (← callText name values)
  | .ifThen cond body => do
    let c ← write cond
    return .braced s!"if ({c.shown})" (← write body)
  | .elifThen cond body => do
    let c ← write cond
    return .braced s!"else if ({c.shown})" (← write body)
  | .elseThen body => return .braced "else" (← write body)
  | .whileDo cond body => do
    let c ← write cond
    return .braced s!"while ({c.shown})" (← write body)
  | .forRange var (.range stop start step) body => do
    let first ← assignText start (write var) (write start)
    let x ← nameText var
    let head := s!"for ({first} {x} < {stop.plain .third}; {x} += {step.plain .third})"
    return .group [.line (head ++ "\x7b"), ← write body, .line "\x7d"]
  | .forEach var at' length coll body => do
    let i := at'.plain .third
    let head := s!"for ({i} = 0; {i} < {length.plain .third}; {i} += 1)"
    let first := s!"{var.plain .third} = list_get(int_v, {coll.plain .third}, {i});"
    return .group [.line (head ++ "\x7b"), .nested [.line first], ← write body, .line "\x7d"]
  | .assign id value => return .line (← assignText value (write id) (write value))
  | .string value _ => return .line (Text.quoteC value)
  | .ret value => do
    unless (← get).inFunction do
      throw (.unmet (some "Cannot have return statement outside of a function declaration"))
    let v ← write value
    return .line s!"return {v.shown};"
  | .listAdd obj value ty idx => do
    let x ← write obj
    let t ← write ty
    let mark := (t.shown.dropEnd 1).toString ++ "v"
    let v ← write value
    match idx with
    | .atom (.text "end") => return .line s!"list_add({mark},{x.shown},{v.shown});\n"
    | _ => return .nothing
  | .index result obj ty idx => do
    let r ← write result
    let t ← write ty
    let x ← write obj
    let i ← write idx
    return .line s!"{r.shown}=list_get({t.shown},{x.shown},{i.shown})"
  | .collection head ty items => do
    let x ← write head
    modify fun s => { s with lists := s.lists ++ [x.shown] }
    let mark ← elementMark ty
    let values ← writeAll items
    return .line (s!"list_t * {x.shown} = list_init({items.length});\n" ++ String.join
      (values.map fun v => s!"list_init_add({mark},{x.shown},{v.shown});\n"))
  | _ => throw .noPart

def writeAll : List Node → DirectM (List Piece)
  | [] => return []
  | n :: rest => do
    let p ← write n
    let ps ← writeAll rest
    return p :: ps

end

def program (root : Node) : DirectM String := do
  let body ← write root
  let s ← get
  let main ← MonadExcept.ofExcept (body.layout id)
  let functions ← MonadExcept.ofExcept (s.functions.layout id)
  let release := String.join (s.lists.map fun x => s!"list_free({x});\n")
  return page functions main ("/***** Memory clean up *****/\n" ++ release ++ "\n/***** End of Memory clean up *****/")

end Direct

end Tabc.Target
