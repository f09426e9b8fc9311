import Tabc.Target.Writer

/-!
# Writing with folding: statements

`Writer.write` writes a tree in the fourth edition; `Writer.value` is its value as far as it can be computed.
-/

namespace Tabc.Target.Writer

/-- The value of a tree, or the tree itself if it lacks a part. -/
def orElse (n : Node) (act : WriterM Node) : WriterM Node :=
  tryCatch act fun
    | .noPart => return n
    | x => throw x

def given : Node → Bool
  | .atom a => a.truth
  | .list items => !items.isEmpty
  | _ => true

def unaryValue (ty : Node) (op : String) (writeLeft : WriterM Piece) (operand : WriterM Node) :
    WriterM Node := do
  let v ← operand
  let op := operator op
  let left ← lineText (← writeLeft)
  if (← get).variants.contains left then return .text (op ++ " " ++ v.plain .fourth)
  else do
    let v ← heldValue v
    let isInt ← lift (ty.isPrim .int)
    let w ← compute (op ++ " " ++ v.plain .fourth)
    if isInt then lift w.whole else return w

def binaryValue (ty : Node) (op : String) (writeLeft : WriterM Piece) (a b : WriterM Node) :
    WriterM Node := do
  let v ← a
  let w ← b
  let v ← heldValue v
  let w ← heldValue w
  let text := operation v (operator op) w
  let left ← lineText (← writeLeft)
  if !(← get).variants.contains left && v.isNumber && w.isNumber then do
    let isInt ← lift (ty.isPrim .int)
    let r ← compute text
    if isInt then lift r.whole else return r
  else return .text text

def nameContents (name : String) : WriterM Node := do
  if ← isRegister name then do
    let v ← lookUp (.text name)
    match (← get).literals.lookup name with
    | some literal => return .text literal
    | none => computeLiteral name id v
  else do
    let s ← get
    if s.variants.contains name then return .text name
    else return (s.vars.lookup name).getD (.text name)

/-- The value of an operation on a variable, which the variable gets; `frame` puts the assignment
into its line. -/
def assignOperation (name : String) (ty : Node) (whole : WriterM Node) (frame : String → String) :
    WriterM Piece := do
  let v ← whole
  let v ← if ← lift (ty.isPrim .int) then lift v.cutFraction else pure v
  setVar name v
  return .line (frame (name ++ " = " ++ v.plain .fourth))

def unary (ty : Node) (op : String) (writeLeft writeOperand : WriterM Piece)
    (whole : WriterM Node) : WriterM Piece := do
  let left ← lineText (← writeLeft)
  let a ← lineText (← writeOperand)
  let mark := operator op
  let s ← get
  let isTemp ← isRegister left
  if s.folding then
    if s.trial then do
      if !isTemp then addVariant left
      return .nothing
    else if isTemp then do
      let v ← if ← isRegister a then lookUp (.text a) else pure (.text a)
      setTemp left (.text ("(" ++ mark ++ " " ++ v.plain .fourth ++ ")"))
      return .nothing
    else assignOperation left ty whole fun t => "(" ++ t ++ ");"
  else
    let text := "(" ++ mark ++ " " ++ a ++ ")"
    if isTemp then do
      setTemp left (.text text)
      return .nothing
    else return .line (left ++ " = " ++ text ++ ";")

def isLiteral : Node → Bool
  | .atom (.text s) => s.toList.contains '"' || s == "input_str()"
  | _ => false

def binaryTemp (left : String) (ty : Node) (mark : String) (a b : Node) : WriterM Unit := do
  let isInt ← lift (ty.isPrim .int)
  let a ← if isInt then lift a.cutFraction else pure a
  let b ← if isInt then lift b.cutFraction else pure b
  let text := operation a mark b
  if isLiteral a && isLiteral b then
    setTemp left (.text ("str_concat(" ++ a.plain .fourth ++ "," ++ b.plain .fourth ++ ")"))
  else if isInt && a.isNumber && b.isNumber then do
    let r ← lift (evaluate (fun _ => none) text)
    setTemp left (← lift r.whole)
  else if ← lift (ty.isPrim .float) then
    if a.isNumber && b.isNumber then do
      let r ← lift (evaluate (fun _ => none) text)
      setTemp left (← lift r.fraction)
    else setTemp left (.text ("(" ++ text ++ ")"))
  else setTemp left (.text ("(" ++ text ++ ")"))

/-- A binary operation, given how to write its parts, what their values are and what its own is. -/
def binary (ty : Node) (op : String) (writeLeft writeA writeB : WriterM Piece)
    (a b whole : WriterM Node) : WriterM Piece := do
  let left ← lineText (← writeLeft)
  let mark := operator op
  let textA ← nameValue (← lineText (← writeA))
  let textB ← nameValue (← lineText (← writeB))
  let s ← get
  if s.folding then
    if s.trial then do
      if !(← isRegister left) then addVariant left
      return .nothing
    else if ← isRegister left then do
      let v ← a
      let w ← b
      binaryTemp left ty mark v w
      return .nothing
    else assignOperation left ty whole (· ++ ";")
  else
    let text := "(" ++ operation textA mark textB ++ ")"
    if ← isRegister left then do
      setTemp left (.text text)
      return .nothing
    else return .line (left ++ " = " ++ text ++ ";")

/-- Writes a body to find out what it assigns, unless that is being done already. -/
def tryBody (body : WriterM Piece) : WriterM Unit := do
  if !(← get).trial then do
    modify fun s => { s with trial := true }
    let _ ← body
    forgetVariants
    modify fun s => { s with trial := false }

def ifThen (writeCond : WriterM Piece) (cond : WriterM Node) (body : WriterM Piece) :
    WriterM Piece := do
  if (← get).folding then do
    let c ← cond
    if c.rulesOut then do
      modify fun s => { s with hasHead := false, decided := false }
      return .nothing
    else do
      modify fun s => { s with hasHead := true }
      tryBody body
      let b ← body
      if !b.present then return .nothing
      else if c.isTrue then do
        modify fun s => { s with decided := true }
        return .line (← lift b.joined)
      else return .braced ("if (" ++ c.plain .fourth ++ ")") b
  else do
    let c ← nameValue (← lineText (← writeCond))
    return .braced ("if (" ++ c.plain .fourth ++ ")") (← body)

def elifThen (writeCond : WriterM Piece) (cond : WriterM Node) (body : WriterM Piece) :
    WriterM Piece := do
  if (← get).folding then
    if (← get).decided then return .nothing
    else do
      let c ← cond
      tryBody body
      let b ← body
      if !b.present || c.rulesOut then return .nothing
      else if (← get).hasHead then return .braced ("else if (" ++ c.plain .fourth ++ ")") b
      else if c.isTrue then do
        modify fun s => { s with hasHead := true, decided := true }
        return .line (← lift b.joined)
      else return .braced ("if (" ++ c.plain .fourth ++ ")") b
  else do
    let c ← nameValue (← lineText (← writeCond))
    return .braced ("else if (" ++ c.plain .fourth ++ ")") (← body)

def elseThen (body : WriterM Piece) : WriterM Piece := do
  if (← get).folding then do
    tryBody body
    let b ← body
    if (← get).decided || !b.present then return .nothing
    else if !(← get).hasHead then return .line (← lift b.joined)
    else return .braced "else" (← body)
  else return .braced "else" (← body)

/-- A loop outside of any other: its body is written twice, and the second time the variables that
it assigns are not followed. A loop without a body is left out, and then counts as still open. -/
def outerLoop (body : WriterM Piece) (frame : Piece → WriterM Piece) : WriterM Piece := do
  modify fun s => { s with inLoop := true, trial := true }
  let _ ← body
  modify fun s => { s with trial := false }
  forgetVariants
  let b ← body
  if !b.present then return .nothing
  else do
    let p ← frame b
    modify fun s => { s with variants := [], inLoop := false }
    return p

def whileDo (writeCond : WriterM Piece) (cond : WriterM Node) (body : WriterM Piece) :
    WriterM Piece := do
  let c ← nameValue (← lineText (← writeCond))
  let frame (b : Piece) : Piece := .braced ("while (" ++ c.plain .fourth ++ ")") b
  let s ← get
  if !s.folding then return frame (← body)
  else if !s.inLoop then
    if (← cond).isFalse then return .nothing
    else outerLoop body fun b => return frame b
  else if s.trial then do
    let _ ← body
    return .nothing
  else if (← cond).isZero then return .nothing
  else return frame (← body)

def boundValue (v : Node) : WriterM Node := do
  let vars := (← get).vars
  lift (evaluate (fun x => vars.lookup x) (v.plain .fourth))

def boundValues (stop start step : Node) : WriterM (Node × Node × Node) := do
  let start ← lookUp start
  let step ← lookUp step
  let stop ← lookUp stop
  let a ← boundValue start
  let b ← boundValue step
  let c ← boundValue stop
  return (a, b, c)

/-- A range is empty if its bounds are known whole numbers and the start is not below the stop. -/
def emptyRange : Node → Node → Bool
  | .atom (.int a), .atom (.int c) => c ≤ a
  | _, _ => false

def rangeHead (first : Piece) (name : String) (stop step : Node) : WriterM String := do
  let text ← lineText first
  return "for (" ++ text ++ " " ++ name ++ " < " ++ stop.plain .fourth ++ "; " ++ name ++ " += " ++
    step.plain .fourth ++ ")\x7b"

def forRange (var stop start step : Node) (writeVar writeStart body : WriterM Piece) :
    WriterM Piece := do
  let temps := (← get).temps
  let stopText ← match ← lift (stop.find? temps) with
    | some _ => tempValue stop
    | none => pure stop
  let stepText ← match ← lift (step.find? temps) with
    | some _ => tempValue step
    | none => pure step
  let first ← assign start writeVar writeStart
  let name ← lift var.nameText
  let frame (b : Piece) : WriterM Piece := do
    return .group [.line (← rangeHead first name stopText stepText), b, .line "\x7d"]
  if (← get).folding then do
    let bounds ← tryCatch (some <$> boundValues stop start step) fun
      | .noPart => return none
      | x => throw x
    let some (a, _, c) := bounds | throw .wrongKind
    let s ← get
    if emptyRange a c then return .nothing
    else if !s.inLoop then outerLoop body frame
    else if s.trial then do
      let _ ← body
      return .nothing
    else frameLast frame
  else frameLast frame
where
  /-- The head is put together before the body is written. -/
  frameLast (frame : Piece → WriterM Piece) : WriterM Piece := do
    let _ ← frame .nothing
    frame (← body)

def forEach (var idx length coll : Node) (body : WriterM Piece) : WriterM Piece := do
  let i ← nameValue (← lift idx.nameText)
  let x ← nameValue (← lift var.nameText)
  let list ← nameValue (← lift coll.nameText)
  setVar "i" (.atom (.int 0))
  let head := "for (int_t i = 0; i < " ++ length.plain .fourth ++ "; i += " ++ i.plain .fourth ++ ")"
  let first := x.plain .fourth ++ " = list_get(int_v, " ++ list.plain .fourth ++ ", i);"
  let s ← get
  if s.folding && !s.inLoop then
    outerLoop body fun b => return .group [.line (head ++ "\x7b"), .nested [.line first], b, .line "\x7d"]
  else if s.folding && s.trial then do
    let _ ← body
    return .nothing
  else return .group [.line (head ++ " \x7b"), .nested [.line first], ← body, .line "\x7d"]

/-- The declaration of a variable; lists and registers are not declared, and a variable that an
open block declares is not declared again. -/
def declaration (type name : String) : WriterM Piece := do
  if type == "list_t *" then do
    modify fun s => { s with listTypes := put name type s.listTypes }
    return .nothing
  else if ← isRegister name then do
    setTemp name .none
    return .nothing
  else do
    let s ← get
    if s.declared.any (·.contains name) then return .nothing
    else do
      match s.declared with
      | top :: rest => set { s with declared := (top ++ [name]) :: rest }
      | [] => throw .outOfRange
      return .line s!"{type} {name};"

/-- The statements in a line, each with its end. A line that starts with an end stays whole. -/
def statements (s : String) : List Piece :=
  if s.toList.head? == some ';' then [.line s]
  else (Text.splitAt ';' s.toList).filterMap fun cs =>
    if cs.isEmpty then none else some (.line (String.ofList (cs ++ [';'])))

def blockItems (p : Piece) : List Piece :=
  if !p.present then []
  else match p with
    | .line s => statements s
    | p => [p]

def block (items : WriterM (List Piece)) : WriterM Piece := do
  modify fun s => { s with declared := [] :: s.declared, depth := s.depth + 1 }
  let ps ← items
  modify fun s => { s with declared := s.declared.drop 1, depth := s.depth - 1 }
  return .nested (ps.flatMap blockItems)

def elementValue (p : Piece) : WriterM Node := do
  heldValue (← nameValue (← lineText p))

mutual

def write (n : Node) : WriterM Piece := reporting n do
  match n with
  | .block items => block (writeAll items)
  | .expression v => write v
  | .ident name => return .line name
  | .source t => match t with
    | .ident name => return .line name
    | _ => throw .noPart
  | .type t => return .line (← typeText t)
  | .declaration id ty => do
    let t ← lineText (← write ty)
    declaration t (← lineText (← write id))
  | .unary left ty op operand =>
    unary ty op (write left) (write operand) (orElse n (unaryValue ty op (write left) (value operand)))
  | .binary left ty op a b =>
    binary ty op (write left) (write a) (write b) (value a) (value b)
      (orElse n (binaryValue ty op (write left) (value a) (value b)))
  | .param ty var => do
    let t ← write ty
    let x ← write var
    return .line s!"{t.shown} {x.shown}"
  | .params items => do
    let ps ← (← writeAll items).mapM lineText
    return .line (", ".intercalate ps)
  | .function name ps body result => do
    if (← get).inFunction then throw (.unmet (some "Cannot declare function inside of a function"))
    let t ← write result
    let f ← write name
    let ps ← write ps
    let head := s!"{t.shown} {f.shown}({ps.shown})"
    modify fun s => { s with
      functions := { s.functions with heads := s.functions.heads ++ [head] }, inFunction := true }
    let body ← write body
    let f ← write name
    modify fun s => { s with
      functions := { s.functions with bodies := s.functions.bodies ++
        [.group [.line (head ++ " \x7b"), body, .line ("\x7d /* End of " ++ f.shown ++ " */")]] }
      inFunction := false }
    return .nothing
  | .call name values => return .line (← callText name values)
  | .ifThen cond body => ifThen (write cond) (value cond) (write body)
  | .elifThen cond body => elifThen (write cond) (value cond) (write body)
  | .elseThen body => elseThen (write body)
  | .whileDo cond body => whileDo (write cond) (value cond) (write body)
  | .forRange var (.range stop start step) body => forRange var stop start step (write var) (write start) (write body)
  | .forEach var at' length coll body => forEach var at' length coll (write body)
  | .assign id v => assign v (write id) (write v)
  | .string v _ => return .line (Text.quoteC v)
  | .ret v => do
    unless (← get).inFunction do
      throw (.unmet (some "Cannot have return statement outside of a function declaration"))
    let v ← nameValue (← lineText (← write v))
    return .line ("return " ++ v.plain .fourth ++ ";")
  | .listAdd obj v ty idx => do
    let x ← write obj
    let t ← lineText (← write ty)
    let mark := (t.dropEnd 1).toString ++ "v"
    let v ← elementValue (← write v)
    if idx.isText "end" then
      return .line ("list_add(" ++ mark ++ ", " ++ x.shown ++ ", " ++ v.plain .fourth ++ ");")
    else return .nothing
  | .index result obj ty idx => do
    let r ← lineText (← write result)
    let i ← lineText (← write idx)
    let mark ← lift ty.mark
    let i ← tempValue (.text i)
    let isTemp ← isRegister r
    let x ← write obj
    let text := "list_get(" ++ mark ++ "," ++ x.shown ++ "," ++ i.plain .fourth ++ ")"
    if isTemp then do
      setTemp r (.text text)
      return .nothing
    else return .line (r ++ " = " ++ text)
  | .collection head ty items => do
    let x ← lineText (← write head)
    if ← isRegister x then modify fun s => { s with tempLists := put x none s.tempLists }
    let mark ← lift ty.mark
    let values ← elementValues items
    modify fun s => { s with listLengths := put x (.atom (.int items.length)) s.listLengths }
    return .line (s!"list_t * {x} = list_init({items.length});" ++ String.join (values.map fun v =>
      "list_init_add(" ++ mark ++ "," ++ x ++ "," ++ v.plain .fourth ++ ");"))
  | .slice result obj start stop _ => do
    let x ← lineText (← write obj)
    let r ← lineText (← write result)
    let a ← if given start then nameValue (← lineText (← write start)) else pure (.atom (.int 0))
    let b ← if given stop then nameValue (← lineText (← write stop))
      else match (← get).listLengths.lookup x with
        | some n => pure n
        | none => throw .noKey
    setTemp r (.text ("list_slice(" ++ x ++ "," ++ a.plain .fourth ++ "," ++ b.plain .fourth ++ ")"))
    return .nothing
  | _ => throw .noPart

def writeAll : List Node → WriterM (List Piece)
  | [] => return []
  | n :: rest => do
    let p ← write n
    let ps ← writeAll rest
    return p :: ps

def elementValues : List Node → WriterM (List Node)
  | [] => return []
  | n :: rest => do
    let v ← elementValue (← write n)
    let vs ← elementValues rest
    return v :: vs

/-- The value of a tree as far as it can be computed; a tree without a value stands for itself. -/
def value (n : Node) : WriterM Node := orElse n do
  match n with
  | .unary left ty op operand => unaryValue ty op (write left) (value operand)
  | .binary left ty op a b => binaryValue ty op (write left) (value a) (value b)
  | .ident name => nameContents name
  | .source t => match t with
    | .ident name => nameContents name
    | .literal _ a => return .atom a
    | _ => throw .noPart
  | .literal _ _ v => return v
  | .call name values => do
    let p ← reporting n do return .line (← callText name values)
    return .text (← lineText p)
  | .assign id v => evalAssign v (write id)
  | n => return n

end

/-- Puts the variables of lists in the places of the registers that held them. -/
def nameLists (lists : List (String × Option String)) (text : String) : String :=
  lists.foldl (fun text (register, name) => match name with
    | some name => Text.replace register name text
    | none => text) text

def program (root : Node) : WriterM String := do
  let body ← write root
  let s ← get
  let fix := nameLists s.tempLists
  let main ← lift (body.layout fix)
  let functions ← lift (s.functions.layout fix)
  return page functions main "    str_clean_up();\n    list_clean_up();"

end Tabc.Target.Writer
