import Tabc.Code.Instr
import Tabc.Scope.Table
import Tabc.Target.Node

/-!
# Building target trees

`build` turns flat code back into a tree of the target language. It finds the bodies of conditions, loops and
functions by their labels. A part that is known only later is left open with a number (`Target.Node.later`).
-/

namespace Tabc.Target

open MonadExcept (ofExcept)

structure Build where
  queue : List Instr
  table : ScopeTable
  seen : List Operand
  /-- Labels of jumps forward, the last one first. -/
  waiting : List Operand
  /-- For each open chain of conditions the label at its end, and how many statements were put in
  front of it; the innermost first. -/
  ends : List (Operand × Nat)
  /-- The text that is being read: its part, its length, and how many characters were read. -/
  text : Option (Nat × Int × Int)
  /-- The calls whose arguments are being read, with the number of arguments; the innermost first. -/
  calls : List (Operand × Int)
  arguments : List (Operand × Nat)
  start : Operand
  stop : Operand
  step : Operand
  lengths : List (Operand × Option Int)
  /-- The empty collections whose type is open: part and name, the last one first. -/
  empties : List (Nat × Operand)
  parts : List Node
  printed : String
deriving Inhabited

abbrev BuildM := EStateM Fault Build

inductive Made where
  | stmts (items : List Node)
  | operand (o : Operand)
deriving Inhabited

namespace Made

def nothing : Made := .operand .nothing

def present : Made → Bool
  | .stmts items => !items.isEmpty
  | .operand o => o.present

def isLabel (label : Operand) : Made → Bool
  | .stmts _ => false
  | .operand o => o.present && o.same label

/-- Adds what was made to statements; a name is taken apart into its characters. -/
def addTo (acc : List Node) : Made → Except Fault (List Node)
  | .stmts items => pure (acc ++ items)
  | .operand (.name s) => pure (acc ++ s.toList.map fun c => .text (String.singleton c))
  | .operand (.names l) => pure (acc ++ l.map Node.text)
  | .operand _ => throw .wrongKind

end Made

def Node.ofOperand : Operand → Node
  | .name s => .text s
  | .nothing => .none
  | .const n => .atom (.int n)
  | .tree n => .source n
  | .names l => .list (l.map Node.text)
  | .address _ => .none
  | .contents _ => .none

namespace Build

def fresh (e : Edition) (code : List Instr) : Build :=
  { queue := code, table := ScopeTable.fresh e, seen := [], waiting := [], ends := [], text := none,
    calls := [], arguments := [], start := .nothing, stop := .nothing, step := .nothing,
    lengths := [], empties := [], parts := [], printed := "" }

def pop : BuildM Instr := do
  match (← get).queue with
  | [] => throw .outOfRange
  | i :: rest => do
    modify fun s => { s with queue := rest }
    return i

def onTable {α : Type} (act : ScopeM α) : BuildM α := do
  let s ← get
  match act.run s.table with
  | .ok a t => do
    set { s with table := t }
    return a
  | .error fault t => do
    set { s with table := t }
    throw fault

def ask {α : Type} (known : Option ScopeTable) (act : ScopeM α) : Except Fault α :=
  match known with
  | none => throw .noPart
  | some t => match act.run t with
    | .ok a _ => pure a
    | .error fault _ => throw fault

def openPart (content : Node) : BuildM Nat := do
  let s ← get
  set { s with parts := s.parts ++ [content] }
  return s.parts.length

def setPart (n : Nat) (content : Node) : BuildM Unit := modify fun s => { s with parts := s.parts.set n content }

def part (s : Build) (n : Nat) : Node := s.parts.getD n .none

def find? {α : Type} (o : Operand) : List (Operand × α) → Option α
  | [] => none
  | (k, v) :: rest => if k.same o then some v else find? o rest

def put {α : Type} (o : Operand) (v : α) : List (Operand × α) → List (Operand × α)
  | [] => [(o, v)]
  | (k, w) :: rest => if k.same o then (k, v) :: rest else (k, w) :: put o v rest

def lengthOf (s : Build) (o : Operand) : Option Int := (find? o s.lengths).join

def setLength (o : Operand) (n : Option Int) : BuildM Unit := modify fun s => { s with lengths := put o n s.lengths }

def ident (e : Edition) : Operand → Except Fault Node
  | .name s => pure (.ident s)
  | o => throw (.unmet (some s!"Got name={(o.datum e).render}"))

def declare (o : Operand) (t : Ty) : BuildM Unit :=
  match o with
  | .name s => onTable (ScopeTable.declareVariable s (.target t))
  | .names _ => throw .wrongKind
  | _ => pure ()

def typeOf (o : Operand) : BuildM Ty :=
  match o with
  | .name s => do
    match ← onTable (ScopeTable.lookupVariable s) with
    | .target t => pure t
    | _ => throw .noPart
  | _ => throw .wrongKind

def isNew (o : Operand) : BuildM Bool := do
  match o with
  | .name s => return !(← get).table.top.has s
  | .names _ => throw .wrongKind
  | _ => return true

/-- Declares a register or a variable, and gives its identifier and declaration. -/
def declared (e : Edition) (o : Operand) (t : Ty) : BuildM (Node × Node) := do
  declare o t
  let id ← ofExcept (ident e o)
  return (id, .declaration id (.type t))

def elementType (o : Operand) : BuildM Ty := do
  match (← typeOf o) with
  | .coll _ t => pure t
  | _ => throw .noPart

/-- The type of a parameter or result in the target language; collections have none here. -/
def convert : Held → Except Fault Ty
  | .type (.prim p) => pure (.prim p)
  | .type _ => throw .wrongKind
  | _ => throw .noPart

/-- Every collection inside a type has known elements. -/
def isComplete : Ty → Bool
  | .prim _ => true
  | .coll _ t => isComplete t
  | .bare _ => false

def literalType (e : Edition) (i : Instr) : Atom → Except Fault Ty
  | .int _ => pure (.prim .int)
  | .float _ => pure (.prim .float)
  | .bool _ => pure (.prim .bool)
  | .text "none-placeholder" => pure (.prim .none)
  | a => throw (.unmet (some s!"Unexpected type_val <class '{a.kindName}'> for {i.render e}"))

def literal (e : Edition) (reg : Operand) (value : Atom) : BuildM Made := do
  let t ← ofExcept (literalType e (.literal reg value) value)
  let (id, decl) ← declared e reg t
  return .stmts [decl, .assign id (.atom value)]

def isComparison (op : String) : Bool := ["<", "<=", "=>", ">", "=="].contains op

/-- The type of an arithmetic result: a fraction if an operand is one, then a text, then a whole
number. Texts are known to the fourth edition only. -/
def arithmeticType (e : Edition) (left right : Ty) : Ty :=
  if left = .prim .float ∨ right = .prim .float then .prim .float
  else if e = .fourth ∧ (left = .prim .str ∨ right = .prim .str) then .prim .str
  else .prim .int

def binaryType (e : Edition) (op : String) (left right : Operand) : BuildM Ty := do
  if isComparison op then return .prim .bool
  else
    let l ← typeOf left
    let r ← typeOf right
    return arithmeticType e l r

/-- A binary operation, with a declaration if its result is new. In the fourth edition the result
must be new. -/
def binary (e : Edition) (result left right : Operand) (op : String) : BuildM Made := do
  let id ← ofExcept (ident e result)
  let a ← ofExcept (ident e left)
  let b ← ofExcept (ident e right)
  if ← isNew result then
    let t ← binaryType e op left right
    declare result t
    return .stmts [.declaration id (.type t), .binary id (.type t) op a b]
  else match e with
    | .fourth => do
      let _ ← typeOf result
      throw (.unmet none)
    | _ => return .stmts [.binary id .none op a b]

def unary (e : Edition) (result : Operand) (op : String) (operand : Operand) : BuildM Made := do
  let id ← ofExcept (ident e result)
  match e with
  | .fourth =>
    let a ← ofExcept (ident e operand)
    if ← isNew result then
      let t ← if op == "!" then pure (.prim .bool) else typeOf operand
      declare result t
      return .stmts [.declaration id (.type t), .unary id (.type t) op a]
    else
      let _ ← typeOf result
      throw (.unmet none)
  | _ => throw .noPart

def undeclared (e : Edition) (value : Operand) : String :=
  match e with
  | .fourth => s!"Referencing undefined ir variable {value.plain e}"
  | _ => s!"Parse Error Reference undefined {value.plain e}"

/-- The type that the program gives to a variable which is assigned a collection; if it has none for
it, the type of the collection itself. -/
def declaredType (known : Option ScopeTable) (name : Operand) (own : Ty) : Ty :=
  match name with
  | .name s => match ask known (ScopeTable.lookupVariable s) with
    | .ok (.type t) => if isComplete t then t else own
    | _ => own
  | _ => own

/-- Gives the empty collections that are still open a type. -/
def settleEmpties (t : Ty) : List (Nat × Operand) → BuildM Unit
  | [] => modify fun s => { s with empties := [] }
  | (n, head) :: rest => do
    setPart n (.type t)
    match head with
    | .name s => onTable (ScopeTable.updateVariable s (.target t))
    | _ => pure ()
    settleEmpties t rest

def undeclaredFault (e : Edition) (known : Option ScopeTable) (name value : Operand) : Fault :=
  match name with
  | .name s => match ask known (ScopeTable.lookupVariable s) with
    | .ok (.type (.prim _)) => .unmet (some (undeclared e value))
    | .ok (.type _) => .unassigned
    | .ok (.shape _) => .unmet (some (undeclared e value))
    | .ok (.target _) => .unmet (some (undeclared e value))
    | .ok _ => .noPart
    | .error fault => fault
  | _ => .wrongKind

def assign (e : Edition) (known : Option ScopeTable) (name value : Operand) : BuildM Made := do
  let id ← ofExcept (ident e name)
  let stmt : Node := .assign id (.ofOperand value)
  if ← isNew name then
    let found ← try some <$> typeOf value catch _ => pure none
    match found with
    | none => throw (undeclaredFault e known name value)
    | some own =>
      let t ← match e, own with
        | .fourth, .coll .. | .fourth, .bare _ => do
          let t := declaredType known name own
          setLength name ((← get).lengthOf value)
          settleEmpties t (← get).empties
          pure t
        | _, _ => pure own
      declare name t
      return .stmts [.declaration id (.type t), stmt]
  else return .stmts [stmt]

/-- The length of a collection must be known; before the fourth edition it must not be zero. -/
def checkLength (e : Edition) (coll : Operand) : BuildM Made := do
  match (← get).lengthOf coll with
  | none => throw (.failed (.unknownLength (coll.plain e)))
  | some n =>
    if n = 0 ∧ e ≠ .fourth then throw (.failed (.unknownLength (coll.plain e)))
    else return .nothing

def bound (e : Edition) (reg value : Operand) : BuildM Made := do
  let (id, decl) ← declared e reg (.prim .int)
  return .stmts [decl, .assign id (.ofOperand value)]

def string (e : Edition) (reg : Operand) (length : Int) : BuildM Made := do
  let n ← openPart (.string "" length)
  modify fun s => { s with text := some (n, length, 0) }
  let (id, decl) ← declared e reg (.prim .str)
  return .stmts [decl, .assign id (.later n)]

def char (value : String) : BuildM Made := do
  let s ← get
  match s.text with
  | none => throw .noPart
  | some (n, length, count) =>
    match s.part n with
    | .string text len => setPart n (.string (text ++ value) len)
    | _ => pure ()
    modify fun s => { s with
      text := if count + 1 = length then none else some (n, length, count + 1) }
    return .nothing

def openCall (call : Operand) (length : Int) : BuildM Made := do
  let n ← openPart (.list [])
  modify fun s => { s with
    calls := (call, length) :: s.calls
    arguments := put call n s.arguments }
  return .nothing

def argumentsIn : Node → List Node
  | .list items => items
  | _ => []

def argument (value : Operand) : BuildM Made := do
  let s ← get
  match s.calls with
  | [] => throw .outOfRange
  | (call, length) :: rest => match find? call s.arguments with
    | none => throw .noKey
    | some n =>
      let items := argumentsIn (s.part n) ++ [.ofOperand value]
      setPart n (.list items)
      if items.length = length then
        modify fun s => { s with calls := rest }
      return .nothing

def append (e : Edition) (obj value idx : Operand) : BuildM Made := do
  let o ← ofExcept (ident e obj)
  let v ← ofExcept (ident e value)
  let t ← elementType obj
  return .stmts [.listAdd o v (.type t) (.ofOperand idx)]

/-- An element of a collection. The fourth edition declares its register. -/
def index (e : Edition) (result obj idx : Operand) : BuildM Made := do
  let r ← ofExcept (ident e result)
  let o ← ofExcept (ident e obj)
  let i ← ofExcept (ident e idx)
  let t ← elementType obj
  if e = .fourth then
    declare result t
  return .stmts [.index r o (.type t) i]

def sliceBound (e : Edition) (o : Operand) : Except Fault Node := if o.present then ident e o else pure .none

def slice (e : Edition) (result obj start stop : Operand) : BuildM Made := do
  let o ← ofExcept (ident e obj)
  let r ← ofExcept (ident e result)
  let from' ← ofExcept (sliceBound e start)
  let upto ← ofExcept (sliceBound e stop)
  let t ← typeOf obj
  declare result t
  return .stmts [.slice r o from' upto (.type t)]

def ret (e : Edition) (value : Operand) : BuildM Made := do
  return .stmts [.ret (← ofExcept (ident e value))]

def goto (label : Operand) : BuildM Made := do
  if (← get).seen.any (·.same label) then return .stmts []
  else
    modify fun s => { s with waiting := label :: s.waiting }
    return .stmts []

def isMark (label : Operand) : Instr → Bool
  | .label value => value.same label
  | _ => false

def before (label : Operand) (prev : Option Instr) : List Instr → Except Fault (Option Instr)
  | [] => throw .outOfRange
  | i :: rest => if isMark label i then pure prev else before label (some i) rest

/-- The label at the end of a chain: where the code in front of its first alternative jumps to. -/
def chainLabel (ifFalse : Operand) (code : List Instr) : Except Fault Operand := do
  match ← before ifFalse none code with
  | some (.goto label) => pure label
  | _ => throw .noPart

/-- What continues a chain: a further condition, which jumps to a label, or the end of the chain
after some instructions or at once. -/
inductive Continuation where
  | condition (ifFalse : Operand)
  | finish
  | otherwise

def continuation (ends : List (Operand × Nat)) (first : Bool) :
    List Instr → Except Fault Continuation
  | [] => throw .outOfRange
  | .elseBranch ifFalse _ :: _ => pure (.condition ifFalse)
  | .label value :: rest => match ends with
    | [] => throw .outOfRange
    | (label, _) :: _ =>
      if value.same label then pure (if first then .finish else .otherwise)
      else continuation ends false rest
  | _ :: rest => continuation ends false rest

def endLabel : BuildM Operand := do
  match (← get).ends with
  | [] => throw .outOfRange
  | (label, _) :: _ => return label

def endChain : BuildM Unit := do
  match (← get).ends with
  | [] => throw .outOfRange
  | _ :: rest => modify fun s => { s with ends := rest }

def insertCondition (chain cond : List Node) : BuildM (List Node) := do
  match (← get).ends with
  | [] => throw .outOfRange
  | (label, n) :: rest => do
    modify fun s => { s with ends := (label, n + cond.length) :: rest }
    return chain.take n ++ cond ++ chain.drop n

def openChainScope (e : Edition) : BuildM Unit :=
  match e with
  | .third => onTable ScopeTable.openScope
  | _ => pure ()

def closeChainScope (e : Edition) : BuildM Unit :=
  match e with
  | .third => onTable ScopeTable.closeScope
  | _ => pure ()

def between (cs : List Char) (start stop : Nat) : String := String.ofList ((cs.take stop).drop start)

def lastUnderscore (cs : List Char) : Nat :=
  match cs.reverse.findIdx? (· == '_') with
  | some i => cs.length - 1 - i
  | none => cs.length - 1

def functionName (label : String) : String := between label.toList 7 (lastUnderscore label.toList)

def paramName (e : Edition) : Made → ParamName
  | .operand (.tree (.ident s)) => .ident s
  | .operand o => .text (o.plain e)
  | .stmts items => .text ((Datum.list (Node.data e items)).render)

def paramVar : Made → Node
  | .operand o => .ofOperand o
  | .stmts items => .list items

/-- Declares the parameters of a function under their names and registers. The third edition keeps
the names apart from those of variables. -/
def declareParams (e : Edition) (done : List ParamName) :
    List (ParamName × Operand × Ty) → BuildM Unit
  | [] => pure ()
  | (name, reg, t) :: rest => do
    match e, name with
    | .fourth, .ident s => declare (.name s) t
    | .fourth, .text _ => throw .noPart
    | _, .ident _ => if done.contains name then throw .wrongKind
    | _, .text s => declare (.name s) t
    declare reg t
    declareParams e (name :: done) rest

/-- Opens a function: finds its types, gives it a name and declares its parameters. -/
def openFunction (e : Edition) (known : Option ScopeTable) (name : String)
    (params : List (Made × Operand)) : BuildM (List Node → Node) := do
  let names := params.map fun (m, _) => paramName e m
  let (types, result) ← ofExcept (ask known (ScopeTable.functionByNames name names))
  let converted ← ofExcept (types.mapM convert)
  let resultType ← ofExcept (convert result)
  let emitted ← onTable
    (ScopeTable.emitFunction name (converted.map Held.target) result)
  onTable ScopeTable.openScope
  declareParams e [] ((names.zip (params.map (·.2))).zip converted |>.map fun ((n, r), t) => (n, r, t))
  let nodes := (params.zip converted).map fun ((m, _), t) => Node.param (.type t) (paramVar m)
  return fun body => .function (.ident emitted) (.params nodes) (.block body) (.type resultType)

def resultType (e : Edition) : Held → Except Fault Ty
  | .type (.prim p) => pure (.prim p)
  | .type t => throw (.unmet (some s!"type_val={t.datum.render}"))
  | .nothing => throw .noPart
  | h => throw (.unmet (some s!"type_val={h.plain e}"))

/-- The head of a loop over a collection: the variable, the place, the collection and its length,
and the declaration of the variable if there is one. -/
structure EachHead where
  var : Operand
  place : Operand
  coll : Operand
  length : Option Int
  decl : Option Node
deriving Inhabited

/-- Notes how a loop over a collection takes its elements. The fourth edition declares the
variable. -/
def eachIndex (e : Edition) (h : EachHead) (result obj idx : Operand) : BuildM EachHead := do
  let h := { h with var := result, place := idx, coll := obj, length := (← get).lengthOf obj }
  match e with
  | .fourth =>
    match ← typeOf obj with
    | .coll _ t =>
      if ← isNew result then
        declare result t
        return { h with decl := some (.declaration (← ofExcept (ident e result)) (.type t)) }
      else return h
    | _ => return h
  | _ => return h

def eachNode (e : Edition) (h : EachHead) : Except Fault (List Node × (List Node → Node)) := do
  let length : Node := match h.length with
    | some n => .atom (.int n)
    | none => .none
  match e with
  | .fourth =>
    let var ← ident e h.var
    let place ← ident e h.place
    let coll ← ident e h.coll
    return (h.decl.toList, fun body => .forEach var place length coll (.block body))
  | _ =>
    let place ← ident e h.place
    return ([.declaration place (.type (.prim .int))], fun body =>
      .forEach (.ofOperand h.var) (.ofOperand h.place) length (.ofOperand h.coll) (.block body))

def firstIdent : List Node → Node
  | .declaration id _ :: _ => id
  | .assign id _ :: _ => id
  | _ => .none

def hasWord (word text : List Char) : Bool :=
  word.isPrefixOf text || match text with
    | [] => false
    | _ :: rest => hasWord word rest

mutual

/-- Builds an instruction with all that belongs to it. If a value has not the part that it
should have, the instruction is reported. -/
def buildInstr (e : Edition) (known : Option ScopeTable) : Nat → Instr → BuildM Made
  | 0, _ => throw .exhausted
  | fuel + 1, i => do
    try buildCore e known fuel i
    catch fault =>
      if fault = .noPart then
        modify fun s => { s with printed := s.printed ++ s!"Trying to process ir {i.render e}\n" }
      throw fault

def buildCore (e : Edition) (known : Option ScopeTable) : Nat → Instr → BuildM Made
  | 0, _ => throw .exhausted
  | fuel + 1, i => match i with
    | .label (.name s) =>
      let cs := s.toList
      if hasWord "FORRANGE".toList cs then do
        let i ← pop
        let s ← get
        rangeHead e known fuel (s.start, s.stop, s.step) [] .none i
      else if hasWord "FORLIST".toList cs then do
        eachHead e known fuel ⟨.nothing, .nothing, .nothing, none, none⟩ [] (← pop)
      else if hasWord "WHILE".toList cs then do
        whileHead e known fuel [] (← pop)
      else if hasWord "FUNC".toList cs then do
        functionHead e known fuel (functionName s) (← pop)
      else return .operand (.name s)
    | .label _ => throw .wrongKind
    | .goto label => goto label
    | .literal reg value => literal e reg value
    | .binary result left right op => binary e result left right op
    | .unary result op operand => unary e result op operand
    | .call name reg => call e fuel name reg
    | .result reg => return .operand reg
    | .ret value => ret e value
    | .branch ifFalse cond => chain e known fuel ifFalse cond
    | .assign name value => assign e known name value
    | .collection reg op length => do
      let head ← ofExcept (ident e reg)
      collect e known fuel head reg op length length [] none []
    | .loopStart reg value => do
      let made ← bound e reg value
      modify fun s => { s with start := reg }
      return made
    | .loopStop reg value => do
      let made ← bound e reg value
      modify fun s => { s with stop := reg }
      return made
    | .loopStep reg value => do
      let made ← bound e reg value
      modify fun s => { s with step := reg }
      return made
    | .string reg length => string e reg length
    | .char _ value => char value
    | .param _ name => return .operand name
    | .args _ call length => openCall call length
    | .arg value => argument value
    | .length _ coll => checkLength e coll
    | .append obj value idx => append e obj value idx
    | .index result obj idx => index e result obj idx
    | .slice result obj start stop => slice e result obj start stop
    | .pushParam _ => throw .noPart
    | .popParam _ => throw .noPart
    | .elseBranch _ _ => throw .noPart
    | .element _ => throw .noPart
    | .params _ _ => throw .noPart
    | .loopVar _ => throw .noPart

def body (e : Edition) (known : Option ScopeTable) :
    Nat → Operand → List Node → BuildM (List Node)
  | 0, _, _ => throw .exhausted
  | fuel + 1, label, acc => do
    let made ← buildInstr e known fuel (← pop)
    if made.isLabel label then return acc
    else if made.present then
      body e known fuel label (← ofExcept (made.addTo acc))
    else body e known fuel label acc

def call (e : Edition) : Nat → Operand → Operand → BuildM Made
  | 0, _, _ => throw .exhausted
  | fuel + 1, name, reg => do
    match find? reg (← get).arguments with
    | none => throw .noKey
    | some n =>
      let args := argumentsIn ((← get).part n)
      let types ← args.mapM fun
        | .atom (.text s) => typeOf (.name s)
        | _ => throw .wrongKind
      let callee ← match name with
        | .name s => pure s
        | _ => throw .wrongKind
      let (emitted, result) ←
        onTable (ScopeTable.emittedFunction callee (types.map Held.target))
      let t ← ofExcept (resultType e result)
      match ← buildInstr e none fuel (← pop) with
      | .operand o =>
        let (id, decl) ← declared e o t
        return .stmts [decl, .assign id (.call (.text emitted) (.later n))]
      | .stmts _ => throw .wrongKind

/-- The elements of a collection, with the statements that compute them in front. The type of the
elements is that of the first one that is computed here; if there is none it is left open. -/
def collect (e : Edition) (known : Option ScopeTable) :
    Nat → Node → Operand → String → Int → Int → List Node → Option Ty → List Node → BuildM Made
  | 0, _, _, _, _, _, _, _, _ => throw .exhausted
  | fuel + 1, head, reg, op, length, left, items, elem, acc => do
    if left ≤ 0 then
      let kind := if op == "LIST" then "list" else "tuple"
      let t : Ty := match elem with
        | some t => .coll kind t
        | none => .bare kind
      declare reg t
      setLength reg (some length)
      match elem with
      | some _ => return .stmts (acc ++ [.collection head (.type t) items])
      | none =>
        let n ← openPart (.type t)
        modify fun s => { s with empties := (n, reg) :: s.empties }
        return .stmts (acc ++ [.collection head (.later n) items])
    else match ← pop with
      | .element value =>
        let v ← ofExcept (ident e value)
        collect e known fuel head reg op length (left - 1) (items ++ [v]) elem acc
      | i =>
        let made ← buildInstr e known fuel i
        let elem ← match elem with
          | some t => pure (some t)
          | none => match i.register? with
            | some r => some <$> typeOf r
            | none => throw .noPart
        collect e known fuel head reg op length left items elem (← ofExcept (made.addTo acc))

def chain (e : Edition) (known : Option ScopeTable) : Nat → Operand → Operand → BuildM Made
  | 0, _, _ => throw .exhausted
  | fuel + 1, ifFalse, cond => do
    let label ← ofExcept (chainLabel ifFalse (← get).queue)
    modify fun s => { s with ends := (label, 0) :: s.ends }
    let c ← ofExcept (ident e cond)
    openChainScope e
    let items ← body e known fuel ifFalse []
    let result ← more e known fuel [.ifThen c (.block items)] (← pop)
    closeChainScope e
    return result

def more (e : Edition) (known : Option ScopeTable) : Nat → List Node → Instr → BuildM Made
  | 0, _, _ => throw .exhausted
  | fuel + 1, items, i => do
    let next ← ofExcept (continuation (← get).ends true (i :: (← get).queue))
    openChainScope e
    match next with
    | .finish =>
      endChain
      closeChainScope e
      return .stmts items
    | .otherwise =>
      let rest ← otherwise e known fuel [] i
      endChain
      closeChainScope e
      return .stmts (items ++ [.elseThen (.block rest)])
    | .condition ifFalse =>
      let (head, cond) ← condition e known fuel [] i
      let items ← insertCondition items head
      let c ← ofExcept (ident e cond)
      let rest ← body e known fuel ifFalse []
      let result ← more e known fuel (items ++ [.elifThen c (.block rest)]) (← pop)
      closeChainScope e
      return result

def otherwise (e : Edition) (known : Option ScopeTable) :
    Nat → List Node → Instr → BuildM (List Node)
  | 0, _, _ => throw .exhausted
  | fuel + 1, acc, i => do
    let made ← buildInstr e known fuel i
    if made.present then
      if made.isLabel (← endLabel) then return acc
      else
        let acc ← ofExcept (made.addTo acc)
        otherwise e known fuel acc (← pop)
    else otherwise e known fuel acc (← pop)

/-- The statements that compute a further condition of a chain, and the condition. -/
def condition (e : Edition) (known : Option ScopeTable) :
    Nat → List Node → Instr → BuildM (List Node × Operand)
  | 0, _, _ => throw .exhausted
  | fuel + 1, acc, i => match i with
    | .elseBranch _ cond => return (acc, cond)
    | i => do
      let made ← buildInstr e known fuel i
      let acc ← if e = .fourth ∧ ¬ made.present then pure acc
        else ofExcept (made.addTo acc)
      condition e known fuel acc (← pop)

/-- A loop with a condition, from the first instruction that computes it on. In the fourth edition
the last of these is done again at the end of the body. -/
def whileHead (e : Edition) (known : Option ScopeTable) : Nat → List Node → Instr → BuildM Made
  | 0, _, _ => throw .exhausted
  | fuel + 1, head, i => match i with
    | .branch ifFalse cond => do
      let c ← ofExcept (ident e cond)
      let items ← body e known fuel ifFalse []
      let again := if e = .fourth then head.getLast?.toList else []
      return .stmts (head ++ [.whileDo c (.block (items ++ again))])
    | i => do
      let made ← buildInstr e known fuel i
      whileHead e known fuel (← ofExcept (made.addTo head)) (← pop)

def rangeHead (e : Edition) (known : Option ScopeTable) :
    Nat → Operand × Operand × Operand → List Node → Node → Instr → BuildM Made
  | 0, _, _, _, _ => throw .exhausted
  | fuel + 1, (start, stop, step), head, var, i => match i with
    | .branch ifFalse _ => do
      let items ← body e known fuel ifFalse []
      let range : Node := .range (.ofOperand stop) (.ofOperand start) (.ofOperand step)
      return .stmts (head ++ [.forRange var range (.block items)])
    | i => do
      let made ← buildInstr e known fuel i
      let isStart := match i with
        | .assign _ value => value.same start
        | _ => false
      let isTest := match i with
        | .binary _ _ right _ => right.same stop
        | _ => false
      if isStart then
        let var := match made with
          | .stmts items => firstIdent items
          | _ => var
        let head ← if e = .fourth then ofExcept (made.addTo head) else pure head
        rangeHead e known fuel (start, stop, step) head var (← pop)
      else if isTest then
        rangeHead e known fuel (start, stop, step) head var (← pop)
      else
        let head ← ofExcept (made.addTo head)
        rangeHead e known fuel (start, stop, step) head var (← pop)

def eachHead (e : Edition) (known : Option ScopeTable) :
    Nat → EachHead → List Node → Instr → BuildM Made
  | 0, _, _, _ => throw .exhausted
  | fuel + 1, h, head, i => match i with
    | .branch ifFalse _ => do
      let (front, loop) ← ofExcept (eachNode e h)
      let items ← body e known fuel ifFalse []
      return .stmts (head ++ front ++ [loop items])
    | .loopVar name => do eachHead e known fuel { h with var := name } head (← pop)
    | .index result obj idx => do
      let h ← eachIndex e h result obj idx
      eachHead e known fuel h head (← pop)
    | i => do
      let made ← buildInstr e known fuel i
      eachHead e known fuel h (← ofExcept (made.addTo head)) (← pop)

def functionHead (e : Edition) (known : Option ScopeTable) : Nat → String → Instr → BuildM Made
  | 0, _, _ => throw .exhausted
  | fuel + 1, name, i => match i.size? with
    | none => throw .noPart
    | some size => do
      let params ← paramList e fuel size []
      let make ← openFunction e known name params
      let items ← functionBody e known fuel []
      if e = .fourth then
        onTable ScopeTable.closeScope
      return .stmts [make items]

def paramList (e : Edition) :
    Nat → Int → List (Made × Operand) → BuildM (List (Made × Operand))
  | 0, _, _ => throw .exhausted
  | fuel + 1, left, acc => do
    if left ≤ 0 then return acc
    else
      let i ← pop
      let made ← buildInstr e none fuel i
      match i.register? with
      | some reg => paramList e fuel (left - 1) (acc ++ [(made, reg)])
      | none => throw .noPart

def functionBody (e : Edition) (known : Option ScopeTable) :
    Nat → List Node → BuildM (List Node)
  | 0, _ => throw .exhausted
  | fuel + 1, acc => do
    let made ← buildInstr e known fuel (← pop)
    if made.present then
      match (← get).waiting with
      | [] => throw .outOfRange
      | label :: rest =>
        if made.isLabel label then
          modify fun s => { s with seen := s.seen ++ [label], waiting := rest }
          return acc
        else functionBody e known fuel (← ofExcept (made.addTo acc))
    else functionBody e known fuel acc

end

def program (e : Edition) (known : Option ScopeTable) : Nat → List Node → BuildM (List Node)
  | 0, _ => throw .exhausted
  | fuel + 1, acc => do
    match (← get).queue with
    | [] => return acc
    | _ =>
      match ← buildInstr e known fuel (← pop) with
      | .operand .nothing => program e known fuel acc
      | made => program e known fuel (← ofExcept (made.addTo acc))

/-- A bound on the nesting of the steps for code of a given length: between two instructions that
are taken off there are at most three. -/
def fuelFor (length : Nat) : Nat := 4 * length + 16

def run (e : Edition) (known : Option ScopeTable) (code : List Instr) : BuildM Node := do
  let items ← program e known (fuelFor code.length) []
  let s ← get
  return .block (Node.settleAll s.part items)

end Build

end Tabc.Target
