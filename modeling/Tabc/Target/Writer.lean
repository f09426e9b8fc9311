import Tabc.Folding.Eval
import Tabc.Target.Piece
import Tabc.Text.Numeral
import Tabc.Text.Replace

/-!
# Writing with folding: what is remembered

The contents of registers are put into the places where the registers are used. With folding on the values of
variables are followed and constants written. A body that may run more than once, or not at all, is first written
to find out what it assigns (the trial run), and these variables are no longer followed.
-/

namespace Tabc.Target

/-- The value of a variable that may be put in its place: the value, the depth of the block where
it was given, and whether it still holds. -/
structure Held where
  value : Node
  depth : Nat
  holds : Bool
deriving Inhabited

structure Writer where
  functions : Functions
  inFunction : Bool
  temps : List (String × Node)
  /-- Registers that hold a list, with the variable that the list was assigned to. -/
  tempLists : List (String × Option String)
  /-- The variables declared in each open block, the innermost first. -/
  declared : List (List String)
  listTypes : List (String × String)
  /-- The list variables that were declared by an assignment. -/
  listsDeclared : List String
  listLengths : List (String × Node)
  /-- Literals of the target language by register or variable. -/
  literals : List (String × String)
  held : List (String × Held)
  depth : Nat
  inLoop : Bool
  /-- A body is written only to find out what it assigns. -/
  trial : Bool
  folding : Bool
  /-- The variables that change in a body that may run any number of times. -/
  variants : List String
  vars : List (String × Node)
  /-- The chain of conditions at hand has a first branch in the output. -/
  hasHead : Bool
  /-- The chain of conditions at hand is decided. -/
  decided : Bool
  printed : String
deriving Inhabited

abbrev WriterM := EStateM Fault Writer

/-- Binds a key to a value; a key that is there already keeps its place. -/
def put {α : Type} (key : String) (value : α) : List (String × α) → List (String × α)
  | [] => [(key, value)]
  | (k, v) :: rest => if k == key then (key, value) :: rest else (k, v) :: put key value rest

namespace Node

def isNumber : Node → Bool
  | .atom (.bool _) | .atom (.int _) | .atom (.float _) => true
  | _ => false

def isText (s : String) : Node → Bool
  | .atom (.text t) => s == t
  | _ => false

def isFalse (n : Node) : Bool := n.plain .fourth == "False" || n.isText "false"

def isTrue (n : Node) : Bool := n.plain .fourth == "True" || n.isText "true"

def rulesOut (n : Node) : Bool := n.isFalse || n.isText "NONE_LITERAL"

def isZero : Node → Bool
  | .atom (.text s) => s == "false"
  | .atom a => Arith.equal a (.bool false)
  | _ => false

/-- The type of an operation is this primitive type; what is no type and has no value is refused. -/
def isPrim (p : Prim) : Node → Except Fault Bool
  | .type t => pure (t == .prim p)
  | .shape _ | .source _ | .expression _ | .ret _ | .literal _ _ _ => pure false
  | _ => throw .noPart

def nameText : Node → Except Fault String
  | .ident s => pure s
  | .source n => match n with
    | .ident s => pure s
    | _ => throw .noPart
  | _ => throw .noPart

/-- Cuts a fraction down to a whole number; any other value stays. -/
def cutFraction : Node → Except Fault Node
  | .atom (.float x) => do return .atom (← Arith.truncate (.float x))
  | n => pure n

def whole : Node → Except Fault Node
  | .atom (.text s) => match Text.readInt? s.toList with
    | some n => pure (.atom (.int n))
    | Option.none => throw .badValue
  | n => do return .atom (← Arith.truncate (← Expr.constant n))

def fraction : Node → Except Fault Node
  | .atom (.text _) => throw .badValue
  | n => do return .atom (← Arith.widen (← Expr.constant n))

/-- Looks up a value as a key: a constant may be one, and a tree is refused. -/
def find? {α : Type} (table : List (String × α)) : Node → Except Fault (Option α)
  | .atom (.text s) => pure (table.lookup s)
  | .atom _ => pure Option.none
  | _ => throw .wrongKind

/-- The mark of the elements of a collection, or of a value, of some type. -/
def mark : Node → Except Fault String
  | .type (.prim p) => pure (p.name ++ "_v")
  | .type (.coll _ (.prim p)) => pure (p.name ++ "_v")
  | .type (.coll _ _) => throw (.unmet Option.none)
  | .shape (.coll _ (.coll _ _)) => throw (.unmet Option.none)
  | .shape (.coll _ (.bare _)) => throw (.unmet Option.none)
  | _ => throw .noPart

end Node

namespace Writer

def fresh (folding : Bool) : Writer :=
  { functions := ⟨[], []⟩, inFunction := false, temps := [], tempLists := [], declared := [[]],
    listTypes := [], listsDeclared := [], listLengths := [], literals := [], held := [], depth := 0,
    inLoop := false, trial := false, folding, variants := [], vars := [], hasHead := false,
    decided := false, printed := "" }

def lift {α : Type} (act : Except Fault α) : WriterM α := MonadExcept.ofExcept act

def reporting (n : Node) (act : WriterM Piece) : WriterM Piece :=
  tryCatch act fun
    | .noPart => do
      modify fun s => { s with
        printed := s.printed ++ s!"Trying to process node {n.plain .fourth}\n" }
      throw .noPart
    | x => throw x

def lineText (p : Piece) : WriterM String :=
  match p with
  | .line s => return s
  | _ => throw .wrongKind

def isRegister (name : String) : WriterM Bool :=
  match name.toList with
  | [] => throw .outOfRange
  | c :: _ => return c == '_'

def setTemp (name : String) (value : Node) : WriterM Unit := modify fun s => { s with temps := put name value s.temps }

/-- Follows a value through the registers; the result is what no register stands for. -/
def contents (temps : List (String × Node)) : Nat → Node → Except Fault Node
  | 0, _ => throw .exhausted
  | fuel + 1, v => do
    match ← v.find? temps with
    | some w => contents temps fuel w
    | none => return v

def tempValue (v : Node) : WriterM Node := do
  let temps := (← get).temps
  lift (contents temps (temps.length + 1) v)

/-- Follows a value through the registers up to the last one with contents. -/
def lastGiven (temps : List (String × Node)) : Nat → Node → Except Fault Node
  | 0, _ => throw .exhausted
  | fuel + 1, v => do
    match ← v.find? temps with
    | some (.atom .none) => return v
    | some w => lastGiven temps fuel w
    | none => return v

/-- The last value that a register leads to; nothing leads nowhere. -/
def lookUp : Node → WriterM Node
  | .atom .none => throw .unassigned
  | v => do
    let temps := (← get).temps
    lift (lastGiven temps (temps.length + 1) v)

def nameValue (name : String) : WriterM Node := do
  if ← isRegister name then tempValue (.text name) else return .text name

/-- Gives a variable a value that may be put in its place. In an inner block the value is forgotten
instead, for good. -/
def hold (name : String) (value : Node) : WriterM Unit := do
  let s ← get
  let setNew : WriterM Unit :=
    if value.isNumber || value.isText "NONE_LITERAL" then
      set { s with held := put name ⟨value, s.depth, true⟩ s.held }
    else pure ()
  match s.held.lookup name with
  | some h =>
    if !h.holds then pure ()
    else if s.depth > h.depth then set { s with held := put name { h with holds := false } s.held }
    else setNew
  | none => setNew

def heldValue (v : Node) : WriterM Node := do
  let s ← get
  if !s.folding then return v
  match ← lift (v.find? s.held) with
  | some h => return if h.holds then h.value else v
  | none => return v

def setVar (name : String) (value : Node) : WriterM Unit := modify fun s => { s with vars := put name value s.vars }

def addVariant (name : String) : WriterM Unit :=
  modify fun s => if s.variants.contains name then s else { s with variants := s.variants ++ [name] }

/-- No longer follows the variables that change: each of them stands for itself. -/
def forgetVariants : WriterM Unit := do
  for x in (← get).variants do
    modify fun s => { s with
      held := match s.held.lookup x with
        | some h => put x { h with holds := false } s.held
        | none => s.held
      vars := put x (.text x) s.vars }

def known (s : Writer) : Env := fun x => if s.variants.contains x then none else s.vars.lookup x

def compute (text : String) : WriterM Node := do lift (evaluate (known (← get)) text)

/-- The value of the expression that a value is. A text that no variable has as its name becomes a
literal, which is kept under a name; `wrap` says what is made of it. What cannot be computed stays. -/
def computeLiteral (name : String) (wrap : String → String) (v : Node) : WriterM Node := do
  let s ← get
  match evaluate (known s) (v.plain .fourth) with
  | .error _ => return v
  | .ok (.atom (.text t)) =>
    if (s.vars.lookup t).isSome then return .text t
    else
      let literal := Text.quoteC t
      set { s with literals := put name literal s.literals }
      return .text (wrap literal)
  | .ok w => return w

def operator : String → String
  | "and" | "&" => "&&"
  | "or" | "|" => "||"
  | "not" => "!"
  | op => op

def operation (a : Node) (op : String) (b : Node) : String := a.plain .fourth ++ " " ++ op ++ " " ++ b.plain .fourth

def typeText : Ty → WriterM String
  | .prim p => return Ty.targetName p
  | .coll kind _ | .bare kind => if kind == "list" || kind == "tuple" then return "list_t *" else throw (.unmet none)

def argText (v : Node) : WriterM Node := do
  match ← lift (v.find? (← get).temps) with
  | some w => return .text (w.plain .fourth)
  | none => return v

def callText (name args : Node) : WriterM String := do
  let values ← match args with
    | .list items => items.mapM argText
    | .atom (.text s) => (s.toList.map fun c => Node.text (String.singleton c)).mapM argText
    | _ => throw .wrongKind
  let texts ← values.mapM fun
    | .atom (.text s) => (return s : WriterM String)
    | _ => throw .wrongKind
  match name with
  | .atom (.text f) => return f ++ "(" ++ ", ".intercalate texts ++ ")"
  | _ => throw .wrongKind

/-- The value that an assignment gives to its variable: the value of the right side if it can be
computed. -/
def evalAssign (value : Node) (writeId : WriterM Piece) : WriterM Node := do
  let v ← lookUp value
  let name ← lineText (← writeId)
  match ← lift (value.find? (← get).literals) with
  | some literal => do
    modify fun s => { s with literals := put name literal s.literals }
    return .text literal
  | none => computeLiteral name Text.quoteC v

/-- Names that are taken where the length of a part of a list is computed. -/
def lengthEnv : Env := fun x =>
  if ["self", "node", "result", "params", "json"].contains x then some (.list []) else none

/-- The length of a part of a list, from the text of the call that takes it. -/
def sliceLength (call : String) : Except Fault Node := do
  let some inner := (Text.splitAt '(' call.toList)[1]? | throw .outOfRange
  let params := Text.splitAt ',' ((Text.splitAt ')' inner).headD [])
  let some stop := params[2]? | throw .outOfRange
  let some start := params[1]? | throw .outOfRange
  evaluate lengthEnv (String.ofList (stop ++ '-' :: start))

/-- The value is a list: a variable that holds one, or a part of one. -/
def isList (s : Writer) (v : Node) : Bool :=
  match v with
  | .atom (.text t) =>
    s.tempLists.any (·.2 == some t) || s.listsDeclared.contains t || Text.occurs "list_slice".toList t.toList
  | .atom .none => s.tempLists.any (·.2 == none)
  | _ => false

def declareList (name : String) (v : Node) : WriterM Piece := do
  modify fun s => { s with listsDeclared := s.listsDeclared ++ [name] }
  let s ← get
  let some t := s.listTypes.lookup name | throw .noKey
  let .atom (.text call) := v | throw .wrongKind
  let length ← if Text.occurs "list_slice".toList call.toList then lift (sliceLength call)
    else match s.listLengths.lookup call with
      | some n => pure n
      | none => throw .noKey
  set { s with listLengths := put name length s.listLengths }
  return .line s!"{t} {name};{name} = {call}"

/-- What an assignment becomes: it may be done with, or give a line and the value assigned. -/
inductive Assigned where
  | done (p : Piece)
  | value (p : Piece) (v : Node)
deriving Inhabited

def assignValue (name : String) (v : Node) (ending : String) : WriterM Assigned := do
  let v ← heldValue v
  hold name v
  return .value (.line (name ++ " = " ++ v.plain .fourth ++ ending)) v

/-- Assigns what a register stands for; a register that holds a list becomes the variable. -/
def assignText (name text : String) : WriterM Assigned := do
  let s ← get
  if (s.temps.lookup text).isSome then assignValue name (← tempValue (.text text)) ";"
  else if (s.tempLists.lookup text).isSome then do
    set { s with tempLists := put text (some name) s.tempLists }
    return .done .nothing
  else assignValue name (.text text) ";"

def assignRaw (name : String) (value : Node) : WriterM Assigned := do
  let s ← get
  let v ← match ← lift (value.find? s.temps) with
    | some _ => tempValue value
    | none => match value with
      | .atom (.text text) =>
        if (s.tempLists.lookup text).isSome then do
          set { s with tempLists := put text (some name) s.tempLists }
          let some n := s.listLengths.lookup text | throw .noKey
          modify fun s => { s with listLengths := put name n s.listLengths }
          return .done .nothing
        else pure value
      | _ => pure value
  let s ← get
  if isList s v && !s.tempLists.any (·.2 == some name) && !s.listsDeclared.contains name then
    return .done (← declareList name v)
  else assignValue name v ""

def assignSide (name : String) (temp : Bool) (value : Node) (writeValue : WriterM Piece) :
    WriterM Assigned := do
  match value with
  | .ident _ | .call _ _ | .string _ _ => do
    let text ← lineText (← writeValue)
    if let .string _ _ := value then
      modify fun s => { s with literals := put name text s.literals }
    if temp then do
      setTemp name (.text text)
      let prints := match value with
        | .call (.atom (.text f)) _ => "print_".toList.isPrefixOf f.toList
        | _ => false
      return .done (if prints then .line (text ++ ";") else .nothing)
    else assignText name text
  | .atom (.bool b) => do
    let text := if b then "true" else "false"
    if temp then do
      setTemp name (.text text)
      return .done .nothing
    else assignText name text
  | .atom (.text "none-placeholder") =>
    if temp then do
      setTemp name (.text "NONE_LITERAL")
      return .done .nothing
    else do
      hold name (.text "NONE_LITERAL")
      return .value (.line (name ++ " = NONE_LITERAL;")) .none
  | v =>
    if temp then do
      setTemp name v
      return .done .nothing
    else assignRaw name v

def assign (value : Node) (writeId writeValue : WriterM Piece) : WriterM Piece := do
  let name ← lineText (← writeId)
  let known := ((← get).temps.lookup name).isSome
  let register ← isRegister name
  if register then setTemp name .none
  let temp := known || register
  if (← get).trial then do
    if !temp then addVariant name
    return .nothing
  else
    match ← assignSide name temp value writeValue with
    | .done p => return p
    | .value p v =>
      if temp || (← get).variants.contains name then return p
      else match value with
        | .atom (.text t) =>
          if t == "_" then do
            setVar name v
            return p
          else do
            let w ← evalAssign value writeId
            setVar name w
            return .line (name ++ " = " ++ w.plain .fourth ++ ";")
        | _ => do
          setVar name v
          return p

end Writer

end Tabc.Target
