import Tabc.Scope.Entry
import Tabc.Scope.Suffixes

/-!
# Scope tables

A `ScopeTable` holds the open scopes, innermost first, and the results that open functions expect.
-/

namespace Tabc

abbrev Scope := List (String × Entry)

namespace Scope

def find? (s : Scope) (name : String) : Option Entry := s.lookup name

def has (s : Scope) (name : String) : Bool := (s.find? name).isSome

def adjust (name : String) (f : Entry → Entry) : Scope → Scope
  | [] => []
  | (n, entry) :: rest => if n == name then (n, f entry) :: rest else (n, entry) :: adjust name f rest

def bind (s : Scope) (name : String) (entry : Entry) : Scope :=
  if s.has name then s.adjust name fun _ => entry else s ++ [(name, entry)]

end Scope

structure ScopeTable where
  scopes : List Scope
  /-- The results that functions expect, the last one declared first. -/
  expected : List Held
  numbers : List Nat
  printed : String
deriving Inhabited

abbrev ScopeM := EStateM Fault ScopeTable

namespace ScopeTable

/-- The built-in functions of the fourth edition: printing and reading of the primitive types, each
for the target program and for the program. -/
def builtins4 : Scope :=
  let prims : List Prim := [.int, .float, .bool, .str]
  let done : Held := .type (.prim .none)
  let prints := prims.flatMap fun p =>
    [.emitted ("print_" ++ p.name) [.target (.prim p)] done, .declared [] [.type (.prim p)] done]
  ("print", .functions prints) :: prims.map fun p =>
    let result : Held := .type (.prim p)
    ("input_" ++ p.name, .functions [.emitted ("input_" ++ p.name) [] result, .declared [] [] result,
       .emitted ("input_" ++ p.name ++ "_s") [.target (.prim .str)] result,
       .declared [] [.type (.prim .str)] result])

def builtins3 : Scope :=
  [("print_int", .functions [.declared [.text "var"] [.type (.prim .int)] (.type (.prim .none))]),
   ("input_int", .functions [.declared [.text "prompt"] [.type (.prim .none)] (.type (.prim .int))])]

/-- The built-in functions of the third edition as the target program sees them. -/
def emittedBuiltins3 : Scope :=
  [("print_int", .functions [.emitted "print_int" [.target (.prim .int)] (.type (.prim .none))]),
   ("input_int", .functions [.emitted "input_int" [.target (.prim .none)] (.type (.prim .int))])]

def baseScopes : Edition → List Scope
  | .first | .second => [[]]
  | .third => [builtins3, emittedBuiltins3]
  | .fourth => [builtins4]

def fresh (e : Edition) : ScopeTable := ⟨baseScopes e, [], Scope.suffixes, ""⟩

def top (t : ScopeTable) : Scope := t.scopes.headD []

def setTop (t : ScopeTable) (s : Scope) : ScopeTable :=
  { t with scopes := match t.scopes with
      | [] => [s]
      | _ :: rest => s :: rest }

def findIn (name : String) : List Scope → Option Entry
  | [] => none
  | s :: rest => match s.find? name with
    | some entry => some entry
    | none => findIn name rest

def openScope : ScopeM Unit := modify fun t => { t with scopes := [] :: t.scopes }

def closeScope : ScopeM Unit := do
  match (← get).scopes with
  | _ :: s :: rest => modify fun t => { t with scopes := s :: rest }
  | _ => throw (.unmet none)

def expect (result : Held) : ScopeM Unit := modify fun t => { t with expected := result :: t.expected }

def unexpect : ScopeM Unit := do
  match (← get).expected with
  | [] => throw .outOfRange
  | _ :: rest => modify fun t => { t with expected := rest }

def declareVariable (name : String) (type : Held) : ScopeM Unit := do
  let t ← get
  if t.top.has name then
    throw (.rejected (.redeclared name))
  else
    set (t.setTop (t.top.bind name (.variable type)))

def lookupVariable (name : String) : ScopeM Held := do
  match findIn name (← get).scopes with
  | some (.variable type) => pure type
  | some (.functions _) => throw (.unmet (some s!"When looking for {name}, found function when expecting variable"))
  | none => throw (.rejected (.undefinedVariable name))

/-- Gives a variable another type in every scope that has it; a new one is declared. Functions of
that name stay as they are. -/
def updateVariable (name : String) (type : Held) : ScopeM Unit :=
  modify fun t =>
    if t.scopes.any (·.has name) then
      { t with scopes := t.scopes.map fun s => s.adjust name fun
          | .variable _ => .variable type
          | entry => entry }
    else
      t.setTop (t.top.bind name (.variable type))

def expectFunctions : Fault := .unmet (some "Expect function, got probably Variable")

/-- A declaration with these parameters clashes with no function of a list. -/
def clear (name : String) (names : List ParamName) (types : List Held) :
    List Overload → Except Fault Unit
  | [] => pure ()
  | o :: rest =>
    if o.types == types then
      throw (.rejected (.redeclaredFunction name))
    else match o with
      | .declared names' _ _ =>
        if names' == names then throw (.rejected (.redeclaredFunction name))
        else clear name names types rest
      | _ => throw .noPart

/-- A declaration with these parameters clashes with no function of any scope. -/
def clearIn (name : String) (names : List ParamName) (types : List Held) :
    List Scope → Except Fault Unit
  | [] => pure ()
  | s :: rest => match s.find? name with
    | some (.functions os) => do
      clear name names types os
      clearIn name names types rest
    | some (.variable _) => throw expectFunctions
    | none => clearIn name names types rest

def addOverload (t : ScopeTable) (name : String) (o : Overload) : ScopeTable :=
  t.setTop (t.top.adjust name fun
    | .functions os => .functions (os ++ [o])
    | entry => entry)

/-- Declares a function. A further function of a name must differ from all others of that name in
the types and in the names of its parameters. -/
def declareFunction (name : String) (params : List (ParamName × Held)) (result : Held) :
    ScopeM Unit := do
  let t ← get
  let names := params.map (·.1)
  let types := params.map (·.2)
  match t.top.find? name with
  | some (.functions _) => do
    match clearIn name names types t.scopes with
    | .error fault => throw fault
    | .ok _ => set (t.addOverload name (.declared names types result))
  | some (.variable _) => throw (.rejected (.takenByVariable name))
  | none =>
    set { t.setTop (t.top.bind name (.functions [.declared names types result])) with
      expected := result :: t.expected }

def declareWhole (name : String) (params : List Datum) (result : Held) : ScopeM Unit := do
  let t ← get
  match t.top.find? name with
  | some (.functions _) => throw (.rejected (.redeclaredFunction name))
  | some (.variable _) => throw (.rejected (.takenByVariable name))
  | none => set (t.setTop (t.top.bind name (.functions [.whole params result])))

def missReport (os : List Overload) (types : List Held) : String :=
  match os.getLast? with
  | some o => s!"Failed: {Held.renderAll o.types} {Held.renderAll types}\n"
  | none => ""

/-- The result of the first function with these parameters, from the innermost scope outwards, and
what is reported on the way. -/
def resultIn (e : Edition) (name : String) (types : List Held) (report : String) :
    List Scope → String × Except Fault Held
  | [] => (report, .error (.rejected (.undefinedFunction name)))
  | s :: rest => match s.find? name with
    | some (.functions os) =>
      match os.find? fun o => e == .second || o.types == types with
      | some o => (report, .ok o.result)
      | none =>
        let report := match e with
          | .fourth => report ++ missReport os types
          | _ => report
        resultIn e name types report rest
    | some (.variable _) => (report, .error expectFunctions)
    | none => resultIn e name types report rest

/-- The result of a function with these parameters. The second edition asks for the name only. -/
def lookupFunction (e : Edition) (name : String) (types : List Held) : ScopeM Held := do
  let (report, outcome) := resultIn e name types "" (← get).scopes
  modify fun t => { t with printed := t.printed ++ report }
  match outcome with
  | .ok result => pure result
  | .error fault => throw fault

def namedIn (names : List ParamName) : List Overload → Except Fault (Option Overload)
  | [] => pure none
  | .declared names' types result :: rest =>
    if names' == names then pure (some (.declared names' types result)) else namedIn names rest
  | _ :: _ => throw .noPart

/-- The first function whose parameters have these names, from the innermost scope outwards. -/
def byNamesIn (name : String) (names : List ParamName) :
    List Scope → Except Fault (List Held × Held)
  | [] => throw (.rejected (.undefinedEmitted name))
  | s :: rest => match s.find? name with
    | some (.functions os) => do
      match ← namedIn names os with
      | some o => pure (o.types, o.result)
      | none => byNamesIn name names rest
    | some (.variable _) => throw .noPart
    | none => byNamesIn name names rest

/-- The types of the parameters and of the result of a function whose parameters have these
names. -/
def functionByNames (name : String) (names : List ParamName) : ScopeM (List Held × Held) := do
  match byNamesIn name names (← get).scopes with
  | .ok found => pure found
  | .error fault => throw fault

def freshName (name : String) : ScopeM String := do
  match (← get).numbers with
  | [] => throw .outOfRange
  | n :: rest => do
    modify fun t => { t with numbers := rest }
    pure (name ++ toString n)

/-- Declares a function of the target program and gives it a name of its own. -/
def emitFunction (name : String) (types : List Held) (result : Held) : ScopeM String := do
  let emitted ← freshName name
  let t ← get
  let o := Overload.emitted emitted types result
  match t.top.find? name with
  | some (.functions _) => set (t.addOverload name o)
  | some (.variable _) => throw .noPart
  | none => set (t.setTop (t.top.bind name (.functions [o])))
  pure emitted

def emittedIn (name : String) (types : List Held) : List Scope → Except Fault (String × Held)
  | [] => throw (.rejected (.undefinedEmitted name))
  | s :: rest => match s.find? name with
    | some (.functions os) => match os.find? fun o => o.types == types with
      | some (.emitted emitted _ result) => pure (emitted, result)
      | some _ => throw .noPart
      | none => emittedIn name types rest
    | some (.variable _) => throw .noPart
    | none => emittedIn name types rest

def emittedFunction (name : String) (types : List Held) : ScopeM (String × Held) := do
  match emittedIn name types (← get).scopes with
  | .ok found => pure found
  | .error fault => throw fault

def topNames (e : Edition) (t : ScopeTable) : List String :=
  (t.top.map (·.1)).filter fun n => !(baseScopes e).any (·.has n)

def ownEntries (base s : Scope) : Datum :=
  .list ((s.filter fun (n, entry) => match base.find? n with
    | some old => old.datum.render != entry.datum.render
    | none => true).map fun (n, entry) => .list [.text n, entry.datum])

def scopesDatum (e : Edition) (t : ScopeTable) : Datum :=
  let base := (baseScopes e).reverse
  .list (t.scopes.reverse.mapIdx fun i s => ownEntries (base.getD i []) s)

def expectedDatum (t : ScopeTable) : Datum := .list (t.expected.reverse.map Held.datum)

end ScopeTable

end Tabc
