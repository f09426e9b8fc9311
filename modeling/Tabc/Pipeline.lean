import Tabc.Syntax.Parser
import Tabc.Target.Build
import Tabc.Target.Direct
import Tabc.Target.Write
import Tabc.Typing.Check
import Tabc.Code.Flatten

/-!
# The whole compiler

A source text becomes trees, the trees are checked, then flattened to intermediate code, then built up to a tree
of the target language, which is written out.
-/

namespace Tabc

inductive Stage where
  | parsing
  | checking
  | flattening
  | writing
  | accepting
deriving DecidableEq, Inhabited

def Stage.label : Stage → String
  | .parsing => "Parser Error: "
  | .checking => "Type Checker Error: "
  | .flattening => "IR Translation Error: "
  | .writing => "Unable to generate target: "
  | .accepting => "Unable to compile output: "

namespace Fault

def note (e : Edition) : Fault → String
  | .rejected r => r.message e
  | .failed r => r.message e
  | .unmet (some m) => m
  | _ => ""

/-- A condition did not hold, and nothing was said about it. -/
def isSilent : Fault → Bool
  | .unmet none => true
  | _ => false

end Fault

/-- Stages that follow one another. What is printed is kept also when a stage fails. -/
abbrev PipelineM := EStateM (Stage × Fault) String

namespace Pipeline

def stage {α σ : Type} (s : Stage) (act : EStateM Fault σ α) (start : σ) (printed : σ → String) :
    PipelineM (α × σ) := do
  match act.run start with
  | .ok a t => do
    modify (· ++ printed t)
    return (a, t)
  | .error x t => do
    modify (· ++ printed t)
    throw (s, x)

def parse (e : Edition) (src : String) : PipelineM (List Node) := do
  let (trees, _) ← stage .parsing (Session.parse e src.toList) .fresh (·.source.printed)
  return trees

def check (e : Edition) (trees : List Node) : PipelineM ScopeTable := do
  let (_, table) ← stage .checking (typecheck e trees) (.fresh e) (·.printed)
  return table

def flatten (e : Edition) (trees : List Node) : PipelineM (List Instr) := do
  match Flat.ofProgram e trees with
  | .ok code => return code
  | .error x => throw (.flattening, x)

def build (e : Edition) (table : ScopeTable) (code : List Instr) : PipelineM Target.Node := do
  let (n, _) ← stage .writing (Target.Build.run e (some table) code) (.fresh e code) (·.printed)
  return n

/-- The output file for a target tree. Only the fourth edition can fold. -/
def write (e : Edition) (folding : Bool) (n : Target.Node) : PipelineM String :=
  match e with
  | .fourth => do
    let (text, _) ← stage .writing (Target.Writer.program n) (.fresh folding) (·.printed)
    return text
  | _ => do
    let (text, _) ← stage .writing (Target.Direct.program n) .empty (·.printed)
    return text

def code (e : Edition) (src : String) : PipelineM (ScopeTable × List Instr) := do
  let trees ← parse e src
  let table ← check e trees
  let code ← flatten e trees
  return (table, code)

def output (e : Edition) (folding : Bool) (src : String) : PipelineM String := do
  let (table, code) ← code e src
  write e folding (← build e table code)

inductive Failure where
  | spaces (line : Nat)
  | stage (s : Stage) (cause : Fault)
deriving DecidableEq

/-- The wording of a failure. A stage that fails without saying anything leaves none. -/
def Failure.message? : Failure → Option String
  | .spaces line => some (s!"Leading spaces detected at line {line}\n" ++
    "Indentation using spaces are not supported. Did you mean to use tabs?")
  | .stage s cause =>
    if cause.isSilent && s != .accepting then none
    else match s with
      | .flattening | .accepting => some s.label
      | s => some (s.label ++ cause.note .fourth)

structure Compilation where
  code : Option String
  output : Option String
  printed : String
  failure : Option Failure
deriving Inhabited

def stripComments (ls : List (List Char)) : List (List Char) := ls.filter fun l => l.head? != some '#'

/-- The first line, counted from zero, that is indented by spaces. -/
def spacesAt? (ls : List (List Char)) : Option Nat := ls.findIdx? fun l => l.head? == some ' ' && !l.all Text.isBlank

def joinLines (ls : List (List Char)) : String := "\n".intercalate (ls.map String.ofList)

/-- What a compilation ends with, given the result of the stages up to the intermediate code and that
of the others. `accepted` says whether the output is accepted by the next tool. -/
def conclude (accepted : Bool) (front : EStateM.Result (Stage × Fault) String (ScopeTable × List Instr))
    (back : ScopeTable → List Instr → String → EStateM.Result (Stage × Fault) String String) :
    Compilation :=
  match front with
  | .error (s, x) printed => ⟨none, none, printed, some (.stage s x)⟩
  | .ok (table, code) printed =>
    let listing := Instr.file .fourth code
    match back table code printed with
    | .error (s, x) printed => ⟨some listing, none, printed, some (.stage s x)⟩
    | .ok text printed =>
      ⟨some listing, some text, printed, if accepted then none else some (.stage .accepting (.unmet none))⟩

def compile (folding accepted : Bool) (src : String) : Compilation :=
  let ls := stripComments (Text.splitAt '\n' (Text.unifyBreaks src.toList))
  match spacesAt? ls with
  | some line => ⟨none, none, "", some (.spaces line)⟩
  | none =>
    conclude accepted ((code .fourth (joinLines ls)).run "") fun table code =>
      (build .fourth table code >>= write .fourth folding).run

end Pipeline

end Tabc
