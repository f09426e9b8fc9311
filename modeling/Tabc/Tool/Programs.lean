import Tabc.Pipeline
import Tabc.Tool.Files
import Tabc.Tool.Options

/-!
# The tools

One lists the tokens of a file, one its trees, one runs all stages and shows what they make, and one compiles a
file of the playground to an executable. An `Ending` holds all that a tool leaves behind.
-/

namespace Tabc.Tool

inductive Program where
  | tokens
  | trees
  | stages
  | compiler
deriving DecidableEq

inductive Outcome where
  | exit (status : Nat)
  | fault (f : Fault)
  | failure (f : Pipeline.Failure)
  | file (f : FileFault)

structure Ending where
  printed : String
  output : Option String
  next : Option String
  outcome : Outcome

namespace Ending

def exit (printed : String) (status : Nat) : Ending := ⟨printed, none, none, .exit status⟩

def fault (printed : String) (f : Fault) : Ending :=
  match f with
  | .halted => exit printed 0
  | f => ⟨printed, none, none, .fault f⟩

end Ending

def usage (p : Program) (name : String) : Usage :=
  match p with
  | .tokens | .trees =>
    { program := name
      description := "Take in the miniJava source code and perform lexical analysis."
      operand := "FILE"
      operandHelp := "Input file with miniJava source code"
      flags := [] }
  | .stages =>
    { program := name
      description := "Take in the miniJava source code and compile it"
      operand := "FILE"
      operandHelp := "Input file"
      flags :=
        [⟨'a', "print-ast", "Print AST Nodes"⟩,
         ⟨'p', "parse-only", "Stop after scanning and parsing the input"⟩,
         ⟨'t', "typecheck-only", "Stop after typechecking"⟩,
         ⟨'v', "verbose", "Provides additional output"⟩] }
  | .compiler =>
    { program := name
      description := "Compile a python program to C"
      operand := "input"
      operandHelp := "The python program to compile"
      flags :=
        [⟨'o', "opt", "Enable optimization"⟩,
         ⟨'r', "run", "Run the code if successfully compiled"⟩] }

def listText (items : List String) : String := "[" ++ ", ".intercalate items ++ "]\n"

def treesText (e : Edition) (trees : List Node) : String :=
  listText (trees.map fun n => (n.datum e).render)

def listTokens (e : Edition) (text : String) : Ending :=
  let (tokens, s) := (Source.fresh.input text.toList).tokens e
  .exit (s.printed ++ listText (tokens.map Token.render)) 0

def listTrees (e : Edition) (text : String) : Ending :=
  match (Pipeline.parse e text).run "" with
  | .ok trees printed => .exit (printed ++ treesText e trees) 0
  | .error (_, f) printed => .fault printed f

/-- The stages after parsing: shows what each makes, and gives the output file if there is one. The
second edition stops at the intermediate code. -/
def showStages (e : Edition) (trees : List Node) : PipelineM (Option String) := do
  if e != .second then modify (· ++ treesText e trees)
  let table ← Pipeline.check e trees
  let code ← Pipeline.flatten e trees
  modify (· ++ Instr.listing e code)
  if e == .second then return none
  return some (← Pipeline.write e true (← Pipeline.build e table code))

def runStages (e : Edition) (flags : List Char) (printed text : String) : Ending :=
  let remark (s : String) : String := if flags.contains 'v' then s else ""
  match (Pipeline.parse e text).run (printed ++ remark "* Scanning and Parsing...\n") with
  | .error (_, f) printed => .fault printed f
  | .ok trees printed =>
    if flags.contains 'p' then .exit printed 0
    else
      let printed := printed ++ remark "* Typechecking...\n"
      if trees.isEmpty then .exit printed 0
      else match (showStages e trees).run printed with
        | .ok output printed => ⟨printed, output, none, .exit 0⟩
        | .error (_, f) printed => .fault printed f

def compileFile (files : Files) (flags : List Char) (name : String) : Ending :=
  let path := "./playground/" ++ name ++ ".py"
  let output := Text.replace ".py" ".c" path
  let program := Text.replace ".py" "" path
  let folding := flags.contains 'o'
  let mode := if folding then "on" else "off"
  let printed := s!"Compiling {path} to {output}. Optimization: {mode}\n"
  match files.read path with
  | .error f => ⟨printed, none, none, .file f⟩
  | .ok text =>
    let c := Pipeline.compile folding true text
    let printed := printed ++ c.printed
    match c.failure with
    | some f => ⟨printed, c.output, none, .failure f⟩
    | none =>
      let printed := printed ++
        "Successfully compiled to C code\nSuccessfully compiled to executable\n"
      if flags.contains 'r' then
        ⟨printed ++ "Running the program now...\n", c.output, some program, .exit 0⟩
      else ⟨printed, c.output, none, .exit 0⟩

def runWith (p : Program) (e : Edition) (files : Files) (operand : String) (flags : List Char) :
    Ending :=
  match p with
  | .compiler => compileFile files flags operand
  | p =>
    let printed := if p == .stages && flags.contains 'v'
      then s!"* Reading file {operand}...\n" else ""
    match files.read operand with
    | .error f => ⟨printed, none, none, .file f⟩
    | .ok text => match p with
      | .tokens => listTokens e text
      | .trees => listTrees e text
      | _ => runStages e flags printed text

/-- Runs a tool. In the first two editions the tool for tokens breaks at once and the one for trees
does nothing, whatever the command line. -/
def run (p : Program) (e : Edition) (name : String) (args : List String) (files : Files) : Ending :=
  let early := e == .first || e == .second
  if early && p == .tokens then .fault "" .unknownName
  else if early && p == .trees then .exit "" 0
  else
    let u := usage p name
    match u.read args with
    | .rejected => .exit "" 2
    | .help => .exit u.help 0
    | .run operand flags => runWith p e files operand flags

end Tabc.Tool
