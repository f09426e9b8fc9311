import Tabc.Tool.Programs

/-!
# The command line

`tabc TOOL [--edition=N] ARGUMENTS` runs a tool on files of the working folder.
-/

namespace Tabc.CommandLine

open Tabc.Tool

def tool? : String → Option Program
  | "tokens" => some .tokens
  | "trees" => some .trees
  | "stages" => some .stages
  | "compile" => some .compiler
  | _ => none

def edition? : String → Option Edition
  | "--edition=1" => some .first
  | "--edition=2" => some .second
  | "--edition=3" => some .third
  | "--edition=4" => some .fourth
  | _ => none

def candidates (p : Program) (args : List String) : List String :=
  match p with
  | .compiler => args.map fun a => "playground/" ++ a ++ ".py"
  | _ => args

def parts (path : String) : List String :=
  ((Text.splitAt '/' path.toList).map String.ofList).filter fun s => s != "" && s != "."

def outputPath (p : Program) (args : List String) : String :=
  match p, args.find? fun a => !a.startsWith "-" with
  | .compiler, some a => "playground/" ++ a ++ ".c"
  | _, _ => "target_output.c"

def closing (e : Edition) : Outcome → Nat × String
  | .exit n => (n, "")
  | .fault (.rejected r) | .fault (.failed r) => (1, r.message e ++ "\n")
  | .fault _ => (1, "The program cannot be processed.\n")
  | .failure f => (1, f.message?.getD "" ++ "\n")
  | .file .missing => (1, "There is no such file.\n")
  | .file .isFolder => (1, "This is a folder.\n")
  | .file .notFolder => (1, "The path leads through a file.\n")

def readable (paths : List String) : IO Files := do
  let mut files : Files := []
  for path in paths do
    try
      files := files ++ [(parts path, ← IO.FS.readFile path)]
    catch _ => pure ()
  return files

def runTool (p : Program) (name : String) (e : Edition) (args : List String) : IO UInt32 := do
  let ending := Tool.run p e name args (← readable (candidates p args))
  (← IO.getStdout).putStr ending.printed
  if let some text := ending.output then IO.FS.writeFile (outputPath p args) text
  let (status, words) := closing e ending.outcome
  (← IO.getStderr).putStr words
  return status.toUInt32

end Tabc.CommandLine

def main (args : List String) : IO UInt32 := do
  match args with
  | name :: rest => match Tabc.CommandLine.tool? name with
    | some p => match rest.head?.bind Tabc.CommandLine.edition? with
      | some e => Tabc.CommandLine.runTool p name e (rest.drop 1)
      | none => Tabc.CommandLine.runTool p name .fourth rest
    | none => do
      (← IO.getStderr).putStr "There is no such tool.\n"
      return 2
  | [] => do
    (← IO.getStderr).putStr "A tool is needed: tokens, trees, stages or compile.\n"
    return 2
