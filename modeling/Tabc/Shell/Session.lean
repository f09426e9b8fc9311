import Tabc.Shell.Command
import Tabc.Shell.Sum

/-!
# Sessions

What a running command sees: variables, arguments, what is left of its input, and its two output streams.
-/

namespace Tabc.Shell

inductive Sink where
  | output
  | nowhere
  | file (name : String)
deriving DecidableEq, Inhabited

structure Session where
  bindings : List (String × String)
  arguments : List String
  input : List Char
  output : String
  files : List (String × String)
  status : Nat
  out : Sink
  err : Sink
deriving Inhabited

inductive Halt where
  | exit (status : Nat)
  | signal (number : Nat)
  | leave (loops : Nat)
  | next (loops : Nat)
  | exhausted
deriving DecidableEq, Inhabited

abbrev SessionM := EStateM Halt Session

namespace Session

def start (input : String) : Session := ⟨[], [], input.toList, "", [], 0, .output, .nowhere⟩

def process : Nat := 2

def value (s : Session) (name : String) : String :=
  match name with
  | "?" => toString s.status
  | "$" => toString process
  | "#" => toString s.arguments.length
  | "@" | "*" => " ".intercalate s.arguments
  | "0" => "sh"
  | "!" | "-" => ""
  | name => match name.toNat? with
    | some n => s.arguments.getD (n - 1) ""
    | none => (s.bindings.lookup name).getD ""

def assign (s : Session) (name value : String) : Session :=
  { s with bindings := (name, value) :: s.bindings.filter fun v => v.1 != name }

def emit (s : Session) (sink : Sink) (text : String) : Session :=
  match sink with
  | .output => { s with output := s.output ++ text }
  | .nowhere => s
  | .file name =>
    let old := (s.files.lookup name).getD ""
    { s with files := (name, old ++ text) :: s.files.filter fun f => f.1 != name }

def file? (s : Session) (name : String) : Option String := if name == "/dev/null" then some "" else s.files.lookup name

end Session

def finish (status : Nat) : SessionM Unit := modify fun s => { s with status := status }

def put (text : String) : SessionM Unit := modify fun s => s.emit s.out text

/-- Runs commands apart: only what they read, wrote and their status is seen outside. -/
def apart (body : SessionM Unit) : SessionM Unit := do
  let s ← get
  let after (t : Session) (status : Nat) : Session :=
    { s with input := t.input, output := t.output, files := t.files, status := status }
  match body.run s with
  | .ok _ t => set (after t t.status)
  | .error (.exit status) t => set (after t status)
  | .error (.signal n) t => do
    set (after t t.status)
    throw (.signal n)
  | .error .exhausted t => do
    set (after t t.status)
    throw .exhausted
  | .error _ t => set (after t t.status)

def capture (body : SessionM Unit) : SessionM String := do
  let s ← get
  set { s with output := "", out := .output }
  apart body
  let t ← get
  set { t with output := s.output, out := s.out }
  return t.output

end Tabc.Shell
