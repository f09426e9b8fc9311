import Tabc.Fault
import Tabc.Target.Node

/-!
# Pieces of output

Lines, in groups that keep the indentation and in bodies that are indented by one step more.
-/

namespace Tabc.Target

inductive Piece where
  | nothing
  | line (s : String)
  | group (items : List Piece)
  | nested (items : List Piece)
deriving Inhabited

namespace Piece

def step : String := "    "

def margin (depth : Nat) : String := String.join (List.replicate depth step)

mutual

/-- A piece at some depth. Each group and each body is passed through `fix` when it is whole. -/
def text (fix : String → String) (depth : Nat) : Piece → String
  | .nothing => ""
  | .line s => margin depth ++ s ++ "\n"
  | .group items => fix (texts fix depth items)
  | .nested items => fix (texts fix (depth + 1) items)

def texts (fix : String → String) (depth : Nat) : List Piece → String
  | [] => ""
  | p :: rest => p.text fix depth ++ texts fix depth rest

end

/-- The parts of a whole output; a line on its own is taken apart into its characters. -/
def parts : Piece → Except Fault (List Piece)
  | .nothing => throw .wrongKind
  | .line s => pure (s.toList.map fun c => .line (String.singleton c))
  | .group items => pure items
  | .nested items => pure items

def layout (fix : String → String) (p : Piece) : Except Fault String := do
  return fix (texts fix 0 (← p.parts))

def present : Piece → Bool
  | .nothing => false
  | .line s => s != ""
  | .group items => !items.isEmpty
  | .nested items => !items.isEmpty

def line? : Piece → Option String
  | .line s => some s
  | _ => none

def joined (p : Piece) : Except Fault String := do
  match (← p.parts).mapM line? with
  | some ls => return String.join ls
  | none => throw .wrongKind

def shown : Piece → String
  | .nothing => "None"
  | .line s => s
  | .group _ => ""
  | .nested _ => ""

def braced (head : String) (body : Piece) : Piece := .group [.line (head ++ " \x7b"), body, .line "\x7d"]

end Piece

namespace Node

/-- A tree inside a line: a text as itself, all else in its written form. -/
def plain (e : Edition) : Node → String
  | .atom a => a.plain
  | n => n.render e

end Node

structure Functions where
  heads : List String
  bodies : List Piece
deriving Inhabited

namespace Functions

def headText (fs : Functions) : String :=
  let s := ";\n".intercalate fs.heads
  if s.isEmpty then "" else s ++ ";"

def layout (fix : String → String) (fs : Functions) : Except Fault String := do
  let bodies ← fs.bodies.mapM (Piece.layout fix)
  if fs.headText.isEmpty then return ""
  return "/***** Function declarations *****/\n" ++ fs.headText ++
    "\n/***** End of function declarations *****/\n\n/***** Function definitions *****/\n" ++
    String.join bodies ++ "\n/***** End of function definitions *****/\n"

end Functions

def page (functions body ending : String) : String :=
  "#include \"../starter.c\"\n\n" ++ functions ++ "\nint main() \x7b\n/***** Main *****/\n" ++ body ++
    "\n/***** End of main *****/\n\n" ++ ending ++ "\n\n    return 0;\n\x7d\n"

end Tabc.Target
