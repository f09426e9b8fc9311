import Tabc.Syntax.Node

/-!
# From indentation to nesting

Statements come as a flat list, each with the number of tabs before it. `Outline` walks over the list and decides
for each statement which earlier one has it in its body; `forest` then builds the trees from the last statement
to the first.
-/

namespace Tabc

/-- A statement as it was read: the line it begins on, its tabs, and its tree without a body. -/
structure Statement where
  line : Nat
  tabs : Nat
  node : Node
deriving Inhabited

namespace Node

def isCompound : Node → Bool
  | .ifThen .. | .elifThen .. | .elseThen .. | .whileDo .. | .forRange .. | .forEach .. | .funDef .. => true
  | _ => false

def withBody : Node → Node → Node
  | .ifThen c _, body => .ifThen c body
  | .elifThen c _, body => .elifThen c body
  | .elseThen _, body => .elseThen body
  | .whileDo c _, body => .whileDo c body
  | .forRange v r _, body => .forRange v r body
  | .forEach v c _, body => .forEach v c body
  | .funDef n p _ r, body => .funDef n p body r
  | n, _ => n

end Node

structure Owner where
  index : Nat
  tabs : Nat
deriving DecidableEq, Inhabited

/-- What is remembered between statements: the owners that may still get statements, the one that
gets the next, and how many tabs that needs. -/
structure Outline where
  open' : List Owner
  current : Option Owner
  expected : Nat
deriving Inhabited

namespace Outline

def start : Outline := ⟨[], none, 0⟩

def closeTo (tabs : Nat) : List Owner → Owner → List Owner × Owner
  | [], o => ([], o)
  | p :: rest, o => if tabs ≤ o.tabs then closeTo tabs rest p else (p :: rest, o)

def dedent (o : Outline) (tabs : Nat) : Option Owner × Outline :=
  match o.current with
  | none => (none, o)
  | some owner =>
    let (rest, owner) := closeTo tabs o.open' owner
    if tabs > owner.tabs then (some owner, ⟨owner :: rest, some owner, tabs⟩)
    else (none, { o with open' := rest, current := some owner })

/-- Closes owners until the number of open ones is the number of tabs. -/
def unwind (tabs : Nat) : Nat → Outline → Outline
  | 0, o => o
  | fuel + 1, o =>
    if tabs < o.expected then
      unwind tabs fuel ⟨o.open'.tail, o.open'.head?.or o.current, o.expected - 1⟩
    else o

def dedentByCount (o : Outline) (tabs : Nat) : Option Owner × Outline :=
  let o := unwind tabs o.expected o
  (if tabs = 0 then none else o.current, o)

/-- The owner of the next statement, and what is remembered before it is entered. -/
def place (e : Edition) (o : Outline) (tabs : Nat) : Option Owner × Outline :=
  if tabs = o.expected ∧ o.current.isSome then (o.current, o)
  else if tabs < o.expected then
    match e with
    | .first => o.dedentByCount tabs
    | _ => o.dedent tabs
  else (none, o)

def enter (o : Outline) (index : Nat) (s : Statement) : Outline :=
  if s.node.isCompound then
    ⟨⟨index, s.tabs⟩ :: o.open', some ⟨index, s.tabs⟩, o.expected + 1⟩
  else o

def owners (e : Edition) : Outline → Nat → List Statement → List (Option Nat)
  | _, _, [] => []
  | o, index, s :: rest =>
    let (owner, o) := o.place e s.tabs
    owner.map Owner.index :: owners e (o.enter index s) (index + 1) rest

end Outline

def bodyOf (e : Edition) (items : List Node) : Node :=
  match e with
  | .first => .list items
  | _ => .block items

/-- Builds trees from the statements from a place on. Gives the trees at the top level and, for each
place before, the trees that belong into its body. -/
def assemble (e : Edition) : List (Statement × Option Nat) → Nat → List Node × List (Nat × Node)
  | [], _ => ([], [])
  | (s, owner) :: rest, index =>
    let (roots, owned) := assemble e rest (index + 1)
    let items := (owned.filter fun (i, _) => i == index).map Prod.snd
    let owned := owned.filter fun (i, _) => i != index
    let node := if s.node.isCompound then s.node.withBody (bodyOf e items) else s.node
    (if s.tabs == 0 then node :: roots else roots, match owner with
      | some i => (i, node) :: owned
      | none => owned)

/-- The trees of a list of statements. A statement that is indented too far belongs nowhere. -/
def forest (e : Edition) (statements : List Statement) : List Node :=
  (assemble e (statements.zip (Outline.start.owners e 0 statements)) 0).1

end Tabc
