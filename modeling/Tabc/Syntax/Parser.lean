import Tabc.Syntax.Source
import Tabc.Syntax.Phrase
import Tabc.Syntax.Nesting
import Tabc.Parsing.Machine
import Tabc.Fault

/-!
# The parser

A `Session` is a parser with all that it remembers: its source of tokens, the literals that are still open, and
the statements read so far. What an error leaves behind stays for the next text.
-/

namespace Tabc

open Parsing (Machine Sym Reply)
open Automaton (Table)

/-- A parser and what it remembers. Open literals have the innermost first, and their elements the
newest first. -/
structure Session where
  source : Source
  lists : List (List Node)
  tuples : List (List Node)
  statements : List Statement
  ready : Bool
deriving Inhabited

abbrev ParseM := EStateM Fault Session

namespace Session

def fresh : Session := ⟨.fresh, [], [], [], true⟩

end Session

/-- Starts a literal whose first element is given, or, if it is missing, is taken from the literal
around it. -/
def openLiteral (stack : List (List Node)) (first : Node) (others : List Node) :
    Except Fault (List (List Node)) :=
  if first.isNone then
    match stack with
    | (item :: items) :: outer => .ok ([item] :: items :: outer)
    | _ => .error .outOfRange
  else .ok ((others ++ [first]) :: stack)

/-- Adds an element to the innermost literal unless it is missing. -/
def growLiteral (stack : List (List Node)) (item : Node) : Except Fault (List (List Node)) :=
  if item.isNone then .ok stack
  else match stack with
    | items :: outer => .ok ((item :: items) :: outer)
    | [] => .error .outOfRange

/-- Ends the innermost literal. Inside another one it becomes its next element and leaves no value. -/
def closeLiteral (kind : String) (stack : List (List Node)) :
    Except Fault (Node × List (List Node)) :=
  match stack with
  | items :: around :: outer =>
    .ok (.none, (.collection kind items.reverse :: around) :: outer)
  | [items] => .ok (.collection kind items.reverse, [])
  | [] => .error .outOfRange

def onLists (f : List (List Node) → Except Fault (List (List Node))) : ParseM Node := do
  match f (← get).lists with
  | .ok lists => modify ({ · with lists := lists }); return .none
  | .error x => throw x

def onTuples (f : List (List Node) → Except Fault (List (List Node))) : ParseM Node := do
  match f (← get).tuples with
  | .ok tuples => modify ({ · with tuples := tuples }); return .none
  | .error x => throw x

/-- Records a statement with the line it begins on; the next one begins where this one ended. -/
def record (e : Edition) (node : Node) : ParseM Node := do
  let s := (← get).source
  let line := match e with
    | .first => s.reached
    | _ => s.current
  modify fun p => { p with
    statements := p.statements ++ [⟨line, s.tabCount line, node⟩]
    source := { s with current := s.reached } }
  return node

def listItems : Node → List Node
  | .list items => items
  | _ => []

def tokenText : Node → String
  | .atom (.text s) => s
  | _ => ""

/-- An identifier; the first two editions keep the bare name in headers and calls. -/
def nameNode (e : Edition) (v : Node) : Node :=
  match e with
  | .first | .second => v
  | .third | .fourth => .ident (tokenText v)

/-- The variable of a loop; the first edition keeps the bare name. -/
def loopVar (e : Edition) (v : Node) : Node :=
  match e with
  | .first => v
  | _ => .ident (tokenText v)

/-- The bounds of a range. Up to the third edition the first number is taken as the end. -/
def rangeNode (e : Edition) : List Node → Node
  | [stop] => .range stop .none .none
  | [a, b] => match e with
    | .fourth => .range b a .none
    | _ => .range a b .none
  | [a, b, step] => match e with
    | .fourth => .range b a step
    | _ => .range a b step
  | _ => .none

/-- A literal. From the third edition on the text `None` is the literal of nothing, quoted or not. -/
def literalNode (e : Edition) (v : Node) : Node :=
  match v with
  | .atom a =>
    if (e == .third || e == .fourth) && a == .text "None" then
      .literal "none" (.text "none-placeholder")
    else .literal a.kindName a
  | n => n

def itemsOption : Node → Option (List Node)
  | .list items => some items
  | _ => none

/-- The arguments of a call. Missing ones are an empty list from the third edition on. -/
def argsNode (e : Edition) (v : Node) : Node :=
  match e with
  | .first | .second => .args (itemsOption v)
  | .third | .fourth => .args (some (listItems v))

def Act.apply (e : Edition) (act : Act) (vs : List Node) : ParseM Node :=
  match act, vs with
  | .pass, v :: _ => return v
  | .inner, [_, v, _] => return v
  | .nothing, _ => return .none
  | .single, v :: _ => return .list [v]
  | .extend, [v, w] => return .list (listItems v ++ [w])
  | .extendComma, [v, _, w] => return .list (listItems v ++ [w])
  | .name, v :: _ => return .ident (tokenText v)
  | .typeOf, v :: _ => match v with
    | .shape t => return .type t
    | n => return n
  | .primType, v :: _ =>
    match Prim.ofName? .fourth (if tokenText v == "None" then "none" else tokenText v) with
    | some p => return .shape (.prim p)
    | none => throw (.unmet none)
  | .collType, [o, v, _] => match v with
    | .type t => return .shape (.coll (if tokenText o == "[" then "list" else "tuple") t)
    | n => return n
  | .literal, v :: _ => return literalNode e v
  | .binary, [l, o, r] => return .binary l (tokenText o) r
  | .unary, [o, r] => return .unary (tokenText o) r
  | .emptyList, _ => return .collection "list" []
  | .listHead, [_, v] => onLists fun stack => openLiteral stack v []
  | .listBody, [_, _, v] => onLists fun stack => growLiteral stack v
  | .listTail, _ => do
    match closeLiteral "list" (← get).lists with
    | .ok (v, lists) => modify ({ · with lists := lists }); return v
    | .error x => throw x
  | .emptyTuple, _ => return .collection "tuple" []
  | .tupleHead, [_, v, _, w] => onTuples fun stack => openLiteral stack v [w]
  | .tupleBody, [_, _, v] => onTuples fun stack => growLiteral stack v
  | .tupleTail, _ => do
    match closeLiteral "tuple" (← get).tuples with
    | .ok (v, tuples) => modify ({ · with tuples := tuples }); return v
    | .error x => throw x
  | .statement, v :: _ => record e v
  | .funDec, [_, f, _, ps, _, _, r, _] => return .funDef (nameNode e f) ps .none r
  | .params, v :: _ => return .params (itemsOption v)
  | .param, [x, _, ty] => return .param ty (nameNode e x)
  | .call, [f, _, a, _] =>
    return match e with
      | .third => .call (nameNode e f) a
      | _ => .call f a
  | .args, v :: _ => return argsNode e v
  | .ret, _ :: v :: _ => return .ret v
  | .ifThen, [_, c, _] => return .ifThen c .none
  | .elifThen, [_, c, _] => return .elifThen c .none
  | .elseThen, _ => return .elseThen .none
  | .forRange, [_, v, _, r, _] => return .forRange (loopVar e v) r .none
  | .range, [_, _, a, _] => return rangeNode e [a]
  | .range, [_, _, a, _, b, _] => return rangeNode e [a, b]
  | .range, [_, _, a, _, b, _, c, _] => return rangeNode e [a, b, c]
  | .forEach, [_, v, _, c, _] => return .forEach (loopVar e v) c .none
  | .whileDo, [_, c, _] => return .whileDo c .none
  | .assign, [v, _, r, _] => return .assign (.ident (tokenText v)) .none r
  | .assignTyped, [v, _, ty, _, r, _] => return .assign (.ident (tokenText v)) ty r
  | .append, [o, _, _, _, v, _] => return .append o v
  | .index, [o, _, i, _] => return .index o i
  | .sliceFrom, [o, _, s, _, _] => return .slice o s .none
  | .slice, [o, _, s, _, s', _] => return .slice o s s'
  | .sliceAll, o :: _ => return .slice o .none .none
  | .sliceTo, [o, _, _, s, _] => return .slice o .none s
  | _, _ => return .none

def buildTable (e : Edition) : Table :=
  let g := grammar e
  match Table.build g (Array.replicate g.rules.size 0) with
  | .ok t => t
  | .error _ => ⟨#[], [], [], #[]⟩

def table1 : Table := buildTable .first

def table2 : Table := buildTable .second

def table3 : Table := buildTable .third

def table4 : Table := buildTable .fourth

def parseTable : Edition → Table
  | .first => table1
  | .second => table2
  | .third => table3
  | .fourth => table4

/-- The rule of a number; number `0` is never reduced. -/
def clauseOf (cs : Array Clause) (rule : Nat) : Clause := cs.getD (rule - 1) default

def readToken (e : Edition) : ParseM (Option (Sym Symbol Node)) := do
  let p ← get
  let (token, source) := p.source.next e
  set { p with source := source }
  return token.map fun t =>
    ⟨.tok t.kind, some (.atom t.value), ⟨some t.line, some t.pos, none, none⟩, true⟩

def symText (s : Sym Symbol Node) : String :=
  match s.kind, s.value with
  | .tok k, some (.atom a) =>
    (Token.mk k a (s.span.line.getD 0).toNat (s.span.pos.getD 0).toNat).render
  | k, _ => k.name

/-- What to do about a token with which no rule goes on. The first edition reports it and recovers,
the next two report it and stop, the fourth stops with a message. -/
def onSyntaxError (e : Edition) (s : Option (Sym Symbol Node)) : ParseM (Reply Symbol Node) := do
  let shown := (s.map symText).getD "None"
  let report : ParseM Unit :=
    modify fun p => { p with source := p.source.print s!"Syntax error at token {shown}" }
  match e with
  | .first => report; return ⟨false, false, none⟩
  | .second | .third => report; throw .halted
  | .fourth =>
    let p := (← get).source
    throw (.failed (.syntaxAt p.reached p.current shown))

def machine (e : Edition) : Machine Symbol Node Session Fault :=
  let table := parseTable e
  let cs := (clauses e).toArray
  let row (state : Nat) := table.rows.getD state default
  { action := fun state s => (row state).move? s.code
    defaulted := fun state => (row state).defaulted?
    goto := fun state s => (row state).goto? s.code
    head := fun rule => .phrase (clauseOf cs rule).head
    size := fun rule => (clauseOf cs rule).body.length
    endKind := .eof
    errorKind := .error
    isEnd := (· == .eof)
    isError := (· == .error)
    token := readToken e
    place := fun p => (p.source.line, p.source.pos)
    tracking := false
    reduce := fun rule head args _ => do
      let v ← (clauseOf cs rule).act.apply e (args.map fun s => s.value.getD .none)
      return .symbol { head with value := some v }
    onError := onSyntaxError e
    ready := Session.ready
    setReady := fun b p => { p with ready := b }
    note := fun _ _ => pure ()
    noPlace := .noPart
    underflow := .outOfRange
    noGoto := .noKey
    errorValue := .text "error"
    wrap := fun s => s.value.getD .none }

/-- A bound on the moves for a text of a given length: every character gives one token at most, and
between two tokens each rule is used a bounded number of times. -/
def moveBound (length : Nat) : Nat := 1000 * (length + 10)

def Session.parse (e : Edition) (text : List Char) : ParseM (List Node) := do
  modify fun p => { p with statements := [], source := p.source.input text }
  match ← (machine e).run (moveBound text.length) Machine.start with
  | .exhausted => throw .exhausted
  | .finished _ =>
    let p ← get
    set { p with source := p.source.clearTabs }
    return forest e p.statements

end Tabc
