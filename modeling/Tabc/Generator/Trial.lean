import Tabc.Generator.ParserBuild
import Tabc.Parsing.Machine

/-!
# Trials of parsers

A parser that was built from a description is tried on lists of tokens. Each rule makes a list of its head and
the values of its body, and can be told to fail or to record what it sees.
-/

namespace Tabc.Generator

open Tabc.Grammar Tabc.Automaton Tabc.Parsing

structure TrialToken where
  kind : String
  value : Datum
  place : Option (Int × Int)
deriving Inhabited

inductive TrialValue where
  | datum (d : Datum)
  | list (items : List TrialValue)
  | token (t : TrialToken)
  | symbol (kind : String)
deriving Inhabited

def TrialToken.render? (t : TrialToken) : Option String :=
  t.place.map fun (line, pos) => s!"LexToken({t.kind},{t.value.render},{line},{pos})"

namespace TrialValue

mutual

def render? : TrialValue → Option String
  | .datum d => some d.render
  | .list items => (renderAll? items).map fun ts => "[" ++ ", ".intercalate ts ++ "]"
  | .token t => t.render?
  | .symbol kind => some kind

def renderAll? : List TrialValue → Option (List String)
  | [] => some []
  | v :: rest => do return (← render? v) :: (← renderAll? rest)

end

def kindName : TrialValue → String
  | .datum (.atom a) => a.kindName
  | .datum (.list _) | .list _ => "list"
  | .datum (.record ..) => "dict"
  | .token _ => "LexToken"
  | .symbol _ => "YaccSymbol"

mutual

def isDatum : Datum → TrialValue → Bool
  | .atom a, .datum (.atom b) => Arith.equal a b
  | .list xs, .datum (.list ys) => areData xs (ys.map .datum)
  | .list xs, .list ys => areData xs ys
  | _, _ => false

def areData : List Datum → List TrialValue → Bool
  | [], [] => true
  | x :: xs, y :: ys => isDatum x y && areData xs ys
  | _, _ => false

end

end TrialValue

structure Probe where
  failOn : Option Datum
  fails : Bool
  showsKinds : Bool
  showsPlaces : Bool
deriving Inhabited

inductive Recovery where
  | record
  | settle
  | sync
  | restart
deriving DecidableEq

inductive Event where
  | failed (head : String)
  | kinds (head : String) (body : List String)
  | places (head : String) (lines positions : List Int) (below : Option TrialValue)
      (first : List TrialValue)
  | spans (head : String) (lines positions : List (Int × Int))
  | error (token : Option String)

structure TrialOptions where
  tracking : Bool
  tracing : Bool
  defaults : Bool
  recovery : Option Recovery
  probe : String → Probe

structure Run where
  input : List TrialToken
  line : Int
  pos : Int
  settled : Bool
  events : Array Event
  printed : String

namespace Trial

abbrev Symbol := Sym String TrialValue

abbrev RunM := EStateM Fault Run

def record (e : Event) : RunM Unit := modify fun r => { r with events := r.events.push e }

def print (s : String) : RunM Unit := modify fun r => { r with printed := r.printed ++ s }

def symbolOf (t : TrialToken) : Symbol :=
  ⟨t.kind, some (.datum t.value), ⟨t.place.map (·.1), t.place.map (·.2), none, none⟩, true⟩

def next : RunM (Option Symbol) := do
  let r ← get
  match r.input with
  | [] => return none
  | t :: rest =>
    let (line, pos) := t.place.getD (r.line, r.pos)
    set { r with input := rest, line := line, pos := pos }
    return some (symbolOf t)

def tokenOf (s : Symbol) : TrialToken :=
  let value := match s.value with
    | some (.datum d) => d
    | _ => .none
  ⟨s.kind, value, s.span.line.bind fun l => s.span.pos.map fun p => (l, p)⟩

def refused (s : Symbol) : TrialValue := if s.isToken then .token (tokenOf s) else .symbol s.kind

def render (v : TrialValue) : RunM String :=
  match v.render? with
  | some s => return s
  | none => throw .noPart

def valueOf (s : Symbol) : TrialValue := s.value.getD (.datum .none)

/-- Where a symbol starts and ends, with zero for what is not known. -/
def lineSpan (s : Symbol) : Int × Int :=
  let start := s.span.line.getD 0
  (start, s.span.endLine.getD start)

def posSpan (s : Symbol) : Int × Int :=
  let start := s.span.pos.getD 0
  (start, s.span.endPos.getD start)

/-- Records places and values, and gives the head a place that tells its size. -/
def showPlaces (head : Symbol) (body below : List Symbol) : RunM Symbol := do
  let all := head :: body
  record (.places head.kind (all.map fun s => s.span.line.getD 0)
    (all.map fun s => s.span.pos.getD 0) (below.head?.bind Sym.value) ((body.take 1).map valueOf))
  let size : Int := all.length
  return { head with span := { head.span with line := some (70 + size), pos := some (90 + size) } }

def act (o : TrialOptions) (p : Probe) (head : Symbol) (body below : List Symbol) :
    RunM (Reduced String TrialValue) := do
  let values := body.map valueOf
  let hit := match p.failOn with
    | some d => values.any (TrialValue.isDatum d)
    | none => false
  if p.fails || hit then
    record (.failed head.kind)
    return .error
  if p.showsKinds then record (.kinds head.kind (body.map Sym.kind))
  let head ← if p.showsPlaces then showPlaces head body below else pure head
  if o.tracking then
    let all := head :: body
    record (.spans head.kind (all.map lineSpan) (all.map posSpan))
  return .symbol { head with value := some (.list (.datum (.text head.kind) :: values)) }

def skipToSemicolon : Nat → RunM (Option Symbol)
  | 0 => return none
  | fuel + 1 => do
    match ← next with
    | none => return none
    | some s => if s.kind == "SEMI" then return some s else skipToSemicolon fuel

def complaint (s : Symbol) : String :=
  let line := s.span.line.getD 0
  if line == 0 then s!"yacc: Syntax error, token={s.kind}"
  else s!"yacc: Syntax error at line {line}, token={s.kind}\n"

def onError (recovery : Option Recovery) (s : Option Symbol) : RunM (Reply String TrialValue) := do
  let go : Reply String TrialValue := ⟨false, false, none⟩
  match recovery, s with
  | none, none => do
    print "yacc: Parse error in input. EOF\n"
    return { go with giveUp := true }
  | none, some s => do
    print (complaint s)
    return go
  | some _, none => do
    record (.error none)
    return go
  | some mode, some s => do
    let shown ← if s.isToken then render (.token (tokenOf s)) else pure s.kind
    record (.error (some shown))
    let fuel := (← get).input.length + 1
    match mode with
    | .record => return go
    | .settle => do
      modify fun r => { r with settled := true }
      return { go with lookahead := ← next }
    | .sync => do
      let s ← skipToSemicolon fuel
      modify fun r => { r with settled := true }
      return { go with lookahead := s }
    | .restart => do
      discard (skipToSemicolon fuel)
      return { go with restarted := true }

/-- Up to this length values are shown inside a stack. -/
def shortSize : Nat := 16

def resultSize : Nat := 40

def oneLine (v : TrialValue) : RunM String := do
  let s ← render v
  return if s.toList.contains '\n' then Text.quote s else s

def shortText (v : TrialValue) : RunM String := do
  let s ← oneLine v
  return if s.length < shortSize then s else s!"<{v.kindName} @ 0x0>"

def resultText (v : TrialValue) : RunM String := do
  let s ← oneLine v
  let s := if s.length > resultSize then (s.take resultSize).toString ++ " ..." else s
  return s!"<{v.kindName} @ 0x0> ({s})"

def symbolText : Option Symbol → RunM String
  | none => return "None"
  | some s => if s.isToken then render (.token (tokenOf s)) else return s.kind

def stackText (c : Config String TrialValue) : RunM String := do
  let kinds := c.symbols.reverse.map Sym.kind
  let ahead ← symbolText c.lookahead
  return " ".intercalate (kinds ++ [".", ahead])

def trace (g : Draft) (c : Config String TrialValue) : Note String TrialValue → RunM Unit
  | .state => print s!"State  : {c.state}\n"
  | .defaulted rule => print s!"Defaulted state {c.state}: Reduce using {rule}\n"
  | .stack => do
    let shown ← stackText c
    print s!"Stack  : {shown}\n"
  | .shift q => print s!"Action : Shift and goto state {q}\n"
  | .reduce rule args q => do
    let shown := ",".intercalate (← args.mapM fun s => shortText (valueOf s))
    let text := ((g.numbered.getD rule none).map Production.text).getD ""
    print s!"Action : Reduce rule [{text}] with [{shown}] and goto state {q}\n"
  | .result s => do
    let shown ← resultText (valueOf s)
    print s!"Result : {shown}\n"
  | .done v => do
    let shown ← resultText (v.getD (.datum .none))
    print s!"Done   : Returning {shown}\nPLY: PARSE DEBUG END\n"
  | .error => do
    let shown ← stackText c
    print s!"ERROR: Error  : {shown}\n"

def machine (b : BuiltParser) (o : TrialOptions) : Machine String TrialValue Run Fault :=
  let names := b.draft.symbolNames.toArray
  let number (s : String) : Nat := (names.idxOf? s).getD names.size
  let rules := b.draft.numbered.toArray.map fun p => p.getD default
  let rule (n : Nat) : Production := rules.getD n default
  let row (q : Nat) : Row := b.table.rows.getD q default
  { action := fun q s => (row q).move? (number s)
    defaulted := fun q => if o.defaults then b.defaulted.lookup q else none
    goto := fun q s => (row q).goto? (number s)
    head := fun n => (rule n).head
    size := fun n => (rule n).body.length
    endKind := Draft.endName
    errorKind := "error"
    isEnd := fun s => s == Draft.endName
    isError := fun s => s == "error"
    token := next
    place := fun r => (r.line, r.pos)
    tracking := o.tracking
    reduce := fun n head body below => act o (o.probe ((rule n).action.getD "")) head body below
    onError := onError o.recovery
    ready := fun r => r.settled
    setReady := fun v r => { r with settled := v }
    note := fun c n => if o.tracing then trace b.draft c n else return
    noPlace := .noPart
    underflow := .outOfRange
    noGoto := .noKey
    errorValue := .datum (.text "error")
    wrap := refused }

def moveBound (tokens : List TrialToken) : Nat := 100000 * (tokens.length + 1)

def parse (b : BuiltParser) (o : TrialOptions) (tokens : List TrialToken) : RunM TrialValue := do
  if o.tracing then print "PLY: PARSE DEBUG START\n"
  match ← (machine b o).run (moveBound tokens) Machine.start with
  | .finished v => return v.getD (.datum .none)
  | .exhausted => throw .exhausted

def run (b : BuiltParser) (o : TrialOptions) (settled : Bool) (tokens : List TrialToken) :
    Except Fault TrialValue × Run :=
  match (parse b o tokens).run ⟨tokens, 1, 0, settled, #[], ""⟩ with
  | .ok v r => (.ok v, r)
  | .error f r => (.error f, r)

def runAll (b : BuiltParser) (o : TrialOptions) : Bool → List (List TrialToken) → List (Except Fault TrialValue × Run)
  | _, [] => []
  | settled, tokens :: rest =>
    let (v, r) := run b o settled tokens
    (v, r) :: runAll b o r.settled rest

end Trial

end Tabc.Generator
