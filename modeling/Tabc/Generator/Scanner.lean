import Tabc.Generator.LexerBuild
import Tabc.Text.Numeral

/-!
# Scanners at work

A copy of a scanner goes on on its own, but all copies share one stack of states, and a function that gives
another text does so once for all of them.
-/

namespace Tabc.Generator

open Tabc.Grammar

inductive ScanFault where
  | illegal (message : String)
  | noText
  | fault (f : Fault)
deriving DecidableEq

structure ScanToken where
  kind : String
  value : Datum
  line : Int
  pos : Int
deriving Inhabited

structure Scanner where
  lexer : BuiltLexer
  text : Option (Array Char)
  pos : Int
  line : Int
  state : String
  rules : List (List ScanRule)
  ignored : String
  onError : Option LexFunction
  onEnd : Option LexFunction

def Scanner.fresh (b : BuiltLexer) : Scanner :=
  { lexer := b
    text := none
    pos := 0
    line := 1
    state := initialState
    rules := (b.rules.lookup initialState).getD []
    ignored := (b.ignored.lookup initialState).getD ""
    onError := (b.errors.lookup initialState).getD none
    onEnd := b.ends.lookup initialState }

structure Scanners where
  all : Array Scanner
  used : Nat
  stack : List String
  spent : List String
  printed : String

abbrev ScanM := EStateM ScanFault Scanners

namespace Scanners

def current : ScanM Scanner := do
  let w ← get
  match w.all[w.used]? with
  | some s => return s
  | none => throw (.fault .outOfRange)

def update (f : Scanner → Scanner) : ScanM Unit :=
  modify fun w => { w with all := w.all.modify w.used f }

def print (s : String) : ScanM Unit := modify fun w => { w with printed := w.printed ++ s }

def input (s : String) : ScanM Unit := update fun l => { l with text := some s.toList.toArray, pos := 0 }

def begin (state : String) : ScanM Unit := do
  let l ← current
  match l.lexer.rules.lookup state with
  | none => throw (.fault .badValue)
  | some rules => update fun l => { l with
      state := state
      rules := rules
      ignored := (l.lexer.ignored.lookup state).getD ""
      onError := (l.lexer.errors.lookup state).getD none
      onEnd := l.lexer.ends.lookup state }

def push (state : String) : ScanM Unit := do
  let l ← current
  modify fun w => { w with stack := l.state :: w.stack }
  begin state

/-- Goes back to the state before the last one that was entered. -/
def pop : ScanM Unit := do
  match (← get).stack with
  | [] => throw (.fault .outOfRange)
  | state :: rest => do
    modify fun w => { w with stack := rest }
    begin state

def skip (n : Int) : ScanM Unit := update fun l => { l with pos := l.pos + n }

def placeOf (text : Array Char) (pos : Int) : Int := if pos < 0 then pos + text.size else pos

def charAt (text : Array Char) (pos : Int) : ScanM Char :=
  let p := placeOf text pos
  match if p < 0 then none else text[p.toNat]? with
  | some c => return c
  | none => throw (.fault .outOfRange)

def restAt (text : Array Char) (pos : Int) : List Char := text.toList.drop (placeOf text pos).toNat

def firstRule (rules : List ScanRule) (rest : List Char) : Option (ScanRule × List Char) :=
  rules.findSome? fun r => (r.pattern.match? rest).map fun (text, _) => (r, text)

def tokenText (t : ScanToken) : List Char :=
  match t.value with
  | .atom (.text s) => s.toList
  | _ => []

mutual

/-- Reads a token; `fuel` bounds the looks for one. -/
def token : Nat → ScanM (Option ScanToken)
  | 0 => throw (.fault .exhausted)
  | fuel + 1 => do
    let l ← current
    look fuel (l.text.getD #[]) l.pos l.ignored

def look : Nat → Array Char → Int → String → ScanM (Option ScanToken)
  | 0, _, _, _ => throw (.fault .exhausted)
  | fuel + 1, text, pos, ignored => do
    if pos ≥ text.size then finish fuel pos
    else
      let c ← charAt text pos
      if ignored.toList.contains c then look fuel text (pos + 1) ignored
      else
        let l ← current
        let start := if pos < 0 then 0 else pos
        match firstRule l.rules.flatten (text.toList.drop start.toNat) with
        | some (r, found) => matched fuel text pos (start + found.length) ignored r found
        | none => unknown fuel text pos ignored c

def matched : Nat → Array Char → Int → Int → String → ScanRule → List Char →
    ScanM (Option ScanToken)
  | 0, _, _, _, _, _, _ => throw (.fault .exhausted)
  | fuel + 1, text, pos, stop, ignored, r, found => do
    let l ← current
    let t : ScanToken := ⟨r.kind.getD "", .text (String.ofList found), l.line, pos⟩
    match r.function with
    | none => match r.kind with
      | some _ => do
        update fun l => { l with pos := stop }
        return some t
      | none => look fuel text stop ignored
    | some f => do
      update fun l => { l with pos := stop }
      match ← call fuel f t with
      | some t => return some t
      | none => do
        let l ← current
        look fuel text l.pos l.ignored

def unknown : Nat → Array Char → Int → String → Char → ScanM (Option ScanToken)
  | 0, _, _, _, _ => throw (.fault .exhausted)
  | fuel + 1, text, pos, ignored, c => do
    let l ← current
    let shown := Text.quote c.toString
    if l.lexer.literals.contains c then
      update fun l => { l with pos := pos + 1 }
      return some ⟨c.toString, .text c.toString, l.line, pos⟩
    else
      update fun l => { l with pos := pos }
      match l.onError with
      | none => throw (.illegal s!"Illegal character {shown} at index {pos}")
      | some f => do
        let t : ScanToken := ⟨"error", .text (String.ofList (restAt text pos)), l.line, pos⟩
        let answer ← call fuel f t
        let l ← current
        if l.pos == pos then throw (.illegal s!"Scanning error. Illegal character {shown}")
        match answer with
        | some t => return some t
        | none => look fuel text l.pos ignored

def finish : Nat → Int → ScanM (Option ScanToken)
  | 0, _ => throw (.fault .exhausted)
  | fuel + 1, pos => do
    let l ← current
    match l.onEnd with
    | some f => do
      update fun l => { l with pos := pos }
      call fuel f ⟨"eof", .text "", l.line, pos⟩
    | none => do
      update fun l => { l with pos := pos + 1 }
      if l.text.isNone then throw .noText
      return none

def call : Nat → LexFunction → ScanToken → ScanM (Option ScanToken)
  | 0, _, _ => throw (.fault .exhausted)
  | fuel + 1, f, t => do
    if f.params != 1 then throw (.fault .wrongKind)
    match f.action with
    | .keep => return some t
    | .number => match Text.readInt? (tokenText t) with
      | some n => return some { t with value := .atom (.int n) }
      | none => throw (.fault .badValue)
    | .newline => do
      update fun l => { l with line := l.line + (tokenText t).length }
      return none
    | .drop | .stuck => return none
    | .begin state => do
      begin state
      return none
    | .push state => do
      push state
      return some t
    | .pop => do
      pop
      return some t
    | .retype kind => return some { t with kind := kind }
    | .skip count => do
      let shown := t.value.render
      print s!"skip {shown} {t.kind} {t.line} {t.pos}\n"
      skip count
      return none
    | .take => do
      let first := (tokenText t).take 1
      if first.isEmpty then throw (.fault .outOfRange)
      skip 1
      return some { t with value := .text (String.ofList first) }
    | .more text =>
      if (← get).spent.contains f.name then return none
      modify fun w => { w with spent := f.name :: w.spent }
      input text
      token fuel

end

def lookBound : ScanM Nat := do
  let l ← current
  return 100 * ((l.text.getD #[]).size + 1000)

def next : ScanM (Option ScanToken) := do token (← lookBound)

def readAll : Nat → ScanM (List ScanToken)
  | 0 => throw (.fault .exhausted)
  | fuel + 1 => do
    match ← next with
    | none => return []
    | some t => return t :: (← readAll fuel)

def printAll : Nat → ScanM Unit
  | 0 => throw (.fault .exhausted)
  | fuel + 1 => do
    match ← next with
    | none => return
    | some t => do
      let shown := t.value.render
      print s!"({t.kind},{shown},{t.line},{t.pos})\n"
      printAll fuel

def list (text : String) : ScanM Unit := do
  input text
  printAll (← lookBound)

def copy : ScanM Unit := do
  let l ← current
  modify fun w => { w with all := w.all.push l, used := w.all.size }

/-- A copy whose functions are looked up again is used from now on. Of each state only the last group
of rules is kept. All functions for errors are needed. -/
def rebind : ScanM Unit := do
  let l ← current
  if l.lexer.errors.any (·.2.isNone) then throw (.fault .noPart)
  let rules := l.lexer.rules.map fun (q, groups) => (q, groups.getLast?.toList)
  modify fun w => { w with
    all := w.all.push { l with lexer := { l.lexer with rules := rules } }
    used := w.all.size }

inductive Step where
  | input (text : String)
  | token
  | all
  | begin (state : String)
  | push (state : String)
  | pop
  | state
  | skip (n : Int)
  | copy
  | rebind
  | use (i : Int)
  | list (text : String)
  | listFirst (text : String)
  | listFile (text : String)
  | listInput (text : String)

inductive StepResult where
  | nothing
  | token (t : ScanToken)
  | tokens (ts : List ScanToken)
  | state (name : String)

def perform : Step → ScanM StepResult
  | .input text => do input text; return .nothing
  | .token => do
    match ← next with
    | some t => return .token t
    | none => return .nothing
  | .all => do return .tokens (← readAll (← lookBound))
  | .begin state => do begin state; return .nothing
  | .push state => do push state; return .nothing
  | .pop => do pop; return .nothing
  | .state => do return .state (← current).state
  | .skip n => do skip n; return .nothing
  | .copy => do copy; return .nothing
  | .rebind => do rebind; return .nothing
  | .use i => do
    let size : Int := (← get).all.size
    let i := if i < 0 then i + size else i
    if i < 0 || size ≤ i then throw (.fault .outOfRange)
    modify fun w => { w with used := i.toNat }
    return .nothing
  | .list text => do list text; return .nothing
  | .listFirst text => do
    let used := (← get).used
    modify fun w => { w with used := 0 }
    try list text
    finally modify fun w => { w with used := used }
    return .nothing
  | .listFile text => do
    list (String.ofList (Text.unifyBreaks text.toList))
    return .nothing
  | .listInput text => do
    print "Reading from standard input (type EOF to end):\n"
    list text
    return .nothing

def fresh (b : BuiltLexer) : Scanners := ⟨#[.fresh b], 0, [], [], ""⟩

end Scanners

end Tabc.Generator
