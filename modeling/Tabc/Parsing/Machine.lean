import Tabc.Automaton.Table

/-!
# The shift-reduce machine

A state with a single action, a reduction, acts without looking at the source. On an error the machine reports
it, then throws away symbols from the stack until an `error` symbol can be shifted, or from the input once the
stack is empty. Three shifts must follow before the next error is reported.
-/

namespace Tabc.Parsing

open Tabc.Automaton (Move)

structure Span where
  line : Option Int
  pos : Option Int
  endLine : Option Int
  endPos : Option Int
deriving DecidableEq, Inhabited

def Span.unknown : Span := ⟨none, none, none, none⟩

/-- A symbol on the stack or in the input. The end of the input has no value. -/
structure Sym (κ α : Type) where
  kind : κ
  value : Option α
  span : Span
  isToken : Bool
deriving Inhabited

structure Reply (κ α : Type) where
  giveUp : Bool
  restarted : Bool
  lookahead : Option (Sym κ α)

/-- What the action of a rule does: the symbol of the head, or the report of an error. -/
inductive Reduced (κ α : Type) where
  | symbol (s : Sym κ α)
  | error

/-- State of the machine. Stacks have their top first; the bottom symbol of the stack is not kept. -/
structure Config (κ α : Type) where
  state : Nat
  states : List Nat
  symbols : List (Sym κ α)
  lookahead : Option (Sym κ α)
  /-- Symbols to read before the source; an empty one stands for the end of the input. -/
  pushed : List (Option (Sym κ α))
  guard : Nat

/-- Points of the machine's work at which an observer is told. -/
inductive Note (κ α : Type) where
  | state
  | defaulted (rule : Nat)
  | stack
  | shift (target : Nat)
  | reduce (rule : Nat) (args : List (Sym κ α)) (target : Nat)
  | result (s : Sym κ α)
  | done (value : Option α)
  | error

structure Machine (κ α σ ε : Type) where
  action : Nat → κ → Option Move
  defaulted : Nat → Option Nat
  goto : Nat → κ → Option Nat
  head : Nat → κ
  size : Nat → Nat
  endKind : κ
  errorKind : κ
  isEnd : κ → Bool
  isError : κ → Bool
  token : EStateM ε σ (Option (Sym κ α))
  /-- Line and position of the source, for rules with an empty body. -/
  place : σ → Int × Int
  tracking : Bool
  reduce : Nat → Sym κ α → List (Sym κ α) → List (Sym κ α) → EStateM ε σ (Reduced κ α)
  onError : Option (Sym κ α) → EStateM ε σ (Reply κ α)
  /-- The last error is settled, so the next one is reported at once. -/
  ready : σ → Bool
  setReady : Bool → σ → σ
  note : Config κ α → Note κ α → EStateM ε σ Unit
  noPlace : ε
  underflow : ε
  noGoto : ε
  errorValue : α
  wrap : Sym κ α → α

variable {κ α σ ε : Type}

inductive Outcome (κ α : Type) where
  | next (c : Config κ α)
  | finished (value : Option α)

namespace Machine

/-- How many shifts must follow an error before the next report. -/
def guardSize : Nat := 3

def start : Config κ α := ⟨0, [0], [], none, [], 0⟩

def endSym (m : Machine κ α σ ε) : Sym κ α := ⟨m.endKind, none, .unknown, false⟩

def fetch (m : Machine κ α σ ε) (c : Config κ α) : EStateM ε σ (Sym κ α × Config κ α) :=
  match c.lookahead with
  | some s => return (s, c)
  | none => match c.pushed with
    | some s :: rest => return (s, { c with lookahead := some s, pushed := rest })
    | none :: rest => return (m.endSym, { c with lookahead := some m.endSym, pushed := rest })
    | [] => do
      let s := (← m.token).getD m.endSym
      return (s, { c with lookahead := some s })

def headSym (m : Machine κ α σ ε) (rule : Nat) (args : List (Sym κ α)) :
    EStateM ε σ (Sym κ α) := do
  let bare : Sym κ α := ⟨m.head rule, none, .unknown, false⟩
  if !m.tracking then return bare
  match args.head?, args.getLast? with
  | some first, some last =>
    match first.span.line, first.span.pos, last.span.line, last.span.pos with
    | some line, some pos, some lastLine, some lastPos =>
      return { bare with
        span := ⟨line, pos, last.span.endLine.getD lastLine, last.span.endPos.getD lastPos⟩ }
    | _, _, _, _ => throw m.noPlace
  | _, _ =>
    let (line, pos) := m.place (← get)
    return { bare with span := ⟨line, pos, none, none⟩ }

/-- Reduces by a rule. An action that reports an error drops the last symbol of the body and puts
an `error` symbol in front of the input. -/
def reduceBy (m : Machine κ α σ ε) (c : Config κ α) (rule : Nat) :
    EStateM ε σ (Outcome κ α) := do
  let n := m.size rule
  let args := (c.symbols.take n).reverse
  let below := c.symbols.drop n
  let target := m.goto ((c.states.drop n).headD 0) (m.head rule)
  m.note c (.reduce rule args (target.getD 0))
  let head ← m.headSym rule args
  match ← m.reduce rule head args below with
  | .symbol s =>
    m.note c (.result s)
    match target with
    | some j =>
      return .next { c with state := j, states := j :: c.states.drop n, symbols := s :: below }
    | none => throw m.noGoto
  | .error =>
    match c.states.tail with
    | [] => throw m.underflow
    | top :: rest =>
      let sym := { head with kind := m.errorKind, value := some m.errorValue }
      modify (m.setReady false)
      return .next
        { state := top, states := top :: rest, symbols := args.dropLast.reverse ++ below,
          lookahead := some sym, pushed := c.lookahead :: c.pushed, guard := guardSize }

def discard (m : Machine κ α σ ε) (c : Config κ α) (s : Sym κ α) : EStateM ε σ (Outcome κ α) := do
  if c.states.length ≤ 1 && !m.isEnd s.kind then
    return .next { c with lookahead := none, state := 0, pushed := [] }
  else if m.isEnd s.kind then
    return .finished none
  else if !m.isError s.kind then
    match c.symbols with
    | top :: rest =>
      if m.isError top.kind then
        let top ← if m.tracking then
            match top.span.line, top.span.pos with
            | some l, some p => pure { top with
                span := { top.span with
                  endLine := some (s.span.line.getD l), endPos := some (s.span.pos.getD p) } }
            | _, _ => throw m.noPlace
          else pure top
        return .next { c with symbols := top :: rest, lookahead := none }
    | [] => pure ()
    let sym : Sym κ α :=
      ⟨m.errorKind, some (m.wrap s), ⟨s.span.line, s.span.pos, s.span.line, s.span.pos⟩, false⟩
    return .next { c with lookahead := some sym, pushed := some s :: c.pushed }
  else
    match c.symbols, c.states with
    | top :: symbols, _ :: state :: states =>
      let s ← if m.tracking then
          match top.span.line, top.span.pos with
          | some l, some p => pure { s with span := { s.span with line := some l, pos := some p } }
          | _, _ => throw m.noPlace
        else pure s
      return .next
        { c with state := state, states := state :: states, symbols := symbols, lookahead := some s }
    | _, _ => throw m.underflow

/-- Reports an error unless one was reported shortly before, and makes room. -/
def recover (m : Machine κ α σ ε) (c : Config κ α) (s : Sym κ α) : EStateM ε σ (Outcome κ α) := do
  m.note c .error
  if c.guard == 0 || m.ready (← get) then
    modify (m.setReady false)
    let reply ← m.onError (if m.isEnd s.kind then none else some s)
    if reply.giveUp then return .finished none
    let c := { c with guard := guardSize }
    let c := if reply.restarted then { c with states := [0], symbols := [] } else c
    if m.ready (← get) then return .next { c with lookahead := reply.lookahead }
    m.discard c s
  else
    m.discard { c with guard := guardSize } s

def step (m : Machine κ α σ ε) (c : Config κ α) : EStateM ε σ (Outcome κ α) := do
  m.note c .state
  match m.defaulted c.state with
  | some rule =>
    m.note c (.defaulted rule)
    m.note c .stack
    m.reduceBy c rule
  | none =>
    let (s, c) ← m.fetch c
    m.note c .stack
    match m.action c.state s.kind with
    | some (.shift target) =>
      m.note c (.shift target)
      return .next
        { c with state := target, states := target :: c.states, symbols := s :: c.symbols,
                 lookahead := none, guard := c.guard - 1 }
    | some (.reduce rule) => m.reduceBy c rule
    | some .accept =>
      let value := c.symbols.head?.bind Sym.value
      m.note c (.done value)
      return .finished value
    | none => m.recover c s

inductive Result (α : Type) where
  | finished (value : Option α)
  | exhausted

def run (m : Machine κ α σ ε) : Nat → Config κ α → EStateM ε σ (Result α)
  | 0, _ => return .exhausted
  | fuel + 1, c => do
    match ← m.step c with
    | .next c => m.run fuel c
    | .finished value => return .finished value

end Machine

end Tabc.Parsing
