import Tabc.Generator.Workshop

/-!
# The report on a parser

A state shows its items, the conflicts met while its row was filled, the actions that stand and those that gave
way, and where its nonterminals lead.
-/

namespace Tabc.Generator

open Tabc.Grammar Tabc.Automaton

namespace Report

def title (text : String) : List String := ["", text, ""]

def rules (g : Draft) : List String :=
  title "Grammar" ++ g.numbered.zipIdx.map fun (p, n) =>
    let shown := (p.map Production.text).getD "None"
    s!"Rule {Text.padRight 5 (toString n)} {shown}"

def uses (symbols : Named (List Nat)) : List String :=
  (symbols.mergeSort fun a b => !(b.1 < a.1)).map fun (s, numbers) =>
    Text.padRight 20 s ++ " : " ++ " ".intercalate (numbers.map toString)

def symbols (g : Draft) : List String :=
  title "Terminals, with rules where they appear" ++ uses g.terminals ++
    title "Nonterminals, with rules where they appear" ++ uses g.nonterminals ++ [""]

structure Names where
  symbol : Nat → String
  rule : Nat → Production

def Names.of (g : Draft) : Names :=
  let names := g.symbolNames.toArray
  let rules := g.numbered.toArray
  { symbol := fun n => names.getD n ""
    rule := fun n => (rules.getD n none).getD default }

namespace Names

def item (n : Names) (i : Item) : String := (n.rule i.rule).itemText i.dot

def proposal (n : Names) (i : Item) : Move → String
  | .shift q => s!"shift and go to state {q}"
  | .reduce r => s!"reduce using rule {r} ({n.item i})"
  | .accept => "accept"

def choice : Choice → String
  | .shift => "shift"
  | .reduce => "reduce"

def remark (n : Names) : Remark → String
  | .shiftReduce s c =>
    s!"  ! shift/reduce conflict for {n.symbol s} resolved as {choice c}"
  | .reduceReduce s i =>
    s!"  ! reduce/reduce conflict for {n.symbol s} resolved using rule {i.rule} ({n.item i})"

/-- The actions of a row: those that stand, then, each once, those that gave way. -/
def actions (n : Names) (r : Row) : List String :=
  let holder (s : Nat) : Option Item := (r.entries.find? (·.symbol == s)).map Entry.item
  let known := r.proposals.filter fun (s, _, _) => (holder s).isSome
  let stand := known.filter fun (s, i, _) => holder s == some i
  let standing := stand.map fun (s, i, m) => (s, n.proposal i m)
  let gone := (known.filter fun (s, i, _) => holder s != some i).map fun (s, i, m) =>
    (s, n.proposal i m)
  let gone := (gone.filter fun p => !standing.contains p).eraseDups
  let line (p : Nat × String) : String := s!"    {Text.padRight 15 (n.symbol p.1)} {p.2}"
  let goneLine (p : Nat × String) : String := s!"  ! {Text.padRight 15 (n.symbol p.1)} [ {p.2} ]"
  standing.map line ++ [""] ++ gone.map goneLine ++ (if gone.isEmpty then [] else [""])

def gotos (n : Names) (r : Row) : List String :=
  r.gotos.map fun (s, q) => s!"    {Text.padRight 30 (n.symbol s)} shift and go to state {q}"

def stateHead (n : Names) (number : Nat) (r : Row) : List String :=
  title s!"state {number}" ++ r.items.map (fun i => s!"    ({i.rule}) {n.item i}") ++ [""] ++
    r.remarks.map n.remark

def state (n : Names) (number : Nat) (r : Row) : List String :=
  n.stateHead number r ++ n.actions r ++ n.gotos r

end Names

def states (n : Names) (t : Table) (finished : Bool) : List String :=
  t.rows.toList.zipIdx.flatMap fun (r, i) =>
    if finished || i + 1 < t.rows.size then n.state i r else n.stateHead i r

def shiftReduce (n : Names) (t : Table) : List String :=
  t.shiftReduce.map fun (q, s, c) =>
    s!"shift/reduce conflict for {n.symbol s} in state {q} resolved as {Names.choice c}"

/-- Conflicts between reductions, each once, and the rules that are never reduced. -/
def reduceReduce (n : Names) (t : Table) : List String :=
  let clashes := t.reduceReduce.eraseDups.flatMap fun (q, kept, rejected) =>
    [s!"reduce/reduce conflict in state {q} resolved using rule ({(n.rule kept).text})",
      s!"rejected rule ({(n.rule rejected).text}) in state {q}"]
  let never := ((t.reduceReduce.map fun (_, _, rejected) => rejected).filter fun r =>
    t.reduced.getD r 0 == 0).eraseDups
  clashes ++ never.map fun r => s!"Rule ({(n.rule r).text}) is never reduced"

end Report

end Tabc.Generator
