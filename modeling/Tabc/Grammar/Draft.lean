import Tabc.Folding.Eval
import Tabc.Grammar.Rules

/-!
# Grammars under construction

A `Draft` collects the terminals, strengths and rules of a grammar whose symbols are names. A symbol of a rule is
a name or a quoted character; a rule ends with `%prec` and a terminal to take over that terminal's strength.
-/

namespace Tabc.Grammar

/-- Entries under names, in the order in which the names came. -/
abbrev Named (α : Type) := List (String × α)

namespace Named

variable {α : Type}

def has (t : Named α) (name : String) : Bool := t.any (·.1 == name)

def put (t : Named α) (name : String) (a : α) : Named α :=
  if t.has name then t.map fun (k, v) => if k == name then (k, a) else (k, v)
  else t ++ [(name, a)]

def ensure (t : Named α) (name : String) (a : α) : Named α :=
  if t.has name then t else t ++ [(name, a)]

def extend (t : Named (List α)) (name : String) (a : α) : Named (List α) :=
  t.map fun (k, v) => if k == name then (k, v ++ [a]) else (k, v)

end Named

/-- A rule with its strength, its action, its place and how often a table reduces it. -/
structure Production where
  head : String
  body : List String
  prec : Precedence
  action : Option String
  file : String
  line : Int
  reduced : Int
  /-- For each position, once the items are listed: whether the symbol after it had rules then. -/
  items : List Bool
deriving Inhabited

namespace Production

def written (head : String) (body : List String) : String :=
  head ++ " -> " ++ if body.isEmpty then "<empty>" else " ".intercalate body

def text (p : Production) : String := written p.head p.body

def marked (p : Production) (i : Nat) : List String := p.body.take i ++ "." :: p.body.drop i

def itemText (p : Production) (i : Nat) : String := written p.head (p.marked i)

end Production

inductive Objection where
  | strengthTwice (term : String)
  | unknownAssoc
  | headIsTerminal (head : String)
  | badHead (head : String)
  | longLiteral (literal head : String)
  | badName (name head : String)
  | nothingAfterPrec
  | precNotLast
  | unknownStrength (name : String)
  | duplicate (rule file : String) (line : Int)
  | undefinedStart (name : String)
deriving DecidableEq

def Objection.message : Objection → String
  | .strengthTwice term => "Precedence already specified for terminal " ++ Text.quote term
  | .unknownAssoc => "Associativity must be one of 'left','right', or 'nonassoc'"
  | .headIsTerminal head => s!"Illegal rule name {Text.quote head}. Already defined as a token"
  | .badHead head => s!"Illegal rule name {Text.quote head}"
  | .longLiteral literal head =>
    s!"Literal token {literal} in rule {Text.quote head} may only be a single character"
  | .badName name head => s!"Illegal name {Text.quote name} in rule {Text.quote head}"
  | .nothingAfterPrec => "Syntax error. Nothing follows %prec"
  | .precNotLast => "Syntax error. %prec can only appear at the end of a grammar rule"
  | .unknownStrength name => "Nothing known about the precedence of " ++ Text.quote name
  | .duplicate rule file line => s!"Duplicate rule {rule}. Previous definition at {file}:{line}"
  | .undefinedStart name => s!"start symbol {name} undefined"

inductive DraftError where
  | objection (place : String) (o : Objection)
  | fault (f : Fault)
  | conflict (message : String)
deriving DecidableEq

structure Draft where
  terminals : Named (List Nat)
  nonterminals : Named (List Nat)
  start : Option Production
  productions : Array Production
  strengths : Named Precedence
  askedFor : List String
  /-- Terminals that the texts of a symbol start with, once they were looked for. -/
  first : Named (List String)
  follow : Named (List String)
deriving Inhabited

abbrev DraftM := EStateM DraftError Draft

namespace Draft

def fresh (terminals : List String) : Draft :=
  { terminals := (terminals ++ ["error"]).foldl (fun t s => Named.put t s []) []
    nonterminals := []
    start := none
    productions := #[]
    strengths := []
    askedFor := []
    first := []
    follow := [] }

def fault {α : Type} (f : Fault) : DraftM α := throw (.fault f)

def rulesOf (g : Draft) (head : String) : List Production :=
  g.productions.toList.filter (·.head == head)

def hasRules (g : Draft) (s : String) : Bool := g.productions.any (·.head == s)

/-- All rules by number; the first one is missing before a start symbol is chosen. -/
def numbered (g : Draft) : List (Option Production) := g.start :: g.productions.toList.map some

/-- Gives a terminal a strength. All strengths come before the first rule. -/
def setStrength (term assoc : String) (level : Int) : DraftM Unit := do
  let g ← get
  if !g.productions.isEmpty then
    fault (.unmet (some "Must call set_precedence() before add_production()"))
  if g.strengths.has term then throw (.objection "" (.strengthTwice term))
  let kind ← match assoc with
    | "left" => pure Assoc.left
    | "right" => pure Assoc.right
    | "nonassoc" => pure Assoc.nonassoc
    | _ => throw (.objection "" .unknownAssoc)
  set { g with strengths := g.strengths.put term ⟨kind, level⟩ }

/-- A name: letters, digits, `_` and `-`; one line break may end it. -/
def isName (s : String) : Bool :=
  let cs := s.toList
  let cs := if cs.getLast? == some '\n' then cs.dropLast else cs
  !cs.isEmpty && cs.all fun c => c.isAlphanum || c == '_' || c == '-'

/-- The character that a quoted symbol stands for, if it can be read. -/
def literal? (place head s : String) : DraftM (Option String) :=
  match evaluate (fun _ => none) s with
  | .error .malformed => return none
  | .error f => fault f
  | .ok (.atom (.text c)) =>
    if c.length > 1 then throw (.objection place (.longLiteral s head)) else return some c
  | .ok _ => fault .wrongKind

def readBody (place head : String) : List String → DraftM (List String)
  | [] => return []
  | s :: rest => do
    let literal ← match s.toList with
      | [] => fault .outOfRange
      | c :: _ => if c == '\'' || c == '"' then literal? place head s else pure none
    match literal with
    | some c =>
      modify fun g => { g with terminals := Named.ensure g.terminals c [] }
      return c :: (← readBody place head rest)
    | none =>
      if !isName s && s != "%prec" then throw (.objection place (.badName s head))
      return s :: (← readBody place head rest)

/-- Strength of a rule, and its body without the part that asks for one. -/
def readStrength (place : String) (body : List String) : DraftM (Precedence × List String) := do
  let g ← get
  if body.contains "%prec" then
    match body.reverse with
    | "%prec" :: _ => throw (.objection place .nothingAfterPrec)
    | name :: "%prec" :: rest =>
      match g.strengths.lookup name with
      | some p =>
        set { g with askedFor := if g.askedFor.contains name then g.askedFor else g.askedFor ++ [name] }
        return (p, rest.reverse)
      | none => throw (.objection place (.unknownStrength name))
    | _ => throw (.objection place .precNotLast)
  else
    let last := body.reverse.find? (Named.has g.terminals)
    return ((last.bind fun s => g.strengths.lookup s).getD .none, body)

def use (g : Draft) (s : String) (number : Nat) : Draft :=
  if g.terminals.has s then { g with terminals := g.terminals.extend s number }
  else { g with nonterminals := (g.nonterminals.ensure s []).extend s number }

def addRule (head : String) (body : List String) (action : Option String) (file : String)
    (line : Int) : DraftM Unit := do
  let place := s!"{file}:{line}: "
  if (← get).terminals.has head then throw (.objection place (.headIsTerminal head))
  if !isName head then throw (.objection place (.badHead head))
  let body ← readBody place head body
  let (prec, body) ← readStrength place body
  let g ← get
  match g.productions.find? fun p => p.head == head && p.body == body with
  | some p => throw (.objection place (.duplicate p.text p.file p.line))
  | none =>
    let number := g.productions.size + 1
    let g := { g with nonterminals := g.nonterminals.ensure head [] }
    let g := body.foldl (fun g s => g.use s number) g
    set { g with
      productions := g.productions.push ⟨head, body, prec, action, file, line, 0, []⟩ }

def startAt (name : String) : DraftM Unit := do
  let g ← get
  if !g.nonterminals.has name then throw (.objection "" (.undefinedStart name))
  set { g with
    start := some ⟨"S'", [name], .none, none, "", 0, 0, []⟩
    nonterminals := g.nonterminals.extend name 0 }

def firstHead : DraftM String := do
  match (← get).productions[0]? with
  | some p => return p.head
  | none => fault .outOfRange

/-- Chooses a start symbol; without one it is the head of the first rule. -/
def setStart (start : Datum) : DraftM Unit := do
  match start with
  | .atom (.text "") => startAt (← firstHead)
  | .atom (.text name) => startAt name
  | .atom a =>
    if a.truth then throw (.objection "" (.undefinedStart a.render)) else startAt (← firstHead)
  | .list [] => startAt (← firstHead)
  | _ => fault .wrongKind

def step (g : Draft) (found : List String) : List String :=
  found.foldl (fun found s =>
    (g.rulesOf s).foldl (fun found p =>
      p.body.foldl (fun found t => if found.contains t then found else found ++ [t]) found) found)
    found

def unreachable : DraftM (List String) := do
  let g ← get
  match g.start with
  | none => fault .noPart
  | some p =>
    let count := g.terminals.length + g.nonterminals.length
    let found := count.fold (fun _ _ found => g.step found) p.body
    return (g.nonterminals.map (·.1)).filter fun s => !found.contains s

def endingStep (g : Draft) (ending : List String) : List String :=
  g.productions.foldl (fun ending p =>
    if p.body.all ending.contains && !ending.contains p.head then p.head :: ending else ending) ending

/-- Symbols from which no text without nonterminals comes; those without rules apart. -/
def endless (g : Draft) : List String :=
  let nonterminals := g.nonterminals.map (·.1)
  let names := (g.terminals.map (·.1) ++ ["$end"]).filter fun s => !nonterminals.contains s
  let ending := nonterminals.length.fold (fun _ _ ending => g.endingStep ending) names
  let all := g.terminals.map (·.1) ++ nonterminals.filter fun s => !g.terminals.has s
  all.filter fun s => !ending.contains s && (g.hasRules s || g.terminals.has s)

def undefined (g : Draft) : List (String × Production) :=
  (g.numbered.filterMap id).flatMap fun p =>
    (p.body.filter fun s => !g.hasRules s && !g.terminals.has s).map (·, p)

def unusedTerminals (g : Draft) : List String :=
  (g.terminals.filter fun (s, uses) => s != "error" && uses.isEmpty).map (·.1)

def unusedRules (g : Draft) : List Production :=
  (g.nonterminals.filter fun (_, uses) => uses.isEmpty).filterMap fun (s, _) => (g.rulesOf s).head?

def unusedStrengths (g : Draft) : Named Precedence :=
  g.strengths.filter fun (s, _) => !g.terminals.has s && !g.askedFor.contains s

/-- A member of a list by its number; negative numbers count from the end. -/
def pick {α : Type} (xs : List α) (i : Int) : DraftM α :=
  let i := if i < 0 then i + xs.length else i
  match if i < 0 then none else xs[i.toNat]? with
  | some x => return x
  | none => fault .outOfRange

def symbolAt (rule place : Int) : DraftM String := do
  match ← pick (← get).numbered rule with
  | some p => pick p.body place
  | none => fault .wrongKind

/-- Asks a rule for an item of its own. Past the end there is none; items before it are made with the
whole grammar only. -/
def ownItem (rule place : Int) : DraftM Unit := do
  match ← pick (← get).numbered rule with
  | some p => if place > p.body.length then return else fault .noPart
  | none => fault .noPart

/-- The listed items of a rule: each with the symbol before its position, which at the start is the
last one, and the rules of the symbol after it. -/
def listedItems (rule : Int) : DraftM (List (String × String × List Production)) := do
  let g ← get
  match ← pick g.numbered rule with
  | some p =>
    return p.items.zipIdx.map fun (known, i) =>
      let shown := p.marked i
      let before := if i == 0 then shown.getLastD "" else shown.getD (i - 1) ""
      (p.itemText i, before, if known then g.rulesOf (p.body.getD i "") else [])
  | none => fault .noPart

end Draft

end Tabc.Grammar
