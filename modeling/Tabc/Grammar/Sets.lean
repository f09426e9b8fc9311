import Tabc.Grammar.Draft

/-!
# First and follow sets

The sets grow in passes over the rules until a pass adds nothing; the members keep the order in which they were
found. `<empty>` among the first terminals says that there is an empty text.
-/

namespace Tabc.Grammar.Draft

def emptyMark : String := "<empty>"

def endName : String := "$end"

def grow (sets : Named (List String)) (name member : String) : Named (List String) × Bool :=
  if ((sets.lookup name).getD []).contains member then (sets, false)
  else (sets.extend name member, true)

def firstOf (sets : Named (List String)) (found : List String) :
    List String → Except Fault (List String)
  | [] => .ok (found ++ [emptyMark])
  | s :: rest => match sets.lookup s with
    | none => .error .noKey
    | some set =>
      let found := set.foldl
        (fun found t => if t == emptyMark || found.contains t then found else found ++ [t]) found
      if set.contains emptyMark then firstOf sets found rest else .ok found

def firstTerminals (body : List String) : DraftM (List String) := do
  match firstOf (← get).first [] body with
  | .ok found => return found
  | .error f => fault f

def growFirst (name : String) (members : List String) : DraftM Bool :=
  members.foldlM (fun changed t => do
    let g ← get
    let (sets, added) := grow g.first name t
    set { g with first := sets }
    return changed || added) false

def growFollow (name : String) (members : List String) : DraftM Bool :=
  members.foldlM (fun changed t => do
    let g ← get
    let (sets, added) := grow g.follow name t
    set { g with follow := sets }
    return changed || added) false

def untilStable (pass : DraftM Bool) : Nat → DraftM Unit
  | 0 => return
  | fuel + 1 => do if ← pass then untilStable pass fuel

def passBound (g : Draft) : Nat := (g.nonterminals.length + 1) * (g.terminals.length + g.nonterminals.length + 3) + 1

/-- One pass for the first sets. A symbol without rules ends it. -/
def firstPass : DraftM Bool := do
  ((← get).nonterminals.map (·.1)).foldlM (fun changed name => do
    match (← get).rulesOf name with
    | [] => fault .noKey
    | rules => rules.foldlM (fun changed p => do
        let added ← growFirst name (← firstTerminals p.body)
        return changed || added) changed) false

def firstSets : DraftM (Named (List String)) := do
  let g ← get
  if g.first.isEmpty then
    let known := (g.terminals.map (·.1) ++ [endName]).foldl (fun t s => Named.put t s [s]) []
    let sets := (g.nonterminals.map (·.1)).foldl (fun t s => Named.put t s []) known
    set { g with first := sets }
    untilStable firstPass g.passBound
  return (← get).first

/-- Adds what may follow a nonterminal that stands before the rest of a body. -/
def followSymbol (head s : String) (rest : List String) : DraftM Bool := do
  let next ← firstTerminals rest
  let added ← growFollow s (next.filter (· != emptyMark))
  if next.contains emptyMark || rest.isEmpty then
    let after := ((← get).follow.lookup head).getD []
    return (← growFollow s after) || added
  return added

def followBody (head : String) : List String → DraftM Bool
  | [] => return false
  | s :: rest => do
    let isNonterminal := (← get).nonterminals.has s
    let added ← if isNonterminal then followSymbol head s rest else pure false
    return (← followBody head rest) || added

def followPass : DraftM Bool := do
  (← get).productions.toList.foldlM (fun changed p => do
    return (← followBody p.head p.body) || changed) false

/-- The follow sets of all nonterminals; the end follows a given symbol, or the head of the first
rule. -/
def followSets (start : String) : DraftM (Named (List String)) := do
  if (← get).follow.isEmpty then
    if (← get).first.isEmpty then discard firstSets
    modify fun g => { g with follow := g.nonterminals.map fun (s, _) => (s, []) }
    let start ← if start.isEmpty then firstHead else pure start
    modify fun g => { g with follow := Named.put g.follow start [endName] }
    untilStable followPass (← get).passBound
  return (← get).follow

end Tabc.Grammar.Draft
