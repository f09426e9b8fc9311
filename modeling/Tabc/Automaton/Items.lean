import Tabc.Grammar.Rules

/-!
# Item sets

The states of the LR(0) automaton. The order of the items is kept: two states with the same kernel items in
another order are different states.
-/

namespace Tabc.Automaton

open Tabc.Grammar

structure Item where
  rule : Nat
  dot : Nat
deriving DecidableEq, Inhabited

namespace Item

def next? (i : Item) (g : Rules) : Option Nat := (g.rule i.rule).body[i.dot]?

def isFinal (i : Item) (g : Rules) : Bool := (g.rule i.rule).body.length ≤ i.dot

def advance (i : Item) : Item := ⟨i.rule, i.dot + 1⟩

def shown (i : Item) (g : Rules) : List Nat :=
  let body := (g.rule i.rule).body
  body.take i.dot ++ g.dotMark :: body.drop i.dot

end Item

/-- A state: how it is entered, its kernel, all its items, and where each symbol leads. -/
structure ItemSet where
  entry : Nat
  kernel : List Item
  items : List Item
  moves : List (Nat × Nat)
deriving Inhabited

def predict (g : Rules) (seen : Nat) (s : Nat) : List Item × Nat :=
  (g.rulesOf s).foldl
    (fun (items, seen) r => if seen.testBit r then (items, seen) else (items ++ [⟨r, 0⟩], seen ||| (1 <<< r)))
    ([], seen)

def closeQueue (g : Rules) : Nat → List Item → Nat → List Item
  | 0, queue, _ => queue
  | _, [], _ => []
  | fuel + 1, i :: queue, seen =>
    match i.next? g with
    | none => i :: closeQueue g fuel queue seen
    | some s =>
      let (found, seen) := predict g seen s
      i :: closeQueue g fuel (queue ++ found) seen

def closure (g : Rules) (kernel : List Item) : List Item := closeQueue g (kernel.length + g.rules.size) kernel 0

def gotoKernel (g : Rules) (items : List Item) (s : Nat) : List Item :=
  (items.filter fun i => i.next? g == some s).map Item.advance

def distinct (xs : List Nat) : List Nat :=
  (xs.foldl (fun (ys, seen) x =>
    if Nat.testBit seen x then (ys, seen) else (x :: ys, seen ||| (1 <<< x))) ([], 0)).1.reverse

def symbols (g : Rules) (items : List Item) : List Nat := distinct (items.flatMap fun i => (g.rule i.rule).body)

def findState (states : List ItemSet) (s : Nat) (kernel : List Item) : Option Nat :=
  states.findIdx? fun q => q.entry == s && q.kernel == kernel

def enter (g : Rules) (items : List Item) (states : List ItemSet) (s : Nat) : List ItemSet × Option Nat :=
  match gotoKernel g items s with
  | [] => (states, none)
  | kernel => match findState states s kernel with
    | some j => (states, some j)
    | none => (states ++ [⟨s, kernel, closure g kernel, []⟩], some states.length)

def expand (g : Rules) (states : List ItemSet) (index : Nat) : List ItemSet :=
  match states[index]? with
  | none => states
  | some q =>
    let (states, moves) := (symbols g q.items).foldl
      (fun (states, moves) s =>
        match enter g q.items states s with
        | (states, some j) => (states, (s, j) :: moves)
        | (states, none) => (states, moves))
      (states, [])
    states.set index { q with moves := moves.reverse }

def explore (g : Rules) : Nat → List ItemSet → Nat → List ItemSet
  | 0, states, _ => states
  | fuel + 1, states, index =>
    if index < states.length then explore g fuel (expand g states index) (index + 1) else states

/-- The states of the automaton, the initial one first. Each kernel is a set of items entered by
one symbol, and `limit` bounds how many are followed. -/
def itemSets (g : Rules) (limit : Nat) : List ItemSet :=
  explore g limit [⟨g.dotMark, [⟨0, 0⟩], closure g [⟨0, 0⟩], []⟩] 0

def ItemSet.goto? (q : ItemSet) (s : Nat) : Option Nat := q.moves.lookup s

end Tabc.Automaton
