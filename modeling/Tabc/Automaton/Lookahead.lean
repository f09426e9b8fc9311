import Tabc.Automaton.Items

/-!
# Lookahead sets

For every transition by a nonterminal there are the terminals read directly after it, the transitions that can
follow without reading (`reads`) and those that end where it ends (`includes`). The follow sets are the least
sets closed under these relations, found by one depth-first walk per relation.
-/

namespace Tabc.Automaton

open Tabc.Grammar

/-- A set of symbols that remembers the order in which they came. -/
structure SymbolSet where
  mask : Nat
  newest : List Nat
deriving Inhabited

namespace SymbolSet

def empty : SymbolSet := ⟨0, []⟩

def has (set : SymbolSet) (s : Nat) : Bool := set.mask.testBit s

def insert (set : SymbolSet) (s : Nat) : SymbolSet :=
  if set.has s then set else ⟨set.mask ||| (1 <<< s), s :: set.newest⟩

def toList (set : SymbolSet) : List Nat := set.newest.reverse

def union (set other : SymbolSet) : SymbolSet := other.toList.foldl insert set

end SymbolSet

structure Transition where
  state : Nat
  symbol : Nat
deriving DecidableEq, Inhabited

/-- The automaton with its transitions by nonterminals, numbered. `numbers` gives for each state
the number of the transition by each nonterminal. -/
structure Moves where
  states : Array ItemSet
  transitions : Array Transition
  numbers : Array (List (Nat × Nat))
  nullable : Nat
deriving Inhabited

namespace Moves

def items (m : Moves) (state : Nat) : List Item := (m.states.getD state default).items

def goto (m : Moves) (state s : Nat) : Nat := ((m.states.getD state default).goto? s).getD 0

def number? (m : Moves) (state s : Nat) : Option Nat := (m.numbers.getD state []).lookup s

end Moves

def leaving (g : Rules) (q : ItemSet) : List Nat :=
  distinct (q.items.filterMap fun i => (i.next? g).filter g.isNonterminal)

def Moves.of (g : Rules) (states : Array ItemSet) : Moves :=
  let (transitions, numbers) := states.toList.zipIdx.foldl
    (fun ((transitions, numbers) : Array Transition × Array (List (Nat × Nat))) (q, state) =>
      let found := leaving g q
      (found.foldl (fun ts s => ts.push ⟨state, s⟩) transitions,
        numbers.push (found.zipIdx.map fun (s, k) => (s, transitions.size + k))))
    (#[], #[])
  ⟨states, transitions, numbers, g.nullable⟩

def directReads (g : Rules) (m : Moves) (t : Transition) : SymbolSet :=
  let next := (m.items (m.goto t.state t.symbol)).filterMap fun i => (i.next? g).filter g.isTerminal
  let set := next.foldl SymbolSet.insert .empty
  if t.state == 0 && t.symbol == g.start then set.insert g.endMark else set

/-- Transitions by a nullable symbol out of the state that a transition leads to. -/
def reads (g : Rules) (m : Moves) (t : Transition) : List Nat :=
  let target := m.goto t.state t.symbol
  (m.items target).filterMap fun i => do
    let s ← i.next? g
    if m.nullable.testBit s then m.number? target s else none

/-- Follows the rest of a body through the automaton. Gives the transitions on the way after which
the body can end, and the last state. -/
def follow (g : Rules) (m : Moves) : List Nat → Nat → List Nat → List Nat × Nat
  | [], state, found => (found, state)
  | s :: rest, state, found =>
    let ends := rest.all fun r => !g.isTerminal r && m.nullable.testBit r
    let found := match m.number? state s with
      | some n => if ends then found ++ [n] else found
      | none => found
    follow g m rest (m.goto state s) found

/-- Where the rules of a transition's nonterminal end: states with the rule that is complete there,
and the transitions that end where this one ends. -/
def lookback (g : Rules) (m : Moves) (t : Transition) : List (Nat × Nat) × List Nat :=
  (m.items t.state).foldl (fun (back, includes) p =>
    let rule := g.rule p.rule
    if p.rule == 0 || rule.head != t.symbol then (back, includes) else
      let (includes, last) := follow g m (rule.body.drop p.dot) t.state includes
      let complete := (m.items last).filter fun r =>
        r.rule != 0 && r.isFinal g && (g.rule r.rule).head == t.symbol && (g.rule r.rule).body == (p.shown g).tail
      (back ++ complete.map fun r => (last, r.rule), includes))
    ([], [])

/-- State of the walk: for each transition its depth (zero before it is met, `limit` once it is
settled) and the number of its set; the sets; the transitions on the way. -/
structure Walk where
  depth : Array Nat
  slot : Array Nat
  sets : Array SymbolSet
  path : List Nat
deriving Inhabited

namespace Walk

def set (w : Walk) (x : Nat) : SymbolSet := w.sets.getD (w.slot.getD x 0) .empty

def settle (w : Walk) (limit x : Nat) : Walk :=
  let slot := w.slot.getD x 0
  let members := w.path.takeWhile (· != x) ++ [x]
  { w with
    depth := members.foldl (fun d y => d.set! y limit) w.depth
    slot := members.foldl (fun d y => d.set! y slot) w.slot
    path := w.path.drop members.length }

def absorb (w : Walk) (x y : Nat) : Walk :=
  let w := { w with depth := w.depth.set! x (min (w.depth.getD x 0) (w.depth.getD y 0)) }
  let (sx, sy) := (w.slot.getD x 0, w.slot.getD y 0)
  if sx == sy then w
  else { w with sets := w.sets.set! sx ((w.sets.getD sx .empty).union (w.sets.getD sy .empty)) }

def visit (relation : Nat → List Nat) (limit : Nat) : Nat → Nat → Walk → Walk
  | 0, _, w => w
  | fuel + 1, x, w =>
    let d := w.path.length + 1
    let w := { w with path := x :: w.path, depth := w.depth.set! x d }
    let w := (relation x).foldl
      (fun w y =>
        let w := if w.depth.getD y 0 == 0 then visit relation limit fuel y w else w
        w.absorb x y) w
    if w.depth.getD x 0 == d then w.settle limit x else w

def close (relation : Nat → List Nat) (count : Nat) (slot : Array Nat) (sets : Array SymbolSet) : Walk :=
  (List.range count).foldl (fun w x => if w.depth.getD x 0 == 0 then visit relation (count + 1) (count + 1) x w else w)
    ⟨Array.replicate count 0, slot, sets, []⟩

end Walk

def addLookahead (table : Array (List (Nat × SymbolSet))) (state rule : Nat) (set : SymbolSet) :
    Array (List (Nat × SymbolSet)) :=
  table.modify state fun row =>
    match row.lookup rule with
    | some old => row.map fun (r, s) => if r == rule then (r, old.union set) else (r, s)
    | none => row ++ [(rule, SymbolSet.empty.union set)]

/-- For each state, the terminals before which each complete rule may be reduced. -/
def lookaheads (g : Rules) (states : Array ItemSet) : Array (List (Nat × SymbolSet)) :=
  let m := Moves.of g states
  let count := m.transitions.size
  let read := Walk.close (fun x => reads g m (m.transitions.getD x default)) count
    (Array.range count) (m.transitions.map (directReads g m))
  let links := m.transitions.map (lookback g m)
  let includes := links.toList.zipIdx.foldl
    (fun (table : Array (List Nat)) (link, x) => link.2.foldl (fun table y => table.modify y (· ++ [x])) table)
    (Array.replicate count [])
  let done := Walk.close (fun x => includes.getD x []) count read.slot read.sets
  links.toList.zipIdx.foldl
    (fun table (link, x) => link.1.foldl (fun table (state, rule) => addLookahead table state rule (done.set x)) table)
    (Array.replicate states.size [])

end Tabc.Automaton
