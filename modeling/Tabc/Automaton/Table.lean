import Tabc.Automaton.Lookahead

/-!
# Parse tables

Where a state admits two actions on a terminal, the strengths decide; without them a shift wins over a
reduction, and of two reductions the rule that is defined first, and the conflict is remembered.
-/

namespace Tabc.Automaton

open Tabc.Grammar

inductive Move where
  | shift (state : Nat)
  | reduce (rule : Nat)
  | accept
deriving DecidableEq, Inhabited

inductive Choice where
  | shift
  | reduce
deriving DecidableEq

/-- The action on one terminal; `move` is empty where the operators do not associate. `item` is the
item that put the action there. -/
structure Entry where
  symbol : Nat
  move : Option Move
  item : Item
deriving Inhabited

inductive Remark where
  | shiftReduce (symbol : Nat) (choice : Choice)
  | reduceReduce (symbol : Nat) (rule : Item)

/-- One state of the table. `proposals` holds every action that some item asked for. -/
structure Row where
  items : List Item
  entries : List Entry
  proposals : List (Nat × Item × Move)
  remarks : List Remark
  gotos : List (Nat × Nat)
deriving Inhabited

def Row.move? (r : Row) (s : Nat) : Option Move := (r.entries.find? fun e => e.symbol == s).bind Entry.move

def Row.goto? (r : Row) (s : Nat) : Option Nat := r.gotos.lookup s

structure Table where
  rows : Array Row
  shiftReduce : List (Nat × Nat × Choice)
  reduceReduce : List (Nat × Nat × Nat)
  reduced : Array Int
deriving Inhabited

inductive TableError where
  | unknownConflict (state : Nat)
  | shiftShift (state : Nat)
  | noLookahead
deriving DecidableEq

structure Filling where
  row : Row
  shiftReduce : List (Nat × Nat × Choice)
  reduceReduce : List (Nat × Nat × Nat)
  reduced : Array Int

namespace Filling

def entry? (f : Filling) (s : Nat) : Option Entry := f.row.entries.find? fun e => e.symbol == s

def put (f : Filling) (s : Nat) (move : Option Move) (item : Item) : Filling :=
  let entries := if (f.entry? s).isSome
    then f.row.entries.map fun e => if e.symbol == s then ⟨s, move, item⟩ else e
    else f.row.entries ++ [⟨s, move, item⟩]
  { f with row := { f.row with entries := entries } }

def propose (f : Filling) (s : Nat) (item : Item) (move : Move) : Filling :=
  { f with row := { f.row with proposals := f.row.proposals ++ [(s, item, move)] } }

def toTable (f : Filling) (rows : Array Row) : Table := ⟨rows, f.shiftReduce, f.reduceReduce, f.reduced⟩

def count (f : Filling) (rule : Nat) (d : Int) : Filling := { f with reduced := f.reduced.modify rule (· + d) }

def noteShiftReduce (f : Filling) (state s : Nat) (c : Choice) : Filling :=
  { f with
    row := { f.row with remarks := f.row.remarks ++ [.shiftReduce s c] }
    shiftReduce := f.shiftReduce ++ [(state, s, c)] }

abbrev FillM := EStateM TableError Filling

def reduce (g : Rules) (state : Nat) (item : Item) (s : Nat) : FillM Unit := do
  modify (·.propose s item (.reduce item.rule))
  let f ← get
  match (f.entry? s).bind Entry.move with
  | none => set ((f.put s (some (.reduce item.rule)) item).count item.rule 1)
  | some (.shift _) =>
    let sp := g.precOf s
    let rp := (g.rule item.rule).prec
    if sp.level < rp.level || (sp.level == rp.level && rp.assoc == .left) then
      let f := f.put s (some (.reduce item.rule)) item
      let f := if sp.level == 0 && rp.level == 0 then f.noteShiftReduce state s .reduce else f
      set (f.count item.rule 1)
    else if sp.level == rp.level && rp.assoc == .nonassoc then
      set (f.put s none (((f.entry? s).map Entry.item).getD item))
    else
      set (if rp.level == 0 then f.noteShiftReduce state s .shift else f)
  | some (.reduce old) =>
    let first := (g.rule old).line > (g.rule item.rule).line
    let f := if first
      then ((f.put s (some (.reduce item.rule)) item).count item.rule 1).count old (-1)
      else f
    let (chosen, rejected) := if first then (item.rule, old) else (old, item.rule)
    let kept := ((f.entry? s).map Entry.item).getD item
    let row : Row := { f.row with remarks := f.row.remarks ++ [.reduceReduce s kept] }
    set { f with row := row, reduceReduce := f.reduceReduce ++ [(state, chosen, rejected)] }
  | some .accept => throw (.unknownConflict state)

def shift (g : Rules) (state : Nat) (item : Item) (s target : Nat) : FillM Unit := do
  modify (·.propose s item (.shift target))
  let f ← get
  match (f.entry? s).bind Entry.move with
  | none => set (f.put s (some (.shift target)) item)
  | some (.shift other) => if other == target then pure () else throw (.shiftShift state)
  | some (.reduce _) =>
    let holder := ((f.entry? s).map Entry.item).getD item
    let sp := g.precOf s
    let rp := (g.rule holder.rule).prec
    if sp.level > rp.level || (sp.level == rp.level && rp.assoc == .right) then
      let f := (f.count holder.rule (-1)).put s (some (.shift target)) item
      set (if rp.level == 0 then f.noteShiftReduce state s .shift else f)
    else if sp.level == rp.level && rp.assoc == .nonassoc then set (f.put s none holder)
    else
      set (if sp.level == 0 && rp.level == 0 then f.noteShiftReduce state s .reduce else f)
  | some .accept => throw (.unknownConflict state)

def item (g : Rules) (q : ItemSet) (state : Nat) (ahead : List (Nat × SymbolSet)) (i : Item) :
    FillM Unit := do
  match i.next? g with
  | none =>
    if i.rule == 0 then modify (·.put g.endMark (some .accept) i)
    else match ahead.lookup i.rule with
      | none => throw .noLookahead
      | some set => set.toList.forM (reduce g state i)
  | some s =>
    if g.isTerminal s then match q.goto? s with
      | some target => shift g state i s target
      | none => pure ()
    else pure ()

end Filling

def gotos (g : Rules) (q : ItemSet) : List (Nat × Nat) :=
  (symbols g q.items).filterMap fun s => if g.isNonterminal s then (q.goto? s).map (s, ·) else none

/-- Building a table; the rows that were filled outlive an error, the last one as far as it got. -/
abbrev TableM := EStateM TableError Table

def Table.addRow (g : Rules) (q : ItemSet) (ahead : List (Nat × SymbolSet)) : TableM Unit := do
  let t ← get
  let start : Filling := ⟨⟨q.items, [], [], [], []⟩, t.shiftReduce, t.reduceReduce, t.reduced⟩
  match (q.items.forM (Filling.item g q t.rows.size ahead)).run start with
  | .ok _ f => set (f.toTable (t.rows.push { f.row with gotos := gotos g q }))
  | .error x f => do
    set (f.toTable (t.rows.push f.row))
    throw x

/-- A bound on the number of states: lists of distinct items. -/
def stateBound (g : Rules) : Nat :=
  let n := g.rules.foldl (fun n r => n + r.body.length + 1) 0
  Nat.pow (n + 1) (n + 1)

def Table.fill (g : Rules) : TableM Unit := do
  let states := (itemSets g (stateBound g)).toArray
  let ahead := lookaheads g states
  states.toList.zipIdx.forM fun (q, i) => Table.addRow g q (ahead.getD i [])

def Table.empty (reduced : Array Int) : Table := ⟨#[], [], [], reduced⟩

def Table.build (g : Rules) (reduced : Array Int) : Except TableError Table :=
  match (Table.fill g).run (.empty reduced) with
  | .ok _ t => .ok t
  | .error x _ => .error x

/-- States with one action only, a reduction: it is done without looking at the input. -/
def Row.defaulted? (r : Row) : Option Nat :=
  match r.entries with
  | [⟨_, some (.reduce rule), _⟩] => some rule
  | _ => none

end Tabc.Automaton
