import Tabc.Automaton.Table
import Tabc.Grammar.Sets

/-!
# Tables of named grammars

The symbols of a `Draft` are numbered, and its table is built from the numbered grammar.
-/

namespace Tabc.Grammar.Draft

open Tabc.Automaton

def dotName : String := "."

def symbolNames (g : Draft) : List String :=
  (g.terminals.map (·.1) ++ g.nonterminals.map (·.1) ++ [endName, dotName]).eraseDups

def listItems : DraftM Unit := do
  let g ← get
  let list (p : Production) : Production :=
    { p with items := (p.body.map g.hasRules) ++ [false] }
  match g.start with
  | none => fault .wrongKind
  | some p => set { g with start := some (list p), productions := g.productions.map list }

def rules (g : Draft) (added : Production) : Rules :=
  let names := g.symbolNames
  let number (s : String) : Nat := (names.idxOf? s).getD names.length
  let mask (t : Named (List Nat)) : Nat := t.foldl (fun m (s, _) => m ||| (1 <<< number s)) 0
  let rule (p : Production) : Rule := ⟨number p.head, p.body.map number, p.prec, p.line⟩
  { rules := #[rule added] ++ g.productions.map rule
    terminals := mask g.terminals
    nonterminals := mask g.nonterminals
    endMark := number endName
    dotMark := number dotName
    precs := g.strengths.map fun (s, p) => (number s, p) }

def reductions (g : Draft) : List Int :=
  (g.numbered.filterMap id).map Production.reduced

def fillTable : DraftM (Table × Option TableError) := do
  listItems
  discard firstSets
  discard (followSets "")
  let g ← get
  match g.start with
  | none => fault .wrongKind
  | some added =>
    let (t, failure) := match (Table.fill (g.rules added)).run (.empty g.reductions.toArray) with
      | .ok _ t => (t, none)
      | .error x t => (t, some x)
    let productions := g.productions.mapIdx fun i p =>
      { p with reduced := t.reduced.getD (i + 1) 0 }
    set { g with productions := productions }
    return (t, failure)

def tableError : TableError → DraftError
  | .unknownConflict state => .conflict s!"Unknown conflict in state {state}"
  | .shiftShift state => .conflict s!"Shift/shift conflict in state {state}"
  | .noLookahead => .fault .noKey

def table : DraftM Table := do
  let (t, failure) ← fillTable
  match failure with
  | none => return t
  | some x => throw (tableError x)

end Tabc.Grammar.Draft
