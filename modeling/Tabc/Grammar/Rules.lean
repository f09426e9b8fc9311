/-!
# Numbered grammars

Rule `0` is the added rule of the start symbol; it has no number among the rules of its head. Two bit masks say
which numbers are terminals and which are nonterminals, so a symbol may be both.
-/

namespace Tabc.Grammar

inductive Assoc where
  | left
  | right
  | nonassoc
deriving DecidableEq, Inhabited

/-- The binding strength of a terminal or a rule; level `0` means that none was given. -/
structure Precedence where
  assoc : Assoc
  level : Int
deriving DecidableEq, Inhabited

def Precedence.none : Precedence := ⟨.right, 0⟩

/-- A rule `head → body`, with its strength and the line that defines it. -/
structure Rule where
  head : Nat
  body : List Nat
  prec : Precedence
  line : Int
deriving Inhabited

structure Rules where
  rules : Array Rule
  terminals : Nat
  nonterminals : Nat
  endMark : Nat
  dotMark : Nat
  precs : List (Nat × Precedence)
deriving Inhabited

namespace Rules

def rule (g : Rules) (i : Nat) : Rule := g.rules.getD i default

def isTerminal (g : Rules) (s : Nat) : Bool := g.terminals.testBit s

def isNonterminal (g : Rules) (s : Nat) : Bool := g.nonterminals.testBit s

def start (g : Rules) : Nat := (g.rule 0).body.headD 0

/-- Numbers of the rules with a head, the added rule apart. -/
def rulesOf (g : Rules) (s : Nat) : List Nat := (List.range g.rules.size).filter fun i => i != 0 && (g.rule i).head == s

def precOf (g : Rules) (s : Nat) : Precedence := (g.precs.lookup s).getD .none

/-- One pass over the rules that adds every head whose body is in the set. -/
def nullablePass (g : Rules) (set : Nat) : Nat :=
  (g.rules.toList.drop 1).foldl (fun set r => if r.body.all set.testBit then set ||| (1 <<< r.head) else set) set

/-- Bit mask of the symbols that derive the empty text. -/
def nullable (g : Rules) : Nat := g.rules.size.fold (fun _ _ set => g.nullablePass set) 0

end Rules

end Tabc.Grammar
