import Tabc.Text.Classes

/-!
# Patterns

Matching at the start of a text tries the alternatives of a choice in order and repeats as often as it can,
giving back a repetition only when what follows would fail. So a match need not be the longest one.
-/

namespace Tabc

inductive ClassItem where
  | range (low high : Char)
  | digit (negated : Bool)
  | word (negated : Bool)
  | blank (negated : Bool)
deriving DecidableEq

/-- A class of characters: those that some item covers, or those that none covers. -/
structure CharClass where
  negated : Bool
  items : List ClassItem
deriving DecidableEq

def ClassItem.holds : ClassItem → Char → Bool
  | .range low high, c => low ≤ c && c ≤ high
  | .digit negated, c => Text.isDigit c != negated
  | .word negated, c => Text.isWord c != negated
  | .blank negated, c => Text.isBlank c != negated

def CharClass.holds (k : CharClass) (c : Char) : Bool := (k.items.any fun i => i.holds c) != k.negated

def CharClass.single (c : Char) : CharClass := ⟨false, [.range c c]⟩

def CharClass.dot : CharClass := ⟨true, [.range '\n' '\n']⟩

inductive Pattern where
  | empty
  | one (k : CharClass)
  | seq (first second : Pattern)
  | alt (first second : Pattern)
  | star (body : Pattern)
deriving DecidableEq

namespace Pattern

def plus (p : Pattern) : Pattern := .seq p (.star p)

def optional (p : Pattern) : Pattern := .alt p .empty

/-- Repeats a matcher while it consumes something, at most `fuel` times, before it goes on. -/
def repeatWhile (body : List Char → (List Char → Option (List Char)) → Option (List Char)) :
    Nat → List Char → (List Char → Option (List Char)) → Option (List Char)
  | 0, cs, k => k cs
  | fuel + 1, cs, k =>
    (body cs fun rest => if rest.length < cs.length then repeatWhile body fuel rest k else none) <|> k cs

def repeatClass (c : CharClass) (k : List Char → Option (List Char)) : List Char → Option (List Char)
  | [] => k []
  | d :: rest => if c.holds d then repeatClass c k rest <|> k (d :: rest) else k (d :: rest)

/-- Matches the pattern at the start of a text and goes on with the rest. The first way that
succeeds to the end is taken. -/
def run : Pattern → List Char → (List Char → Option (List Char)) → Option (List Char)
  | .empty, cs, k => k cs
  | .one c, cs, k => match cs with
    | [] => none
    | d :: rest => if c.holds d then k rest else none
  | .seq p q, cs, k => run p cs fun rest => run q rest k
  | .alt p q, cs, k => run p cs k <|> run q cs k
  | .star (.one c), cs, k => repeatClass c k cs
  | .star p, cs, k => repeatWhile (run p) cs.length cs k

def match? (p : Pattern) (cs : List Char) : Option (List Char × List Char) :=
  (p.run cs some).map fun rest => (cs.take (cs.length - rest.length), rest)

end Pattern

end Tabc
