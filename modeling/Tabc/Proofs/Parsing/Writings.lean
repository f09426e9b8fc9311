import Mathlib
import Tabc.Syntax.Parser

/-!
# Expressions and how they are written

`Tree` is an expression and `Tree.node` its syntax tree. `Written m o e ws` says that the words `ws` are a
writing of `e` from which the grouping can be told by strengths alone, where an operator of level `m` waits
for its right operand; `o` is the open operator at the root.
-/

namespace Tabc.Expression

open Grammar

inductive Operator where
  | plus | minus | times | divide | percent | atLeast | atMost | greater | less | equal | notEqual
  | or | and | xor
deriving DecidableEq

def Operator.all : List Operator :=
  [plus, minus, times, divide, percent, atLeast, atMost, greater, less, equal, notEqual, or, and, xor]

theorem Operator.mem_all (o : Operator) : o ∈ Operator.all := by
  cases o <;> decide

def Operator.kind : Operator → TokenKind
  | plus => .plus | minus => .minus | times => .times | divide => .divide | percent => .percent
  | atLeast => .atLeast | atMost => .atMost | greater => .greater | less => .less | equal => .equal
  | notEqual => .notEqual | or => .or | and => .and | xor => .xor

/-- Operators in front of one operand. -/
inductive Sign where
  | minus | not
deriving DecidableEq

def Sign.kind : Sign → TokenKind
  | minus => .minus
  | not => .not

/-- An expression. Signs and operators keep the text they are written with. -/
inductive Tree where
  | name (x : String)
  | int (n : Int)
  | bool (b : Bool)
  | sign (s : Sign) (text : String) (x : Tree)
  | operator (o : Operator) (text : String) (x y : Tree)
  | call (f : Tree) (args : List Tree)
  | index (x i : Tree)
  | sliceAll (x : Tree)
  | sliceFrom (x start : Tree)
  | sliceTo (x stop : Tree)
  | slice (x start stop : Tree)

mutual

def Tree.node : Tree → Node
  | .name x => .ident x
  | .int n => .literal "int" (.int n)
  | .bool b => .literal "bool" (.bool b)
  | .sign _ text x => .unary text x.node
  | .operator _ text x y => .binary x.node text y.node
  | .call f args => .call f.node (.args (some (Tree.nodes args)))
  | .index x i => .index x.node i.node
  | .sliceAll x => .slice x.node .none .none
  | .sliceFrom x start => .slice x.node start.node .none
  | .sliceTo x stop => .slice x.node .none stop.node
  | .slice x start stop => .slice x.node start.node stop.node

def Tree.nodes : List Tree → List Node
  | [] => []
  | x :: xs => x.node :: Tree.nodes xs

end

theorem Tree.nodes_eq_map (xs : List Tree) : Tree.nodes xs = xs.map Tree.node := by
  induction xs with
  | nil => rfl
  | cons x xs ih => rw [Tree.nodes, ih, List.map_cons]

def strength (k : TokenKind) : Precedence := (strengths.lookup k).getD .none

def Operator.level (o : Operator) : Int := (strength o.kind).level

/-- An operator with both operands read gives way to a token: it is grouped before the token is
read. -/
def Operator.yields (o : Operator) (k : TokenKind) : Bool :=
  (strength k).level < o.level || (strength k).level == o.level && (strength o.kind).assoc == .left

theorem Operator.yields_of_lt {o o' : Operator} (h : o.yields k = true)
    (hlt : o.level < o'.level) : o'.yields k = true := by
  unfold Operator.yields at h ⊢
  simp only [Bool.or_eq_true, Bool.and_eq_true, decide_eq_true_eq, beq_iff_eq] at h ⊢
  left
  omega

abbrev Word := TokenKind × Atom

def wordOf (t : Token) : Word := (t.kind, t.value)

def lparen : Word := (.lparen, .text "(")
def rparen : Word := (.rparen, .text ")")
def lbracket : Word := (.lbracket, .text "[")
def rbracket : Word := (.rbracket, .text "]")
def colon : Word := (.colon, .text ":")
def comma : Word := (.comma, .text ",")

def separated : List (List Word) → List Word
  | [] => []
  | [ws] => ws
  | ws :: rest => ws ++ comma :: separated rest

theorem separated_cons (ws : List Word) (rest : List (List Word)) :
    separated (ws :: rest) = ws ++ rest.flatMap (comma :: ·) := by
  induction rest generalizing ws with
  | nil => simp [separated]
  | cons ws' rest ih =>
    rw [separated, ih]
    · simp
    · simp

/-- An expression with a writing and its open operator. -/
structure Part where
  root : Option Operator
  tree : Tree
  words : List Word

/-- Words that are grouped into an expression where an operator of the given level waits, and the
operator at its root that is still open. -/
inductive Written : Int → Option Operator → Tree → List Word → Prop
  | name (m : Int) (x : String) : Written m none (.name x) [(.ident, .text x)]
  | int (m n : Int) : Written m none (.int n) [(.integer, .int n)]
  | bool (m : Int) (b : Bool) : Written m none (.bool b) [(.bool, .bool b)]
  | paren (m : Int) {o : Option Operator} {e : Tree} {ws : List Word} (h : Written 0 o e ws) :
    Written m none e (lparen :: (ws ++ [rparen]))
  | sign (m : Int) (s : Sign) (text : String) {e : Tree} {ws : List Word}
    (h : Written unaryStrength.level none e ws) :
    Written m none (.sign s text e) ((s.kind, .text text) :: ws)
  | operator {m : Int} (op : Operator) (text : String) {o o' : Option Operator} {x y : Tree}
    {wx wy : List Word} (hm : m < op.level) (hx : Written m o x wx)
    (ho : ∀ p ∈ o, p.yields op.kind = true) (hy : Written op.level o' y wy) :
    Written m (some op) (.operator op text x y) (wx ++ (op.kind, .text text) :: wy)
  | call {o : Option Operator} {f : Tree} {wf : List Word} {args : List Part} (hf : Written 0 o f wf)
    (hargs : ∀ a ∈ args, Written 0 a.root a.tree a.words) :
    Written 0 none (.call f (args.map Part.tree)) (wf ++ lparen :: (separated (args.map Part.words) ++ [rparen]))
  | index {o o' : Option Operator} {x i : Tree} {wx wi : List Word} (hx : Written 0 o x wx)
    (hi : Written 0 o' i wi) : Written 0 none (.index x i) (wx ++ lbracket :: (wi ++ [rbracket]))
  | sliceAll {o : Option Operator} {x : Tree} {wx : List Word} (hx : Written 0 o x wx) :
    Written 0 none (.sliceAll x) (wx ++ [lbracket, colon, rbracket])
  | sliceFrom {o o' : Option Operator} {x s : Tree} {wx ws : List Word} (hx : Written 0 o x wx)
    (hs : Written 0 o' s ws) :
    Written 0 none (.sliceFrom x s) (wx ++ lbracket :: (ws ++ [colon, rbracket]))
  | sliceTo {o o' : Option Operator} {x t : Tree} {wx wt : List Word} (hx : Written 0 o x wx)
    (ht : Written 0 o' t wt) :
    Written 0 none (.sliceTo x t) (wx ++ lbracket :: colon :: (wt ++ [rbracket]))
  | slice {o o' o'' : Option Operator} {x s t : Tree} {wx ws wt : List Word}
    (hx : Written 0 o x wx) (hs : Written 0 o' s ws) (ht : Written 0 o'' t wt) :
    Written 0 none (.slice x s t) (wx ++ lbracket :: (ws ++ colon :: (wt ++ [rbracket])))

/-- An open operator is stronger than the one that waits. -/
theorem Written.level_lt (h : Written m (some op) e ws) : m < op.level := by
  cases h
  assumption

end Tabc.Expression
