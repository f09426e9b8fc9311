import Tabc.Pattern.Basic

/-!
# Reading patterns

Blanks and `#` comments separate, a backslash takes a character literally or names a class, and groups may be
plain, `(?:…)` or named `(?P<name>…)`. The reader walks over the text once; its state is a stack of open groups
and a mode.
-/

namespace Tabc.Pattern

inductive ReadError where
  | nothingToRepeat
  | multipleRepeat
  | unbalanced
  | badEscape (c : Char)
  | badRange
  | badGroup
  | groupRedefined (name : String)
  | unterminated
deriving DecidableEq

/-- An open group: the alternatives that are complete, and the items of the current one in
reverse, each with a mark whether it is a repetition. -/
structure OpenGroup where
  alternatives : List Pattern
  items : List (Pattern × Bool)

/-- A bracketed class while it is read. `pending` is a character that may begin a range, and
`dash` says that a dash follows it. -/
structure OpenClass where
  negated : Bool
  start : Bool
  items : List ClassItem
  pending : Option Char
  dash : Bool

inductive Mode where
  | plain
  | comment
  | escape
  | opened
  | question
  | named
  | name (letters : List Char)
  | set (k : OpenClass)
  | setEscape (k : OpenClass)

structure Reader where
  mode : Mode
  current : OpenGroup
  outer : List OpenGroup
  names : List String

def OpenGroup.empty : OpenGroup := ⟨[], []⟩

def ofItems : List (Pattern × Bool) → Pattern
  | [] => .empty
  | [(p, _)] => p
  | (p, _) :: rest => .seq (ofItems rest) p

def OpenGroup.close (g : OpenGroup) : Pattern :=
  g.alternatives.foldl (fun right left => .alt left right) (ofItems g.items)

def Reader.add (r : Reader) (p : Pattern) (repeats : Bool) : Reader :=
  { r with mode := .plain, current := { r.current with items := (p, repeats) :: r.current.items } }

def Reader.repeatLast (r : Reader) (f : Pattern → Pattern) : Except ReadError Reader :=
  match r.current.items with
  | [] => .error .nothingToRepeat
  | (_, true) :: _ => .error .multipleRepeat
  | (p, false) :: rest => .ok { r with current := { r.current with items := (f p, true) :: rest } }

def Reader.openGroup (r : Reader) : Reader :=
  { r with mode := .plain, current := .empty, outer := r.current :: r.outer }

def classEscape : Char → Option ClassItem
  | 'd' => some (.digit false)
  | 'D' => some (.digit true)
  | 'w' => some (.word false)
  | 'W' => some (.word true)
  | 's' => some (.blank false)
  | 'S' => some (.blank true)
  | _ => none

/-- The character that a character after a backslash stands for. Letters and digits without a
meaning of their own are refused. -/
def charEscape : Char → Option Char
  | 'n' => some '\n'
  | 't' => some '\t'
  | 'r' => some '\r'
  | 'f' => some '\x0c'
  | 'v' => some '\x0b'
  | 'a' => some '\x07'
  | c => if c.isAlphanum then none else some c

def Reader.plain (r : Reader) (c : Char) : Except ReadError Reader :=
  if c == ' ' || (9 ≤ c.toNat && c.toNat ≤ 13) then .ok r
  else match c with
    | '#' => .ok { r with mode := .comment }
    | '\\' => .ok { r with mode := .escape }
    | '(' => .ok { r with mode := .opened }
    | ')' => match r.outer with
      | [] => .error .unbalanced
      | g :: outer => .ok (Reader.add { r with current := g, outer := outer } r.current.close false)
    | '|' => .ok { r with current := ⟨ofItems r.current.items :: r.current.alternatives, []⟩ }
    | '*' => r.repeatLast .star
    | '+' => r.repeatLast .plus
    | '?' => r.repeatLast .optional
    | '.' => .ok (r.add (.one .dot) false)
    | '[' => .ok { r with mode := .set ⟨false, true, [], none, false⟩ }
    | c => .ok (r.add (.one (.single c)) false)

def OpenClass.flush (k : OpenClass) : List ClassItem :=
  match k.pending with
  | some c => .range c c :: k.items
  | none => k.items

def OpenClass.literal (k : OpenClass) (c : Char) : Except ReadError OpenClass :=
  match k.pending, k.dash with
  | some low, true =>
    if low ≤ c then
      .ok { k with start := false, items := .range low c :: k.items, pending := none, dash := false }
    else .error .badRange
  | _, _ => .ok { k with start := false, items := k.flush, pending := some c, dash := false }

def Reader.inSet (r : Reader) (k : OpenClass) (c : Char) : Except ReadError Reader :=
  if c == '^' && k.start && !k.negated then .ok { r with mode := .set { k with negated := true } }
  else if c == ']' && !k.start then
    let items := if k.dash then .range '-' '-' :: k.flush else k.flush
    .ok (r.add (.one ⟨k.negated, items.reverse⟩) false)
  else if c == '\\' then .ok { r with mode := .setEscape k }
  else if c == '-' && k.pending.isSome && !k.dash then .ok { r with mode := .set { k with dash := true } }
  else do .ok { r with mode := .set (← k.literal c) }

def Reader.inSetEscape (r : Reader) (k : OpenClass) (c : Char) : Except ReadError Reader :=
  match classEscape c with
  | some item =>
    if k.dash then .error .badRange
    else .ok { r with mode := .set { k with start := false, items := item :: k.flush, pending := none } }
  | none => match charEscape c with
    | some d => do .ok { r with mode := .set (← k.literal d) }
    | none => .error (.badEscape c)

def isGroupName (s : List Char) : Bool :=
  match s with
  | [] => false
  | c :: _ => !Text.isDigit c && s.all Text.isWord

def Reader.step (r : Reader) (c : Char) : Except ReadError Reader :=
  match r.mode with
  | .plain => r.plain c
  | .comment => .ok (if c == '\n' then { r with mode := .plain } else r)
  | .escape => match classEscape c with
    | some item => .ok (r.add (.one ⟨false, [item]⟩) false)
    | none => match charEscape c with
      | some d => .ok (r.add (.one (.single d)) false)
      | none => .error (.badEscape c)
  | .opened => if c == '?' then .ok { r with mode := .question } else r.openGroup.plain c
  | .question =>
    if c == ':' then .ok r.openGroup
    else if c == 'P' then .ok { r with mode := .named }
    else .error .badGroup
  | .named => if c == '<' then .ok { r with mode := .name [] } else .error .badGroup
  | .name letters =>
    if c == '>' then
      let name := String.ofList letters.reverse
      if !isGroupName letters.reverse then .error .badGroup
      else if r.names.contains name then .error (.groupRedefined name)
      else .ok { r.openGroup with names := name :: r.names }
    else .ok { r with mode := .name (c :: letters) }
  | .set k => r.inSet k c
  | .setEscape k => r.inSetEscape k c

def read (cs : List Char) : Except ReadError (Pattern × List String) := do
  let r ← cs.foldlM Reader.step ⟨.plain, .empty, [], []⟩
  match r.mode, r.outer with
  | .plain, [] => .ok (r.current.close, r.names.reverse)
  | .comment, [] => .ok (r.current.close, r.names.reverse)
  | _, _ => .error .unterminated

end Tabc.Pattern
