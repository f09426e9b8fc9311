import Tabc.Syntax.Token

/-!
# Reading tokens from a text

A `Source` is a text that is being read, with what the scanner remembers: its line, the tabs it met on each line,
and the lines between which the current statement lies. It lives on when a new text is given to it.
-/

namespace Tabc

structure Source where
  rest : List Char
  pos : Nat
  line : Nat
  tabs : List (Nat × Nat)
  current : Nat
  reached : Nat
  printed : String
deriving Inhabited

namespace Source

def fresh : Source := ⟨[], 0, 1, [], 1, 1, ""⟩

def input (s : Source) (text : List Char) : Source := { s with rest := text, pos := 0 }

def print (s : Source) (text : String) : Source := { s with printed := s.printed ++ text ++ "\n" }

def tabCount (s : Source) (line : Nat) : Nat := (s.tabs.lookup line).getD 0

def clearTabs (s : Source) : Source := { s with tabs := [] }

/-- The value of a truth word. Before the fourth edition every truth word is true. -/
def truthOf (e : Edition) (text : List Char) : Bool :=
  match e with
  | .fourth => text == "True".toList
  | _ => true

/-- A quoted text without its quotes, which the first two editions keep. -/
def unquote (e : Edition) (text : List Char) : List Char :=
  match e with
  | .first | .second => text
  | .third | .fourth => text.tail.dropLast

def tabLine (e : Edition) (s : Source) : Nat :=
  match e with
  | .first => s.line + 1
  | _ => s.line

/-- Acts on a matched text. `s` already stands behind it; the token has its place in front of it. -/
def act (e : Edition) (line pos : Nat) (s : Source) (text : List Char) :
    TokenAction → Option Token × Source
  | .keep k => (some ⟨k, .text (String.ofList text), line, pos⟩, s)
  | .nothing => (some ⟨.none, .none, line, pos⟩, s)
  | .truth => (some ⟨.bool, .bool (truthOf e text), line, pos⟩, s)
  | .quoted => (some ⟨.string, .text (String.ofList (unquote e text)), line, pos⟩, s)
  | .float => (some ⟨.float, .float (floatOf text), line, pos⟩, s)
  | .integer => (some ⟨.integer, .int (integerOf text), line, pos⟩, s)
  | .word =>
    let word := String.ofList text
    (some ⟨((reserved e).lookup word).getD .ident, .text word, line, pos⟩, s)
  | .newline =>
    let line' := s.line + text.length
    (some ⟨.newline, .text (String.ofList text), line, pos⟩, { s with line := line', reached := line' })
  | .tabs => (none, { s with tabs := s.tabs ++ [(tabLine e s, text.length)] })
  | .skip => (none, s)

def nextWithin (e : Edition) : Nat → Source → Option Token × Source
  | 0, s => (none, s)
  | fuel + 1, s =>
    match s.rest with
    | [] => (none, s)
    | c :: rest =>
      if c == ' ' then nextWithin e fuel { s with rest := rest, pos := s.pos + 1 }
      else match firstMatch (tokenRules e) s.rest with
        | some (action, text, rest) =>
          match act e s.line s.pos { s with rest := rest, pos := s.pos + text.length } text action with
          | (some t, s) => (some t, s)
          | (none, s) => nextWithin e fuel s
        | none =>
          let after := { s with rest := rest, pos := s.pos + 1 }
          if isPunctuation c then (some ⟨.other c, .text c.toString, s.line, s.pos⟩, after)
          else nextWithin e fuel (after.print s!"Illegal character '{c}'")

/-- Reads one token. Every look consumes a character, so the length of the text bounds them. -/
def next (e : Edition) (s : Source) : Option Token × Source := nextWithin e (s.rest.length + 1) s

def tokensWithin (e : Edition) : Nat → Source → List Token × Source
  | 0, s => ([], s)
  | fuel + 1, s => match s.next e with
    | (none, s) => ([], s)
    | (some t, s) =>
      let (ts, s) := tokensWithin e fuel s
      (t :: ts, s)

def tokens (e : Edition) (s : Source) : List Token × Source := tokensWithin e (s.rest.length + 1) s

end Source

end Tabc
