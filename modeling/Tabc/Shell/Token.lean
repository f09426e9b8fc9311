import Tabc.Text.Lines

/-!
# Words of commands

A word is a sequence of pieces: text, which may be quoted, and things to be filled in when the command runs. A
quoted piece is never cut at blanks.
-/

namespace Tabc.Shell

inductive Piece where
  | text (s : String)
  /-- The value of a variable; the text stands in if there is none. -/
  | variable (name : String) (otherwise : String)
  | sum (expression : String)
  | output (command : String)
deriving DecidableEq, Inhabited

abbrev Word := List (Piece × Bool)

inductive Token where
  | word (w : Word)
  | mark (s : String)
  | redirect (stream : Nat) (mark : String)
deriving DecidableEq, Inhabited

def isSpace (c : Char) : Bool := c == ' ' || c == '\t'

def endsWord (c : Char) : Bool := isSpace c || "\n;&|()<>".toList.contains c

def isNameStart (c : Char) : Bool := c.isAlpha || c == '_'

def isNameChar (c : Char) : Bool := c.isAlphanum || c == '_'

def backquote : Char := Char.ofNat 96

def closing (depth : Nat) : List Char → Option (List Char × List Char)
  | [] => none
  | ')' :: rest => match depth with
    | 0 => some ([], rest)
    | depth + 1 => (closing depth rest).map fun (inner, rest) => (')' :: inner, rest)
  | '(' :: rest => (closing (depth + 1) rest).map fun (inner, rest) => ('(' :: inner, rest)
  | c :: rest => (closing depth rest).map fun (inner, rest) => (c :: inner, rest)

/-- What a braced name stands for: the variable, or else a text after `:-` or `-`. -/
def braced (inner : List Char) : Piece :=
  let name := inner.takeWhile isNameChar
  let other := match inner.dropWhile isNameChar with
    | ':' :: '-' :: text => text
    | '-' :: text => text
    | _ => []
  .variable (String.ofList name) (String.ofList other)

def dollar : List Char → Option (Piece × List Char)
  | '(' :: '(' :: rest => do
    let (inner, rest) ← closing 1 rest
    return (.sum (String.ofList inner.dropLast), rest)
  | '(' :: rest => do
    let (inner, rest) ← closing 0 rest
    return (.output (String.ofList inner), rest)
  | '\x7b' :: rest =>
    let inner := rest.takeWhile (· != '\x7d')
    if inner.length == rest.length then none
    else some (braced inner, rest.drop (inner.length + 1))
  | c :: rest =>
    if isNameStart c then
      some (.variable (String.ofList ((c :: rest).takeWhile isNameChar)) "", (c :: rest).dropWhile isNameChar)
    else if c.isDigit || "?$#@*!-".toList.contains c then some (.variable c.toString "", rest)
    else some (.text "$", c :: rest)
  | [] => some (.text "$", [])

def doubleQuoted : Nat → List Char → Option (Word × List Char)
  | 0, _ => none
  | _, [] => none
  | _ + 1, '"' :: rest => some ([], rest)
  | fuel + 1, '\\' :: c :: rest => do
    let (w, after) ← doubleQuoted fuel rest
    if c == '\n' then return (w, after)
    let kept := if c == '"' || c == '\\' || c == '$' || c == backquote then c.toString
      else "\\" ++ c.toString
    return ((.text kept, true) :: w, after)
  | fuel + 1, '$' :: rest => do
    let (p, rest) ← dollar rest
    let (w, rest) ← doubleQuoted fuel rest
    return ((p, true) :: w, rest)
  | fuel + 1, c :: rest =>
    if c == backquote then do
      let inner := rest.takeWhile (· != backquote)
      let (w, rest) ← doubleQuoted fuel (rest.drop (inner.length + 1))
      return ((.output (String.ofList inner), true) :: w, rest)
    else do
      let (w, rest) ← doubleQuoted fuel rest
      return ((.text c.toString, true) :: w, rest)

/-- Puts texts together that follow one another in the same way. -/
def merge : Word → Word
  | (.text s, q) :: rest => match merge rest with
    | (.text t, r) :: more => if q == r then (.text (s ++ t), q) :: more
      else (.text s, q) :: (.text t, r) :: more
    | more => (.text s, q) :: more
  | p :: rest => p :: merge rest
  | [] => []

def readWord : Nat → List Char → Option (Word × List Char)
  | 0, _ => none
  | _, [] => some ([], [])
  | fuel + 1, '\\' :: '\n' :: rest => readWord fuel rest
  | fuel + 1, '\\' :: c :: rest => do
    let (w, rest) ← readWord fuel rest
    return ((.text c.toString, true) :: w, rest)
  | fuel + 1, '\'' :: rest => do
    let inner := rest.takeWhile (· != '\'')
    if inner.length == rest.length then none
    else
      let (w, rest) ← readWord fuel (rest.drop (inner.length + 1))
      return ((.text (String.ofList inner), true) :: w, rest)
  | fuel + 1, '"' :: rest => do
    let (inner, rest) ← doubleQuoted fuel rest
    let (w, rest) ← readWord fuel rest
    return ((.text "", true) :: inner ++ w, rest)
  | fuel + 1, '$' :: rest => do
    let (p, rest) ← dollar rest
    let (w, rest) ← readWord fuel rest
    return ((p, false) :: w, rest)
  | fuel + 1, c :: rest =>
    if endsWord c then some ([], c :: rest)
    else if c == backquote then do
      let inner := rest.takeWhile (· != backquote)
      let (w, rest) ← readWord fuel (rest.drop (inner.length + 1))
      return ((.output (String.ofList inner), false) :: w, rest)
    else do
      let (w, rest) ← readWord fuel rest
      return ((.text c.toString, false) :: w, rest)

/-- Marks that are no redirections; longer ones come first. -/
def marks : List String := ["&&", "||", ";;", ";", "&", "|", "(", ")", "\n"]

def redirections : List String := [">&", "<&", ">>", ">", "<"]

def tokens : Nat → List Char → Option (List Token)
  | 0, _ => none
  | _, [] => some []
  | fuel + 1, c :: rest =>
    let starts (cs : List Char) (m : String) : Bool := m.toList.isPrefixOf cs
    if isSpace c then tokens fuel rest
    else if c == '#' then tokens fuel (rest.dropWhile (· != '\n'))
    else match redirections.find? (starts (c :: rest)) with
      | some m => do
        let more ← tokens fuel ((c :: rest).drop m.length)
        return .redirect (if c == '<' then 0 else 1) m :: more
      | none =>
        match if c.isDigit then redirections.find? (starts rest) else none with
        | some m => do
          let more ← tokens fuel (rest.drop m.length)
          return .redirect (c.toNat - 48) m :: more
        | none => match marks.find? (starts (c :: rest)) with
          | some m => do
            let more ← tokens fuel ((c :: rest).drop m.length)
            return .mark m :: more
          | none => do
            let (w, after) ← readWord (rest.length + 2) (c :: rest)
            let more ← tokens fuel after
            return .word (merge w) :: more

def Token.read (s : String) : Option (List Token) := tokens (s.length + 1) s.toList

end Tabc.Shell
