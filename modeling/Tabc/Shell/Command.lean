import Tabc.Shell.Token

/-!
# Commands

Simple commands with assignments and redirections, joined by `;`, `&&`, `||` and `|`, and compound ones.
-/

namespace Tabc.Shell

structure Redirection where
  stream : Nat
  mark : String
  target : Word
deriving Inhabited

inductive Command where
  | nothing
  | simple (settings : List (String × Word)) (words : List Word) (redirections : List Redirection)
  | seq (first second : Command)
  | both (first second : Command)
  | either (first second : Command)
  | not (c : Command)
  | pipe (first second : Command)
  /-- A command on its own, with redirections; its variables are forgotten if it is apart. -/
  | group (apart : Bool) (c : Command) (redirections : List Redirection)
  | cond (test yes no : Command)
  | loop (while_ : Bool) (test body : Command)
  | forEach (name : String) (values : List Word) (body : Command)
deriving Inhabited

namespace Command

/-- The text of a word without quotes and things to fill in. -/
def bare? : Word → Option String
  | [(.text s, false)] => some s
  | _ => none

def setting? (w : Word) : Option (String × Word) :=
  match w with
  | (.text s, false) :: rest =>
    let cs := s.toList
    let name := cs.takeWhile isNameChar
    match cs.drop name.length, name with
    | '=' :: value, c :: _ =>
      if isNameStart c then
        let first : Word := if value.isEmpty then [] else [(.text (String.ofList value), false)]
        some (String.ofList name, first ++ rest)
      else none
    | _, _ => none
  | _ => none

def closers : List String := ["then", "else", "elif", "fi", "do", "done", "\x7d"]

def atEnd : List Token → Bool
  | [] => true
  | .mark ")" :: _ => true
  | .word w :: _ => (bare? w).any closers.contains
  | _ => false

def skipBreaks : List Token → List Token
  | .mark "\n" :: rest => skipBreaks rest
  | ts => ts

def skipSeparators : List Token → List Token
  | .mark "\n" :: rest => skipSeparators rest
  | .mark ";" :: rest => skipSeparators rest
  | .mark "&" :: rest => skipSeparators rest
  | ts => ts

def expect (word : String) : List Token → Option (List Token)
  | .word w :: rest => if bare? w == some word then some rest else none
  | _ => none

def redirects : List Token → Option (List Redirection × List Token)
  | .redirect n m :: .word w :: rest => do
    let (more, rest) ← redirects rest
    return (⟨n, m, w⟩ :: more, rest)
  | .redirect _ _ :: _ => none
  | ts => some ([], ts)

def valueWords : List Token → List Word × List Token
  | .word w :: rest =>
    let (ws, rest) := valueWords rest
    (w :: ws, rest)
  | ts => ([], ts)

def simpleRest (settings : List (String × Word)) (words : List Word) (rs : List Redirection) :
    List Token → Option (Command × List Token)
  | .redirect n m :: .word w :: rest => simpleRest settings words (rs ++ [⟨n, m, w⟩]) rest
  | .redirect _ _ :: _ => none
  | .word w :: rest => match if words.isEmpty then setting? w else none with
    | some s => simpleRest (settings ++ [s]) words rs rest
    | none => simpleRest settings (words ++ [w]) rs rest
  | ts =>
    if settings.isEmpty && words.isEmpty && rs.isEmpty then none
    else some (.simple settings words rs, ts)

mutual

def list : Nat → List Token → Option (Command × List Token)
  | 0, _ => none
  | fuel + 1, ts => do
    let ts := skipBreaks ts
    if atEnd ts then return (.nothing, ts)
    let (c, ts) ← chain fuel ts
    match ts with
    | .mark ";" :: rest | .mark "\n" :: rest | .mark "&" :: rest => do
      let (more, ts) ← list fuel (skipBreaks rest)
      return (.seq c more, ts)
    | ts => if atEnd ts then return (c, ts) else none

def chain : Nat → List Token → Option (Command × List Token)
  | 0, _ => none
  | fuel + 1, ts => do
    let (c, ts) ← pipeline fuel ts
    chainRest fuel c ts

def chainRest : Nat → Command → List Token → Option (Command × List Token)
  | 0, _, _ => none
  | fuel + 1, c, ts => match ts with
    | .mark "&&" :: rest => do
      let (d, ts) ← pipeline fuel (skipBreaks rest)
      chainRest fuel (.both c d) ts
    | .mark "||" :: rest => do
      let (d, ts) ← pipeline fuel (skipBreaks rest)
      chainRest fuel (.either c d) ts
    | ts => some (c, ts)

def pipeline : Nat → List Token → Option (Command × List Token)
  | 0, _ => none
  | fuel + 1, ts => match expect "!" ts with
    | some rest => do
      let (c, ts) ← pipeline fuel rest
      return (.not c, ts)
    | none => do
      let (c, ts) ← command fuel ts
      match ts with
      | .mark "|" :: rest => do
        let (d, ts) ← pipeline fuel (skipBreaks rest)
        return (.pipe c d, ts)
      | ts => return (c, ts)

def command : Nat → List Token → Option (Command × List Token)
  | 0, _ => none
  | fuel + 1, ts => match ts with
    | .mark "(" :: rest => do
      let (c, ts) ← list fuel rest
      match ts with
      | .mark ")" :: rest => do
        let (rs, ts) ← redirects rest
        return (.group true c rs, ts)
      | _ => none
    | .word w :: rest => match bare? w with
      | some "\x7b" => do
        let (c, ts) ← list fuel rest
        let (rs, ts) ← redirects (← expect "\x7d" ts)
        return (.group false c rs, ts)
      | some "if" => do
        let (c, ts) ← condition fuel rest
        let (rs, ts) ← redirects ts
        return (.group false c rs, ts)
      | some "while" => loopOf fuel true rest
      | some "until" => loopOf fuel false rest
      | some "for" => do
        let (c, ts) ← forLoop fuel rest
        let (rs, ts) ← redirects ts
        return (.group false c rs, ts)
      | _ => simpleRest [] [] [] ts
    | ts => simpleRest [] [] [] ts

def condition : Nat → List Token → Option (Command × List Token)
  | 0, _ => none
  | fuel + 1, ts => do
    let (test, ts) ← list fuel ts
    let (yes, ts) ← list fuel (← expect "then" ts)
    match expect "elif" ts with
    | some rest => do
      let (no, ts) ← condition fuel rest
      return (.cond test yes no, ts)
    | none => match expect "else" ts with
      | some rest => do
        let (no, ts) ← list fuel rest
        return (.cond test yes no, ← expect "fi" ts)
      | none => return (.cond test yes .nothing, ← expect "fi" ts)

def loopOf : Nat → Bool → List Token → Option (Command × List Token)
  | 0, _, _ => none
  | fuel + 1, while_, ts => do
    let (test, ts) ← list fuel ts
    let (body, ts) ← list fuel (← expect "do" ts)
    let (rs, ts) ← redirects (← expect "done" ts)
    return (.group false (.loop while_ test body) rs, ts)

def forLoop : Nat → List Token → Option (Command × List Token)
  | 0, _ => none
  | fuel + 1, ts => match ts with
    | .word w :: rest => do
      let name ← bare? w
      let (values, ts) := match expect "in" (skipBreaks rest) with
        | some rest => valueWords rest
        | none => ([], rest)
      let (body, ts) ← list fuel (← expect "do" (skipSeparators ts))
      return (.forEach name values body, ← expect "done" ts)
    | _ => none

end

def read (s : String) : Option Command := do
  let ts ← Token.read s
  match list (20 * (ts.length + 2)) ts with
  | some (c, []) => some c
  | _ => none

end Command

end Tabc.Shell
