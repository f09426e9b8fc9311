import Tabc.Text.Lines

/-!
# Command lines

Letters may be put together after one dash, and a long name may be cut as long as it stays the only one. After
`--` all words are operands, and a word that looks like a negative number is one too.
-/

namespace Tabc.Tool

structure Flag where
  letter : Char
  long : String
  help : String

def Flag.shown (f : Flag) : String := s!"-{f.letter}, --{f.long}"

def Flag.brief (f : Flag) : String := s!"[-{f.letter}]"

structure Usage where
  program : String
  description : String
  operand : String
  operandHelp : String
  flags : List Flag

inductive Call where
  | run (operand : String) (flags : List Char)
  | rejected
  | help
deriving DecidableEq

inductive Word where
  | operand (text : String)
  | flags (letters : List Char)
  | valued
  | unknown
  | ambiguous
deriving DecidableEq

namespace Usage

def helpFlag : Flag := ⟨'h', "help", "show this help message and exit"⟩

def allFlags (u : Usage) : List Flag := helpFlag :: u.flags

def isNegative (cs : List Char) : Bool :=
  match cs with
  | '-' :: rest =>
    let whole := rest.takeWhile Text.isDigit
    match rest.dropWhile Text.isDigit with
    | [] => !whole.isEmpty
    | '.' :: places => !places.isEmpty && places.all Text.isDigit
    | _ => false
  | _ => false

/-- A word that is no flag: an operand if it looks like a number or has a blank. -/
def strange (cs : List Char) : Word :=
  if isNegative cs || cs.contains ' ' then .operand (String.ofList cs) else .unknown

def longWord (u : Usage) (cs : List Char) : Word :=
  let name := cs.takeWhile (· != '=')
  let hasValue := cs.contains '='
  let exact : List Flag := u.allFlags.filter fun f => f.long.toList == name
  let found : List Flag := if exact.isEmpty
    then u.allFlags.filter fun f => name.isPrefixOf f.long.toList else exact
  match found with
  | [] => strange ('-' :: '-' :: cs)
  | [f] => if hasValue then .valued else .flags [f.letter]
  | _ => .ambiguous

/-- Letters after one dash; the first one decides whether they are flags. -/
def shortWord (u : Usage) (cs : List Char) : Word :=
  let isFlag (c : Char) : Bool := u.allFlags.any (·.letter == c)
  match cs with
  | [] => .operand "-"
  | c :: rest =>
    if !isFlag c then strange ('-' :: cs)
    else if rest.all isFlag then .flags cs
    else .valued

def word (u : Usage) (s : String) : Word :=
  match s.toList with
  | '-' :: '-' :: cs => u.longWord cs
  | '-' :: cs => u.shortWord cs
  | _ => .operand s

def words (u : Usage) : List String → List Word
  | [] => []
  | "--" :: rest => rest.map .operand
  | s :: rest => u.word s :: u.words rest

/-- Goes through the words in their order: help and wrong values end it at once. -/
def collect (operands : List String) (flags : List Char) (sound : Bool) : List Word → Call
  | [] => match operands, sound with
    | [operand], true => .run operand flags
    | _, _ => .rejected
  | .operand s :: rest => collect (operands ++ [s]) flags sound rest
  | .flags letters :: rest =>
    if letters.contains helpFlag.letter then .help else collect operands (flags ++ letters) sound rest
  | .valued :: _ => .rejected
  | .unknown :: rest => collect operands flags false rest
  | .ambiguous :: _ => .rejected

def read (u : Usage) (args : List String) : Call :=
  let words := u.words args
  if words.contains .ambiguous then .rejected else collect [] [] true words

def help (u : Usage) : String :=
  let width := (u.operand.length :: u.allFlags.map fun f => (Flag.shown f).length).foldl max 0
  let line (name text : String) : String := "  " ++ Text.padRight width name ++ "  " ++ text ++ "\n"
  let flags := " ".intercalate (u.allFlags.map Flag.brief)
  s!"usage: {u.program} {flags} {u.operand}\n\n{u.description}\n\npositional arguments:\n" ++
    line u.operand u.operandHelp ++ "\noptions:\n" ++
    String.join (u.allFlags.map fun f => line (Flag.shown f) f.help)

end Usage

end Tabc.Tool
