import Tabc.Generator.ParserSpec
import Tabc.Pattern.Reader
import Tabc.Text.Replace

/-!
# Descriptions of scanners

The name of a rule starts with `t_`, then come the states in which it holds and the token that it makes. A rule
is a pattern, or a function with a pattern in its text. `error` and `eof` name functions, `ignore` a text of
characters that are passed over.
-/

namespace Tabc.Generator

open Tabc.Grammar

inductive LexAction where
  | keep
  | number
  | newline
  | drop
  | begin (state : String)
  | push (state : String)
  | pop
  | retype (kind : String)
  | skip (count : Int)
  | take
  | stuck
  | more (text : String)

structure LexFunction where
  name : String
  regex : Option String
  line : Int
  params : Nat
  action : LexAction

/-- What stands under the name of a rule. -/
inductive RuleValue where
  | function (f : LexFunction)
  | text (pattern : String)
  | other

structure LexerSpec where
  tokens : Datum
  literals : Datum
  states : Datum
  rules : Named RuleValue
  /-- Whether the rules are looked through in the order of their names. -/
  byName : Bool
  file : String
  source : Option (List String)

/-- Whether a state has the rules of the initial one too. -/
inductive StateKind where
  | inclusive
  | exclusive
deriving DecidableEq, Inhabited

def StateKind.name : StateKind → String
  | .inclusive => "inclusive"
  | .exclusive => "exclusive"

def initialState : String := "INITIAL"

structure LexRules where
  states : Named StateKind
  tokenNames : Named String
  functions : Named (List LexFunction)
  patterns : Named (List (String × String))
  ignored : Named String
  errors : Named LexFunction
  ends : Named LexFunction

abbrev LexerM := BuildM Bool

def refuse (text : String) : LexerM Unit := do
  complain text
  modify fun w => { w with work := true }

namespace LexerSpec

def readTokens (s : LexerSpec) : LexerM (List Datum) := do
  if !isPresent s.tokens then
    refuse "No token list is defined"
    return []
  match s.tokens with
  | .list items => return items
  | _ => do
    refuse "tokens must be a list or tuple"
    return []

def tupleText : Datum → String
  | .list [d] => "(" ++ d.render ++ ",)"
  | .list items => "(" ++ ", ".intercalate (items.map Datum.render) ++ ")"
  | d => d.render

def addState (states : Named StateKind) (d : Datum) : LexerM (Named StateKind) := do
  match d with
  | .list [.atom (.text name), kind] => do
    let kind ← match kind with
      | .atom (.text "inclusive") => pure (some StateKind.inclusive)
      | .atom (.text "exclusive") => pure (some StateKind.exclusive)
      | _ => pure none
    match kind with
    | none => do
      refuse s!"State type for state {Text.quote name} must be 'inclusive' or 'exclusive'"
      return states
    | some kind =>
      if states.has name then
        refuse s!"State {Text.quote name} already defined"
        return states
      return states.put name kind
  | .list [name, _] => do
    let shown := tupleText name
    refuse s!"State name {shown} must be a string"
    return states
  | d => do
    let shown := tupleText d
    refuse s!"Invalid state specifier {shown}. Must be a tuple (statename,'exclusive|inclusive')"
    return states

def readStates (s : LexerSpec) : LexerM (Named StateKind) := do
  let known : Named StateKind := [(initialState, .inclusive)]
  if !isPresent s.states then return known
  match s.states with
  | .list items => items.foldlM addState known
  | _ => do
    refuse "states must be defined as a tuple or list"
    return known

def splitName (states : List String) (name : String) : List String × String :=
  let parts := ((Text.splitAt '_' name.toList).map String.ofList).tail
  let lead := parts.takeWhile fun p => states.contains p || p == "ANY"
  let count := min lead.length (parts.length - 1)
  let chosen := if count == 0 then [initialState] else parts.take count
  (if chosen.contains "ANY" then states else chosen, "_".intercalate (parts.drop count))

def ruleList (s : LexerSpec) : Named RuleValue :=
  let rules := s.rules.foldl (fun t (name, v) => Named.put t name v) []
  let rules := rules.filter fun (name, _) => name.startsWith "t_"
  if s.byName then rules.mergeSort fun a b => !(b.1 < a.1) else rules

def addFunction (s : LexerSpec) (r : LexRules) (states : List String) (token : String)
    (f : LexFunction) : LexerM LexRules := do
  match token with
  | "error" => return { r with errors := states.foldl (fun t q => Named.put t q f) r.errors }
  | "eof" => return { r with ends := states.foldl (fun t q => Named.put t q f) r.ends }
  | "ignore" => do
    refuse s!"{s.file}:{f.line}: Rule {Text.quote f.name} must be defined as a string"
    return r
  | _ => return { r with functions := states.foldl (fun t q => Named.extend t q f) r.functions }

def addPattern (r : LexRules) (states : List String) (token name text : String) :
    LexerM LexRules := do
  match token with
  | "ignore" => do
    if text.toList.contains '\\' then warn s!"{name} contains a literal backslash '\\'"
    return { r with ignored := states.foldl (fun t q => Named.put t q text) r.ignored }
  | "error" => do
    refuse s!"Rule {Text.quote name} must be defined as a function"
    return r
  | _ => return { r with
      patterns := states.foldl (fun t q => Named.extend t q (name, text)) r.patterns }

def addRule (s : LexerSpec) (r : LexRules) (rule : String × RuleValue) : LexerM LexRules := do
  let (name, value) := rule
  let (states, token) := splitName (r.states.map (·.1)) name
  let r := { r with tokenNames := r.tokenNames.put name token }
  match value with
  | .function f => s.addFunction r states token f
  | .text text => addPattern r states token name text
  | .other => do
    refuse s!"{name} not defined as a function or string"
    return r

/-- Sorts the rules by their states: functions by their lines, patterns the longest first. -/
def collect (s : LexerSpec) (states : Named StateKind) : LexerM LexRules := do
  let none : LexRules := ⟨states, [], states.map fun (q, _) => (q, []),
    states.map fun (q, _) => (q, []), [], [], []⟩
  if s.ruleList.isEmpty then
    refuse "No rules of the form t_rulename are defined"
    return none
  let r ← s.ruleList.foldlM s.addRule none
  return { r with
    functions := r.functions.map fun (q, fs) => (q, fs.mergeSort fun f g => f.line ≤ g.line)
    patterns := r.patterns.map fun (q, ps) => (q, ps.mergeSort fun a b => b.2.length ≤ a.2.length) }

/-- A name: letters, digits and `_`; one line break may end it. -/
def isTokenName (s : String) : Bool :=
  let cs := s.toList
  let cs := if cs.getLast? == some '\n' then cs.dropLast else cs
  !cs.isEmpty && cs.all fun c => c.isAlphanum || c == '_'

def checkTokens (seen : List String) : List Datum → LexerM Unit
  | [] => return
  | .atom (.text t) :: rest => do
    if !isTokenName t then refuse (← pattern s!"Bad token name {Text.quote t}")
    if seen.contains t then warn (← pattern s!"Token {Text.quote t} multiply defined")
    checkTokens (t :: seen) rest
  | _ :: _ => stop .wrongKind

def members? : Datum → Option (List Datum)
  | .atom (.text t) => some (t.toList.map fun c => .text c.toString)
  | .list items => some items
  | .atom .none => some []
  | .atom a => if a.truth then none else some []
  | .record _ _ fields => some (fields.map fun (k, _) => .text k)

/-- Checks literal characters. A message that cannot be written counts as no sequence. -/
def checkMembers : List Datum → LexerM Unit
  | [] => return
  | d :: rest => do
    let isCharacter : Bool := match d with
      | .atom (.text t) => t.length ≤ 1
      | _ => false
    if isCharacter then checkMembers rest
    else
      let shown := d.render
      match Text.fillNothing (s!"Invalid literal {shown}. Must be a single character").toList with
      | .ok text => do
        refuse (String.ofList text)
        checkMembers rest
      | .error .wrongKind => refuse "Invalid literals specification. literals must be a sequence of characters"
      | .error f => stop f

def checkLiterals (s : LexerSpec) : LexerM Unit := do
  match members? s.literals with
  | some items => checkMembers items
  | none => refuse "Invalid literals specification. literals must be a sequence of characters"

def ruleText (name regex : String) : String := "(?P<" ++ name ++ ">" ++ regex ++ ")"

def checkPattern (place hint name quoted regex : String) : LexerM Unit := do
  match Pattern.read (ruleText name regex).toList with
  | .ok (p, _) =>
    if (p.match? []).isSome then
      refuse (place ++ s!"Regular expression for rule {Text.quote name} matches empty string")
  | .error _ => do
    refuse (place ++ s!"Invalid regular expression for rule {quoted}.")
    if regex.toList.contains '#' then
      refuse (hint ++ s!"Make sure '#' in rule {Text.quote name} is escaped with '\\#'")

def checkParams (s : LexerSpec) (f : LexFunction) : LexerM Bool := do
  let place := s!"{s.file}:{f.line}: "
  if f.params > 1 then
    refuse (place ++ s!"Rule {Text.quote f.name} has too many arguments")
    return false
  if f.params < 1 then
    refuse (place ++ s!"Rule {Text.quote f.name} requires an argument")
    return false
  return true

def checkFunction (s : LexerSpec) (f : LexFunction) : LexerM Unit := do
  if ← s.checkParams f then
    let place := s!"{s.file}:{f.line}: "
    match f.regex with
    | none | some "" => refuse (place ++ s!"No regular expression defined for rule {Text.quote f.name}")
    | some regex => checkPattern place s!"{s.file}:{f.line}. " f.name s!"'{f.name}'" regex

def checkText (tokens : List Datum) (r : LexRules) (rule : String × String) : LexerM Unit := do
  let (name, regex) := rule
  let token := (r.tokenNames.lookup name).getD ""
  let known := tokens.any fun d => match d with
    | .atom (.text t) => t == token
    | _ => false
  if !known && !Text.occurs "ignore_".toList token.toList then
    refuse s!"Rule {Text.quote name} defined for an unspecified token {token}"
  else checkPattern "" "" name (Text.quote name) regex

def checkState (s : LexerSpec) (tokens : List Datum) (r : LexRules) (state : String) :
    LexerM Unit := do
  let functions := (r.functions.lookup state).getD []
  let patterns := (r.patterns.lookup state).getD []
  functions.forM s.checkFunction
  patterns.forM (checkText tokens r)
  if functions.isEmpty && patterns.isEmpty then
    refuse s!"No rules defined for state {Text.quote state}"
  match r.errors.lookup state with
  | some f => discard (s.checkParams f)
  | none => return

def ruleName? (cs : List Char) : Option (List Char × List Char) :=
  let name := cs.takeWhile fun c => c.isAlphanum || c == '_'
  if ['t', '_'].isPrefixOf name then some (name, cs.drop name.length) else none

/-- The name of the rule that a line of the source defines, as a function or by an equals sign. -/
def definedRule? (line : List Char) : Option (List Char) :=
  let start := line.dropWhile Text.isBlank
  let function := match start with
    | 'd' :: 'e' :: 'f' :: rest =>
      let after := rest.dropWhile Text.isBlank
      if after.length < rest.length then
        match ruleName? after with
        | some (name, '(' :: _) => some name
        | _ => none
      else none
    | _ => none
  function <|> match ruleName? start with
    | some (name, rest) => if (rest.dropWhile Text.isBlank).head? == some '=' then some name else none
    | none => none

def checkSource (s : LexerSpec) (known : List (List Char × Nat)) : Nat → List String → LexerM Unit
  | _, [] => return
  | number, line :: rest => do
    let known ← match definedRule? line.toList with
      | none => pure known
      | some name => match known.lookup name with
        | none => pure ((name, number) :: known)
        | some first => do
          let name := String.ofList name
          refuse s!"{s.file}:{number}: Rule {name} redefined. Previously defined on line {first}"
          pure known
    s.checkSource known (number + 1) rest

def check (s : LexerSpec) (tokens : List Datum) (r : LexRules) : LexerM Unit := do
  checkTokens [] tokens
  s.checkLiterals
  r.states.forM fun (q, _) => s.checkState tokens r q
  let hasFunctions := r.states.any fun (q, _) => !((r.functions.lookup q).getD []).isEmpty || (r.errors.lookup q).isSome
  if hasFunctions then s.checkSource [] 1 (s.source.getD [])

end LexerSpec

end Tabc.Generator
