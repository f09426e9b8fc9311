import Tabc.Generator.Workshop
import Tabc.Grammar.RuleText

/-!
# Descriptions of parsers

A parser is described by its tokens, their strengths, a start symbol and functions whose texts hold the rules.
Each part is checked and every flaw is logged. These functions have names that start with `p_`.
-/

namespace Tabc.Generator

open Tabc.Grammar

def isPresent : Datum → Bool
  | .atom a => a.truth
  | .list items => !items.isEmpty
  | .record _ _ fields => !fields.isEmpty

structure RuleFunction where
  name : String
  doc : Option String
  line : Int
  params : Nat
  isText : Bool
deriving Inhabited

inductive Handler where
  | function (params : Nat) (line : Int)
  | other

structure ParserSpec where
  tokens : Datum
  precedence : Datum
  start : Datum
  functions : List RuleFunction
  handler : Option Handler
  /-- Whether the functions are looked through in the order of their names. -/
  byName : Bool
  file : String
  source : Option (List String)

namespace RuleFunction

def errorName : String := "p_error"

def hasRuleName (f : RuleFunction) : Bool := f.name.startsWith "p_"

def holdsRules (f : RuleFunction) : Bool := f.hasRuleName && !f.isText && f.name != errorName

def looksLikeRule (f : RuleFunction) : Bool :=
  match Text.splitAt ' ' (f.doc.getD "").toList with
  | _ :: second :: _ => second == [':']
  | _ => false

/-- Functions come by their lines, those of one line by their names. -/
def before (f g : RuleFunction) : Bool := if f.line == g.line then !(g.name < f.name) else f.line < g.line

end RuleFunction

namespace ParserSpec

/-- The functions, of which a later one replaces an earlier one of the same name. -/
def distinctFunctions (s : ParserSpec) : List RuleFunction :=
  (s.functions.foldl (fun t f => Named.put t f.name f) []).map (·.2)

def ruleFunctions (s : ParserSpec) : List RuleFunction :=
  (s.distinctFunctions.filter RuleFunction.holdsRules).mergeSort RuleFunction.before

def attributes (s : ParserSpec) : List RuleFunction :=
  if s.byName then s.distinctFunctions.mergeSort fun f g => !(g.name < f.name)
  else s.distinctFunctions

def foundFile (s : ParserSpec) : String :=
  match s.source with
  | some _ => s.file
  | none => "None"

def texts (items : List Datum) : Option (List String) :=
  items.mapM fun d => match d with
    | .atom (.text s) => some s
    | _ => none

def readTokens (s : ParserSpec) : GrammarM (Option (List String)) := do
  if !isPresent s.tokens then
    complain "No token list is defined"
    return none
  match s.tokens with
  | .list items => match texts items with
    | some names => return some (names.mergeSort fun a b => !(b < a))
    | none => stop .wrongKind
  | _ => do
    complain "tokens must be a list or tuple"
    return none

/-- The texts of a list one after the other, if all are texts. -/
def joined : Datum → Option String
  | .atom (.text t) => some t
  | .list items => (texts items).map String.join
  | _ => none

/-- The parts of the signature after the start symbol, up to the first that has no text. -/
def signatureTail (s : ParserSpec) (tokens : Option (List String)) : List String :=
  let docs := s.ruleFunctions.filterMap fun f => f.doc
  let rest := ((tokens.map fun ts => " ".intercalate ts).toList) ++ docs
  if !isPresent s.precedence then rest
  else match s.precedence with
    | .atom (.text t) => t :: rest
    | .list items => match items.mapM joined with
      | some parts => String.join parts :: rest
      | none => []
    | _ => []

def signature (s : ParserSpec) : GrammarM String := do
  let tokens ← s.readTokens
  let tail := String.join (s.signatureTail tokens)
  if !isPresent s.start then return tail
  match s.start with
  | .atom (.text t) => return t ++ tail
  | _ => stop .wrongKind

def checkStart (s : ParserSpec) : GrammarM Unit := do
  match s.start with
  | .atom .none | .atom (.text _) => return
  | _ => complain "'start' must be a string"

def checkHandler (s : ParserSpec) : GrammarM Bool := do
  match s.handler with
  | none => return true
  | some .other => do
    complain "'p_error' defined, but is not a function or method"
    return false
  | some (.function params line) =>
    if params == 1 then return true
    complain s!"{s.file}:{line}: p_error() requires 1 argument"
    return false

def warnRepeated (seen : List String) : List String → GrammarM Unit
  | [] => return
  | t :: rest => do
    if seen.contains t then warn s!"Token {Text.quote t} multiply defined"
    warnRepeated (t :: seen) rest

def checkTokens (tokens : List String) : GrammarM Bool := do
  if tokens.contains "error" then
    complain "Illegal token name 'error'. Is a reserved word"
    return false
  warnRepeated [] tokens
  return true

abbrev Strength := String × String × Int

def readLevel (level : Int) : Datum → Except String (List Strength)
  | .list items => do
    if items.length < 2 then
      throw s!"Malformed precedence entry {Datum.render (.list items)}. Must be (assoc, term, ..., term)"
    match items with
    | .atom (.text assoc) :: terms => match texts terms with
      | some names => return names.map fun t => (t, assoc, level)
      | none => throw "precedence items must be strings"
    | _ => throw "precedence associativity must be a string"
  | _ => throw "Bad precedence table"

def readLevels (level : Int) : List Datum → Except String (List Strength)
  | [] => return []
  | d :: rest => do
    let here ← readLevel level d
    return here ++ (← readLevels (level + 1) rest)

def checkPrecedence (s : ParserSpec) : GrammarM (Option (List Strength)) := do
  if !isPresent s.precedence then return some []
  let levels := match s.precedence with
    | .list items => readLevels 1 items
    | _ => throw "precedence must be a list or tuple"
  match levels with
  | .ok strengths => return some strengths
  | .error text => do
    complain text
    return none

def readFunction (s : ParserSpec) (f : RuleFunction) : GrammarM (Option (List (String × RuleText))) := do
  let place := s!"{s.foundFile}:{f.line}: "
  if f.params > 1 then
    complain (place ++ s!"Rule {Text.quote f.name} has too many arguments")
    return none
  if f.params < 1 then
    complain (place ++ s!"Rule {Text.quote f.name} requires an argument")
    return none
  match f.doc with
  | none | some "" => do
    warn (place ++ s!"No documentation string specified in function {Text.quote f.name} (ignored)")
    return some []
  | some doc => match RuleText.read s.foundFile f.line doc with
    | .ok rules => return some (rules.map (f.name, ·))
    | .error e => do
      complain (← pattern e.message)
      return none

def warnAttribute (s : ParserSpec) (f : RuleFunction) : GrammarM Unit := do
  if f.hasRuleName && !f.isText then return
  if f.name.startsWith "t_" then return
  if f.hasRuleName && f.name != RuleFunction.errorName then
    warn s!"{Text.quote f.name} not defined as a function"
  if !f.isText && f.params == 1 && f.looksLikeRule then
    warn s!"{s.file}:{f.line}: Possible grammar rule {Text.quote f.name} defined without p_ prefix"

def checkFunctions (s : ParserSpec) : GrammarM (Option (List (String × RuleText))) := do
  if s.ruleFunctions.isEmpty then
    complain "no rules of the form p_rulename are defined"
    return none
  let read ← s.ruleFunctions.mapM s.readFunction
  s.attributes.forM s.warnAttribute
  return (read.mapM id).map List.flatten

def definedName? (line : List Char) : Option (List Char) :=
  match line.dropWhile Text.isBlank with
  | 'd' :: 'e' :: 'f' :: rest =>
    let after := rest.dropWhile Text.isBlank
    let name := after.takeWhile fun c => c.isAlphanum || c == '_'
    if after.length < rest.length && ['p', '_'].isPrefixOf name &&
        (after.drop name.length).head? == some '(' then some name
    else none
  | _ => none

def warnRedefined (s : ParserSpec) (known : List (List Char × Nat)) : Nat → List String → GrammarM Unit
  | _, [] => return
  | number, line :: rest => do
    let known ← match definedName? line.toList with
      | none => pure known
      | some name => match known.lookup name with
        | none => pure ((name, number) :: known)
        | some first => do
          let name := String.ofList name
          warn s!"{s.file}:{number}: Function {name} redefined. Previously defined on line {first}"
          pure known
    warnRedefined s known (number + 1) rest

end ParserSpec

end Tabc.Generator
