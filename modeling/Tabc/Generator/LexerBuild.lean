import Tabc.Generator.LexerSpec

/-!
# Building scanners

`LexerSpec.build` checks a description and orders the rules of each state. The rules are held in groups whose
names are all different: where two rules name a group alike, the list is cut in two.
-/

namespace Tabc.Generator

open Tabc.Grammar

structure ScanRule where
  text : String
  pattern : Pattern
  names : List String
  kind : Option String
  function : Option LexFunction

structure BuiltLexer where
  kinds : List String
  literals : List Char
  rules : Named (List (List ScanRule))
  ignored : Named String
  errors : Named (Option LexFunction)
  ends : Named LexFunction

namespace LexerSpec

def scanRule (r : LexRules) (name regex : String) (function : Option LexFunction) : ScanRule :=
  let text := ruleText name regex
  let (p, names) := match Pattern.read text.toList with
    | .ok (p, names) => (p, names)
    | .error _ => (.empty, [])
  let token := (r.tokenNames.lookup name).getD ""
  let passed := function.isNone && Text.occurs "ignore_".toList (name.toList.drop 1)
  ⟨text, p, names, if passed || (function.isNone && token.isEmpty) then none else some token, function⟩

def stateRules (r : LexRules) (state : String) : List (String × String × ScanRule) :=
  (((r.functions.lookup state).getD []).map fun f =>
    (f.name, f.regex.getD "", scanRule r f.name (f.regex.getD "") (some f))) ++
  ((r.patterns.lookup state).getD []).map fun (name, regex) =>
    (name, regex, scanRule r name regex none)

def groups : Nat → List ScanRule → List (List ScanRule)
  | 0, rules => [rules]
  | fuel + 1, rules =>
    let names := rules.flatMap ScanRule.names
    if names.eraseDups.length == names.length then [rules]
    else
      let half := rules.length / 2 + 1
      groups fuel (rules.take half) ++ groups fuel (rules.drop half)

def groupText (rules : List ScanRule) : String := "|".intercalate (rules.map ScanRule.text)

def reportParts (s : LexerSpec) (tokens : List Datum) (r : LexRules) : LexerM Unit := do
  let literals := if isPresent s.literals then s.literals.render else Text.quote ""
  let states := ", ".intercalate (r.states.map fun (q, k) => Text.quote q ++ ": '" ++ k.name ++ "'")
  report ("lex: tokens   = " ++ Datum.render (.list tokens))
  report ("lex: literals = " ++ literals)
  report ("lex: states   = \x7b" ++ states ++ "\x7d")

def reportRules (r : LexRules) (state : String) : LexerM Unit :=
  (stateRules r state).forM fun (name, regex, _) =>
    report s!"lex: Adding rule {name} -> '{regex}' (state '{state}')"

def stateGroups (r : LexRules) (state : String) : List (List ScanRule) :=
  let rules := (stateRules r state).map (·.2.2)
  groups rules.length rules

def reportGroups (r : LexRules) (state : String) : LexerM Unit :=
  (stateGroups r state).zipIdx.forM fun (rules, i) => do
    let text := groupText rules
    report s!"lex: state '{state}' : regex[{i}] = '{text}'"

def warnStates (r : LexRules) : LexerM Unit := do
  if (r.errors.lookup initialState).isNone then warn "No t_error rule is defined"
  let ignores := ((r.ignored.lookup initialState).getD "") != ""
  r.states.forM fun (q, k) => do
    if k == .exclusive then
      if !r.errors.has q then
        warn s!"No error rule is defined for exclusive state {Text.quote q}"
      if !r.ignored.has q && ignores then
        warn s!"No ignore rule is defined for exclusive state {Text.quote q}"

/-- Inclusive states take over what they do not define themselves. -/
def errorRules (r : LexRules) : Named (Option LexFunction) :=
  r.states.foldl (fun t (q, k) =>
    if k == .inclusive && !t.has q then t.put q (r.errors.lookup initialState) else t)
    (r.errors.map fun (q, f) => (q, some f))

def ignoredTexts (r : LexRules) : Named String :=
  r.states.foldl (fun t (q, k) =>
    if k == .inclusive && !t.has q then t.put q ((r.ignored.lookup initialState).getD "") else t)
    r.ignored

/-- The groups of all states; inclusive ones go on with those of the initial state. -/
def allGroups (r : LexRules) : Named (List (List ScanRule)) :=
  r.states.map fun (q, k) =>
    (q, if q != initialState && k == .inclusive
      then stateGroups r q ++ stateGroups r initialState else stateGroups r q)

def literalChars (s : LexerSpec) : List Char :=
  ((members? s.literals).getD []).flatMap fun d => match d with
    | .atom (.text t) => t.toList
    | _ => []

def build (s : LexerSpec) : LexerM BuiltLexer := do
  let tokens ← s.readTokens
  let states ← s.readStates
  let r ← s.collect states
  s.check tokens r
  if (← get).work then throw .unable
  s.reportParts tokens r
  let names := r.states.map (·.1)
  names.forM (reportRules r)
  report "lex: ==== MASTER REGEXS FOLLOW ===="
  names.forM (reportGroups r)
  warnStates r
  let kinds := (ParserSpec.texts tokens).getD [] ++ s.literalChars.map Char.toString
  return {
    kinds := kinds.eraseDups.mergeSort fun a b => !(b < a)
    literals := s.literalChars
    rules := allGroups r
    ignored := ignoredTexts r
    errors := errorRules r
    ends := r.ends }

end LexerSpec

end Tabc.Generator
